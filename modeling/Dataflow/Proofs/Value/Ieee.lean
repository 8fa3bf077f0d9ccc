import Dataflow.Value.Ieee
import Mathlib

/-!
# Reals that are integers

Every 32 bit integer is a real, so that it survives the way to the reals and back, and only zero
becomes a real that counts as false. The model of a real is a mantissa of 53 bits and an exponent:
the mantissa of an integer is the integer shifted up, and rounding has nothing to do.
-/

namespace Dataflow.Ieee

open Float.Model Float.Model.UnpackedFloat

section Bits

theorem pack_normal {s : Sign} {m : Nat} {e : Int} {hm : 0 < m} (hlog : m.log2 = 52)
    (he : e < 972) : UnpackedFloat.pack Format.binary64 (.finite s m e hm) =
      packComponents _ s (BitVec.ofNat _ (e + 1075).toNat) (BitVec.ofNat _ m) := by
  have hbias : (e + (1023 : Nat) + (52 : Nat)).toNat = (e + 1075).toNat := by omega
  change (if 2 ^ 11 ≤ (e + (1023 : Nat) + (52 : Nat)).toNat + 1 then _
    else if m.log2 + 1 = 53 then packComponents Format.binary64 s
      (BitVec.ofNat 11 (e + (1023 : Nat) + (52 : Nat)).toNat) _ else _) = _
  rw [hbias, if_neg (by omega), if_pos (by omega)]

theorem append_one (m : BitVec 52) : (1#1 ++ m).toNat = 2 ^ 52 + m.toNat := by
  rw [BitVec.toNat_append, ← Nat.shiftLeft_add_eq_or_of_lt m.isLt]
  rfl

theorem unpack_normal {s : Sign} {e : BitVec 11} {m : BitVec 52} (htop : e ≠ -1#_)
    (hbottom : e ≠ 0#_) : UnpackedFloat.unpack _ (packComponents Format.binary64 s e m) =
      .finite s (1#1 ++ m).toNat (e.toNat - 1075) (by rw [append_one]; omega) := by
  unfold UnpackedFloat.unpack
  simp only [unpackMantissa_packComponents, unpackExponent_packComponents, unpackSign_packComponents,
    Sign.ofBitVec_toBitVec, htop, hbottom, if_false]
  rfl

end Bits

section Integers

theorem log2_shifted {k : Nat} (h0 : 0 < k) (h : k < 2 ^ 53) :
    (k <<< (52 - k.log2)).log2 = 52 := by
  have hlog : k.log2 < 53 := (Nat.log2_lt (by omega)).2 h
  have hself := Nat.log2_self_le (n := k) (by omega)
  have hnext := Nat.lt_log2_self (n := k)
  have hpos : 0 < 2 ^ (52 - k.log2) := by positivity
  have hlow : 2 ^ 52 = 2 ^ k.log2 * 2 ^ (52 - k.log2) := by
    rw [← pow_add]
    congr 1
    omega
  rw [Nat.shiftLeft_eq, Nat.log2_eq_iff (by positivity)]
  constructor
  · rw [hlow]
    exact Nat.mul_le_mul_right _ hself
  · rw [pow_succ, hlow, mul_right_comm, ← pow_succ]
    exact Nat.mul_lt_mul_of_pos_right hnext hpos

theorem shiftToTargetExponent_self {m : Nat} {e : Int} (hlog : m.log2 = 52) (he : -1074 ≤ e) :
    shiftToTargetExponent Format.binary64 m e .exact = (⟨m, false, false⟩, e) := by
  have htarget : Format.binary64.targetExponent (totalExponent m e) = e := by
    change max ((m.log2 : Int) + 1 + e - (53 : Nat)) (-1074) = e
    omega
  unfold shiftToTargetExponent
  dsimp only
  rw [htarget]
  unfold shiftToExponent
  rw [Int.sub_self]
  simp
  rfl

/-- A number of at most 53 bits is a real: its mantissa is the number shifted up. -/
theorem ofNat_eq {k : Nat} (h0 : 0 < k) (h : k < 2 ^ 53) :
    UnpackedFloat.ofNat Format.binary64 k =
      .finite .positive (k <<< (52 - k.log2)) (k.log2 - 52)
        (by rw [Nat.shiftLeft_eq]; positivity) := by
  have hlog : k.log2 < 53 := (Nat.log2_lt (by omega)).2 h
  have hcmp : compare (k : Int) 0 = .gt := by
    rw [Int.compare_eq_gt]
    omega
  have htarget : Format.binary64.targetExponent (totalExponent k 0) = k.log2 - 52 := by
    change max ((k.log2 : Int) + 1 + 0 - (53 : Nat)) (-1074) = _
    omega
  have hshift : (0 - ((k.log2 : Int) - 52)).toNat = 52 - k.log2 := by omega
  have hexp : 0 - ((52 - k.log2 : Nat) : Int) = k.log2 - 52 := by omega
  unfold UnpackedFloat.ofNat UnpackedFloat.ofInt UnpackedFloat.normalize
  rw [hcmp]
  dsimp only
  unfold UnpackedFloat.round decreaseExponent
  dsimp only
  rw [Int.toNat_natCast, htarget, hshift, hexp]
  unfold roundWithAccuracy
  rw [shiftToTargetExponent_self (log2_shifted h0 h) (by omega)]
  dsimp only
  have hround : (⟨k <<< (52 - k.log2), false, false⟩ : ExtendedMantissa).roundedMantissa =
      k <<< (52 - k.log2) := rfl
  rw [hround, shiftToTargetExponent_self (log2_shifted h0 h) (by omega)]
  dsimp only
  rw [dif_neg]
  rw [Nat.shiftLeft_eq]
  positivity

theorem mantissa_shiftRight (em : ExtendedMantissa) (n : Nat) :
    (em >>> n).mantissa = em.mantissa / 2 ^ n := by
  induction n with
  | zero => exact (Nat.div_one _).symm
  | succ n ih =>
      change (em >>> n).mantissa / 2 = _
      rw [ih, Nat.div_div_eq_div_mul, pow_succ]

theorem roundToInt_shifted {s : Sign} {k t : Nat} {e : Int} (he : e = -t) :
    roundToInt s (k <<< t) e = s.apply k := by
  have h₁ : (e - 0).toNat = 0 := by omega
  have h₂ : (0 - (e - (0 : Nat))).toNat = t := by omega
  unfold roundToInt decreaseExponent
  dsimp only
  rw [h₁]
  unfold shiftToExponent
  dsimp only
  rw [h₂, mantissa_shiftRight]
  change s.apply ((k <<< t <<< 0 / 2 ^ t : Nat) : Int) = _
  rw [Nat.shiftLeft_zero, Nat.shiftLeft_eq, Nat.mul_div_cancel _ (by positivity)]

theorem unpack_pack {s : Sign} {m : Nat} {e : Int} {hm : 0 < m} (hlog : m.log2 = 52)
    (hlow : -1075 < e) (hhigh : e < 972) :
    (Float.Model.pack (.finite s m e hm)).unpack = .finite s m e hm := by
  have hbits := (Nat.log2_eq_iff (by omega)).1 hlog
  have hexp : (BitVec.ofNat 11 (e + 1075).toNat).toNat = (e + 1075).toNat := by
    rw [BitVec.toNat_ofNat, Nat.mod_eq_of_lt (by omega)]
  change UnpackedFloat.unpack _ (UnpackedFloat.pack Format.binary64 _) = _
  rw [pack_normal hlog hhigh, unpack_normal]
  · congr 1
    · rw [append_one, BitVec.toNat_ofNat]
      omega
    · change ((BitVec.ofNat 11 (e + 1075).toNat).toNat : Int) - 1075 = e
      rw [hexp]
      omega
  · intro h
    have h := congrArg BitVec.toNat h
    change (BitVec.ofNat 11 (e + 1075).toNat).toNat = 2047 at h
    omega
  · intro h
    have h := congrArg BitVec.toNat h
    change (BitVec.ofNat 11 (e + 1075).toNat).toNat = 0 at h
    omega

theorem toNat_toUInt64 {k : Nat} (hk : k < 2 ^ 53) : k.toUInt64.toNat = k := by
  rw [Nat.toUInt64_eq, UInt64.toNat_ofNat', Nat.mod_eq_of_lt (by omega)]

def whole (s : Sign) (k : Nat) (h : 0 < k) : UnpackedFloat :=
  .finite s (k <<< (52 - k.log2)) (k.log2 - 52) (by rw [Nat.shiftLeft_eq]; positivity)

variable {k : Nat} (h0 : 0 < k) (hk : k < 2 ^ 53)
include hk

theorem unpack_whole (s : Sign) : (Float.Model.pack (whole s k h0)).unpack = whole s k h0 := by
  have hlog : k.log2 < 53 := (Nat.log2_lt (by omega)).2 hk
  exact unpack_pack (log2_shifted h0 hk) (by omega) (by omega)

theorem toFloat_eq_whole : k.toUInt64.toFloat = .ofModel (.pack (whole .positive k h0)) := by
  change Float.ofModel (.pack (UnpackedFloat.ofNat Format.binary64 k.toUInt64.toNat)) = _
  rw [toNat_toUInt64 hk, ofNat_eq h0 hk]
  rfl

theorem neg_whole (s : Sign) :
    -(Float.ofModel (.pack (whole s k h0))) = .ofModel (.pack (whole (-s) k h0)) := by
  change Float.ofModel (.pack (Float.Model.unpack (.pack (whole s k h0))).neg) = _
  rw [unpack_whole h0 hk]
  rfl

theorem toUInt64_whole :
    (Float.ofModel (.pack (whole .positive k h0))).toUInt64 = k.toUInt64 := by
  have hlog : k.log2 < 53 := (Nat.log2_lt (by omega)).2 hk
  have hround : roundToInt .positive (k <<< (52 - k.log2)) (k.log2 - 52) = k :=
    roundToInt_shifted (by omega)
  change (Float.Model.unpack (.pack (whole .positive k h0))).toUInt64 = _
  rw [unpack_whole h0 hk]
  change UInt64.ofNatClamp (roundToInt .positive (k <<< (52 - k.log2)) (k.log2 - 52)).toNat = _
  rw [hround, Int.toNat_natCast, UInt64.ofNatClamp_eq_ofNat _ (hk.trans (by decide))]

theorem lt_zero_whole (s : Sign) :
    Float.ofModel (.pack (whole s k h0)) < 0.0 ↔ s = .negative := by
  change decide ((Float.Model.unpack (.pack (whole s k h0))).lt
    (Float.Model.unpack (.pack (.zero .positive)))) = true ↔ _
  rw [unpack_whole h0 hk]
  cases s
  · exact iff_of_true rfl rfl
  · exact iff_of_false (fun h => Bool.false_ne_true h) Sign.noConfusion

theorem whole_ne_zero (s : Sign) : (Float.ofModel (.pack (whole s k h0)) != 0.0) = true := by
  change (!(Float.Model.unpack (.pack (whole s k h0))).beq
    (Float.Model.unpack (.pack (.zero .positive)))) = true
  rw [unpack_whole h0 hk]
  cases s <;> rfl

end Integers

theorem truncate_ofInt {n : Int} (h : n.natAbs < 2 ^ 53) : truncate (ofInt n) = n := by
  match n with
  | .ofNat 0 => decide +kernel
  | .ofNat (k + 1) =>
      have hk : k.succ < 2 ^ 53 := h
      have hpos : ¬ Float.ofModel (.pack (whole .positive k.succ k.succ_pos)) < 0.0 := by
        rw [lt_zero_whole k.succ_pos hk]
        exact Sign.noConfusion
      rw [ofInt, toFloat_eq_whole k.succ_pos hk, truncate, if_neg hpos,
        toUInt64_whole k.succ_pos hk, toNat_toUInt64 hk]
      rfl
  | .negSucc k =>
      have hk : k.succ < 2 ^ 53 := h
      have hneg : Float.ofModel (.pack (whole (-.positive) k.succ k.succ_pos)) < 0.0 := by
        rw [lt_zero_whole k.succ_pos hk]
        rfl
      rw [ofInt, toFloat_eq_whole k.succ_pos hk, neg_whole k.succ_pos hk, truncate,
        if_pos hneg, neg_whole k.succ_pos hk]
      change -((Float.ofModel (.pack (whole .positive k.succ _))).toUInt64.toNat : Int) = _
      rw [toUInt64_whole k.succ_pos hk, toNat_toUInt64 hk]
      rfl

theorem toBool_ofInt {n : Int} (h : n.natAbs < 2 ^ 53) : toBool (ofInt n) = (n != 0) := by
  match n with
  | .ofNat 0 => decide +kernel
  | .ofNat (k + 1) =>
      rw [ofInt, toFloat_eq_whole k.succ_pos h, toBool, whole_ne_zero k.succ_pos h]
      rfl
  | .negSucc k =>
      rw [ofInt, toFloat_eq_whole k.succ_pos h, neg_whole k.succ_pos h, toBool,
        whole_ne_zero k.succ_pos h]
      rfl

theorem natAbs_toInt_lt (n : Int32) : n.toInt.natAbs < 2 ^ 53 := by
  have hlow := n.le_toInt
  have hhigh := n.toInt_lt
  omega

/-- Integers of 32 bits keep their value among the reals. -/
theorem toInt32_ofInt (n : Int32) : toInt32 (ofInt n.toInt) = n := by
  have hlow := n.le_toInt
  have hhigh := n.toInt_lt
  rw [toInt32, truncate_ofInt (natAbs_toInt_lt n), clamp_eq (by omega) (by omega),
    Int32.ofInt_toInt]

theorem toBool_ofInt_toInt (n : Int32) : toBool (ofInt n.toInt) = (n != 0) := by
  rw [toBool_ofInt (natAbs_toInt_lt n), Bool.eq_iff_iff, bne_iff_ne, bne_iff_ne, ne_eq, ne_eq,
    ← Int32.toInt_inj]
  rfl

theorem ofInt_toInt_bool (b : Bool) : ofInt b.toInt = ofBool b := by
  cases b <;> decide +kernel

theorem toInt32_ofBool (b : Bool) : toInt32 (ofBool b) = if b then 1 else 0 := by
  cases b <;> decide +kernel

theorem toBool_ofBool (b : Bool) : toBool (ofBool b) = b := by
  cases b <;> decide +kernel

end Dataflow.Ieee
