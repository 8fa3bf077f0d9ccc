import Dataflow.Code.Word
import Dataflow.Proofs.Value.Ieee
import Dataflow.Proofs.Value.Scalar

/-!
# Values as words

Each value of a vector is a word at run time. Operators, comparisons and conversions do the same
to words as to the values they stand for, and a word that is written to memory is read back.
-/

namespace Dataflow

open Code (Layout Word Literal BinaryOp UnaryOp CompareOp)

namespace Bytes

theorem toNat_ofNat (count n : Nat) : toNat (ofNat count n) = n % 256 ^ count := by
  induction count generalizing n with
  | zero => simp [ofNat, toNat, Nat.mod_one]
  | succ count ih =>
      have h : (n.toUInt8).toNat = n % 256 := by simp
      rw [ofNat, toNat, ih, h, Nat.pow_succ', Nat.mod_mul]

theorem toNat_ofNat_of_lt {count n : Nat} (h : n < 256 ^ count) :
    toNat (ofNat count n) = n := by
  rw [toNat_ofNat, Nat.mod_eq_of_lt h]

end Bytes

namespace Scalar

def word : Scalar → Word
  | boolean b => .bool b
  | integer n => .i32 n
  | real x => .f64 x

@[simp] theorem ty_word (a : Scalar) : a.word.ty = a.elemType.ty := by cases a <;> rfl

theorem word_zero (t : ElemType) : Word.ofLiteral (.zero t.ty) = (zero t).word := by
  cases t <;> rfl

theorem word_injective : Function.Injective word := by
  intro a b h
  cases a <;> cases b <;> cases h <;> rfl

section Operators

variable {a b c : Scalar}

theorem div_neg_one (n : Int32) : n / -1 = -n := by
  have h : (-1 : Int32).toInt = -1 := rfl
  rw [← Int32.toInt_inj, Int32.toInt_div n (-1), h, Int.tdiv_neg, Int.tdiv_one, Int32.toInt_neg]

theorem word_binary {op : BinaryOp} (h : binary op a b = some c) :
    Word.binary op a.word b.word = some c.word := by
  cases a <;> cases b
  case boolean.boolean a b =>
    cases op <;> cases h <;> rfl
  case integer.integer m n =>
    cases op <;> cases h
    case divide =>
      simp only [word, Word.binary, Word.binaryI32]
      by_cases h0 : n = 0
      · simp [h0]
      · by_cases h1 : n = -1
        · subst h1
          simp [div_neg_one]
        · simp [h0, h1]
    all_goals rfl
  case real.real x y =>
    cases op <;> cases h <;> rfl
  all_goals cases h

theorem word_unary {op : UnaryOp} (h : unary op a = some b) :
    Word.unary op a.word = some b.word := by
  cases op <;> cases a <;> cases h <;> rfl

theorem word_compare {op : CompareOp} (h : compare op a b = some c) :
    (.bool <$> Word.compare op a.word b.word) = some c.word := by
  cases a <;> cases b <;> cases h
  case boolean.boolean a b => cases op <;> cases a <;> cases b <;> rfl
  case integer.integer m n =>
    have heq : (m.toInt == n.toInt) = (m == n) := by
      rw [Bool.eq_iff_iff, beq_iff_eq, beq_iff_eq, Int32.toInt_inj]
    cases op <;>
      simp only [word, Word.compare, Word.compareInt, Elementwise.compareIntegers, bne, heq,
        gt_iff_lt, ge_iff_le, Int32.lt_iff_toInt_lt, Int32.le_iff_toInt_le] <;>
      rfl
  case real.real x y => cases op <;> rfl

theorem convert_self (a : Scalar) : a.convert a.elemType = a := by
  cases a with
  | boolean b => exact congrArg boolean (Ieee.toBool_ofBool b)
  | integer n => exact congrArg integer (Ieee.toInt32_ofInt n)
  | real x => rfl

theorem word_convert (l : Layout) (a : Scalar) (t : ElemType) :
    a.word.cast l t.ty = some (a.convert t).word := by
  cases a with
  | boolean b =>
      cases t with
      | boolean => exact congrArg (some ∘ word) (convert_self (boolean b)).symm
      | integer =>
          change some (Word.i32 (if b then 1 else 0)) = some (Word.i32 (Ieee.toInt32 (Ieee.ofBool b)))
          rw [Ieee.toInt32_ofBool]
      | real =>
          change some (Word.f64 (Ieee.ofInt b.toInt)) = some (Word.f64 (Ieee.ofBool b))
          rw [Ieee.ofInt_toInt_bool]
  | integer n =>
      cases t with
      | boolean =>
          change some (Word.bool (n != 0)) = some (Word.bool (Ieee.toBool (Ieee.ofInt n.toInt)))
          rw [Ieee.toBool_ofInt_toInt]
      | integer => exact congrArg (some ∘ word) (convert_self (integer n)).symm
      | real => rfl
  | real x => cases t <;> rfl

end Operators

section Bytes

theorem ofBytes_bytes (l l' : Layout) (a : Scalar) :
    Word.ofBytes l a.elemType.ty (a.word.bytes l') = a.word := by
  cases a with
  | boolean b => cases b <;> rfl
  | integer n =>
      have hlt : n.toUInt32.toNat < 256 ^ 4 := n.toUInt32.toNat_lt
      change Word.i32 (Bytes.toNat (Bytes.ofNat 4 n.toUInt32.toNat)).toUInt32.toInt32 = Word.i32 n
      rw [Bytes.toNat_ofNat_of_lt hlt]
      simp
  | real x =>
      have hlt : x.toBits.toNat < 256 ^ 8 := x.toBits.toNat_lt
      change Word.f64 (Float.ofBits (Bytes.toNat (Bytes.ofNat 8 x.toBits.toNat)).toUInt64) = _
      rw [Bytes.toNat_ofNat_of_lt hlt]
      rw [Nat.toUInt64_eq, UInt64.ofNat_toNat, Float.ofBits_toBits]
      rfl

end Bytes

end Scalar

namespace Values

theorem bytes_eq (l : Layout) (v : Values) :
    v.bytes = v.scalars.flatMap fun a => a.word.bytes l := by
  cases v with
  | booleans xs =>
      simp only [bytes, scalars, List.flatMap_map, Scalar.word, Word.bytes]
      exact List.map_eq_flatMap
  | integers xs => simp [bytes, scalars, List.flatMap_map, Scalar.word, Word.bytes]
  | reals xs => simp [bytes, scalars, List.flatMap_map, Scalar.word, Word.bytes]

theorem length_bytes (v : Values) : v.bytes.length = v.length * v.elemType.ty.size := by
  have hsize : ∀ a ∈ v.scalars, (a.word.bytes .spaced).length = v.elemType.ty.size := by
    intro a ha
    rw [Word.length_bytes, Scalar.ty_word, elemType_of_mem_scalars ha]
  rw [bytes_eq .spaced, List.length_flatMap, List.map_congr_left hsize]
  simp

theorem words_ofBytes (l : Layout) (t : ElemType) (count : Nat) (bs : List UInt8) :
    (ofBytes t count bs).scalars.map Scalar.word =
      (chunks t.size count bs).map (Word.ofBytes l t.ty) := by
  cases t <;> simp [ofBytes, scalars, Scalar.word, Word.ofBytes, ElemType.ty]

theorem getElem?_chunks (size count : Nat) (bs : List UInt8) (i : Nat) :
    (chunks size count bs)[i]? =
      if i < count then some ((bs.drop (i * size)).take size) else none := by
  induction count generalizing bs i with
  | zero => rfl
  | succ count ih =>
      cases i with
      | zero => simp [chunks]
      | succ i =>
          rw [chunks, List.getElem?_cons_succ, ih, List.drop_drop]
          simp only [Nat.succ_lt_succ_iff, Nat.succ_mul, Nat.add_comm]

end Values

end Dataflow
