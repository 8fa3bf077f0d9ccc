import Dataflow.Code.Memory
import Dataflow.Proofs.Code.Word

/-!
# Elements in memory

A region is used as a vector of elements of one type. Writing an element changes that element and
no other, neither of its region nor of another one, and it leaves the extents of the regions as
they are. A buffer of values holds the words of its values.
-/

namespace Dataflow.Code

/-- What no write changes about a region. -/
def Region.extent (r : Region) : Nat × Bool := (r.bytes.size, r.writable)

namespace Memory

def extents (m : Memory) : Array (Nat × Bool) := m.map Region.extent

def Holds (m : Memory) (l : Layout) (r : Nat) (t : Ty) (i : Nat) (w : Word) : Prop :=
  m.load l t ⟨r + 1, 0⟩ (i * t.size) = .ok w

def put (m : Memory) (l : Layout) (r start : Nat) (w : Word) : Memory :=
  m.modify r fun region => { region with bytes := overwrite region.bytes start (w.bytes l) }

section Overwrite

theorem size_overwrite (bytes : Array UInt8) (start : Nat) (bs : List UInt8) :
    (overwrite bytes start bs).size = bytes.size := by
  induction bs generalizing bytes start with
  | nil => rfl
  | cons b bs ih => rw [overwrite, ih, Array.size_setIfInBounds]

theorem getElem?_overwrite (bytes : Array UInt8) (start : Nat) (bs : List UInt8) (i : Nat) :
    (overwrite bytes start bs)[i]? =
      if start ≤ i ∧ i < start + bs.length ∧ i < bytes.size then bs[i - start]?
      else bytes[i]? := by
  induction bs generalizing bytes start with
  | nil =>
      rw [overwrite, if_neg]
      simp
      omega
  | cons b bs ih =>
      rw [overwrite, ih, Array.size_setIfInBounds, Array.getElem?_setIfInBounds]
      by_cases hi : i = start
      · subst hi
        by_cases hlt : i < bytes.size <;> simp [hlt]
      · by_cases hle : start + 1 ≤ i
        · have hsub : i - start = (i - (start + 1)) + 1 := by omega
          rw [hsub, List.getElem?_cons_succ, if_neg (Ne.symm hi)]
          simp only [List.length_cons]
          congr 1
          simp only [eq_iff_iff]
          omega
        · rw [if_neg (by omega), if_neg (Ne.symm hi), if_neg (by omega)]

end Overwrite

section Access

variable {m m' : Memory} {l l' : Layout} {r r' i j start : Nat} {t : Ty} {w w' : Word}

def slice (region : Region) (start size : Nat) : List UInt8 :=
  (region.bytes.extract start (start + size)).toList

theorem place_eq_ok_iff {off : Int64} {o size : Nat} :
    m.place ⟨r + 1, off⟩ o size = .ok (r', start) ↔ r' = r ∧ ∃ region, m[r]? = some region ∧
      off.toInt + (o : Int) = start ∧ start + size ≤ region.bytes.size := by
  unfold place
  dsimp only
  cases hr : m[r]? with
  | none => simp
  | some region =>
      dsimp only
      constructor
      · intro h
        split at h
        case isTrue hfit =>
          obtain ⟨rfl, rfl⟩ := Prod.mk.inj (Except.ok.inj h)
          exact ⟨rfl, region, rfl, (Int.toNat_of_nonneg hfit.1).symm, hfit.2⟩
        case isFalse => cases h
      · rintro ⟨rfl, _, hregion, hstart, hfit⟩
        obtain rfl := Option.some.inj hregion
        rw [if_pos (by omega), hstart, Int.toNat_natCast]

theorem load_eq_ok_iff {off : Int64} {o : Nat} : m.load l t ⟨r + 1, off⟩ o = .ok w ↔
    ∃ region start, m[r]? = some region ∧ off.toInt + (o : Int) = (start : Nat) ∧
      start + t.size ≤ region.bytes.size ∧ Word.ofBytes l t (slice region start t.size) = w := by
  unfold load
  rw [bind_eq_ok_iff]
  constructor
  · rintro ⟨⟨r', start⟩, hplace, h⟩
    obtain ⟨rfl, region, hr, hstart, hfit⟩ := place_eq_ok_iff.1 hplace
    simp only [hr] at h
    exact ⟨region, start, hr, hstart, hfit, Except.ok.inj h⟩
  · rintro ⟨region, start, hr, hstart, hfit, hw⟩
    refine ⟨(r, start), place_eq_ok_iff.2 ⟨rfl, region, hr, hstart, hfit⟩, ?_⟩
    simp only [hr]
    exact congrArg Except.ok hw

theorem holds_iff : m.Holds l r t i w ↔ ∃ region, m[r]? = some region ∧
    i * t.size + t.size ≤ region.bytes.size ∧
      Word.ofBytes l t (slice region (i * t.size) t.size) = w := by
  unfold Holds
  rw [load_eq_ok_iff]
  constructor
  · rintro ⟨region, start, hr, hstart, hfit, hw⟩
    obtain rfl : i * t.size = start := by
      rw [Int64.toInt_zero, Int.zero_add] at hstart
      exact_mod_cast hstart
    exact ⟨region, hr, hfit, hw⟩
  · rintro ⟨region, hr, hfit, hw⟩
    exact ⟨region, _, hr, by simp, hfit, hw⟩

/-- An element can be read at any address that comes to its place. -/
theorem Holds.load (h : m.Holds l r t i w) {off : Int64} {o : Nat}
    (hoff : off.toInt + (o : Int) = (i * t.size : Nat)) : m.load l t ⟨r + 1, off⟩ o = .ok w := by
  obtain ⟨region, hr, hfit, hw⟩ := holds_iff.1 h
  exact load_eq_ok_iff.2 ⟨region, _, hr, hoff, hfit, hw⟩

theorem store_eq {region : Region} {off : Int64} {o : Nat} (hr : m[r]? = some region)
    (hw : region.writable = true) (hoff : off.toInt + (o : Int) = start)
    (hfit : start + w.ty.size ≤ region.bytes.size) :
    m.store l ⟨r + 1, off⟩ o w = .ok (m.put l r start w) := by
  unfold store
  rw [place_eq_ok_iff.2 ⟨rfl, region, hr, hoff, hfit⟩]
  simp only [bind, Except.bind, hr, Option.map_some, hw, Option.getD_some, Bool.not_true,
    Bool.false_eq_true, if_false]
  rfl

theorem getElem?_put_of_ne (h : r' ≠ r) : (m.put l r start w)[r']? = m[r']? := by
  unfold put
  rw [Array.getElem?_modify, if_neg (Ne.symm h)]

theorem getElem?_put {region : Region} (hr : m[r]? = some region) :
    (m.put l r start w)[r]? =
      some { region with bytes := overwrite region.bytes start (w.bytes l) } := by
  unfold put
  rw [Array.getElem?_modify, if_pos rfl, hr]
  rfl

theorem extents_put : (m.put l r start w).extents = m.extents := by
  unfold extents
  apply Array.ext_getElem?
  intro i
  rw [Array.getElem?_map, Array.getElem?_map]
  by_cases hi : i = r
  · subst hi
    cases hr : m[i]? with
    | none =>
        rw [put, Array.getElem?_modify, if_pos rfl, hr]
        rfl
    | some region =>
        rw [getElem?_put hr, Option.map_some, Option.map_some, Region.extent, Region.extent,
          size_overwrite]
  · rw [getElem?_put_of_ne hi]

theorem getElem?_slice (region : Region) (start size i : Nat) :
    (slice region start size)[i]? = if i < size then region.bytes[start + i]? else none := by
  rw [slice, Array.getElem?_toList, Array.getElem?_extract]
  split
  · rw [if_pos (by omega)]
  · by_cases hi : i < size
    · rw [if_pos hi, eq_comm, Array.getElem?_eq_none (by omega)]
    · rw [if_neg hi]

theorem slice_overwrite {region : Region} {bs : List UInt8}
    (hfit : start + bs.length ≤ region.bytes.size) :
    slice { region with bytes := overwrite region.bytes start bs } start bs.length = bs := by
  apply List.ext_getElem?
  intro i
  rw [getElem?_slice, getElem?_overwrite]
  by_cases hi : i < bs.length
  · rw [if_pos hi, if_pos (by omega), Nat.add_sub_cancel_left]
  · rw [if_neg hi, List.getElem?_eq_none (by omega)]

theorem slice_overwrite_of_disjoint {region : Region} {bs : List UInt8} {first size : Nat}
    (h : first + size ≤ start ∨ start + bs.length ≤ first) :
    slice { region with bytes := overwrite region.bytes start bs } first size =
      slice region first size := by
  apply List.ext_getElem?
  intro i
  rw [getElem?_slice, getElem?_slice, getElem?_overwrite]
  by_cases hi : i < size
  · rw [if_pos hi, if_neg (by omega), if_pos hi]
  · rw [if_neg hi, if_neg hi]

/-- What has been written is read back. -/
theorem holds_put {region : Region} {a : Scalar} (hr : m[r]? = some region)
    (hfit : i * a.word.ty.size + a.word.ty.size ≤ region.bytes.size) :
    (m.put l' r (i * a.word.ty.size) a.word).Holds l r a.word.ty i a.word := by
  refine holds_iff.2 ⟨_, getElem?_put hr, ?_, ?_⟩
  · rwa [size_overwrite]
  · have hlen : (a.word.bytes l').length = a.word.ty.size := Word.length_bytes l' a.word
    rw [← hlen] at hfit ⊢
    rw [slice_overwrite hfit, Scalar.ty_word, Scalar.ofBytes_bytes]

theorem Holds.congr (h : m.Holds l r t i w) (hr : m'[r]? = m[r]?) : m'.Holds l r t i w := by
  rw [holds_iff] at h ⊢
  rwa [hr]

/-- The other elements stay as they are. -/
theorem Holds.put (h : m.Holds l r w'.ty j w) (hij : i ≠ j) :
    (m.put l' r (i * w'.ty.size) w').Holds l r w'.ty j w := by
  obtain ⟨region, hr, hfit, hw⟩ := holds_iff.1 h
  refine holds_iff.2 ⟨_, getElem?_put hr, ?_, ?_⟩
  · rwa [size_overwrite]
  · rw [slice_overwrite_of_disjoint, hw]
    rw [Word.length_bytes]
    rcases Nat.lt_or_gt_of_ne hij with hlt | hlt
    · right
      rw [← Nat.succ_mul]
      exact Nat.mul_le_mul_right _ hlt
    · left
      rw [← Nat.succ_mul]
      exact Nat.mul_le_mul_right _ hlt

end Access

section Frames

variable {m : Memory} {ω : Surroundings} {base i : Nat}

theorem enter_empty : m.enter ω #[] = m := by
  simp [enter]

theorem extents_enter (sizes : Array Nat) :
    (m.enter ω sizes).extents = m.extents ++ sizes.map fun n => (n, true) := by
  rw [enter, extents, Array.map_append, extents]
  congr 1
  apply Array.ext_getElem?
  intro i
  rw [Array.getElem?_map, Array.getElem?_mapIdx, Array.getElem?_map, Option.map_map]
  congr 1
  funext n
  simp [Region.extent, Region.unwritten]

theorem size_leave : (m.leave base).size = m.size := Array.size_mapIdx

theorem getElem?_leave (hi : i < base) : (m.leave base)[i]? = m[i]? := by
  rw [leave, Array.getElem?_mapIdx]
  simp [hi]

theorem leave_size : m.leave m.size = m := by
  apply Array.ext_getElem?
  intro i
  by_cases hi : i < m.size
  · exact getElem?_leave hi
  · rw [Array.getElem?_eq_none (by rw [size_leave]; omega), Array.getElem?_eq_none (by omega)]

end Frames

section Values

variable {m : Memory} {l : Layout} {r : Nat} {v : Values}

def Bears (m : Memory) (r : Nat) (v : Values) : Prop :=
  ∀ (l : Layout) (i : Nat) (a : Scalar), v.scalars[i]? = some a → m.Holds l r a.word.ty i a.word

theorem Bears.congr {m' : Memory} (h : m.Bears r v) (hr : m'[r]? = m[r]?) : m'.Bears r v :=
  fun l i a ha => (h l i a ha).congr hr

def Filled (m : Memory) (r : Nat) (v : Values) (n : Nat) : Prop :=
  ∀ (l : Layout), ∀ i < n, ∀ a : Scalar, v.scalars[i]? = some a → m.Holds l r a.word.ty i a.word

theorem filled_zero : m.Filled r v 0 := fun _ _ hi => absurd hi (Nat.not_lt_zero _)

theorem Filled.congr {m' : Memory} {n : Nat} (h : m.Filled r v n) (hr : m'[r]? = m[r]?) :
    m'.Filled r v n :=
  fun l i hi a ha => (h l i hi a ha).congr hr

theorem Filled.bears (h : m.Filled r v v.length) : m.Bears r v := by
  intro l i a ha
  refine h l i ?_ a ha
  rw [← Values.length_scalars]
  exact (List.getElem?_eq_some_iff.1 ha).1

/-- The next value has been written. -/
theorem Filled.put {n : Nat} {region : Region} {a : Scalar} (h : m.Filled r v n)
    (ha : v.scalars[n]? = some a) (hr : m[r]? = some region)
    (hfit : (n + 1) * a.word.ty.size ≤ region.bytes.size) :
    (m.put l r (n * a.word.ty.size) a.word).Filled r v (n + 1) := by
  intro l' i hi b hb
  have hty : b.word.ty = a.word.ty := by
    rw [Scalar.ty_word, Scalar.ty_word, Values.elemType_of_mem_scalars (List.mem_of_getElem? hb),
      Values.elemType_of_mem_scalars (List.mem_of_getElem? ha)]
  rcases Nat.lt_succ_iff_lt_or_eq.1 hi with hlt | rfl
  · have hheld := h l' i hlt b hb
    rw [hty] at hheld ⊢
    exact hheld.put (Nat.ne_of_gt hlt)
  · obtain rfl := Option.some.inj (ha.symm.trans hb)
    rw [Nat.succ_mul] at hfit
    exact holds_put hr hfit

theorem take_drop_flatMap {α β : Type} {f : α → List β} {n i : Nat} {l : List α} {a : α}
    (hf : ∀ b ∈ l, (f b).length = n) (h : l[i]? = some a) :
    i * n + n ≤ (l.flatMap f).length ∧ ((l.flatMap f).drop (i * n)).take n = f a := by
  induction l generalizing i with
  | nil => cases h
  | cons b l ih =>
      have hb := hf b (by simp)
      cases i with
      | zero =>
          obtain rfl := Option.some.inj h
          simp [List.flatMap_cons, hb]
      | succ i =>
          obtain ⟨hlen, htake⟩ := ih (fun c hc => hf c (by simp [hc])) h
          have hdrop : (i + 1) * n = (f b).length + i * n := by rw [hb, Nat.succ_mul, Nat.add_comm]
          rw [List.flatMap_cons, hdrop, List.length_append, List.drop_length_add_append]
          exact ⟨by omega, htake⟩

theorem slice_eq (region : Region) (start size : Nat) :
    slice region start size = (region.bytes.toList.drop start).take size := by
  simp [slice]

/-- A buffer that begins with the bytes of some values bears them. -/
theorem bears_bytes {region : Region} (hr : m[r]? = some region)
    (hbytes : v.bytes <+: region.bytes.toList) : m.Bears r v := by
  intro l i a ha
  obtain ⟨rest, hrest⟩ := hbytes
  rw [Values.bytes_eq l] at hrest
  have hsize : ∀ b ∈ v.scalars, (b.word.bytes l).length = a.word.ty.size := by
    intro b hb
    rw [Word.length_bytes, Scalar.ty_word, Scalar.ty_word, Values.elemType_of_mem_scalars hb,
      Values.elemType_of_mem_scalars (List.mem_of_getElem? ha)]
  obtain ⟨hlen, htake⟩ := take_drop_flatMap hsize ha
  refine holds_iff.2 ⟨region, hr, ?_, ?_⟩
  · rw [← Array.length_toList, ← hrest, List.length_append]
    omega
  · rw [slice_eq, ← hrest, List.drop_append_of_le_length (by omega),
      List.take_append_of_le_length (by rw [List.length_drop]; omega), htake, Scalar.ty_word,
      Scalar.ofBytes_bytes]

/-- The values that a region bears are read back from its bytes. -/
theorem Bears.ofBytes {region : Region} (h : m.Bears r v) (hr : m[r]? = some region) :
    Values.ofBytes v.elemType v.length region.bytes.toList = v := by
  have htype : (Values.ofBytes v.elemType v.length region.bytes.toList).elemType = v.elemType := by
    cases v <;> rfl
  refine Values.eq_of_scalars_eq htype ?_
  apply List.map_injective_iff.2 Scalar.word_injective
  rw [Values.words_ofBytes .spaced]
  apply List.ext_getElem?
  intro i
  rw [List.getElem?_map, List.getElem?_map, Values.getElem?_chunks]
  by_cases hi : i < v.length
  · obtain ⟨a, ha⟩ : ∃ a, v.scalars[i]? = some a :=
      ⟨_, List.getElem?_eq_getElem (by simpa using hi)⟩
    obtain ⟨region', hr', hfit, hw⟩ := holds_iff.1 (h .spaced i _ ha)
    obtain rfl := Option.some.inj (hr.symm.trans hr')
    rw [slice_eq, Scalar.ty_word, Values.elemType_of_mem_scalars (List.mem_of_getElem? ha),
      ElemType.size_ty] at hw
    rw [if_pos hi, ha, Option.map_some, Option.map_some, hw]
  · rw [if_neg hi, List.getElem?_eq_none (by simpa using hi)]
    rfl

end Values

end Memory

end Dataflow.Code
