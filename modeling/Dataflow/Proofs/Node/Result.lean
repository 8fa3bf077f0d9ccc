import Dataflow.Proofs.Node.Builtin

/-!
# When a built-in node has a result

Operators are made for operands of equal types. A built-in node has a result for all inputs of its
own element type, and the result has the type and the size of its outlet. An inlet without spans
gathers no values, of type real. This is of use to a node of reals, and to a comparison whose other
inlet has no spans either; no other node has a result then.
-/

namespace Dataflow

namespace Elementwise

open Code (BinaryOp UnaryOp CompareOp)

theorem exists_binary {op : BinaryOp} {x y : Values} (hop : op.accepts x.elemType.ty = true)
    (hxy : y.elemType = x.elemType) : ∃ v, binary op x y = .ok v ∧ v.elemType = x.elemType ∧
      v.length = min x.length y.length := by
  cases x <;> cases y <;> try cases hxy
  all_goals
    cases op <;> first | exact ⟨_, rfl, rfl, List.length_zipWith⟩ | cases hop

theorem elemType_eq_of_binary {op : BinaryOp} {x y v : Values} (h : binary op x y = .ok v) :
    y.elemType = x.elemType ∧ v.elemType = x.elemType := by
  cases x <;> cases y <;> cases op <;> first
    | obtain rfl := Except.ok.inj h
      exact ⟨rfl, rfl⟩
    | cases h

theorem exists_compare (op : CompareOp) {x y : Values} (hxy : y.elemType = x.elemType) :
    ∃ v, compare op x y = .ok v ∧ v.elemType = .boolean ∧ v.length = min x.length y.length := by
  cases x <;> cases y <;> try cases hxy
  all_goals exact ⟨_, rfl, rfl, List.length_zipWith⟩

theorem elemType_eq_of_compare {op : CompareOp} {x y v : Values} (h : compare op x y = .ok v) :
    y.elemType = x.elemType := by
  cases x <;> cases y <;> first | rfl | cases h

theorem exists_unary {op : UnaryOp} {x : Values} (hop : op.accepts x.elemType.ty = true) :
    ∃ v, unary op x = .ok v ∧ v.elemType = x.elemType ∧ v.length = x.length := by
  cases x <;> cases op <;> first | exact ⟨_, rfl, rfl, List.length_map _⟩ | cases hop

theorem elemType_eq_of_unary {op : UnaryOp} {x v : Values} (h : unary op x = .ok v) :
    v.elemType = x.elemType := by
  cases x <;> cases op <;> first
    | obtain rfl := Except.ok.inj h
      rfl
    | cases h

theorem exists_sum {x : Values} (hx : x.elemType.isNumeric = true) :
    ∃ v, sum? x = some v ∧ v.elemType = x.elemType ∧ v.length = 1 := by
  cases x with
  | booleans xs => cases hx
  | integers xs => exact ⟨_, rfl, rfl, rfl⟩
  | reals xs => exact ⟨_, rfl, rfl, rfl⟩

end Elementwise

theorem Values.length_convert (v : Values) (t : ElemType) : (v.convert t).length = v.length := by
  rw [← length_scalars, scalars_convert, List.length_map, length_scalars]

namespace Selection

variable {s : Selection}

def gatheredType (s : Selection) : ElemType := s.elemType?.getD .real

theorem gatheredType_of_spans_eq_nil (h : s.spans = []) :
    s.gatheredType = .real := by
  simp [gatheredType, elemType?, h]

theorem gatheredType_of_mem {a : Span} {t : ElemType} (ha : a ∈ s.spans)
    (ht : ∀ a ∈ s.spans, a.elemType = t) : s.gatheredType = t := by
  obtain ⟨spans⟩ := s
  cases spans with
  | nil => cases ha
  | cons a spans => exact ht a List.mem_cons_self

end Selection

namespace Builtin

/-- The element type of the operands; for a node without inlets that of its outlet. -/
def operandType : Builtin → ElemType
  | input t _ | binary t .. | predicate t .. | unary t .. | sum t .. | cast t .. => t
  | constant values => values.elemType

def isPredicate : Builtin → Bool
  | predicate .. => true
  | _ => false

def Accepts (b : Builtin) (types : List ElemType) : Prop :=
  match b with
  | input .. | constant .. => True
  | binary t .. | unary t .. | sum t .. | cast t .. => ∀ u ∈ types, u = t
  | predicate .. => ∀ u ∈ types, ∀ w ∈ types, u = w

variable {b : Builtin} {inputs : List Values} {selections : List Selection} {v : Values}

theorem resolvedSize_eq_ok {index n : Nat} (h : resolvedSize selections index = .ok n) :
    ∃ s, selections[index]? = some s ∧ s.size = n := by
  unfold resolvedSize at h
  split at h
  case h_1 s hs => exact ⟨s, hs, Except.ok.inj h⟩
  case h_2 => cases h

theorem commonSize_eq_ok {operator : String} {n : Nat}
    (h : commonSize operator selections = .ok n) : ∃ x y, selections[0]? = some x ∧
      selections[1]? = some y ∧ x.size = n ∧ y.size = n := by
  obtain ⟨m, hm, h⟩ := bind_eq_ok_iff.1 h
  obtain ⟨k, hk, h⟩ := bind_eq_ok_iff.1 h
  obtain ⟨x, hx, rfl⟩ := resolvedSize_eq_ok hm
  obtain ⟨y, hy, rfl⟩ := resolvedSize_eq_ok hk
  by_cases hxy : y.size = x.size
  · rw [if_neg (not_not.2 hxy)] at h
    exact ⟨x, y, hx, hy, Except.ok.inj h, hxy.trans (Except.ok.inj h)⟩
  · rw [if_pos hxy] at h
    cases h

/-- What the inlet at a position gathers has the size of its selection. -/
theorem exists_inputValues
    (hin : List.Forall₂ (fun s v => Values.length v = Selection.size s) selections inputs)
    {m : Nat} {s : Selection} (hs : selections[m]? = some s) :
    ∃ v ∈ inputs, inputValues inputs m = .ok v ∧ v.length = s.size := by
  obtain ⟨hm, rfl⟩ := List.getElem?_eq_some_iff.1 hs
  have hm' : m < inputs.length := hin.length_eq ▸ hm
  refine ⟨inputs[m], List.getElem_mem hm', ?_, hin.get hm hm'⟩
  rw [inputValues, List.getElem?_eq_getElem hm']

/-- The result of a node has the type and the size of its outlet. -/
theorem exists_eval {size : Option Nat} (hsize : b.outletSize selections = .ok size)
    (hin : List.Forall₂ (fun s v => Values.length v = Selection.size s) selections inputs)
    (hlen : selections.length = b.inlets.length)
    (htypes : b.Accepts (inputs.map (·.elemType))) (hb : b.isInput = false) :
    ∃ v, b.eval inputs = .ok (some v) ∧ v.elemType = b.elemType ∧ some v.length = size := by
  have hmem : ∀ {x}, x ∈ inputs → x.elemType ∈ inputs.map (·.elemType) := fun hx =>
    List.mem_map_of_mem hx
  cases b with
  | input t size => cases hb
  | constant values => exact ⟨values, rfl, rfl, Except.ok.inj hsize⟩
  | binary t op x y haccepted =>
      obtain ⟨n, hn, rfl⟩ := map_eq_ok_iff.1 hsize
      obtain ⟨p, q, hp, hq, hpn, hqn⟩ := commonSize_eq_ok hn
      obtain ⟨u, hu, hu', hul⟩ := exists_inputValues hin hp
      obtain ⟨w, hw, hw', hwl⟩ := exists_inputValues hin hq
      have hut : u.elemType = t := htypes _ (hmem hu)
      have hwt : w.elemType = t := htypes _ (hmem hw)
      have haccepted : op.accepts u.elemType.ty = true := hut.symm ▸ haccepted
      obtain ⟨v, hv, hvt, hvl⟩ := Elementwise.exists_binary haccepted (hwt.trans hut.symm)
      refine ⟨v, by simp only [eval, hu', hw', bind, Except.bind, hv]; rfl, hvt.trans hut, ?_⟩
      rw [hvl, hul, hwl, hpn, hqn, min_self]
  | predicate t op x y =>
      obtain ⟨n, hn, rfl⟩ := map_eq_ok_iff.1 hsize
      obtain ⟨p, q, hp, hq, hpn, hqn⟩ := commonSize_eq_ok hn
      obtain ⟨u, hu, hu', hul⟩ := exists_inputValues hin hp
      obtain ⟨w, hw, hw', hwl⟩ := exists_inputValues hin hq
      have hwu : w.elemType = u.elemType := htypes _ (hmem hw) _ (hmem hu)
      obtain ⟨v, hv, hvt, hvl⟩ := Elementwise.exists_compare op hwu
      refine ⟨v, by simp only [eval, hu', hw', bind, Except.bind, hv]; rfl, hvt, ?_⟩
      rw [hvl, hul, hwl, hpn, hqn, min_self]
  | unary t op x haccepted =>
      obtain ⟨n, hn, rfl⟩ := map_eq_ok_iff.1 hsize
      obtain ⟨p, hp, hpn⟩ := resolvedSize_eq_ok hn
      obtain ⟨u, hu, hu', hul⟩ := exists_inputValues hin hp
      have hut : u.elemType = t := htypes _ (hmem hu)
      have haccepted : op.accepts u.elemType.ty = true := hut.symm ▸ haccepted
      obtain ⟨v, hv, hvt, hvl⟩ := Elementwise.exists_unary haccepted
      refine ⟨v, by simp only [eval, hu', bind, Except.bind, hv]; rfl, hvt.trans hut, ?_⟩
      rw [hvl, hul, hpn]
  | sum t x hnumeric =>
      obtain ⟨s, hs⟩ : ∃ s, selections[0]? = some s :=
        ⟨_, List.getElem?_eq_getElem (by rw [hlen]; exact Nat.one_pos)⟩
      obtain ⟨u, hu, hu', -⟩ := exists_inputValues hin hs
      have hut : u.elemType = t := htypes _ (hmem hu)
      obtain ⟨v, hv, hvt, hvl⟩ := Elementwise.exists_sum (x := u) (hut.symm ▸ hnumeric)
      refine ⟨v, ?_, hvt.trans hut, ?_⟩
      · simp only [eval, hu', bind, Except.bind, hv]
        rfl
      · rw [hvl]
        exact Except.ok.inj hsize
  | cast t target x =>
      obtain ⟨n, hn, rfl⟩ := map_eq_ok_iff.1 hsize
      obtain ⟨p, hp, hpn⟩ := resolvedSize_eq_ok hn
      obtain ⟨u, hu, hu', hul⟩ := exists_inputValues hin hp
      have hut : u.elemType = t := htypes _ (hmem hu)
      have hexpect : u.expect t = .ok u := Values.expect_eq_ok_iff.2 ⟨hut, rfl⟩
      refine ⟨u.convert target, ?_, Values.elemType_convert u target, ?_⟩
      · simp only [eval, hu', bind, Except.bind, hexpect]
        rfl
      · rw [Values.length_convert, hul, hpn]

/-- Only inputs that a node accepts give it a result that goes to its outlet. -/
theorem accepts_of_eval (h : b.eval inputs = .ok (some v)) (hv : v.elemType = b.elemType)
    (hlen : inputs.length = b.inlets.length) : b.Accepts (inputs.map (·.elemType)) := by
  have htwo : ∀ {u w : Values}, inputs.length = 2 → inputValues inputs 0 = .ok u →
      inputValues inputs 1 = .ok w → inputs.map (·.elemType) = [u.elemType, w.elemType] := by
    intro u w hn hu hw
    obtain ⟨x, y, rfl⟩ := List.length_eq_two.1 hn
    obtain rfl := Except.ok.inj hu
    obtain rfl := Except.ok.inj hw
    rfl
  have hone : ∀ {u : Values}, inputs.length = 1 → inputValues inputs 0 = .ok u →
      inputs.map (·.elemType) = [u.elemType] := by
    intro u hn hu
    obtain ⟨x, rfl⟩ := List.length_eq_one_iff.1 hn
    obtain rfl := Except.ok.inj hu
    rfl
  cases b with
  | input t size => trivial
  | constant values => trivial
  | binary t op x y =>
      obtain ⟨u, hu, h⟩ := bind_eq_ok_iff.1 h
      obtain ⟨w, hw, h⟩ := bind_eq_ok_iff.1 h
      obtain ⟨r, hr, h⟩ := map_eq_ok_iff.1 h
      obtain rfl := Option.some.inj h
      obtain ⟨hwu, hru⟩ := Elementwise.elemType_eq_of_binary hr
      have hut : u.elemType = t := hru.symm.trans hv
      rw [htwo hlen hu hw, hwu, hut]
      simp [Accepts]
  | predicate t op x y =>
      obtain ⟨u, hu, h⟩ := bind_eq_ok_iff.1 h
      obtain ⟨w, hw, h⟩ := bind_eq_ok_iff.1 h
      obtain ⟨r, hr, -⟩ := map_eq_ok_iff.1 h
      rw [htwo hlen hu hw, Elementwise.elemType_eq_of_compare hr]
      simp [Accepts]
  | unary t op x =>
      obtain ⟨u, hu, h⟩ := bind_eq_ok_iff.1 h
      obtain ⟨r, hr, h⟩ := map_eq_ok_iff.1 h
      obtain rfl := Option.some.inj h
      have hut : u.elemType = t := (Elementwise.elemType_eq_of_unary hr).symm.trans hv
      rw [hone hlen hu, hut]
      simp [Accepts]
  | sum t x =>
      obtain ⟨u, hu, h⟩ := bind_eq_ok_iff.1 h
      split at h
      case h_2 => cases h
      case h_1 r hr =>
        obtain rfl := Option.some.inj (Except.ok.inj h)
        have hut : u.elemType = t := (Elementwise.sum?_eq_some hr).1.symm.trans hv
        rw [hone hlen hu, hut]
        simp [Accepts]
  | cast t target x =>
      obtain ⟨u, hu, h⟩ := bind_eq_ok_iff.1 h
      obtain ⟨r, hr, -⟩ := bind_eq_ok_iff.1 h
      rw [hone hlen hu, (Values.expect_eq_ok_iff.1 hr).1]
      simp [Accepts]

/-- An inlet without spans is of use to a node of reals, and to a comparison of two such inlets. -/
def Takes (b : Builtin) (selections : List Selection) : Prop :=
  b.operandType = .real ∨ (∀ s ∈ selections, s.spans ≠ []) ∨
    (b.isPredicate = true ∧ ∀ s ∈ selections, s.spans = [])

/-- What the inlets gather is accepted when the node takes what is selected. -/
theorem accepts_gatheredType_iff (hlen : selections.length = b.inlets.length)
    (ht : ∀ s ∈ selections, ∀ a ∈ s.spans, a.elemType = b.operandType) :
    b.Accepts (selections.map (·.gatheredType)) ↔ b.Takes selections := by
  have hcase : ∀ s ∈ selections, (s.spans = [] ∧ s.gatheredType = .real) ∨
      (s.spans ≠ [] ∧ s.gatheredType = b.operandType) := by
    intro s hs
    by_cases hnil : s.spans = []
    · exact Or.inl ⟨hnil, Selection.gatheredType_of_spans_eq_nil hnil⟩
    · obtain ⟨a, ha⟩ := List.exists_mem_of_ne_nil _ hnil
      exact Or.inr ⟨hnil, Selection.gatheredType_of_mem ha (ht s hs)⟩
  have hall : (∀ u ∈ selections.map (·.gatheredType), u = b.operandType) ↔
      b.operandType = .real ∨ ∀ s ∈ selections, s.spans ≠ [] := by
    rw [List.forall_mem_map]
    constructor
    · intro h
      by_cases hreal : b.operandType = .real
      · exact Or.inl hreal
      · refine Or.inr fun s hs hnil => hreal ?_
        rw [← h s hs, Selection.gatheredType_of_spans_eq_nil hnil]
    · rintro (hreal | hspans) s hs
      · rcases hcase s hs with ⟨-, h⟩ | ⟨-, h⟩
        · rw [h, hreal]
        · exact h
      · exact ((hcase s hs).resolve_left fun h => hspans s hs h.1).2
  cases b with
  | input t size =>
      obtain rfl := List.length_eq_zero_iff.1 hlen
      simp [Accepts, Takes]
  | constant values =>
      obtain rfl := List.length_eq_zero_iff.1 hlen
      simp [Accepts, Takes]
  | predicate t op x y =>
      obtain ⟨p, q, rfl⟩ := List.length_eq_two.1 hlen
      have hp := hcase p (by simp)
      have hq := hcase q (by simp)
      simp only [Accepts, Takes, operandType, isPredicate, List.map_cons, List.map_nil,
        List.forall_mem_cons, List.not_mem_nil, false_imp_iff, implies_true, and_true, true_and]
        at hp hq ⊢
      rcases hp with ⟨hp, hp'⟩ | ⟨hp, hp'⟩ <;> rcases hq with ⟨hq, hq'⟩ | ⟨hq, hq'⟩ <;>
        simp [hp, hp', hq, hq', eq_comm]
  | binary t op x y => simpa [Accepts, Takes, isPredicate, operandType] using hall
  | unary t op x => simpa [Accepts, Takes, isPredicate, operandType] using hall
  | sum t x => simpa [Accepts, Takes, isPredicate, operandType] using hall
  | cast t target x => simpa [Accepts, Takes, isPredicate, operandType] using hall

end Builtin

end Dataflow
