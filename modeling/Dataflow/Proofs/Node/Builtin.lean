import Dataflow.Proofs.Graph.History
import Dataflow.Proofs.Value.Scalar

/-!
# What built-in nodes hold

A built-in node has one outlet. Computing it replaces the values there by the result for its
inputs, which has the type and the size of the outlet, or leaves everything as it was. An input
node leaves its values alone, so that they are zeros unless they are supplied from outside.
-/

namespace Dataflow

namespace Builtin

variable (b : Builtin) (inputs : List Values) (o : Outlet)

def Suits (o : Outlet) (v : Values) : Prop := v.elemType = o.elemType ∧ some v.length = o.size

theorem run_setOutput (v : Values) (vs : List Values) :
    ((Compute.setOutput 0 v).run [o]).run.run vs =
      if v.elemType ≠ o.elemType then
        (.error (.mismatch (.element o.elemType) (.element v.elemType)), vs)
      else if some v.length ≠ o.size then
        (.error (.invalid (.computedCount v.length o.name o.size)), vs)
      else (.ok (), vs.set 0 v) := by
  have hread : ReaderT.run (read : Compute (List Outlet)) [o] = pure [o] := rfl
  rw [Compute.setOutput, ReaderT.run_bind, hread, pure_bind]
  simp only [List.getElem?_cons_zero]
  by_cases ht : v.elemType = o.elemType
  · by_cases hl : some v.length = o.size
    · simp only [ht, hl, ne_eq, not_true_eq_false, if_false]
      rfl
    · simp only [ht, hl, ne_eq, not_true_eq_false, not_false_eq_true, if_false, if_true]
      rfl
  · simp only [ht, ne_eq, not_false_eq_true, if_true]
    rfl

theorem eval_input {b : Builtin} (h : b.isInput = true) : b.eval inputs = .ok none := by
  cases b <;> first | rfl | cases h

theorem isInput_of_eval {b : Builtin} (h : b.eval inputs = .ok none) : b.isInput = true := by
  cases b with
  | input t size => rfl
  | constant values => cases h
  | binary t op x y =>
      obtain ⟨_, -, h⟩ := bind_eq_ok_iff.1 h
      obtain ⟨_, -, h⟩ := bind_eq_ok_iff.1 h
      obtain ⟨_, -, h⟩ := map_eq_ok_iff.1 h
      cases h
  | predicate t op x y =>
      obtain ⟨_, -, h⟩ := bind_eq_ok_iff.1 h
      obtain ⟨_, -, h⟩ := bind_eq_ok_iff.1 h
      obtain ⟨_, -, h⟩ := map_eq_ok_iff.1 h
      cases h
  | unary t op x =>
      obtain ⟨_, -, h⟩ := bind_eq_ok_iff.1 h
      obtain ⟨_, -, h⟩ := map_eq_ok_iff.1 h
      cases h
  | sum t x =>
      obtain ⟨v, -, h⟩ := bind_eq_ok_iff.1 h
      split at h
      · cases h
      · cases h
  | cast t target x =>
      obtain ⟨_, -, h⟩ := bind_eq_ok_iff.1 h
      obtain ⟨_, -, h⟩ := bind_eq_ok_iff.1 h
      cases h

theorem apply_eq (c : Compute Unit) :
    c.apply [o] = (((c.run [o]).run.run [o.values]).1,
      [o.hold (((c.run [o]).run.run [o.values]).2.getD 0 o.values)]) := rfl

/-- Computing a built-in node writes a result that suits the outlet, or nothing. -/
theorem apply_compute :
    (∃ v, b.eval inputs = .ok (some v) ∧ Suits o v ∧
      (b.toNode.compute inputs).apply [o] = (.ok (), [o.hold v])) ∨
    (b.eval inputs = .ok none ∧ (b.toNode.compute inputs).apply [o] = (.ok (), [o])) ∨
    ∃ f, (b.toNode.compute inputs).apply [o] = (.error f, [o]) := by
  change (∃ v, _ ∧ _ ∧ (b.compute inputs).apply [o] = _) ∨
    (_ ∧ (b.compute inputs).apply [o] = _) ∨ ∃ f, (b.compute inputs).apply [o] = _
  unfold compute
  cases he : b.eval inputs with
  | error f => exact Or.inr (Or.inr ⟨f, rfl⟩)
  | ok r =>
      cases r with
      | none => exact Or.inr (Or.inl ⟨rfl, rfl⟩)
      | some v =>
          dsimp only
          rw [apply_eq, run_setOutput]
          by_cases ht : v.elemType = o.elemType
          · by_cases hl : some v.length = o.size
            · rw [if_neg (not_not.2 ht), if_neg (not_not.2 hl)]
              exact Or.inl ⟨v, rfl, ⟨ht, hl⟩, rfl⟩
            · rw [if_neg (not_not.2 ht), if_pos hl]
              exact Or.inr (Or.inr ⟨_, rfl⟩)
          · rw [if_pos ht]
            exact Or.inr (Or.inr ⟨_, rfl⟩)

end Builtin

structure Builtin.Seated (b : Builtin) (e : Entry) : Prop where
  inlets : e.inlets.length = b.inlets.length
  outlet : ∃ o, e.outlets = [o] ∧ o.elemType = b.elemType ∧ o.values.elemType = o.elemType ∧
    o.values.length = o.size.getD 0 ∧
    (b.isInput = true → o.values = .zeros o.elemType (o.size.getD 0))

namespace Graph

theorem zeros_resize (t : ElemType) (size : Nat) :
    (Values.zeros t 0).resize size = .zeros t size := by
  cases t <;> simp [Values.zeros, Values.resize, Values.fit]

/-- However a graph came about, its built-in nodes are seated. -/
theorem History.seated {log : List Key} {g : Graph} (h : History log g) {k : Key} {e : Entry}
    (he : g.entry? k = some e) {b : Builtin} (hb : e.node = b.toNode) : b.Seated e := by
  refine h.entry_induction (P := fun e => ∀ b : Builtin, e.node = b.toNode → b.Seated e)
    ?_ ?_ ?_ k e he b hb
  · intro g id node inlets specs k hinlets hspecs b hb
    obtain rfl : node = b.toNode := hb
    have hlen := (mapM_eq_ok_iff.1 hinlets).length_eq
    obtain ⟨size, -, hs⟩ := bind_eq_ok_iff.1 hspecs
    obtain rfl := Except.ok.inj hs
    refine ⟨hlen.symm, _, rfl, rfl, ?_, ?_, fun _ => rfl⟩
    · exact Values.elemType_zeros _ _
    · exact Values.length_zeros _ _
  · intro e inputs hseated b hb
    obtain ⟨hlen, o, ho, ht, hvt, hvl, hz⟩ := hseated b hb
    refine ⟨hlen, ?_⟩
    change ∃ o', ((e.node.compute inputs).apply e.outlets).2 = [o'] ∧ _
    rw [show e.node = b.toNode from hb, ho]
    rcases b.apply_compute inputs o with ⟨v, hev, hsuits, hr⟩ | ⟨-, hr⟩ | ⟨f, hr⟩
    · rw [hr]
      refine ⟨_, rfl, ht, hsuits.1, by simp [← hsuits.2], fun hi => ?_⟩
      rw [Builtin.eval_input inputs hi] at hev
      cases hev
    · rw [hr]
      exact ⟨o, rfl, ht, hvt, hvl, hz⟩
    · rw [hr]
      exact ⟨o, rfl, ht, hvt, hvl, hz⟩
  · intro e i o size hseated hi hnone b hb
    obtain ⟨hlen, o', ho, ht, hvt, hvl, hz⟩ := hseated b hb
    rw [ho] at hi
    obtain ⟨rfl, rfl⟩ : i = 0 ∧ o' = o := by
      cases i with
      | zero => exact ⟨rfl, Option.some.inj hi⟩
      | succ i => cases hi
    refine ⟨hlen, o'.setSize size, by simp [ho], ht, ?_, ?_, fun hb => ?_⟩
    · exact (Values.elemType_resize _ _).trans hvt
    · exact Values.length_resize _ _
    · change o'.values.resize size = _
      rw [hz hb, hnone]
      exact zeros_resize _ _

end Graph

end Dataflow
