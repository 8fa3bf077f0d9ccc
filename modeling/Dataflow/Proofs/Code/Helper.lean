import Dataflow.Proofs.Code.Machine

/-!
# Helper functions

The body that is made for a helper is the same for every operator but for the one instruction: it
takes the operands as arguments and returns the result of the instruction.
-/

namespace Dataflow.Code

structure Body.IsHelper (b : Body) (op : Operator) (t : Ty) : Prop where
  blocks : b.blocks = #[⟨"entry", #[op.instr], some (.ret (some ⟨op.arity⟩))⟩]
  layout : b.layout = [⟨0⟩]
  params : b.params.map (·.ty) = List.replicate op.arity t
  result : b.result = some t
  args : b.args = (List.range op.arity).map ValueId.mk
  types : b.valueTypes = Array.replicate (op.arity + 1) t
  stack : b.stack = #[]

theorem Body.IsHelper.applies {b : Body} {op : Operator} {t : Ty} (h : b.IsHelper op t) :
    b.Applies op :=
  ⟨⟨_, by rw [h.blocks]; rfl⟩, h.args, by simp [h.types], h.stack⟩

/-- A helper that is declared with the types of its operator gets a body. -/
theorem HelperRequest.exists_body {r : HelperRequest} {s : Signature}
    (hs : s.params = List.replicate r.op.arity r.ty) :
    ∃ b, r.body s = .ok b ∧ b.id = r.function ∧ b.name = s.name ∧ b.IsHelper r.op r.ty := by
  obtain ⟨function, op, t⟩ := r
  obtain ⟨name, params, result, exported⟩ := s
  obtain rfl : params = List.replicate op.arity t := hs
  cases op with
  | binary op => exact ⟨_, rfl, rfl, rfl, rfl, rfl, rfl, rfl, rfl, rfl, rfl⟩
  | unary op => exact ⟨_, rfl, rfl, rfl, rfl, rfl, rfl, rfl, rfl, rfl, rfl⟩

end Dataflow.Code
