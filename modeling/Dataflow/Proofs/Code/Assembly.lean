import Dataflow.Proofs.Code.Recording

/-!
# Finished functions

When a function is ended and the end is granted, its body is the next one of the module, and after
it come the bodies of the helpers that were asked for meanwhile, in the order in which they were.
-/

namespace Dataflow

section Loops

variable {σ α : Type} {s s' : σ}

/-- A loop that succeeds has taken every step. -/
theorem succeeds_forIn {R : σ → σ → Prop} (hrefl : ∀ s, R s s)
    (htrans : ∀ s s' s'', R s s' → R s' s'' → R s s'') {xs : List α}
    {f : α → PUnit → ExceptT Fault (StateM σ) (ForInStep PUnit)}
    (hf : ∀ x ∈ xs, ∀ s r s', Succeeds (f x ⟨⟩) s r s' → R s s' ∧ r = .yield ⟨⟩) {u : PUnit}
    (h : Succeeds (forIn xs PUnit.unit f) s u s') : R s s' := by
  induction xs generalizing s with
  | nil =>
      obtain ⟨-, rfl⟩ := succeeds_pure.1 h
      exact hrefl s
  | cons x xs ih =>
      rw [List.forIn_cons] at h
      obtain ⟨r, t, hx, h⟩ := succeeds_bind.1 h
      obtain ⟨hR, rfl⟩ := hf x (by simp) s r t hx
      exact htrans _ _ _ hR (ih (fun y hy => hf y (List.mem_cons_of_mem x hy)) h)

theorem succeeds_forM {R : σ → σ → Prop} (hrefl : ∀ s, R s s)
    (htrans : ∀ s s' s'', R s s' → R s' s'' → R s s'') {xs : List α}
    {f : α → ExceptT Fault (StateM σ) PUnit}
    (hf : ∀ x ∈ xs, ∀ s u s', Succeeds (f x) s u s' → R s s') {u : PUnit}
    (h : Succeeds (xs.forM f) s u s') : R s s' := by
  induction xs generalizing s with
  | nil =>
      obtain ⟨-, rfl⟩ := succeeds_pure.1 h
      exact hrefl s
  | cons x xs ih =>
      obtain ⟨_, t, hx, h⟩ := succeeds_bind.1 h
      exact htrans _ _ _ (hf x (by simp) s _ t hx)
        (ih (fun y hy => hf y (List.mem_cons_of_mem x hy)) h)

end Loops

namespace Code.Assembler

def Registers (a a' : Assembler) : Prop :=
  a' = { a with symbols := a'.symbols, declared := a'.declared, definedData := a'.definedData }

variable {a a' a'' : Assembler}

theorem Registers.refl (a : Assembler) : a.Registers a := rfl

theorem Registers.trans (h : a.Registers a') (h' : a'.Registers a'') : a.Registers a'' := by
  unfold Registers at h h' ⊢
  rw [h', h]

@[simp] theorem succeeds_check {α : Type} {r : Except Fault α} {x : α} :
    Succeeds (check r) a x a' ↔ r = .ok x ∧ a = a' := by
  cases r <;> simp [check]

/-- What is emitted goes into the open function. -/
theorem succeeds_emit {α : Type} {m : Emit α} {x : α} (h : Succeeds (emit m) a x a') :
    ∃ body e, a.current? = some body ∧
      Succeeds m ⟨body, a.declarations, a.pools, a.settings⟩ x e ∧
      a' = { a with body := some e.body, declarations := e.declarations, pools := e.pools } := by
  unfold Succeeds at h
  by_cases hstage : ∃ body, a.current? = some body
  · obtain ⟨body, hstage⟩ := hstage
    rcases hm : m.run.run ⟨body, a.declarations, a.pools, a.settings⟩ with ⟨r, e⟩
    rw [run_emit_of_opened hstage hm] at h
    obtain ⟨rfl, rfl⟩ := Prod.mk.inj h
    exact ⟨body, e, hstage, hm, rfl⟩
  · rw [run_emit_of_not_opened _ fun body hbody => hstage ⟨body, hbody⟩] at h
    cases h

theorem registers_defineDatum {id : DatumId} {d : Datum} {u : Unit}
    (h : Succeeds (defineDatum id d) a u a') : a.Registers a' := by
  unfold defineDatum at h
  obtain ⟨x, _, hx, h⟩ := succeeds_bind.1 h
  obtain ⟨rfl, rfl⟩ := succeeds_get.1 hx
  split at h
  · obtain ⟨-, rfl⟩ := succeeds_pure.1 h
    exact .refl _
  · split at h
    · exact absurd h succeeds_throw
    · exact absurd h succeeds_throw
    · obtain rfl := succeeds_set.1 h
      rfl

theorem registers_defineData {u : Unit} (h : Succeeds defineData a u a') : a.Registers a' := by
  unfold defineData at h
  obtain ⟨x, _, hx, h⟩ := succeeds_bind.1 h
  obtain ⟨rfl, rfl⟩ := succeeds_get.1 hx
  obtain ⟨_, _, hloop, hend⟩ := succeeds_bind.1 h
  obtain ⟨-, rfl⟩ := succeeds_pure.1 hend
  refine succeeds_forIn Registers.refl (fun _ _ _ h h' => h.trans h') (fun x _ s r s' hx => ?_) hloop
  obtain ⟨_, _, hdatum, hr⟩ := succeeds_bind.1 hx
  obtain ⟨rfl, rfl⟩ := succeeds_pure.1 hr
  exact ⟨registers_defineDatum hdatum, rfl⟩

theorem registers_declareFunction {id : FunctionId} {u : Unit}
    (h : Succeeds (declareFunction id) a u a') : a.Registers a' := by
  unfold declareFunction at h
  obtain ⟨x, _, hx, h⟩ := succeeds_bind.1 h
  obtain ⟨rfl, rfl⟩ := succeeds_get.1 hx
  dsimp only at h
  split at h
  · obtain ⟨-, rfl⟩ := succeeds_pure.1 h
    exact .refl _
  · obtain ⟨s, _, hs, h⟩ := succeeds_bind.1 h
    obtain ⟨-, rfl⟩ := succeeds_check.1 hs
    obtain ⟨-, h⟩ := succeeds_refuse.1 h
    obtain rfl := succeeds_set.1 h
    rfl

/-- What can be defined has passed the checks and is the last body now. -/
theorem succeeds_define {b : Body} {u : Unit} (h : Succeeds (define b) a u a') :
    b.checkOrder = .ok () ∧ b.isWellFormed = true ∧
      ∃ a₁, a.Registers a₁ ∧ a' = { a₁ with defined := a₁.defined ++ [b] } := by
  unfold define at h
  obtain ⟨_, a₁, h₁, h⟩ := succeeds_bind.1 h
  obtain ⟨_, a₂, h₂, h⟩ := succeeds_bind.1 h
  obtain ⟨_, a₃, h₃, h⟩ := succeeds_bind.1 h
  obtain ⟨_, _, hcheck, h⟩ := succeeds_bind.1 h
  obtain ⟨horder, rfl⟩ := succeeds_check.1 hcheck
  obtain ⟨hformed, h⟩ := succeeds_refuse.1 h
  obtain rfl := succeeds_modify.1 h
  have hcallees : a₂.Registers a₃ := succeeds_forM Registers.refl (fun _ _ _ h h' => h.trans h')
    (fun _ _ _ _ _ hx => registers_declareFunction hx) h₃
  exact ⟨horder, by simpa using hformed, a₃, ((registers_defineData h₁).trans
    (registers_declareFunction h₂)).trans hcallees, rfl⟩

def Appends (a : Assembler) (bodies : List Body) (a' : Assembler) : Prop :=
  ∃ a₁, a.Registers a₁ ∧ a' = { a₁ with defined := a₁.defined ++ bodies }

theorem Appends.nil (a : Assembler) : a.Appends [] a :=
  ⟨a, .refl a, by rw [List.append_nil]⟩

theorem Appends.append {bs bs' : List Body} (h : a.Appends bs a') (h' : a'.Appends bs' a'') :
    a.Appends (bs ++ bs') a'' := by
  obtain ⟨a₁, h₁, rfl⟩ := h
  obtain ⟨a₂, h₂, rfl⟩ := h'
  refine ⟨{ a₂ with defined := a₁.defined }, ?_, ?_⟩
  · unfold Registers at h₁ h₂ ⊢
    rw [h₂, h₁]
  · unfold Registers at h₂
    rw [h₂, List.append_assoc]

theorem Appends.declarations {bs : List Body} (h : a.Appends bs a') :
    a'.declarations = a.declarations := by
  obtain ⟨a₁, h₁, rfl⟩ := h
  rw [h₁]

theorem appends_define {b : Body} {u : Unit} (h : Succeeds (define b) a u a') :
    a.Appends [b] a' := (succeeds_define h).2.2

def HasBody (d : Declarations) (r : HelperRequest) (b : Body) : Prop :=
  ∃ s, d.function r.function = .ok s ∧ r.body s = .ok b

/-- A helper that is declared with the types of its operator applies the operator. -/
theorem HasBody.applies {d : Declarations} {r : HelperRequest} {b : Body} (h : HasBody d r b)
    {s : Signature} (hs : d.functions[r.function.index]? = some s)
    (hparams : s.params = List.replicate r.op.arity r.ty) :
    b.id = r.function ∧ b.Applies r.op := by
  obtain ⟨s', hs', hb⟩ := h
  obtain rfl := Option.some.inj (hs.symm.trans (Declarations.function_eq_ok_iff.1 hs'))
  obtain ⟨b', hb', hid, -, hhelper⟩ := r.exists_body hparams
  obtain rfl := Except.ok.inj (hb.symm.trans hb')
  exact ⟨hid, hhelper.applies⟩

theorem forall₂_mem_right {α β : Type} {R : α → β → Prop} {xs : List α} {ys : List β}
    (h : List.Forall₂ R xs ys) {y : β} (hy : y ∈ ys) : ∃ x ∈ xs, R x y := by
  induction h with
  | nil => cases hy
  | cons hR _ ih =>
      rcases List.mem_cons.1 hy with rfl | hy
      · exact ⟨_, by simp, hR⟩
      · obtain ⟨x, hx, hR⟩ := ih hy
        exact ⟨x, List.mem_cons_of_mem _ hx, hR⟩

theorem forall₂_mem_left {α β : Type} {R : α → β → Prop} {xs : List α} {ys : List β}
    (h : List.Forall₂ R xs ys) {x : α} (hx : x ∈ xs) : ∃ y ∈ ys, R x y :=
  forall₂_mem_right h.flip hx

theorem appends_helpers {rs : List HelperRequest} {u : PUnit}
    (h : Succeeds (forIn rs PUnit.unit fun r _ => do
      define (← check (r.body (← check ((← get).declarations.function r.function))))
      return .yield PUnit.unit) a u a') :
    ∃ bodies, List.Forall₂ (HasBody a.declarations) rs bodies ∧ a.Appends bodies a' := by
  induction rs generalizing a with
  | nil =>
      obtain ⟨-, rfl⟩ := succeeds_pure.1 h
      exact ⟨[], .nil, .nil _⟩
  | cons r rs ih =>
      rw [List.forIn_cons] at h
      obtain ⟨step, a₁, hr, hrest⟩ := succeeds_bind.1 h
      simp only [succeeds_bind, succeeds_get, succeeds_check, succeeds_pure] at hr
      obtain ⟨_, _, ⟨rfl, rfl⟩, s, _, ⟨hs, rfl⟩, b, _, ⟨hb, rfl⟩, _, _, hdefine, rfl, rfl⟩ := hr
      have happends := appends_define hdefine
      obtain ⟨bodies, hbodies, hrest⟩ := ih hrest
      rw [happends.declarations] at hbodies
      exact ⟨b :: bodies, .cons ⟨s, hs, hb⟩ hbodies, happends.append hrest⟩

structure EndsWith (a : Assembler) (body b : Body) (helpers : List Body) (a' : Assembler) :
    Prop where
  opened : a.current? = some body
  finished : implicitReturn body = .ok b
  made : List.Forall₂ (HasBody a.declarations) a.declarations.pending helpers
  ordered : b.checkOrder = .ok ()
  wellFormed : b.isWellFormed = true
  stage : a'.stage = .closed
  declarations : a'.declarations = { a.declarations with pending := [] }
  defined : a'.defined = a.defined ++ b :: helpers
  pools : a'.pools = a.pools
  settings : a'.settings = a.settings

/-- Ending a function, when it is granted, defines its body and those of new helpers. -/
theorem succeeds_endFunction {u : Unit} (h : Succeeds endFunction a u a') :
    ∃ body b helpers, a.EndsWith body b helpers a' := by
  by_cases hstage : ∃ body, a.current? = some body
  · obtain ⟨body, hstage⟩ := hstage
    cases hb : implicitReturn body with
    | error f =>
        have hrun := run_endFunction_of_error hstage hb
        unfold Succeeds at h
        rw [hrun] at h
        cases h
    | ok b =>
        have hrun := run_endFunction_of_ok hstage hb
        unfold Succeeds at h
        rw [hrun] at h
        obtain ⟨_, a₁, hdefine, hhelpers⟩ := succeeds_bind.1 h
        obtain ⟨horder, hformed, a₂, h₂, rfl⟩ := succeeds_define hdefine
        unfold defineHelpers at hhelpers
        obtain ⟨x, _, hx, hhelpers⟩ := succeeds_bind.1 hhelpers
        obtain ⟨rfl, rfl⟩ := succeeds_get.1 hx
        obtain ⟨_, _, hmodify, hhelpers⟩ := succeeds_bind.1 hhelpers
        obtain rfl := succeeds_modify.1 hmodify
        obtain ⟨_, _, hloop, hend⟩ := succeeds_bind.1 hhelpers
        obtain ⟨-, rfl⟩ := succeeds_pure.1 hend
        obtain ⟨bodies, hbodies, a₃, h₃, rfl⟩ := appends_helpers hloop
        unfold Registers at h₂ h₃
        refine ⟨body, b, bodies, hstage, hb, ?_, horder, hformed, ?_, ?_, ?_, ?_, ?_⟩
        · rw [h₂] at hbodies
          exact hbodies
        all_goals rw [h₃, h₂]
        exact List.append_assoc ..
  · have hrun := run_endFunction_of_not_opened fun body hbody => hstage ⟨body, hbody⟩
    unfold Succeeds at h
    rw [hrun] at h
    cases h

end Code.Assembler

end Dataflow
