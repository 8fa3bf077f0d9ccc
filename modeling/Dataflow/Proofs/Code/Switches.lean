import Dataflow.Proofs.Code.Agreement
import Dataflow.Proofs.Code.Assembly
import Dataflow.Proofs.Code.Simulation

/-!
# Settings do not change what is computed

One sequence of requests is recorded twice, with different settings. If no function in it has the
name of a helper and both recordings grant all of it, then every function that the one module
exports is exported by the other and does the same there. And if only operators are recorded in
different ways, then the emitters even answer every call alike, whatever has been refused before.
-/

namespace Dataflow.Code

def Request.NamesNoHelper : Request → Prop
  | .begin name _ _ => ∀ op t, name ≠ Declarations.helperName op t
  | .emit c => c.NamesNoHelper
  | .settings _ | .finish => True

/-- The same request, but for the settings that it asks for. -/
def Request.adjust (f : Settings → Settings) : Request → Request
  | .settings s => .settings (f s)
  | .begin name params result => .begin name params result
  | .emit c => .emit c
  | .finish => .finish

section Bodies

variable {d₁ d₂ : Declarations} {b₁ b₂ : Body}

theorem Body.Alike.newArgs (h : b₁.Alike d₁ d₂ b₂) (ps : List Param) :
    (b₁.newArgs ps).Alike d₁ d₂ (b₂.newArgs ps) := by
  induction ps generalizing b₁ b₂ with
  | nil => exact h
  | cons p ps ih =>
      refine ih ⟨?_, h.blocks, h.twin⟩
      rw [h.rest]

/-- Functions that begin alike. -/
theorem Body.Alike.new {id₁ id₂ : FunctionId} (h : d₁.Twin d₂ id₁ id₂) (name : String)
    (params : List Param) (result : Option Ty) :
    (Body.new id₁ name params result).Alike d₁ d₂ (Body.new id₂ name params result) := by
  refine Body.Alike.newArgs ⟨rfl, fun i => ?_, h⟩ params
  change Option.Rel _ (#[{ label := "entry" }] : Array Block)[i]?
    (#[{ label := "entry" }] : Array Block)[i]?
  rcases i with _ | i
  · exact .some ⟨rfl, rfl, .nil⟩
  · exact .none

theorem Body.Alike.slots (h : b₁.Alike d₁ d₂ b₂) (args : List Slot) (result : Option Slot) :
    Body.Alike d₁ d₂ { b₁ with argSlots := args, resultSlot := result }
      { b₂ with argSlots := args, resultSlot := result } := by
  refine ⟨?_, h.blocks, h.twin⟩
  rw [h.rest]

theorem Body.Alike.unterminated (h : b₁.Alike d₁ d₂ b₂) : b₂.unterminated = b₁.unterminated := by
  unfold Body.unterminated Body.blockIds
  rw [h.size_blocks]
  refine List.filter_congr fun id _ => ?_
  have hblock := h.blocks id.index
  generalize b₁.blocks[id.index]? = x at hblock
  generalize b₂.blocks[id.index]? = y at hblock
  cases hblock with
  | none => rfl
  | some hk => simp only [Option.map_some, Block.isClosed, hk.terminator]

theorem Body.Alike.label (h : b₁.Alike d₁ d₂ b₂) (i : Nat) :
    (b₂.blocks[i]?).map (·.label) = (b₁.blocks[i]?).map (·.label) := by
  have hblock := h.blocks i
  generalize b₁.blocks[i]? = x at hblock
  generalize b₂.blocks[i]? = y at hblock
  cases hblock with
  | none => rfl
  | some hk => exact congrArg some hk.label

theorem Body.Alike.implicitReturn (h : b₁.Alike d₁ d₂ b₂) :
    Matches (Body.Alike d₁ d₂) (Assembler.implicitReturn b₁) (Assembler.implicitReturn b₂) := by
  have hresult : b₂.result = b₁.result := by rw [h.rest]
  have hcurrent : b₂.current = b₁.current := by rw [h.rest]
  have hname : b₂.name = b₁.name := by rw [h.rest]
  dsimp only [Assembler.implicitReturn]
  simp only [h.unterminated, hresult, hcurrent, hname, h.label]
  split
  · exact h.terminate _
  · split
    · exact .ok h
    · exact .error _

end Bodies

namespace Assembler

structure Alike (a₁ a₂ : Assembler) : Prop where
  stage : a₂.stage = a₁.stage
  body : Option.Rel (Body.Alike a₁.declarations a₂.declarations) a₁.body a₂.body
  declarations : a₁.declarations.Alike a₂.declarations
  pools : a₂.pools = a₁.pools

variable {a₁ a₂ a₁' a₂' : Assembler}

theorem Alike.current? (h : a₁.Alike a₂) :
    Option.Rel (Body.Alike a₁.declarations a₂.declarations) a₁.current? a₂.current? := by
  unfold Assembler.current?
  rw [h.stage]
  cases a₁.stage with
  | fresh => exact .none
  | opened => exact h.body
  | closed => exact .none

theorem regular_empty : Declarations.Regular {} := by
  refine ⟨fun i j s s' h => (by cases h), fun s h => ?_, fun i s h => (by cases h), fun op t id h => ?_,
    fun r hr => (by cases hr)⟩
  · cases Array.mem_toList_iff.2 h
  · cases h

theorem alike_new (name : String) (s₁ s₂ : Settings) : (new name s₁).Alike (new name s₂) :=
  ⟨rfl, .none, ⟨fun _ _ => .rfl, rfl, regular_empty, regular_empty⟩, rfl⟩

section Steps

theorem alike_beginFunction (h : a₁.Alike a₂) {name : String}
    (hname : ∀ op t, name ≠ Declarations.helperName op t) (params : List Param)
    (result : Option Ty) : ((beginFunction name params result).run.run a₁).2.Alike
      ((beginFunction name params result).run.run a₂).2 := by
  by_cases hopen : a₁.stage = .opened
  · rw [beginFunction_of_open hopen, beginFunction_of_open (h.stage.trans hopen)]
    exact h
  have hopen₂ : a₂.stage ≠ .opened := h.stage ▸ hopen
  have hfind := h.declarations.find? hname
  cases hfind₁ : a₁.declarations.find? name with
  | some id₁ =>
      cases hfind₂ : a₂.declarations.find? name with
      | none =>
          rw [hfind₁, hfind₂] at hfind
          cases hfind
      | some id₂ =>
          rw [beginFunction_of_declared hopen hfind₁, beginFunction_of_declared hopen₂ hfind₂]
          exact h
  | none =>
  cases hfind₂ : a₂.declarations.find? name with
  | some id₂ =>
      rw [hfind₁, hfind₂] at hfind
      cases hfind
  | none =>
  rw [beginFunction_of_new hopen hfind₁, beginFunction_of_new hopen₂ hfind₂, begun, begun, h.pools]
  refine ⟨rfl, .some ((Body.Alike.new ?_ name params result).slots _ _),
    ⟨fun s hs => ?_, h.declarations.data, ?_, ?_⟩, rfl⟩
  · exact ⟨_, rfl, Array.getElem?_push_size, Array.getElem?_push_size⟩
  · rw [Array.mem_push, Array.mem_push, h.declarations.exported s hs]
  · exact h.declarations.left.declare hfind₁ hname rfl
  · exact h.declarations.right.declare hfind₂ hname rfl

theorem Keeps.within (h : a₁.Keeps a₁') : a₁.declarations.Within a₁'.declarations :=
  ⟨h.functions ▸ .refl _, fun _ _ hk => h.helpers ▸ hk⟩

theorem Keeps.regular (h : a₁.Keeps a₁') (hd : a₁.declarations.Regular) :
    a₁'.declarations.Regular := by
  refine ⟨?_, ?_, ?_, ?_, fun r hr => ?_⟩
  · rw [h.functions]
    exact hd.distinct
  · rw [h.functions]
    exact hd.exported
  · rw [h.functions, h.helpers]
    exact hd.hidden
  · rw [h.functions, h.helpers]
    exact hd.helpers
  · rw [h.helpers]
    exact hd.asked r (h.pending hr)

theorem Alike.keeps (h : a₁.Alike a₂) (h₁ : a₁.Keeps a₁') (h₂ : a₂.Keeps a₂') : a₁'.Alike a₂' := by
  refine ⟨?_, ?_, ⟨fun s hs => ?_, ?_, h₁.regular h.declarations.left,
    h₂.regular h.declarations.right⟩, ?_⟩
  · rw [h₁.stage, h₂.stage, h.stage]
  · rw [h₁.body, h₂.body]
    exact rel_imp (fun _ _ hb => hb.mono h₁.within h₂.within) h.body
  · rw [h₁.functions, h₂.functions]
    exact h.declarations.exported s hs
  · rw [h₁.data, h₂.data]
    exact h.declarations.data
  · rw [h₁.pools, h₂.pools]
    exact h.pools

/-- Both functions are ended or neither is, whatever is said about the bodies then. -/
theorem alike_endFunction (h : a₁.Alike a₂) (ha₁ : a₁.Typed) (ha₂ : a₂.Typed) :
    (endFunction.run.run a₁).2.Alike (endFunction.run.run a₂).2 := by
  have hcurrent := h.current?
  generalize hs₁ : a₁.current? = s₁ at hcurrent
  generalize hs₂ : a₂.current? = s₂ at hcurrent
  cases hcurrent with
  | none =>
      rw [run_endFunction_of_not_opened (by simp [hs₁]), run_endFunction_of_not_opened (by simp [hs₂])]
      exact h
  | @some b₁ b₂ hb =>
      have hreturn := hb.implicitReturn
      generalize hr₁ : implicitReturn b₁ = r₁ at hreturn
      generalize hr₂ : implicitReturn b₂ = r₂ at hreturn
      cases hreturn with
      | error f => rwa [run_endFunction_of_error hs₁ hr₁, run_endFunction_of_error hs₂ hr₂]
      | @ok b₁' b₂' hb' =>
          have hclosed {a : Assembler} {b b' : Body} (ha : a.Typed) (hs : a.current? = some b)
              (hr : implicitReturn b = .ok b') :
              Keeps { a with stage := .closed, body := none } (endFunction.run.run a).2 := by
            rw [run_endFunction_of_ok hs hr]
            have hb : b'.Typed a.declarations := implicitReturn_typed (ha.opened b hs) hr
            exact (closes_rest (a := { a with stage := .closed, body := none }) hb
              ⟨fun b hb => (by cases hb), ha.defined, ha.declarations⟩).2.1
          have h' : Alike { a₁ with stage := .closed, body := none }
              { a₂ with stage := .closed, body := none } := ⟨rfl, .none, h.declarations, h.pools⟩
          exact h'.keeps (hclosed ha₁ hs₁ hr₁) (hclosed ha₂ hs₂ hr₂)

/-- If both leave the source locations out or neither does, they answer every call alike. -/
theorem alike_emit (h : a₁.Alike a₂) (hd : a₂.settings.diagnostics = a₁.settings.diagnostics)
    {c : Call} (hc : c.NamesNoHelper) :
    ((emit c.perform).run.run a₂).1 = ((emit c.perform).run.run a₁).1 ∧
      ((emit c.perform).run.run a₁).2.Alike ((emit c.perform).run.run a₂).2 := by
  have hcurrent := h.current?
  generalize hs₁ : a₁.current? = s₁ at hcurrent
  generalize hs₂ : a₂.current? = s₂ at hcurrent
  cases hcurrent with
  | none =>
      rw [run_emit_of_not_opened (a := a₁) _ (by simp [hs₁]),
        run_emit_of_not_opened (a := a₂) _ (by simp [hs₂])]
      exact ⟨rfl, h⟩
  | @some b₁ b₂ hb =>
      have hagrees : Emit.Agrees c.perform c.perform
          ⟨b₁, a₁.declarations, a₁.pools, a₁.settings⟩
          ⟨b₂, a₂.declarations, a₂.pools, a₂.settings⟩ := agrees_perform hc (.inr hd)
      obtain ⟨hr, he, -, -⟩ := hagrees ⟨hb, h.declarations, h.pools⟩
      rw [run_emit_of_opened (m := c.perform) hs₁ rfl, run_emit_of_opened (m := c.perform) hs₂ rfl]
      exact ⟨hr, h.stage, .some he.body, he.declarations, he.pools⟩

end Steps

section Settings

variable {a a' : Assembler}

theorem settings_beginFunction (name : String) (params : List Param) (result : Option Ty) :
    ((beginFunction name params result).run.run a).2.settings = a.settings := by
  rcases a.beginFunction_cases name params result with ⟨-, -, h⟩ | ⟨-, f, h⟩
  · rw [h]
    rfl
  · rw [h]

theorem settings_endFunction (ha : a.Typed) :
    (endFunction.run.run a).2.settings = a.settings := by
  by_cases h : ∃ body, a.current? = some body
  · obtain ⟨body, h⟩ := h
    cases hb : implicitReturn body with
    | error f => rw [run_endFunction_of_error h hb]
    | ok b =>
        rw [run_endFunction_of_ok h hb]
        exact (closes_rest (a := { a with stage := .closed, body := none }) (implicitReturn_typed (ha.opened _ h) hb)
          ⟨fun b hb => (by cases hb), ha.defined, ha.declarations⟩).2.1.settings
  · rw [run_endFunction_of_not_opened fun body hbody => h ⟨body, hbody⟩]

theorem settings_emit {α : Type} (m : Emit α) :
    ((emit m).run.run a).2.settings = a.settings := by
  by_cases h : ∃ body, a.current? = some body
  · obtain ⟨body, h⟩ := h
    rw [run_emit_of_opened (m := m) h rfl]
  · rw [run_emit_of_not_opened m fun body hbody => h ⟨body, hbody⟩]

end Settings

section Answers

structure Like (a₁ a₂ : Assembler) : Prop extends a₁.Alike a₂ where
  diagnostics : a₂.settings.diagnostics = a₁.settings.diagnostics

theorem like_setSettings (h : a₁.Like a₂) {s₁ s₂ : Settings}
    (hs : s₂.diagnostics = s₁.diagnostics) :
    ((setSettings s₁).run.run a₁).2.Like ((setSettings s₂).run.run a₂).2 := by
  by_cases hfresh : a₁.stage = .fresh
  · rw [setSettings_of_fresh hfresh, setSettings_of_fresh (h.stage.trans hfresh)]
    exact ⟨⟨h.stage, h.body, h.declarations, h.pools⟩, hs⟩
  · have hfresh₂ : a₂.stage ≠ .fresh := h.stage ▸ hfresh
    rwa [setSettings_of_not_fresh hfresh, setSettings_of_not_fresh hfresh₂]

variable {f : Settings → Settings}

theorem like_perform (h : a₁.Like a₂) (ha₁ : a₁.Typed) (ha₂ : a₂.Typed)
    (hf : ∀ s, (f s).diagnostics = s.diagnostics) {r : Request} (hr : r.NamesNoHelper) :
    (r.perform.run.run a₁).2.Like ((r.adjust f).perform.run.run a₂).2 := by
  cases r with
  | settings s =>
      change Like ((Request.perform (.settings s)).run.run a₁).2
        ((Request.perform (.settings (f s))).run.run a₂).2
      rw [run_settings, run_settings]
      exact like_setSettings h (hf s)
  | begin name params result =>
      change Like ((Request.perform (.begin name params result)).run.run a₁).2
        ((Request.perform (.begin name params result)).run.run a₂).2
      rw [run_begin, run_begin]
      refine ⟨alike_beginFunction h.toAlike hr params result, ?_⟩
      dsimp only
      rw [settings_beginFunction, settings_beginFunction, h.diagnostics]
  | emit c =>
      refine ⟨(alike_emit h.toAlike h.diagnostics hr).2, ?_⟩
      change ((emit c.perform).run.run a₂).2.settings.diagnostics =
        ((emit c.perform).run.run a₁).2.settings.diagnostics
      rw [settings_emit, settings_emit, h.diagnostics]
  | finish =>
      change Like ((Request.perform .finish).run.run a₁).2 ((Request.perform .finish).run.run a₂).2
      rw [run_finish, run_finish]
      refine ⟨alike_endFunction h.toAlike ha₁ ha₂, ?_⟩
      dsimp only
      rw [settings_endFunction ha₁, settings_endFunction ha₂, h.diagnostics]

/-- Granted or refused, the requests keep the modules alike. -/
theorem like_after (h : a₁.Like a₂) (ha₁ : a₁.Typed) (ha₂ : a₂.Typed)
    (hf : ∀ s, (f s).diagnostics = s.diagnostics) {requests : List Request}
    (hr : ∀ r ∈ requests, r.NamesNoHelper) :
    (a₁.after requests).Like (a₂.after (requests.map (.adjust f))) := by
  induction requests generalizing a₁ a₂ with
  | nil => exact h
  | cons r rs ih =>
      exact ih (like_perform h ha₁ ha₂ hf (hr r (by simp))) (typed_perform ha₁ r)
        (typed_perform ha₂ _) fun r' hr' => hr r' (List.mem_cons_of_mem r hr')

end Answers

end Assembler

end Dataflow.Code
