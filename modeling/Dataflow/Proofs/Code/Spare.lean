import Dataflow.Code.Printer
import Dataflow.Proofs.Code.Agreement
import Dataflow.Proofs.Code.Assembly
import Dataflow.Proofs.Code.Checked

/-!
# Numbers to spare

A call that is refused may have taken the number of a value or of a variable before. Nothing that is
typed names it: a body with numbers to spare passes the same checks, or fails them in the same place,
and it is written in the same way.
-/

namespace Dataflow.Code

section Loops

variable {α β : Type} {R : β → β → Prop}

theorem matches_foldlM {f g : β → α → Except Fault β} {xs : List α}
    (hf : ∀ x ∈ xs, ∀ y z, R y z → Matches R (f y x) (g z x)) {y z : β} (h : R y z) :
    Matches R (xs.foldlM f y) (xs.foldlM g z) := by
  induction xs generalizing y z with
  | nil => exact .ok h
  | cons x xs ih =>
      rw [List.foldlM_cons, List.foldlM_cons]
      exact (hf x (by simp) y z h).bind fun y' z' h' =>
        ih (fun w hw => hf w (List.mem_cons_of_mem x hw)) h'

theorem rel_foldl {f g : β → α → β} {xs : List α} (hf : ∀ x ∈ xs, ∀ y z, R y z → R (f y x) (g z x))
    {y z : β} (h : R y z) : R (xs.foldl f y) (xs.foldl g z) := by
  induction xs generalizing y z with
  | nil => exact h
  | cons x xs ih => exact ih (fun w hw => hf w (List.mem_cons_of_mem x hw)) (hf x (by simp) y z h)

end Loops

section Typing

variable {Γ : TypeEnv}

theorem TypeEnv.Has.lt {v : ValueId} {t : Ty} (h : Γ.Has v t) : v.index < Γ.values.size :=
  (Array.getElem?_eq_some_iff.1 h).1

/-- Typed instructions only write values that there are. -/
theorem Instr.Typed.lt_of_defines {i : Instr} (h : i.Typed Γ) {v : ValueId}
    (hv : i.defines = some v) : v.index < Γ.values.size := by
  cases i with
  | location _ | store _ _ _ | writeVar _ _ => cases hv
  | const result value => exact Option.some.inj hv ▸ TypeEnv.Has.lt h
  | load result address offset =>
      obtain ⟨-, t, hr⟩ := h
      exact Option.some.inj hv ▸ hr.lt
  | stackAddress result slot => exact Option.some.inj hv ▸ TypeEnv.Has.lt h
  | datumAddress _ _ | offset _ _ _ _ | compare _ _ _ _ => exact Option.some.inj hv ▸ h.1.lt
  | binary _ _ _ _ | unary _ _ _ =>
      obtain ⟨t, hr, -⟩ := h
      exact Option.some.inj hv ▸ hr.lt
  | select _ _ _ _ =>
      obtain ⟨-, t, hr, -⟩ := h
      exact Option.some.inj hv ▸ hr.lt
  | cast _ _ =>
      obtain ⟨-, t, -, hr, -⟩ := h
      exact Option.some.inj hv ▸ hr.lt
  | readVar _ _ =>
      obtain ⟨t, -, hr⟩ := h
      exact Option.some.inj hv ▸ hr.lt
  | call result function args =>
      obtain ⟨s, -, -, hr⟩ := h
      obtain rfl : result = some v := hv
      generalize s.result = r at hr
      cases hr with
      | some hr => exact TypeEnv.Has.lt hr

end Typing

namespace Defined

structure Like (n : Nat) (D D' : Defined) : Prop where
  size : D.size = n
  le : n ≤ D'.size
  has : ∀ v, D'.has v = D.has v

variable {D D' : Defined} {n : Nat}

theorem Like.add (h : Like n D D') {v : ValueId} (hv : v.index < n) : Like n (D.add v) (D'.add v) where
  size := (Array.size_setIfInBounds ..).trans h.size
  le := h.le.trans (Array.size_setIfInBounds ..).symm.le
  has w := by
    rw [has_add, has_add, h.has, h.size]
    simp only [hv, hv.trans_le h.le]

theorem like_ofArgs {b b' : Body} (hle : b.valueTypes.size ≤ b'.valueTypes.size)
    (hargs : b'.args = b.args) (hlt : ∀ v ∈ b.args, v.index < b.valueTypes.size) :
    Like b.valueTypes.size (ofArgs b) (ofArgs b') := by
  rw [ofArgs, ofArgs, hargs]
  refine rel_foldl (fun v hv D D' h => h.add (hlt v hv)) ⟨Array.size_replicate, ?_, fun v => ?_⟩
  · rw [Array.size_replicate]
    exact hle
  · simp only [has, Array.getD_eq_getD_getElem?, Array.getElem?_replicate]
    split <;> split <;> rfl

theorem Like.requireDefined (h : Like n D D') (vs : List ValueId) :
    Code.requireDefined D' vs = Code.requireDefined D vs := by
  induction vs with
  | nil => rfl
  | cons v vs ih => rw [Code.requireDefined, Code.requireDefined, h.has, ih]

end Defined

namespace Body

/-- The same code, with numbers taken for more values and variables. -/
structure Spares (b b' : Body) : Prop where
  rest : b' = { b with
    valueTypes := b'.valueTypes, varTypes := b'.varTypes, scratchVars := b'.scratchVars }
  valueTypes : Prefix b.valueTypes b'.valueTypes
  varTypes : Prefix b.varTypes b'.varTypes

variable {b b' b'' : Body} {d : Declarations}

namespace Spares

theorem refl (b : Body) : b.Spares b := ⟨rfl, .refl _, .refl _⟩

theorem trans (h : b.Spares b') (h' : b'.Spares b'') : b.Spares b'' := by
  refine ⟨?_, h.valueTypes.trans h'.valueTypes, h.varTypes.trans h'.varTypes⟩
  rw [h'.rest, h.rest]

theorem id (h : b.Spares b') : b'.id = b.id := by rw [h.rest]

theorem name (h : b.Spares b') : b'.name = b.name := by rw [h.rest]

theorem blocks (h : b.Spares b') : b'.blocks = b.blocks := by rw [h.rest]

theorem stack (h : b.Spares b') : b'.stack = b.stack := by rw [h.rest]

theorem args (h : b.Spares b') : b'.args = b.args := by rw [h.rest]

theorem callees (h : b.Spares b') : b'.callees = b.callees := by rw [h.rest]; rfl

theorem fullLayout (h : b.Spares b') : b'.fullLayout = b.fullLayout := by rw [h.rest]; rfl

theorem block (h : b.Spares b') (id : BlockId) : b'.block id = b.block id := by rw [h.rest]; rfl

theorem listing (h : b.Spares b') : b'.listing = b.listing := by rw [h.rest]; rfl

theorem entryIsFirst (h : b.Spares b') : b'.entryIsFirst = b.entryIsFirst := by rw [h.rest]; rfl

theorem terminate (h : b.Spares b') (t : Terminator) :
    Matches Spares (b.terminate t) (b'.terminate t) := by
  have hopen : b'.requireOpen = b.requireOpen := by rw [h.rest]; rfl
  unfold Body.terminate
  rw [hopen]
  cases b.requireOpen with
  | error f => exact .error f
  | ok u => exact .ok ⟨by rw [h.rest]; rfl, h.valueTypes, h.varTypes⟩

theorem implicitReturn (h : b.Spares b') :
    Matches Spares (Assembler.implicitReturn b) (Assembler.implicitReturn b') := by
  have hopen : b'.unterminated = b.unterminated := by rw [h.rest]; rfl
  have hresult : b'.result = b.result := by rw [h.rest]
  have hcurrent : b'.current = b.current := by rw [h.rest]
  dsimp only [Assembler.implicitReturn]
  rw [hopen, hresult, hcurrent, h.name, h.blocks]
  split
  · exact h.terminate _
  · split
    · exact .ok h
    · exact .error _

section Order

theorem checkTypes (h : b.Spares b') {i : Instr} (hi : i.Typed (b.typing d)) :
    b'.checkTypes i = b.checkTypes i := by
  have htype : ∀ {v t}, (b.typing d).Has v t → b'.valueType v = b.valueType v := fun hv =>
    (valueType_eq_ok_iff.2 (h.valueTypes _ _ hv)).trans (valueType_eq_ok_iff.2 hv).symm
  have hvar : ∀ {x t}, (b.typing d).HasVar x t →
      requireIndex b'.varTypes.size x.index = requireIndex b.varTypes.size x.index := fun {x t} hx => by
    have hlt : x.index < b.varTypes.size := (Array.getElem?_eq_some_iff.1 hx).1
    rw [requireIndex_of_lt hlt, requireIndex_of_lt (hlt.trans_le h.varTypes.size_le)]
  cases i with
  | binary result op lhs rhs =>
      obtain ⟨t, -, hl, -⟩ := hi
      simp only [Body.checkTypes, htype hl]
  | unary result op operand =>
      obtain ⟨t, -, hx, -⟩ := hi
      simp only [Body.checkTypes, htype hx]
  | cast result value =>
      obtain ⟨source, target, hv, hr, -⟩ := hi
      simp only [Body.checkTypes, htype hv, htype hr]
  | stackAddress result slot => simp only [Body.checkTypes, h.stack]
  | readVar result var =>
      obtain ⟨t, hx, -⟩ := hi
      exact hvar hx
  | writeVar var value =>
      obtain ⟨t, hx, -⟩ := hi
      exact hvar hx
  | _ => rfl

theorem checkInstr (h : b.Spares b') {i : Instr} (hi : i.Typed (b.typing d)) {D D' : Defined}
    (hD : Defined.Like b.valueTypes.size D D') :
    Matches (Defined.Like b.valueTypes.size) (b.checkInstr D i) (b'.checkInstr D' i) := by
  unfold Body.checkInstr
  rw [hD.requireDefined, h.checkTypes hi]
  cases requireDefined D i.uses with
  | error f => exact .error f
  | ok u =>
  cases b.checkTypes i with
  | error f => exact .error f
  | ok u =>
  refine .ok ?_
  cases hv : i.defines with
  | none => exact hD
  | some v => exact hD.add (hi.lt_of_defines hv)

theorem checkBlock (h : b.Spares b') (ht : b.Typed d) {D D' : Defined} (id : BlockId)
    (hD : Defined.Like b.valueTypes.size D D') :
    Matches (Defined.Like b.valueTypes.size) (b.checkBlock D id) (b'.checkBlock D' id) := by
  unfold Body.checkBlock
  rw [h.block, h.name]
  cases hk : b.block id with
  | error f => exact .error f
  | ok k =>
  have hkt := ht.blocks k (Array.mem_of_getElem? (block_eq_ok_iff.1 hk))
  have hinstrs : Matches (Defined.Like b.valueTypes.size) (k.instrs.foldlM b.checkInstr D)
      (k.instrs.foldlM b'.checkInstr D') := by
    rw [← Array.foldlM_toList, ← Array.foldlM_toList]
    exact matches_foldlM (fun i hi _ _ hD => h.checkInstr (hkt.instrs i (by simpa using hi)) hD) hD
  change Matches _ (k.instrs.foldlM b.checkInstr D >>= _) (k.instrs.foldlM b'.checkInstr D' >>= _)
  refine hinstrs.bind fun E E' hE => ?_
  cases k.terminator with
  | none => exact .error _
  | some t =>
      dsimp only
      rw [hE.requireDefined]
      cases requireDefined E t.uses with
      | error f => exact .error f
      | ok u => exact .ok hE

/-- Spare numbers do not change what the check of the order says. -/
theorem checkOrder (h : b.Spares b') (ht : b.Typed d) : b'.checkOrder = b.checkOrder := by
  have hargs : ∀ v ∈ b.args, v.index < b.valueTypes.size := by
    intro v hv
    obtain ⟨t, -, hv⟩ := Assembler.forall₂_mem_left ht.args hv
    exact TypeEnv.Has.lt hv
  have hfold : Matches (Defined.Like b.valueTypes.size)
      (b.fullLayout.foldlM b.checkBlock (Defined.ofArgs b))
      (b.fullLayout.foldlM b'.checkBlock (Defined.ofArgs b')) :=
    matches_foldlM (fun id _ _ _ hD => h.checkBlock ht id hD)
      (Defined.like_ofArgs h.valueTypes.size_le h.args hargs)
  unfold Body.checkOrder
  rw [h.fullLayout]
  generalize b.fullLayout.foldlM b.checkBlock (Defined.ofArgs b) = r,
    b.fullLayout.foldlM b'.checkBlock (Defined.ofArgs b') = r' at hfold
  cases hfold with
  | ok _ => rfl
  | error f => rfl

end Order

section Flow

structure SameSites (n : Nat) (sites sites' : Array (Option BlockId)) : Prop where
  size : sites.size = n
  le : n ≤ sites'.size
  site : ∀ v : Nat, sites'[v]?.join = sites[v]?.join

theorem SameSites.note {n v : Nat} {sites sites' : Array (Option BlockId)}
    (h : SameSites n sites sites') (hv : v < n) (site : Option BlockId) :
    SameSites n (sites.setIfInBounds v site) (sites'.setIfInBounds v site) where
  size := (Array.size_setIfInBounds ..).trans h.size
  le := h.le.trans (Array.size_setIfInBounds ..).symm.le
  site w := by
    rw [Array.getElem?_setIfInBounds, Array.getElem?_setIfInBounds, h.size, if_pos hv,
      if_pos (hv.trans_le h.le)]
    split
    · rfl
    · exact h.site w

theorem reach (h : b.Spares b') (avoided : Option BlockId) (steps : Nat)
    (seen frontier : List BlockId) :
    b'.reach avoided steps seen frontier = b.reach avoided steps seen frontier := by
  have hsuccessors : b'.successors = b.successors := by rw [h.rest]; rfl
  induction steps generalizing seen frontier with
  | zero => rfl
  | succ steps ih =>
      cases frontier with
      | nil => rfl
      | cons id ids => simp only [Body.reach, hsuccessors, ih]

theorem reachable (h : b.Spares b') (avoided : Option BlockId) :
    b'.reachable avoided = b.reachable avoided := by
  rw [Body.reachable, Body.reachable, h.reach, h.blocks]

/-- Values are defined in the same blocks. -/
theorem definitionSites (h : b.Spares b') (ht : b.Typed d) (v : Nat) :
    b'.definitionSites[v]?.join = b.definitionSites[v]?.join := by
  suffices hsites : SameSites b.valueTypes.size b.definitionSites b'.definitionSites from hsites.site v
  rw [Body.definitionSites, Body.definitionSites, h.blocks]
  refine rel_foldl (fun ki hki sites sites' hs => ?_) ⟨Array.size_replicate, ?_, fun v => ?_⟩
  · obtain ⟨k, i⟩ := ki
    have hk : b.blocks[i]? = some k := by
      simpa using List.mem_zipIdx_iff_getElem?.1 hki
    refine rel_foldl (fun v hv sites sites' hs => hs.note ?_ _) hs
    obtain ⟨j, hj, hdefines⟩ := Block.mem_defines.1 hv
    exact ((ht.blocks k (Array.mem_of_getElem? hk)).instrs j hj).lt_of_defines hdefines
  · rw [Array.size_replicate]
    exact h.valueTypes.size_le
  · simp only [Array.getElem?_replicate]
    split <;> split <;> rfl

theorem sources (h : b.Spares b') (ht : b.Typed d) (id : BlockId) :
    b'.sources b'.definitionSites id = b.sources b.definitionSites id := by
  simp only [Body.sources, h.blocks, h.definitionSites ht]

/-- Nor do they change what the check of the control flow says. -/
theorem isWellFormed (h : b.Spares b') (ht : b.Typed d) : b'.isWellFormed = b.isWellFormed := by
  have hids : b'.blockIds = b.blockIds := by rw [h.rest]; rfl
  have hdominate : b'.definitionsDominate = b.definitionsDominate := by
    simp only [Body.definitionsDominate, Body.dominates, h.reachable, h.sources ht, hids]
  rw [Body.isWellFormed, Body.isWellFormed, h.entryIsFirst, hdominate]

end Flow

end Spares

end Body

namespace Assembler

/-- Modules that differ in what the pools hold and in numbers to spare. -/
structure Spares (a a' : Assembler) : Prop where
  rest : a' = { a with body := a'.body, pools := a'.pools, defined := a'.defined }
  body : Option.Rel Body.Spares a.body a'.body
  defined : List.Forall₂ Body.Spares a.defined a'.defined

theorem Spares.refl (a : Assembler) : a.Spares a := by
  refine ⟨rfl, ?_, List.forall₂_same.2 fun b _ => .refl b⟩
  cases a.body with
  | none => exact .none
  | some b => exact .some (.refl b)

variable {α β : Type} {R : Assembler → Assembler → Prop} {a a' : Assembler}

/-- The operations have the same outcome, and what they leave behind is related as well. -/
def Tallies (R : Assembler → Assembler → Prop) (m m' : Assemble α) (a a' : Assembler) : Prop :=
  (m.run.run a).1 = (m'.run.run a').1 ∧ R (m.run.run a).2 (m'.run.run a').2

namespace Tallies

theorem pure (h : R a a') (x : α) : Tallies R (Pure.pure x) (Pure.pure x) a a' := ⟨rfl, h⟩

theorem throw (h : R a a') (f : Fault) :
    Tallies R (MonadExcept.throw f : Assemble α) (MonadExcept.throw f) a a' := ⟨rfl, h⟩

theorem bind {m m' : Assemble β} {k k' : β → Assemble α} (hm : Tallies R m m' a a')
    (hk : ∀ x t t', R t t' → Tallies R (k x) (k' x) t t') :
    Tallies R (m >>= k) (m' >>= k') a a' := by
  obtain ⟨hr, ht⟩ := hm
  unfold Tallies
  rw [run_bind, run_bind]
  rcases hrun : m.run.run a with ⟨r, t⟩
  rcases hrun' : m'.run.run a' with ⟨r', t'⟩
  rw [hrun, hrun'] at hr ht
  obtain rfl : r = r' := hr
  cases r with
  | ok x => exact hk x t t' ht
  | error f => exact ⟨rfl, ht⟩

theorem check (h : R a a') (r : Except Fault α) :
    Tallies R (Assembler.check r) (Assembler.check r) a a' := by
  cases r with
  | ok x => exact pure h x
  | error f => exact throw h f

theorem after_get {k k' : Assembler → Assemble α} (h : Tallies R (k a) (k' a') a a') :
    Tallies R (MonadState.get >>= k) (MonadState.get >>= k') a a' := h

theorem after_get_right {m : Assemble α} {k' : Assembler → Assemble α}
    (h : Tallies R m (k' a') a a') : Tallies R m (MonadState.get >>= k') a a' := h

theorem after_modify {g g' : Assembler → Assembler} {k k' : PUnit → Assemble α}
    (h : Tallies R (k ⟨⟩) (k' ⟨⟩) (g a) (g' a')) :
    Tallies R (modify g >>= k) (modify g' >>= k') a a' := h

theorem refuse {c : Prop} [Decidable c] {f : Fault} {k : β → Assemble α} {m m' : Assemble α}
    (h : R a a') (hm : Tallies R m m' a a') :
    Tallies R (if c then MonadExcept.throw f >>= k else m)
      (if c then MonadExcept.throw f >>= k else m') a a' := by
  split
  · exact throw h f
  · exact hm

theorem forM {g : β → Assemble PUnit} {xs : List β} (h : R a a')
    (hg : ∀ x ∈ xs, ∀ t t', R t t' → Tallies R (g x) (g x) t t') :
    Tallies R (xs.forM g) (xs.forM g) a a' := by
  induction xs generalizing a a' with
  | nil => exact pure h _
  | cons x xs ih =>
      exact (hg x (by simp) a a' h).bind fun _ t t' ht =>
        ih ht fun y hy => hg y (List.mem_cons_of_mem x hy)

/-- The second loop may take further steps, if they do nothing that counts. -/
theorem forIn_append {g : β → PUnit → Assemble (ForInStep PUnit)} {xs ys : List β} (h : R a a')
    (hg : ∀ x ∈ xs, ∀ t t', R t t' → Tallies R (g x ⟨⟩) (g x ⟨⟩) t t')
    (hrest : ∀ t t', R t t' → Tallies R (Pure.pure ⟨⟩) (ForIn.forIn ys PUnit.unit g) t t') :
    Tallies R (ForIn.forIn xs PUnit.unit g) (ForIn.forIn (xs ++ ys) PUnit.unit g) a a' := by
  induction xs generalizing a a' with
  | nil => exact hrest a a' h
  | cons x xs ih =>
      rw [List.cons_append, List.forIn_cons, List.forIn_cons]
      refine (hg x (by simp) a a' h).bind fun r t t' ht => ?_
      cases r with
      | done u => exact pure ht u
      | yield u => exact ih ht fun y hy => hg y (List.mem_cons_of_mem x hy)

theorem forIn {g : β → PUnit → Assemble (ForInStep PUnit)} {xs : List β} (h : R a a')
    (hg : ∀ x ∈ xs, ∀ t t', R t t' → Tallies R (g x ⟨⟩) (g x ⟨⟩) t t') :
    Tallies R (ForIn.forIn xs PUnit.unit g) (ForIn.forIn xs PUnit.unit g) a a' := by
  have happend : Tallies R (ForIn.forIn xs PUnit.unit g) (ForIn.forIn (xs ++ []) PUnit.unit g) a a' :=
    forIn_append h hg fun t t' ht => pure ht _
  rwa [List.append_nil] at happend

end Tallies

/-- What the one module has besides pools and bodies, the other has as well. -/
theorem Spares.exists_eq (h : a.Spares a') : ∃ body ps bs, Option.Rel Body.Spares a.body body ∧
    List.Forall₂ Body.Spares a.defined bs ∧
      a' = { a with body := body, pools := ps, defined := bs } :=
  ⟨_, _, _, h.body, h.defined, h.rest⟩

theorem Spares.current? (h : a.Spares a') : Option.Rel Body.Spares a.current? a'.current? := by
  have hstage : a'.stage = a.stage := by rw [h.rest]
  unfold Assembler.current?
  rw [hstage]
  cases a.stage with
  | fresh => exact .none
  | opened => exact h.body
  | closed => exact .none

theorem tallies_defineDatum (h : a.Spares a') (id : DatumId) (d : Datum) :
    Tallies Spares (defineDatum id d) (defineDatum id d) a a' := by
  obtain ⟨s, ps, bs, hs, hbs, rfl⟩ := h.exists_eq
  refine .after_get ?_
  dsimp only
  split
  · exact .pure h _
  · cases a.symbols.find? d.name with
    | none => exact ⟨rfl, rfl, hs, hbs⟩
    | some s =>
        cases s with
        | function => exact .throw h _
        | datum => exact .throw h _

theorem tallies_defineData (h : a.Spares a') : Tallies Spares defineData defineData a a' := by
  obtain ⟨s, ps, bs, -, -, rfl⟩ := h.exists_eq
  refine .after_get (.bind (.forIn h fun x _ t t' ht => ?_) fun _ t t' ht => .pure ht _)
  exact (tallies_defineDatum ht _ _).bind fun _ t t' ht => .pure ht _

theorem tallies_declareFunction (h : a.Spares a') (id : FunctionId) :
    Tallies Spares (declareFunction id) (declareFunction id) a a' := by
  obtain ⟨s, ps, bs, hs, hbs, rfl⟩ := h.exists_eq
  refine .after_get ?_
  dsimp only
  split
  · exact .pure h _
  · cases a.declarations.function id with
    | error f => exact .throw h f
    | ok signature =>
        change Tallies Spares (if a.symbols.find? signature.name = some .datum then _ else _)
          (if a.symbols.find? signature.name = some .datum then _ else _) _ _
        exact .refuse h ⟨rfl, rfl, hs, hbs⟩

/-- A body with numbers to spare is defined where the other one is. -/
theorem tallies_define {b b' : Body} (h : a.Spares a') (hb : b.Spares b')
    (horder : b'.checkOrder = b.checkOrder) (hformed : b'.isWellFormed = b.isWellFormed) :
    Tallies Spares (define b) (define b') a a' := by
  unfold define
  rw [hb.id, hb.callees, horder, hformed, hb.name]
  refine (tallies_defineData h).bind fun _ _ _ h => ?_
  refine (tallies_declareFunction h _).bind fun _ _ _ h => ?_
  refine (Tallies.forM h fun id _ _ _ h => tallies_declareFunction h id).bind fun _ _ _ h => ?_
  refine (Tallies.check h _).bind fun _ a a' h => .refuse h ?_
  obtain ⟨s, ps, bs, hs, hbs, rfl⟩ := h.exists_eq
  exact ⟨rfl, rfl, hs, List.rel_append hbs (.cons hb .nil)⟩

theorem tallies_defineHelpers (h : a.Spares a') : Tallies Spares defineHelpers defineHelpers a a' := by
  obtain ⟨s, ps, bs, hs, hbs, rfl⟩ := h.exists_eq
  refine .after_get (.after_modify (.bind (.forIn ⟨rfl, hs, hbs⟩ fun r _ t t' ht => ?_)
    fun _ t t' ht => .pure ht _))
  obtain ⟨s, ps, bs, -, -, rfl⟩ := ht.exists_eq
  refine .after_get ((Tallies.check ht _).bind fun _ _ _ ht => ?_)
  refine (Tallies.check ht _).bind fun b _ _ ht => ?_
  exact (tallies_define ht (.refl b) rfl rfl).bind fun _ _ _ ht => .pure ht _

/-- Ending the function has the same outcome, whatever numbers it has to spare. -/
theorem tallies_endFunction (h : a.Spares a') (ha : a.Typed) :
    Tallies Spares endFunction endFunction a a' := by
  obtain ⟨body, ps, bs, -, hbs, rfl⟩ := h.exists_eq
  have hcurrent := h.current?
  generalize hb : a.current? = x, hb' : current? { a with body, pools := ps, defined := bs } = x'
    at hcurrent
  unfold Tallies
  cases hcurrent with
  | none =>
      rw [run_endFunction_of_not_opened (a := a) (by simp [hb]),
        run_endFunction_of_not_opened (by simp [hb'])]
      exact ⟨rfl, h⟩
  | @some b b' hspares =>
      have hreturn := hspares.implicitReturn
      generalize hr : implicitReturn b = r, hr' : implicitReturn b' = r' at hreturn
      cases hreturn with
      | error f =>
          rw [run_endFunction_of_error hb hr, run_endFunction_of_error hb' hr']
          exact ⟨rfl, h⟩
      | @ok c c' hc =>
          have ht : c.Typed a.declarations := implicitReturn_typed (ha.opened b hb) hr
          rw [run_endFunction_of_ok hb hr, run_endFunction_of_ok hb' hr']
          exact (tallies_define ⟨rfl, .none, hbs⟩ hc (hc.checkOrder ht) (hc.isWellFormed ht)).bind
            fun _ _ _ h => tallies_defineHelpers h

/-- Numbers to spare do not show in the listing. -/
theorem Spares.listing (h : a.Spares a') : a'.listing = a.listing := by
  have hname : a'.name = a.name := by rw [h.rest]
  have hbodies : a'.defined.map Body.listing = a.defined.map Body.listing := by
    have hdefined := h.defined
    generalize a.defined = bs, a'.defined = bs' at hdefined
    induction hdefined with
    | nil => rfl
    | cons hb _ ih => rw [List.map_cons, List.map_cons, hb.listing, ih]
  rw [Assembler.listing, Assembler.listing, hname, hbodies]

end Assembler

end Dataflow.Code
