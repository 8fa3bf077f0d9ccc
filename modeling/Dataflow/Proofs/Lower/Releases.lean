import Dataflow.Lower.Compiled
import Dataflow.Proofs.Lower.Stock

/-!
# The order of releases

After each node the buffers of the ports that it uses for the last time go back to the pool. In which
order they do makes no difference. Releasing a port takes its entry out of the storage table and puts
one index into the sorted list of free slots, and such steps commute; between two nodes no two ports
share a buffer, so no release can fail, in whatever order they come.
-/

namespace Dataflow

open Code (Assembler Emit Emitter ValueId)

section Runs

variable {σ α β : Type}

/-- Two computations go on alike if they begin alike and go on alike from wherever the first step
leads. -/
theorem run_bind_congr {m m' : ExceptT Fault (StateM σ) β} {f f' : β → ExceptT Fault (StateM σ) α}
    {s : σ} (hm : m.run.run s = m'.run.run s)
    (hf : ∀ b t, Succeeds m s b t → (f b).run.run t = (f' b).run.run t) :
    (m >>= f).run.run s = (m' >>= f').run.run s := by
  rw [run_bind, run_bind, ← hm]
  rcases h : m.run.run s with ⟨r, t⟩
  cases r with
  | error e => rfl
  | ok b => exact hf b t h

end Runs

namespace Code

theorem Pool.insertSorted_comm (m n : Nat) (l : List Nat) :
    Pool.insertSorted m (Pool.insertSorted n l) = Pool.insertSorted n (Pool.insertSorted m l) := by
  by_cases hmn : m = n
  · rw [hmn]
  induction l with
  | nil =>
      simp only [Pool.insertSorted]
      split <;> split <;> first | omega | rfl
  | cons k l ih =>
      by_cases hm : m < k
      · by_cases hn : n < k
        · simp only [Pool.insertSorted, if_pos hm, if_pos hn]
          split <;> split <;> first | omega | rfl
        · have hnm : ¬ n < m := by omega
          simp only [Pool.insertSorted, if_pos hm, if_neg hn, if_neg hnm]
      · by_cases hn : n < k
        · have hmn : ¬ m < n := by omega
          simp only [Pool.insertSorted, if_neg hm, if_pos hn, if_neg hmn]
        · simp only [Pool.insertSorted, if_neg hm, if_neg hn, ih]

namespace Pools

def giveBack (ps : Pools) (s : Slot) : Pools :=
  ps.set s.scope { ps.get s.scope with free := Pool.insertSorted s.index (ps.get s.scope).free }

theorem release_of_isAllocated {ps : Pools} {s : Slot} (h : (ps.get s.scope).isAllocated s = true) :
    Succeeds (release s) ps () (ps.giveBack s) :=
  succeeds_releaseIn.2 ⟨_, Pool.succeeds_release.2 ⟨h, rfl⟩, rfl⟩

theorem set_set_same (ps : Pools) (scope : Scope) (p p' : Pool) :
    (ps.set scope p).set scope p' = ps.set scope p' := by
  cases scope <;> rfl

theorem set_comm (ps : Pools) {scope scope' : Scope} (p p' : Pool) (h : scope ≠ scope') :
    (ps.set scope p).set scope' p' = (ps.set scope' p').set scope p := by
  cases scope <;> cases scope' <;> first | rfl | exact absurd rfl h

theorem giveBack_comm (ps : Pools) (s s' : Slot) :
    (ps.giveBack s).giveBack s' = (ps.giveBack s').giveBack s := by
  obtain ⟨scope, i⟩ := s
  obtain ⟨scope', j⟩ := s'
  by_cases h : scope = scope'
  · subst h
    simp only [giveBack, get_set_same, set_set_same, Pool.insertSorted_comm]
  · have h' : scope' ≠ scope := Ne.symm h
    simp only [giveBack, get_set_of_ne _ _ h, get_set_of_ne _ _ h']
    exact set_comm ps _ _ h

end Pools

end Code

theorem Table.erase_comm {κ α : Type} [DecidableEq κ] (t : Table κ α) (k k' : κ) :
    (t.erase k).erase k' = (t.erase k').erase k := by
  simp only [Table.erase, List.filter_filter, Bool.and_comm]

namespace Lower

/-- For each position of the dependency order, an order in which its ports are released. -/
structure Arrangement where
  ports : Nat → List Port → List Port
  perm : ∀ position ps, (ports position ps).Perm ps

def Arrangement.given : Arrangement := ⟨fun _ ps => ps, fun _ _ => .refl _⟩

def Arrangement.reversed : Arrangement := ⟨fun _ ps => ps.reverse, fun _ ps => ps.reverse_perm⟩

section Arranged

variable (r : Arrangement)

def lowerNodeArranged (g : Graph) (uses : Table Port Nat) (kept : List Port) (k : Key)
    (position : Nat) : Build Unit := do
  let some e := g.entry? k | throw (.missing .transformNode)
  emitting (Emit.location s!"{e.typeName} {e.id.text}")
  lowerEntry g e
  (r.ports position (releasedAt uses kept position)).forM releasePort

def lowerBodyArranged (t : Transform) (plan : Plan) (selection : Selection) (order : List Key) :
    Build Unit := do
  let input ← emitting (Emit.argument "input")
  let output ← emitting (Emit.argument "output")
  modify fun (a, p) => (a, { p with storage := p.storage.insert ⟨t.input, 0⟩ (.argument input) })
  let uses := lastUses t.graph order
  let kept := selection.spans.map (·.port)
  order.zipIdx.forM fun (k, position) => lowerNodeArranged r t.graph uses kept k position
  let storage := (← get).2.storage
  emitting (copySpans plan.settings storage output selection.spans 0)
  emitting Emit.returnVoid

/-- The lowering of a transform that releases ports in the order of an arrangement. -/
def buildArranged (t : Transform) (plan : Plan) : Build Unit := do
  if t.outputs.length ≠ 1 then
    throw (.unsupported (.outputCount t.outputs.length))
  let selection ← liftExcept (t.output 0)
  let order ← liftExcept (t.graph.dependencyOrder [selection])
  assemble (Assembler.beginFunction plan.function [⟨"input", .ptr⟩, ⟨"output", .ptr⟩] none)
  lowerBodyArranged r t plan selection order
  assemble Assembler.endFunction

end Arranged

theorem buildArranged_given (t : Transform) (plan : Plan) :
    buildArranged .given t plan = build t plan := rfl

end Lower

def Compiled.compileArranged (r : Lower.Arrangement) (t : Transform) (plan : Lower.Plan := {}) :
    Except Fault Compiled × List Remark :=
  let start : Assembler × Lower.Progress := (.new plan.module plan.settings, { storage := ∅ })
  let (result, a, p) := (Lower.buildArranged r t plan).run.run start
  (result.bind fun _ => Compiled.ofAssembler t plan a, p.remarks)

namespace Lower

def shed (t : Assembler × Progress) (p : Port) : Assembler × Progress :=
  match t.2.storage.find? p with
  | some (.stack b) =>
    ({ t.1 with pools := t.1.pools.giveBack b.slot },
      { t.2 with storage := t.2.storage.erase p })
  | _ => t

instance : RightCommutative shed where
  right_comm t p q := by
    by_cases hpq : p = q
    · rw [hpq]
    have hq : (t.2.storage.erase p).find? q = t.2.storage.find? q := by
      rw [Table.find?_erase, if_neg (Ne.symm hpq)]
    have hp : (t.2.storage.erase q).find? p = t.2.storage.find? p := by
      rw [Table.find?_erase, if_neg hpq]
    unfold shed
    rcases hfp : t.2.storage.find? p with _ | (_ | b | _) <;>
      rcases hfq : t.2.storage.find? q with _ | (_ | b' | _) <;>
      simp only [hfp, hfq, hp, hq]
    rw [Code.Pools.giveBack_comm, Table.erase_comm]

section Releases

variable {s : LowerState} {t : Assembler × Progress} {g : Graph} {input k : Key}
  {selection : Selection} {done rest order : List Key}

/-- Between two nodes a port can be released, and it is known what that leaves. -/
theorem succeeds_shed (ht : Holds t s) (hs : s.Orderly) (p : Port) :
    Succeeds (releasePort p) t () (shed t p) := by
  obtain ⟨a, progress⟩ := t
  have hstorage : progress.storage = s.storage := ht.storage
  refine succeeds_bind.2 ⟨_, _, succeeds_get.2 ⟨rfl, rfl⟩, ?_⟩
  unfold shed
  rcases hfind : progress.storage.find? p with _ | (v | b | d)
  case some.stack =>
    have hallocated := (hs.held _ b (LowerState.buffer_inl.2 (hstorage ▸ hfind))).allocated
    have hscope : b.slot.scope = .buffer :=
      (Code.Pool.isAllocated_iff.1 hallocated).1.trans hs.tidy.scope
    have hrelease : Succeeds (Code.Pools.release b.slot) a.pools () (a.pools.giveBack b.slot) := by
      apply Code.Pools.release_of_isAllocated
      rw [hscope, ht.emits.pools]
      exact hallocated
    have hrun : Succeeds (Emit.releaseBuffer b) ⟨s.emitter.body, a.declarations, a.pools, a.settings⟩ ()
        ⟨s.emitter.body, a.declarations, a.pools.giveBack b.slot, a.settings⟩ :=
      Emit.succeeds_release.2 ⟨_, hrelease, rfl⟩
    have hemit := Assembler.run_emit_of_opened ht.emits.opened hrun
    simp only [hfind]
    refine succeeds_bind.2 ⟨⟨⟩, _, succeeds_set.2 rfl, ?_⟩
    refine succeeds_bind.2 ⟨_, _, succeeds_get.2 ⟨rfl, rfl⟩, ?_⟩
    simp only [hemit]
    refine succeeds_bind.2 ⟨⟨⟩, _, succeeds_set.2 rfl, succeeds_liftExcept.2 ⟨rfl, ?_⟩⟩
    rw [← (Assembler.current?_eq_some_iff.1 ht.emits.opened).2]
  all_goals
    simp only [hfind]
    exact succeeds_pure.2 ⟨rfl, rfl⟩

theorem succeeds_sheds (ps : List Port) (ht : Holds t s) (hs : s.Orderly) :
    Succeeds (ps.forM releasePort) t () (ps.foldl shed t) := by
  induction ps generalizing t s with
  | nil => exact succeeds_pure.2 ⟨rfl, rfl⟩
  | cons p ps ih =>
      have hrelease := succeeds_shed ht hs p
      obtain ⟨s', ht', hsheds⟩ := succeeds_releasePort hrelease ht (List.mem_singleton_self p)
      exact succeeds_bind.2 ⟨(), _, hrelease, ih ht' (hsheds.orderly hs)⟩

theorem run_releases_perm {ps ps' : List Port} (h : ps.Perm ps') (ht : Holds t s) (hs : s.Orderly) :
    (ps.forM releasePort).run.run t = (ps'.forM releasePort).run.run t := by
  have hrun := succeeds_sheds ps ht hs
  have hrun' := succeeds_sheds ps' ht hs
  rw [h.foldl_eq] at hrun
  exact hrun.trans hrun'.symm

variable (r : Arrangement)

theorem run_lowerNodeArranged (h : Stocked g input selection done (k :: rest) [] s) (hg : Tractable g)
    (ht : Holds t s) (uses : Table Port Nat) (kept : List Port) (position : Nat) :
    (lowerNodeArranged r g uses kept k position).run.run t =
      (lowerNode g uses kept k position).run.run t := by
  unfold lowerNodeArranged lowerNode
  cases he : g.entry? k with
  | none => rfl
  | some e =>
      refine run_bind_congr rfl fun _ t₁ hlocation => ?_
      refine run_bind_congr rfl fun _ t₂ hentry => ?_
      obtain ⟨a, p⟩ := t
      obtain ⟨a₁, e₁, hemit, rfl, ha₁⟩ := succeeds_emitting hlocation ht.emits
      have hstraight := Emit.Linear.straight (Emit.leaves_location _) hemit
      have ht₁ : Holds (a₁, p) { s with emitter := e₁ } := ⟨ha₁ hstraight.settings, ht.storage⟩
      obtain ⟨s₂, ht₂, -, h₂⟩ := h.of_lowerEntry hg he hemit ht₁ hentry
      exact run_releases_perm (r.perm _ _) ht₂ h₂.orderly

/-- One node after the other is lowered alike, as what is still to be read stays in store. -/
theorem run_lowerNodesArranged (h : Stocked g input selection done rest [] s) (hg : Tractable g)
    (horder : order = done ++ rest) (ht : Holds t s) :
    ((rest.zipIdx done.length).forM fun x => lowerNodeArranged r g (lastUses g order)
      (selection.spans.map fun s => s.port) x.1 x.2).run.run t =
    ((rest.zipIdx done.length).forM fun x => lowerNode g (lastUses g order)
      (selection.spans.map fun s => s.port) x.1 x.2).run.run t := by
  induction rest generalizing done s t with
  | nil => rfl
  | cons k rest ih =>
      have hnode := run_lowerNodeArranged r h hg ht (lastUses g order)
        (selection.spans.map fun s => s.port) done.length
      refine run_bind_congr hnode fun _ t₁ hsucceeds => ?_
      obtain ⟨s₁, ht₁, -, h₁⟩ := h.of_lowerNode hg horder ht (hnode.symm.trans hsucceeds)
      have hrest := ih h₁ (by simp [horder]) ht₁
      rwa [List.length_append, List.length_singleton] at hrest

theorem run_buildArranged {tr : Transform} (hg : Tractable tr.graph) (plan : Plan) :
    (buildArranged r tr plan).run.run (.new plan.module plan.settings, { storage := ∅ }) =
      (build tr plan).run.run (.new plan.module plan.settings, { storage := ∅ }) := by
  unfold buildArranged build
  by_cases houtputs : tr.outputs.length ≠ 1
  · rw [if_pos houtputs, if_pos houtputs]
    exact run_bind_congr rfl fun _ _ h => absurd h succeeds_throw
  rw [if_neg houtputs, if_neg houtputs]
  refine run_bind_congr rfl fun selection t₁ hselection => ?_
  obtain ⟨-, rfl⟩ := succeeds_liftExcept.1 hselection
  refine run_bind_congr rfl fun order t₂ horder => ?_
  obtain ⟨-, rfl⟩ := succeeds_liftExcept.1 horder
  refine run_bind_congr rfl fun _ t₃ hopen => ?_
  obtain ⟨a, hbegin, rfl⟩ := succeeds_assemble hopen
  obtain ⟨e, he, hopening⟩ := exists_opening hbegin
  refine run_bind_congr ?_ fun _ _ _ => rfl
  unfold lowerBodyArranged lowerBody
  refine run_bind_congr rfl fun x t₆ hinput => ?_
  obtain ⟨a₁, e₁, harg, rfl, ha₁⟩ := succeeds_emitting hinput he
  obtain ⟨rfl, rfl⟩ := (succeeds_arguments hopening).1.1 harg
  refine run_bind_congr rfl fun y t₇ houtput => ?_
  obtain ⟨a₂, e₂, harg', rfl, ha₂⟩ := succeeds_emitting houtput (ha₁ rfl)
  obtain ⟨rfl, rfl⟩ := (succeeds_arguments hopening).2.1 harg'
  refine run_bind_congr rfl fun _ t₈ hmodify => ?_
  obtain rfl := succeeds_modify.1 hmodify
  refine run_bind_congr ?_ fun _ _ _ => rfl
  have hstart := stocked_start (t := tr) hopening.tidy selection order
  have hholds : Holds (a₂, { storage := (∅ : Table Port Storage).insert ⟨tr.input, 0⟩ (.argument ⟨0⟩) })
      (start tr e₂) := ⟨ha₂ rfl, rfl⟩
  exact run_lowerNodesArranged r hstart hg rfl hholds

/-- A transform is compiled with the same outcome in whatever order the ports of each position are
released: the same code or the same fault, and the same module when it fails. -/
theorem compile_of_arrangement {log : List Key} {graph : Graph} {inputs : List (String × Key)}
    {outputs : List (String × Selection)} {tr tr₀ : Transform} (hgraph : Graph.History log graph)
    (hnew : Transform.new graph inputs outputs = .ok tr₀)
    (hregular : ∀ k e, graph.entry? k = some e → Regular e.node.lower)
    (calls : List Transform.Call) (htr : tr = calls.foldl Transform.after tr₀) (plan : Plan)
    (r : Arrangement) :
    (buildArranged r tr plan).run.run (.new plan.module plan.settings, { storage := ∅ }) =
        (build tr plan).run.run (.new plan.module plan.settings, { storage := ∅ }) ∧
      Compiled.compileArranged r tr plan = Compiled.compile tr plan := by
  have hsame : tr₀.graph = graph := (Transform.new_eq_ok hnew).1
  have hretains : Transform.Retains log tr₀ tr :=
    htr ▸ Transform.Retains.foldl ⟨rfl, rfl, .refl _, hsame ▸ hgraph.sound⟩ calls
  have hrun := run_buildArranged r (tractable_of_retains hretains (hsame ▸ hregular)) plan
  exact ⟨hrun, congrArg (fun x : Except Fault Unit × Assembler × Progress =>
    (x.1.bind fun _ => Compiled.ofAssembler tr plan x.2.1, x.2.2.remarks)) hrun⟩

/-- Two nodes that swap and negate the values of an input, and a third one that reads from both. -/
def crossing (k : Key) : Builtin :=
  if k.slot = 0 then .input .boolean (some 2)
  else if k.slot = 3 then
    .unary .boolean .not ⟨⟨[⟨⟨⟨1, 1⟩, 0⟩, .boolean, 0, 1, 2, true⟩, ⟨⟨⟨2, 1⟩, 0⟩, .boolean, 1, 1, 2, true⟩]⟩⟩
      accepts_not
  else .unary .boolean .not ⟨swapped ⟨0, 1⟩⟩ accepts_not

def crossings : Graph :=
  (Graph.replay [.addNumbered 0 (crossing ⟨0, 1⟩).toNode, .addNumbered 1 (crossing ⟨1, 1⟩).toNode,
    .addNumbered 2 (crossing ⟨2, 1⟩).toNode, .addNumbered 3 (crossing ⟨3, 1⟩).toNode]).2

theorem regular_crossings (k : Key) (e : Entry) (he : crossings.entry? k = some e) :
    Regular e.node.lower := by
  refine @regular_of_nodes crossings _ crossing (Graph.history_replay _) (fun k hk e he => ?_) k e he
  have horder : crossings.order = [⟨0, 1⟩, ⟨1, 1⟩, ⟨2, 1⟩, ⟨3, 1⟩] := by decide +kernel
  rw [horder] at hk
  fin_cases hk <;>
  · obtain rfl := Option.some.inj he
    rfl

def crosser : Transform := ⟨crossings, "input", ⟨0, 1⟩, [("output", Transform.pair ⟨3, 1⟩)]⟩

/-- After the last node two ports are released, and it makes no difference which one goes first. -/
theorem compile_crosser_reversed :
    releasedAt (lastUses crossings [⟨0, 1⟩, ⟨1, 1⟩, ⟨2, 1⟩, ⟨3, 1⟩]) [⟨⟨3, 1⟩, 0⟩] 3 =
        [⟨⟨2, 1⟩, 0⟩, ⟨⟨1, 1⟩, 0⟩] ∧
      Compiled.compileArranged .reversed crosser = Compiled.compile crosser := by
  have hnew : Transform.new crossings [("input", ⟨0, 1⟩)] crosser.outputs = .ok crosser := rfl
  refine ⟨by decide +kernel, ?_⟩
  exact (compile_of_arrangement (Graph.history_replay _) hnew regular_crossings [] rfl {}
    .reversed).2

end Releases

end Lower

end Dataflow
