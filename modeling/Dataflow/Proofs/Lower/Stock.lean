import Dataflow.Proofs.Lower.Build
import Dataflow.Proofs.Lower.Regular
import Dataflow.Proofs.Lower.Sequence

/-!
# What is in store while a transform is lowered

The nodes of a transform are lowered one after the other by whatever regular code they have. At each
position of their order, and in the middle of each node, a port that is still to be read has storage,
and no two buffers that are in use share a slot or a place in the frame. Each is large enough for the
values that belong in it.
-/

namespace Dataflow

open Code (Assembler CountedLoop Emit Emitter Param StackBuffer ValueId)

namespace Graph

/-- The port is read by one of the nodes, or it is copied to the output. -/
def Awaits (g : Graph) (selection : Selection) (nodes : List Key) (p : Port) : Prop :=
  (∃ k ∈ nodes, g.ReadsPort k p) ∨ ∃ a ∈ selection.spans, a.port = p

/-- The type and the number of the values of a port, or of an inlet of the node that is lowered. -/
def Contents (g : Graph) (inlets : List Inlet) : Port ⊕ Nat → ElemType → Nat → Prop
  | .inl p, t, n => ∃ o, g.outlet p = .ok o ∧ o.elemType = t ∧ o.size = some n
  | .inr i, t, n => ∃ l, inlets[i]? = some l ∧ l.selection.elemType? = some t ∧ l.selection.size = n

end Graph

namespace Lower

/-- The storage at a position of the order. What has been computed and is still to be read is there.
Buffers of ports and of gathered inputs are apart, and their places are large enough. -/
structure Secure (g : Graph) (input : Key) (selection : Selection) (order : List Key) (n : Nat)
    (inlets : List Inlet) (s : LowerState) : Prop where
  stored : ∀ p, p = ⟨input, 0⟩ ∨ p.node ∈ order.take n → g.Awaits selection (order.drop n) p →
    s.storage.contains p = true
  apart : ∀ w w' b b', s.buffer? w = some b → s.buffer? w' = some b' → w ≠ w' →
    b.slot ≠ b'.slot ∧ b.place ≠ b'.place
  room : ∀ w b, s.buffer? w = some b → ∃ t count, g.Contents inlets w t count ∧
    ∃ bytes, s.emitter.body.stack[b.place.index]? = some bytes ∧ count * t.ty.size ≤ bytes

structure Stocked (g : Graph) (input : Key) (selection : Selection) (done rest : List Key)
    (inlets : List Inlet) (s : LowerState) : Prop where
  orderly : s.Orderly
  sized : ∀ w b, s.buffer? w = some b → ∃ t, g.Contents inlets w t b.length ∧ b.ty = t.ty
  input : ∃ st, s.storage.find? ⟨input, 0⟩ = some st ∧ ∀ b, st ≠ .stack b
  stored : ∀ p o, g.outlet p = .ok o → p.node ∈ done → g.Awaits selection rest p →
    ∃ st, s.storage.find? p = some st

namespace Stocked

variable {g : Graph} {input : Key} {selection : Selection} {done rest order : List Key}
  {inlets : List Inlet} {s s' : LowerState} {n : Nat}

theorem secure (h : Stocked g input selection (order.take n) (order.drop n) inlets s)
    (hlive : ∀ p, g.Awaits selection order p → ∃ o, g.outlet p = .ok o) :
    Secure g input selection order n inlets s where
  stored p hp hread := by
    rw [Table.contains, Option.isSome_iff_exists]
    rcases hp with rfl | hp
    · obtain ⟨st, hst, -⟩ := h.input
      exact ⟨st, hst⟩
    · obtain ⟨o, ho⟩ := hlive p (hread.imp_left (Exists.imp fun _ => And.imp_left List.mem_of_mem_drop))
      exact h.stored p o ho hp hread
  apart w w' b b' hb hb' hne := by
    have hslot : b.slot ≠ b'.slot := fun heq => hne (h.orderly.distinct w w' b b' hb hb' heq)
    exact ⟨hslot, fun hplace => hslot
      ((h.orderly.held w b hb).place_injective h.orderly.tidy (h.orderly.held w' b' hb') hplace)⟩
  room w b hb := by
    obtain ⟨t, hcontents, ht⟩ := h.sized w b hb
    obtain ⟨bytes, hbytes, hfit⟩ := (h.orderly.held w b hb).room
    exact ⟨t, b.length, hcontents, bytes, hbytes, ht ▸ hfit⟩

theorem remarked (h : Stocked g input selection done rest inlets s) (remarks : List Remark) :
    Stocked g input selection done rest inlets { s with remarks } :=
  ⟨h.orderly.of_grows (.refl _) fun _ _ hb => hb, h.sized, h.input, h.stored⟩

/-- A node starts with inputs that have not been gathered. -/
theorem entered (h : Stocked g input selection done rest [] s) (m : Nat) (remarks : List Remark) :
    Stocked g input selection done rest inlets
      { s with gathered := List.replicate m none, remarks } := by
  refine ⟨h.orderly.of_grows (.refl _) fun _ _ hb => (LowerState.buffer_ungathered hb).1,
    fun w b hb => ?_, h.input, h.stored⟩
  obtain ⟨hb, p, rfl⟩ := LowerState.buffer_ungathered hb
  exact h.sized _ b hb

/-- Code that gives back nothing but what it has taken leaves everything in its place. -/
theorem of_attends {k : Key} {e : Entry} (h : Stocked g input selection done rest e.inlets s)
    (he : g.entry? k = some e) (hports : ∀ (i : Nat) (o : Outlet), e.outlets[i]? = some o → o.port = ⟨k, i⟩) {m : Nat}
    (hs : s.Attends ⟨e.toSite, m⟩ [] s') : Stocked g input selection done rest e.inlets s' where
  orderly := hs.orderly h.orderly LowerState.aside_nil
  sized w b hb := by
    rcases hs.buffers h.orderly LowerState.aside_nil w b hb with hb | ⟨-, hsuits, -⟩
    · exact h.sized w b hb
    · cases w with
      | inl p =>
          obtain ⟨o, ho, rfl, hty, hsize⟩ := hsuits
          obtain ⟨i, hi⟩ := List.mem_iff_getElem?.1 ho
          refine ⟨o.elemType, ⟨o, ?_, rfl, hsize⟩, hty⟩
          rw [hports i o hi]
          exact Graph.outlet_eq_ok_iff.2 ⟨e, he, hi⟩
      | inr i =>
          obtain ⟨l, t, hl, ht, hty, hlen⟩ := hsuits
          exact ⟨t, ⟨l, hl, ht, hlen.symm⟩, hty⟩
  input := by
    obtain ⟨st, hst, hnot⟩ := h.input
    have hfull : s'.storage.find? ⟨input, 0⟩ ≠ none := fun hnone => by
      have hvacant := hs.vacant (.inl ⟨input, 0⟩) hnone
      cases hst.symm.trans hvacant
    obtain ⟨st', hst'⟩ := Option.ne_none_iff_exists'.1 hfull
    refine ⟨st', hst', ?_⟩
    rintro b rfl
    rcases hs.buffers h.orderly LowerState.aside_nil _ b (LowerState.buffer_inl.2 hst') with
      hb | ⟨hvacant, -⟩
    · exact hnot b (Option.some.inj (hst.symm.trans (LowerState.buffer_inl.1 hb)))
    · cases hst.symm.trans hvacant
  stored p o ho hp hread := by
    obtain ⟨st, hst⟩ := h.stored p o ho hp hread
    refine Option.ne_none_iff_exists'.1 fun hnone => ?_
    cases hst.symm.trans (hs.vacant (.inl p) hnone)

/-- A node is finished when its outlets have storage. -/
theorem of_finish {k : Key} {e : Entry} {m : Nat} {u : Unit}
    (h : Stocked g input selection done (k :: rest) e.inlets s) (he : g.entry? k = some e)
    (hs : Lowers ⟨e.toSite, m⟩ finish s u s')
    (hports : ∀ (i : Nat) (o : Outlet), e.outlets[i]? = some o → o.port = ⟨k, i⟩) :
    Stocked g input selection (done ++ [k]) (k :: rest) [] { s' with gathered := [] } := by
  obtain ⟨-, hstorage⟩ := succeeds_finish hs
  refine ⟨orderly_of_finish hs h.orderly, fun w b hb => ?_, ?_, fun p o ho hp hread => ?_⟩
  · cases w with
    | inr i => cases hb
    | inl p =>
        refine h.sized (.inl p) b ?_
        rw [LowerState.buffer_inl] at hb ⊢
        exact hstorage ▸ hb
  · exact hstorage ▸ h.input
  · change ∃ st, s'.storage.find? p = some st
    rw [hstorage]
    rcases List.mem_append.1 hp with hp | hp
    · exact h.stored p o ho hp hread
    · obtain ⟨e', he', hi⟩ := Graph.outlet_eq_ok_iff.1 ho
      rw [List.mem_singleton.1 hp, he] at he'
      obtain rfl := Option.some.inj he'
      obtain ⟨st, hst⟩ := stored_of_finish hs (List.mem_of_getElem? hi)
      refine ⟨st, ?_⟩
      rw [← hst, hports _ o hi, ← List.mem_singleton.1 hp]

/-- Ports whose last use has passed may lose their buffers. -/
theorem of_sheds {k : Key} (h : Stocked g input selection (done ++ [k]) (k :: rest) [] s)
    (horder : order = done ++ k :: rest)
    (hs : LowerState.Sheds (releasedAt (lastUses g order) (selection.spans.map (·.port)) done.length)
      s s') : Stocked g input selection (done ++ [k]) rest [] s' where
  orderly := hs.orderly h.orderly
  sized w b hb := by
    refine h.sized w b ?_
    cases w with
    | inl p => exact LowerState.buffer_inl.2 (hs.storage p _ (LowerState.buffer_inl.1 hb))
    | inr i => exact (congrArg (fun g => g[i]?.join) hs.gathered).symm.trans hb
  input := by
    obtain ⟨st, hst, hnot⟩ := h.input
    refine ⟨st, (hs.kept _ (.inr fun b hb => ?_)).trans hst, hnot⟩
    exact hnot b (Option.some.inj (hst.symm.trans hb))
  stored p o ho hp hread := by
    have hlater : g.Awaits selection (k :: rest) p :=
      hread.imp_left fun ⟨j, hj, hjp⟩ => ⟨j, List.mem_cons_of_mem k hj, hjp⟩
    obtain ⟨st, hst⟩ := h.stored p o ho hp hlater
    refine ⟨st, (hs.kept p (.inl (not_mem_releasedAt horder (hread.symm.imp_left ?_)))).trans hst⟩
    rintro ⟨a, ha, rfl⟩
    exact List.mem_map_of_mem ha

end Stocked

/-- The state that `m` leaves when it is run for a node after the node has been announced. -/
def within {α : Type} (g : Graph) (e : Entry) (m : Lower α) (s : LowerState) : LowerState :=
  (((do emit (Emit.location s!"{e.typeName} {e.id.text}"); m : Lower α).run
    ⟨e.toSite, g.size⟩).run.run { s with gathered := List.replicate e.inlets.length none }).2

structure Tractable (g : Graph) : Prop where
  ports : ∀ k e, g.entry? k = some e → ∀ (i : Nat) (o : Outlet), e.outlets[i]? = some o →
    o.port = ⟨k, i⟩
  regular : ∀ k e, g.entry? k = some e → Regular e.node.lower

section Nodes

variable {g : Graph} {input : Key} {selection : Selection} {done rest order : List Key}
  {s : LowerState} {t t' : Assembler × Progress} {k : Key} {u : Unit}

theorem attends_within {α : Type} {m : Lower α} (e : Entry) (hm : Regular m) :
    LowerState.Attends ⟨e.toSite, g.size⟩ []
      { s with gathered := List.replicate e.inlets.length none } (within g e m s) :=
  ((serves_emit (Emit.leaves_location _)).mono fun _ _ _ => LowerState.Serves.attends).bind
    (fun _ => hm.attends) ⟨e.toSite, g.size⟩ _

/-- While a node is lowered, whatever regular code has been run for it, everything stays in its
place. -/
theorem Stocked.within {α : Type} {m : Lower α} {e : Entry} (h : Stocked g input selection done rest [] s)
    (hg : Tractable g) (he : g.entry? k = some e) (hm : Regular m) :
    Stocked g input selection done rest e.inlets (Lower.within g e m s) :=
  (h.entered e.inlets.length s.remarks).of_attends he (hg.ports k e he) (attends_within e hm)

/-- A node is finished in the state that its code leaves. -/
theorem lowers_within {e : Entry} {e₁ : Emitter} {remarks : List Remark} {s' : LowerState}
    (hlocation : Succeeds (Emit.location s!"{e.typeName} {e.id.text}") s.emitter () e₁)
    (h : Lowers ⟨e.toSite, g.size⟩ (do e.node.lower; finish)
      { s with emitter := e₁, gathered := List.replicate e.inlets.length none, remarks } u s') :
    Lowers ⟨e.toSite, g.size⟩ finish (Lower.within g e e.node.lower { s with remarks }) u s' := by
  obtain ⟨_, s₁, hnode, hfinish⟩ := lowers_bind.1 h
  have hrun : Lowers ⟨e.toSite, g.size⟩
      (do emit (Emit.location s!"{e.typeName} {e.id.text}"); e.node.lower)
      { s with gathered := List.replicate e.inlets.length none, remarks } () s₁ :=
    lowers_bind.2 ⟨_, _, lowers_emit.2 ⟨e₁, hlocation, rfl⟩, hnode⟩
  rwa [Lower.within, show StateT.run _ _ = _ from hrun]

/-- A node has been lowered, and the ports that it used for the last time still have their buffers. -/
theorem Stocked.of_lowerEntry {e : Entry} {e₁ : Emitter} {t₁ t₂ : Assembler × Progress}
    (h : Stocked g input selection done (k :: rest) [] s) (hg : Tractable g) (he : g.entry? k = some e)
    (hlocation : Succeeds (Emit.location s!"{e.typeName} {e.id.text}") s.emitter () e₁)
    (ht₁ : Holds t₁ { s with emitter := e₁ }) (hentry : Succeeds (lowerEntry g e) t₁ u t₂) :
    ∃ s₂, Holds t₂ s₂ ∧ s₂.gathered = [] ∧
      Stocked g input selection (done ++ [k]) (k :: rest) [] s₂ := by
  obtain ⟨s₂, hlower, ht₂⟩ := succeeds_lowerEntry hentry ht₁
  have hfinish := lowers_within hlocation hlower
  have hregular := hg.regular k e he
  have hsettings : s₂.emitter.settings = e₁.settings := by
    rw [(succeeds_finish hfinish).1.passes.settings, (attends_within e hregular).passes.settings]
    exact (Emit.Linear.straight (Emit.leaves_location _) hlocation).settings.symm
  exact ⟨_, ht₂ hsettings, rfl, ((h.remarked t₁.2.remarks).within hg he hregular).of_finish he
    hfinish (hg.ports k e he)⟩

theorem Stocked.of_lowerNode (h : Stocked g input selection done (k :: rest) [] s)
    (hg : Tractable g) (horder : order = done ++ k :: rest) (ht : Holds t s)
    (hm : Succeeds (lowerNode g (lastUses g order) (selection.spans.map (·.port)) k done.length)
      t u t') : ∃ s', Holds t' s' ∧ s'.gathered = [] ∧
        Stocked g input selection (done ++ [k]) rest [] s' := by
  obtain ⟨e, e₁, t₁, t₂, he, hlocation, ht₁, -, hentry, hports⟩ := succeeds_lowerNode hm ht
  obtain ⟨s₂, ht₂, hgathered, h₂⟩ := h.of_lowerEntry hg he hlocation ht₁ hentry
  obtain ⟨s₃, ht₃, hsheds⟩ := succeeds_releasePorts hports ht₂
  exact ⟨s₃, ht₃, hsheds.gathered.trans hgathered, h₂.of_sheds horder hsheds⟩

/-- As long as nodes can be lowered, what is still to be read stays in store. -/
theorem Stocked.of_lowerNodes {pre : List Key}
    (h : Stocked g input selection done (pre ++ rest) [] s) (hg : Tractable g)
    (horder : order = done ++ (pre ++ rest)) (ht : Holds t s) (hs : s.gathered = [])
    (hm : Succeeds ((pre.zipIdx done.length).forM fun (k, position) =>
      lowerNode g (lastUses g order) (selection.spans.map (·.port)) k position) t u t') :
    ∃ s', Holds t' s' ∧ s'.gathered = [] ∧ Stocked g input selection (done ++ pre) rest [] s' := by
  induction pre generalizing done s t with
  | nil =>
      obtain ⟨-, rfl⟩ := succeeds_pure.1 hm
      exact ⟨s, ht, hs, by rwa [List.append_nil]⟩
  | cons k pre ih =>
      obtain ⟨_, t₁, hnode, hm⟩ := succeeds_bind.1 hm
      obtain ⟨s₁, ht₁, hs₁, h₁⟩ := h.of_lowerNode hg horder ht hnode
      rw [show done.length + 1 = (done ++ [k]).length by simp] at hm
      obtain ⟨s', ht', hs', h'⟩ := ih h₁ (by simp [horder]) ht₁ hs₁ hm
      exact ⟨s', ht', hs', by rwa [List.append_assoc] at h'⟩

end Nodes

/-- The function of a transform up to the position `n` of the order. Gives what the rest needs: the
output, the order and the address of the output. -/
def buildTo (t : Transform) (plan : Plan) (n : Nat) : Build (Selection × List Key × ValueId) := do
  if t.outputs.length ≠ 1 then
    throw (.unsupported (.outputCount t.outputs.length))
  let selection ← liftExcept (t.output 0)
  let order ← liftExcept (t.graph.dependencyOrder [selection])
  assemble (Assembler.beginFunction plan.function [⟨"input", .ptr⟩, ⟨"output", .ptr⟩] none)
  let input ← emitting (Emit.argument "input")
  let output ← emitting (Emit.argument "output")
  modify fun (a, p) => (a, { p with storage := p.storage.insert ⟨t.input, 0⟩ (.argument input) })
  (order.take n).zipIdx.forM fun (k, position) =>
    lowerNode t.graph (lastUses t.graph order) (selection.spans.map (·.port)) k position
  return (selection, order, output)

def buildFrom (t : Transform) (plan : Plan) (n : Nat) :
    Selection × List Key × ValueId → Build Unit := fun (selection, order, output) => do
  ((order.drop n).zipIdx (order.take n).length).forM fun (k, position) =>
    lowerNode t.graph (lastUses t.graph order) (selection.spans.map (·.port)) k position
  let storage := (← get).2.storage
  emitting (copySpans plan.settings storage output selection.spans 0)
  emitting Emit.returnVoid
  assemble Assembler.endFunction

/-- A transform is lowered up to any position of the order first, and from there on then. -/
theorem build_eq (t : Transform) (plan : Plan) (n : Nat) :
    build t plan = buildTo t plan n >>= buildFrom t plan n := by
  have hjoin : ∀ (order : List Key) (f : Key × Nat → Build PUnit) (k : PUnit → Build Unit),
      ((order.take n).zipIdx.forM f >>= fun _ =>
        ((order.drop n).zipIdx (order.take n).length).forM f >>= k) = order.zipIdx.forM f >>= k := by
    intro order f k
    conv_rhs => rw [← List.take_append_drop n order, List.zipIdx_append, Nat.zero_add,
      List.forM_eq_forM, List.forM_append, bind_assoc]
    rfl
  unfold build buildTo
  by_cases h : t.outputs.length ≠ 1
  · rw [if_pos h, if_pos h]
    rfl
  · rw [if_neg h, if_neg h]
    simp only [lowerBody, bind_assoc, pure_bind, buildFrom, hjoin]

section Positions

variable {t : Transform} {plan : Plan} {n : Nat} {r : Selection × List Key × ValueId}
  {t' : Assembler × Progress}

/-- Before the first node there is storage for the input alone. -/
theorem stocked_start {e : Emitter} (he : e.Tidy) (selection : Selection) (order : List Key) :
    Stocked t.graph t.input selection [] order [] (start t e) := by
  have hnone : ∀ w b, (start t e).buffer? w ≠ some b := by
    intro w b hb
    cases w with
    | inr i => cases hb
    | inl q =>
        rw [LowerState.buffer_inl, find?_start] at hb
        split at hb <;> cases hb
  refine ⟨⟨he, fun w b hb => absurd hb (hnone w b), fun w _ b _ hb => absurd hb (hnone w b)⟩,
    fun w b hb => absurd hb (hnone w b), ⟨.argument ⟨0⟩, ?_, nofun⟩, fun _ _ _ hp => ?_⟩
  · rw [find?_start, if_pos rfl]
  · cases hp

theorem stocked_of_buildTo (hg : Tractable t.graph)
    (h : Succeeds (buildTo t plan n) (.new plan.module plan.settings, { storage := ∅ }) r t') :
    t.output 0 = .ok r.1 ∧ t.graph.dependencyOrder [r.1] = .ok r.2.1 ∧
      ∃ s, Holds t' s ∧ s.gathered = [] ∧
        Stocked t.graph t.input r.1 (r.2.1.take n) (r.2.1.drop n) [] s := by
  unfold buildTo at h
  obtain ⟨-, h⟩ := succeeds_refuse.1 h
  obtain ⟨selection, _, houtputs, h⟩ := succeeds_bind.1 h
  obtain ⟨hselection, rfl⟩ := succeeds_liftExcept.1 houtputs
  obtain ⟨order, _, hsorted, h⟩ := succeeds_bind.1 h
  obtain ⟨horder, rfl⟩ := succeeds_liftExcept.1 hsorted
  obtain ⟨_, _, hopen, h⟩ := succeeds_bind.1 h
  obtain ⟨a, hbegin, rfl⟩ := succeeds_assemble hopen
  obtain ⟨e, he, hopening⟩ := exists_opening hbegin
  obtain ⟨i, t₁, hinput, h⟩ := succeeds_bind.1 h
  obtain ⟨a₁, e₁, harg, rfl, ha₁⟩ := succeeds_emitting hinput he
  obtain ⟨rfl, rfl⟩ := (succeeds_arguments hopening).1.1 harg
  obtain ⟨output, t₂, houtput, h⟩ := succeeds_bind.1 h
  obtain ⟨a₂, e₂, harg', rfl, ha₂⟩ := succeeds_emitting houtput (ha₁ rfl)
  obtain ⟨rfl, rfl⟩ := (succeeds_arguments hopening).2.1 harg'
  obtain ⟨_, t₃, hmodify, h⟩ := succeeds_bind.1 h
  obtain rfl := succeeds_modify.1 hmodify
  obtain ⟨_, t₄, hnodes, h⟩ := succeeds_bind.1 h
  obtain ⟨rfl, rfl⟩ := succeeds_pure.1 h
  have hstart := stocked_start (t := t) hopening.tidy selection (order.take n ++ order.drop n)
  have hholds : Holds (a₂, { storage := (∅ : Table Port Storage).insert ⟨t.input, 0⟩ (.argument ⟨0⟩) })
      (start t e₂) := ⟨ha₂ rfl, rfl⟩
  exact ⟨hselection, horder,
    @Stocked.of_lowerNodes _ _ _ [] _ _ _ _ _ _ _ hstart hg (by simp) hholds rfl hnodes⟩

/-- The state of a module whose function is open, between two nodes. -/
def between (b : Code.Body) (t : Assembler × Progress) : LowerState where
  emitter := ⟨b, t.1.declarations, t.1.pools, t.1.settings⟩
  storage := t.2.storage
  remarks := t.2.remarks

theorem Holds.between_eq {s : LowerState} (h : Holds t' s) (hs : s.gathered = []) :
    between s.emitter.body t' = { s with remarks := t'.2.remarks } := by
  rw [between, h.emits.declarations, h.emits.pools, h.emits.settings, h.storage, ← hs]

theorem tractable_of_retains {log : List Key} {t₀ : Transform} (h : Transform.Retains log t₀ t)
    (hregular : ∀ k e, t₀.graph.entry? k = some e → Regular e.node.lower) : Tractable t.graph where
  ports k e he := (h.sound.placed k e he).ports
  regular k e he := by
    obtain ⟨e₀, he₀, hblank⟩ := h.shape.symm.exists_entry he
    rw [← (Graph.toSite_eq_of_blank hblank).2.2.2.2.1]
    exact hregular k e₀ he₀

/-- Whatever the nodes of an order read, and what is copied to the output, is there. -/
theorem outlet_of_awaits {g : Graph} {log : List Key} {selection : Selection} {order : List Key}
    (hg : g.Sound log) (hfit : g.FitsAll selection) (horder : g.dependencyOrder [selection] = .ok order)
    {p : Port} (hp : g.Awaits selection order p) : ∃ o, g.outlet p = .ok o := by
  obtain ⟨hlive, -, hneeded, -⟩ := hg.of_dependencyOrder
    (List.forall_mem_singleton.2 ⟨_, Graph.resolve_of_fitsAll hfit⟩) horder
  rcases hp with ⟨k, hk, s, hs, a, ha, rfl⟩ | ⟨a, ha, rfl⟩
  · cases he : g.entry? k with
    | none =>
        rw [Graph.selections, he] at hs
        cases hs
    | some e =>
        rw [Graph.selections_eq he] at hs
        obtain ⟨i, hi, rfl⟩ := List.mem_map.1 hs
        obtain ⟨o, ho, -⟩ := (hg.fitsAll (hlive k ((hneeded k).1 hk)) he hi).2 a ha
        exact ⟨o, ho⟩
  · obtain ⟨o, ho, -⟩ := hfit.2 a ha
    exact ⟨o, ho⟩

/-- The storage of a port is there as long as the port is to be read, and is shared with nothing
else. This holds at any position that the lowering of a transform gets to, whatever calls there have
been before, and whatever regular code has been run for the node at that position. -/
theorem secure_of_buildTo {log : List Key} {graph : Graph} {inputs : List (String × Key)}
    {outputs : List (String × Selection)} {t₀ : Transform} {selection : Selection}
    {order : List Key} {output : ValueId} (hgraph : Graph.History log graph)
    (hnew : Transform.new graph inputs outputs = .ok t₀)
    (hregular : ∀ k e, graph.entry? k = some e → Regular e.node.lower)
    (calls : List Transform.Call) (ht : t = calls.foldl Transform.after t₀)
    (h : Succeeds (buildTo t plan n) (.new plan.module plan.settings, { storage := ∅ })
      (selection, order, output) t') :
    ∃ b, t'.1.current? = some b ∧
      Secure t.graph t.input selection order n [] (between b t') ∧
      ∀ k e, order[n]? = some k → t.graph.entry? k = some e →
        ∀ (α : Type) (m : Lower α), Regular m →
          Secure t.graph t.input selection order n e.inlets (within t.graph e m (between b t')) := by
  have hsame : t₀.graph = graph := (Transform.new_eq_ok hnew).1
  have hretains : Transform.Retains log t₀ t :=
    ht ▸ Transform.Retains.foldl ⟨rfl, rfl, .refl _, hsame ▸ hgraph.sound⟩ calls
  have hg := tractable_of_retains hretains (hsame ▸ hregular)
  obtain ⟨hselection, horder, s, hholds, hgathered, hs⟩ := stocked_of_buildTo hg h
  have houtput : t₀.output 0 = .ok selection := by
    rw [← hselection, Transform.output, Transform.output, hretains.outputs]
  have hfit := hretains.shape.fitsAll (hsame ▸ (Transform.fitsAll_of_new hnew houtput).1)
  have hlive := fun p => outlet_of_awaits (p := p) hretains.sound hfit horder
  refine ⟨s.emitter.body, hholds.emits.opened, ?_⟩
  rw [hholds.between_eq hgathered]
  have hstocked := hs.remarked t'.2.remarks
  exact ⟨hstocked.secure hlive, fun k e _ he α m hm => (hstocked.within hg he hm).secure hlive⟩

/-- Built-in nodes are lowered by regular code. -/
theorem regular_of_nodes {g : Graph} {log : List Key} {kind : Key → Builtin}
    (hg : Graph.History log g)
    (hnodes : ∀ k ∈ g.order, ∀ e, g.entry? k = some e → e.node = (kind k).toNode) (k : Key)
    (e : Entry) (he : g.entry? k = some e) : Regular e.node.lower := by
  have hk : k ∈ g.order := (hg.sound.mem_order_iff k).2 (Graph.live_of_entry he)
  rw [hnodes k hk e he]
  exact Builtin.regular_lower _

def swapped (k : Key) : Selection :=
  ⟨[⟨⟨k, 0⟩, .boolean, 1, 1, 2, true⟩, ⟨⟨k, 0⟩, .boolean, 0, 1, 2, true⟩]⟩

theorem accepts_not : Code.UnaryOp.not.accepts ElemType.boolean.ty = true := rfl

/-- An input of two truth values, and nodes that swap and negate what the one before them has. -/
def negation (k : Key) : Builtin :=
  if k.slot = 0 then .input .boolean (some 2)
  else .unary .boolean .not ⟨swapped ⟨k.slot - 1, 1⟩⟩ accepts_not

def negations : Graph :=
  (Graph.replay [.addNumbered 0 (negation ⟨0, 1⟩).toNode, .addNumbered 1 (negation ⟨1, 1⟩).toNode,
    .addNumbered 2 (negation ⟨2, 1⟩).toNode, .addNumbered 3 (negation ⟨3, 1⟩).toNode]).2

theorem regular_negations (k : Key) (e : Entry) (he : negations.entry? k = some e) :
    Regular e.node.lower := by
  refine @regular_of_nodes negations _ negation (Graph.history_replay _) (fun k hk e he => ?_) k e he
  have horder : negations.order = [⟨0, 1⟩, ⟨1, 1⟩, ⟨2, 1⟩, ⟨3, 1⟩] := by decide +kernel
  rw [horder] at hk
  fin_cases hk <;>
  · obtain rfl := Option.some.inj he
    rfl

def negator : Transform := ⟨negations, "input", ⟨0, 1⟩, [("output", Transform.pair ⟨3, 1⟩)]⟩

/-- When the code for the last node has been emitted, what it reads is still there, also if the node
works in a buffer of its own. -/
theorem secure_negator : ∃ t' b e,
    Succeeds (buildTo negator {} 3) (.new "flowc_module" {}, { storage := ∅ })
      (Transform.pair ⟨3, 1⟩, [⟨0, 1⟩, ⟨1, 1⟩, ⟨2, 1⟩, ⟨3, 1⟩], ⟨1⟩) t' ∧
    t'.1.current? = some b ∧ negations.entry? ⟨3, 1⟩ = some e ∧
    (within negations e e.node.lower (between b t')).storage.contains ⟨⟨2, 1⟩, 0⟩ = true ∧
    (within negations e (withScratch .f64 5 fun _ => e.node.lower) (between b t')).storage.contains
      ⟨⟨2, 1⟩, 0⟩ = true := by
  have hrun : ((buildTo negator {} 3).run.run (.new "flowc_module" {}, { storage := ∅ })).1.toOption.map
      (fun r => (r.1.spans, r.2)) =
        some ((Transform.pair ⟨3, 1⟩).spans, [⟨0, 1⟩, ⟨1, 1⟩, ⟨2, 1⟩, ⟨3, 1⟩], ⟨1⟩) := by
    have horder : negator.graph.dependencyOrder [Transform.pair ⟨3, 1⟩] =
        .ok [⟨0, 1⟩, ⟨1, 1⟩, ⟨2, 1⟩, ⟨3, 1⟩] := by cbv
    have hone : negator.outputs.length = 1 := rfl
    have hselection : negator.output 0 = .ok (Transform.pair ⟨3, 1⟩) := rfl
    unfold buildTo
    rw [if_neg (not_not.2 hone), hselection, run_of_succeeds (succeeds_liftExcept.2 ⟨rfl, rfl⟩),
      horder, run_of_succeeds (succeeds_liftExcept.2 ⟨rfl, rfl⟩)]
    decide +kernel
  obtain ⟨⟨⟨_⟩, _⟩, hr, hparts⟩ := Option.map_eq_some_iff.1 hrun
  obtain ⟨rfl, rfl⟩ := Prod.mk.inj hparts
  have hbuild : Succeeds (buildTo negator {} 3) _ _ _ := Prod.ext (toOption_eq_some_iff.1 hr) rfl
  have hnew : Transform.new negations [("input", ⟨0, 1⟩)] negator.outputs = .ok negator := rfl
  obtain ⟨b, hb, -, hsecure⟩ :=
    secure_of_buildTo (Graph.history_replay _) hnew regular_negations [] rfl hbuild
  obtain ⟨e, he⟩ : ∃ e, negations.entry? ⟨3, 1⟩ = some e := ⟨_, rfl⟩
  have hselections : negations.selections ⟨3, 1⟩ = [swapped ⟨2, 1⟩] := rfl
  have hreads : negations.ReadsPort ⟨3, 1⟩ ⟨⟨2, 1⟩, 0⟩ := by
    rw [Graph.ReadsPort, hselections]
    exact ⟨_, List.mem_singleton_self _, _, List.mem_cons_self, rfl⟩
  have hstored : ∀ m : Lower Unit, Regular m →
      (within negations e m (between b _)).storage.contains ⟨⟨2, 1⟩, 0⟩ = true := fun m hm =>
    (hsecure ⟨3, 1⟩ e rfl he _ m hm).stored _ (.inr (by decide)) (.inl ⟨⟨3, 1⟩, by decide, hreads⟩)
  have hregular := regular_negations _ e he
  exact ⟨_, b, e, hbuild, hb, he, hstored _ hregular, hstored _ (.withScratch .f64 5 fun _ => hregular)⟩

end Positions

end Lower

end Dataflow
