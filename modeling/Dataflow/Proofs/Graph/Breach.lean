import Dataflow.Node.Scripted
import Dataflow.Proofs.Graph.Cursor
import Dataflow.Proofs.Graph.Interpretation

/-!
# Calls that end in a breach

A fault is an answer, but a breach stops everything that led to it. The nodes of a graph may write
whatever they like into their outlets, as long as they do so without a breach of their own. Then no
evaluation of the graph ends in a breach, and a call of a transform does so only when values are
set on an input whose vector has come to have another length.
-/

namespace Dataflow

open Dataflow.Graph (History lookup_setOutlets)

def Breaks {α : Type} (x : Except Fault α) : Prop := ∃ b, x = .error (.breach b)

section Breaks

variable {α β : Type}

theorem breaks_bind_iff {x : Except Fault α} {f : α → Except Fault β} :
    Breaks (x >>= f) ↔ Breaks x ∨ ∃ a, x = .ok a ∧ Breaks (f a) := by
  cases x with
  | ok a => simp [Breaks, bind, Except.bind]
  | error e => simp [Breaks, bind, Except.bind]

theorem not_breaks_ok (a : α) : ¬ Breaks (.ok a : Except Fault α) := by
  rintro ⟨b, h⟩
  cases h

theorem not_breaks_bind {x : Except Fault α} {f : α → Except Fault β} (hx : ¬ Breaks x)
    (hf : ∀ a, x = .ok a → ¬ Breaks (f a)) : ¬ Breaks (x >>= f) := by
  rw [breaks_bind_iff, not_or, not_exists]
  exact ⟨hx, fun a ha => hf a ha.1 ha.2⟩

theorem breaks_map_iff {x : Except Fault α} {f : α → β} : Breaks (f <$> x) ↔ Breaks x := by
  cases x with
  | ok a => simp [Breaks, Functor.map, Except.map]
  | error e => simp [Breaks, Functor.map, Except.map]

theorem not_breaks_mapM {f : α → Except Fault β} {xs : List α} (h : ∀ x ∈ xs, ¬ Breaks (f x)) :
    ¬ Breaks (xs.mapM f) := by
  rintro ⟨b, hb⟩
  obtain ⟨x, hx, hfx⟩ := exists_of_mapM_eq_error hb
  exact h x hx ⟨b, hfx⟩

theorem not_breaks_forM {f : α → Except Fault Unit} {xs : List α} (h : ∀ x ∈ xs, ¬ Breaks (f x)) :
    ¬ Breaks (xs.forM f) := by
  rintro ⟨b, hb⟩
  obtain ⟨x, hx, hfx⟩ := exists_of_forM_eq_error hb
  exact h x hx ⟨b, hfx⟩

theorem not_breaks_foldlM {f : β → α → Except Fault β} {xs : List α} {b : β}
    (h : ∀ b a, ¬ Breaks (f b a)) : ¬ Breaks (xs.foldlM f b) := by
  rintro ⟨c, hc⟩
  obtain ⟨x, -, b', hfx⟩ := exists_of_foldlM_eq_error hc
  exact h b' x ⟨c, hfx⟩

end Breaks

theorem Values.not_breaks_expect (v : Values) (t : ElemType) : ¬ Breaks (v.expect t) := by
  unfold expect
  split <;> rintro ⟨b, h⟩ <;> cases h

theorem Values.not_breaks_extend (v w : Values) (start count : Nat) :
    ¬ Breaks (v.extend w start count) := by
  unfold extend
  split
  · split <;> rintro ⟨b, h⟩ <;> cases h
  · rintro ⟨b, h⟩
    cases h

theorem Selection.not_breaks_ofSpans (spans : List Span) : ¬ Breaks (ofSpans spans) := by
  refine not_breaks_foldlM fun s span => not_breaks_bind ?_ fun _ _ => not_breaks_ok _
  unfold checkType
  split
  · split <;> rintro ⟨b, h⟩ <;> cases h
  · exact not_breaks_ok _

namespace Graph

variable {g : Graph}

theorem not_breaks_outlet (g : Graph) (p : Port) : ¬ Breaks (g.outlet p) := by
  unfold outlet
  split
  · rintro ⟨b, h⟩
    cases h
  · split <;> rintro ⟨b, h⟩ <;> cases h

theorem not_breaks_resolveSpan (g : Graph) (s : Span) : ¬ Breaks (g.resolveSpan s) := by
  refine not_breaks_bind (not_breaks_outlet g s.port) fun o _ => ?_
  split
  · rintro ⟨b, h⟩
    cases h
  · split
    · rintro ⟨b, h⟩
      cases h
    · dsimp only
      split <;> rintro ⟨b, h⟩ <;> cases h

theorem not_breaks_resolve (g : Graph) (s : Selection) : ¬ Breaks (g.resolve s) :=
  not_breaks_bind (not_breaks_mapM fun a _ => not_breaks_resolveSpan g a) fun _ _ =>
    Selection.not_breaks_ofSpans _

theorem not_breaks_gatherSpans (g : Graph) (spans : List Span) (values : Values) :
    ¬ Breaks (g.gatherSpans values spans) := by
  induction spans generalizing values with
  | nil => exact not_breaks_ok _
  | cons a spans ih =>
      exact not_breaks_bind (not_breaks_outlet g a.port) fun o _ =>
        not_breaks_bind (values.not_breaks_extend o.values _ _) fun v _ => ih v

theorem not_breaks_gather (g : Graph) (s : Selection) : ¬ Breaks (g.gather s) :=
  not_breaks_bind (not_breaks_resolve g s) fun _ _ => not_breaks_gatherSpans g _ _

theorem not_breaks_checkInlets (g : Graph) (e : Entry) : ¬ Breaks (g.checkInlets e) :=
  not_breaks_forM fun i _ => not_breaks_bind (not_breaks_resolve g i.selection) fun _ _ =>
    not_breaks_ok _

theorem not_breaks_sort (g : Graph) (keys : List Key) : ¬ Breaks (g.sort keys) := by
  unfold sort
  split <;> rintro ⟨b, h⟩ <;> cases h

theorem not_breaks_roots (g : Graph) (outputs : List Selection) : ¬ Breaks (g.roots outputs) := by
  induction outputs with
  | nil => exact not_breaks_ok _
  | cons s ss ih =>
      exact not_breaks_bind (not_breaks_resolve g s) fun _ _ => not_breaks_bind ih fun _ _ =>
        not_breaks_ok _

theorem not_breaks_dependencyOrder (g : Graph) (outputs : List Selection) :
    ¬ Breaks (g.dependencyOrder outputs) := by
  refine not_breaks_bind (not_breaks_roots g outputs) fun ks _ => ?_
  refine not_breaks_bind (not_breaks_forM fun k _ => ?_) fun _ _ => not_breaks_sort g _
  split
  · exact not_breaks_checkInlets g _
  · rintro ⟨b, h⟩
    cases h

end Graph

/-- Given one vector for each of its inlets, the node computes without a breach, whatever its
outlets hold. -/
def Entry.Contained (e : Entry) : Prop :=
  ∀ inputs outlets, inputs.length = e.inlets.length →
    outlets.map Outlet.blank = e.outlets.map Outlet.blank →
    ¬ Breaks ((e.node.compute inputs).apply outlets).1

section Contained

def ComputeAction.Within (inlets outlets : Nat) : ComputeAction → Prop
  | copy input output => input < inlets ∧ output < outlets
  | put output _ => output < outlets
  | fail _ | unknown => True

theorem Compute.run_write {output : Nat} {values : Values} {outlets : List Outlet}
    {current : List Values} (h : output < current.length) :
    ((Compute.write output values).run outlets).run.run current =
      (.ok (), current.set output values) := by
  change ((if output < current.length then set (current.set output values)
    else throw _ : Compute Unit).run outlets).run.run current = _
  rw [if_pos h]
  rfl

theorem ComputeAction.run_perform {inputs : List Values} {a : ComputeAction}
    (outlets : List Outlet) {current : List Values} (h : a.Within inputs.length current.length) :
    ¬ Breaks (((a.perform inputs).run outlets).run.run current).1 ∧
      (((a.perform inputs).run outlets).run.run current).2.length = current.length := by
  cases a with
  | copy input output =>
      simp only [perform, List.getElem?_eq_getElem h.1]
      rw [Compute.run_write h.2]
      exact ⟨not_breaks_ok (), List.length_set⟩
  | put output values =>
      simp only [perform]
      rw [Compute.run_write h]
      exact ⟨not_breaks_ok (), List.length_set⟩
  | fail text =>
      refine ⟨?_, rfl⟩
      rintro ⟨b, hb⟩
      cases hb
  | unknown =>
      refine ⟨?_, rfl⟩
      rintro ⟨b, hb⟩
      cases hb

/-- A script that keeps to the inlets and outlets of its node may write any values. -/
theorem Script.contained {s : Script} {e : Entry} (hnode : e.node = s.toNode)
    (h : ∀ a ∈ s.compute, a.Within e.inlets.length e.outlets.length) : e.Contained := by
  intro inputs outlets hi hb
  have hlen : outlets.length = e.outlets.length := by
    simpa using congrArg List.length hb
  rw [hnode]
  change ¬ Breaks (((s.compute.forM (ComputeAction.perform inputs)).run outlets).run.run
    (outlets.map (·.values))).1
  have hrun : ∀ (actions : List ComputeAction) (current : List Values),
      (∀ a ∈ actions, a.Within inputs.length current.length) →
      ¬ Breaks (((actions.forM (ComputeAction.perform inputs)).run outlets).run.run current).1 := by
    intro actions
    induction actions with
    | nil => exact fun _ _ => not_breaks_ok ()
    | cons a actions ih =>
        intro current hall
        obtain ⟨hfirst, hkeep⟩ := ComputeAction.run_perform outlets (hall a (by simp))
        change ¬ Breaks (((a.perform inputs).run outlets >>= fun _ =>
          (actions.forM (ComputeAction.perform inputs)).run outlets).run.run current).1
        rw [run_bind]
        rcases hr : ((a.perform inputs).run outlets).run.run current with ⟨r, current'⟩
        rw [hr] at hfirst hkeep
        cases r with
        | error f => exact hfirst
        | ok u => exact ih current' fun a' ha' => hkeep ▸ hall a' (by simp [ha'])
  exact hrun s.compute _ fun a ha => by simpa [hi, hlen] using h a ha

theorem Elementwise.not_breaks_binary (op : Code.BinaryOp) (x y : Values) :
    ¬ Breaks (binary op x y) := by
  unfold binary
  dsimp only
  split
  · exact not_breaks_ok _
  · split <;> rintro ⟨b, h⟩ <;> cases h

theorem Elementwise.not_breaks_compare (op : Code.CompareOp) (x y : Values) :
    ¬ Breaks (compare op x y) := by
  unfold compare
  split <;> rintro ⟨b, h⟩ <;> cases h

theorem Elementwise.not_breaks_unary (op : Code.UnaryOp) (x : Values) : ¬ Breaks (unary op x) := by
  unfold unary
  split <;> rintro ⟨b, h⟩ <;> cases h

theorem Builtin.not_breaks_eval (b : Builtin) (inputs : List Values) :
    ¬ Breaks (b.eval inputs) := by
  have hinput : ∀ i, ¬ Breaks (inputValues inputs i) := by
    intro i
    unfold inputValues
    split <;> rintro ⟨b, h⟩ <;> cases h
  cases b with
  | input t size => exact not_breaks_ok _
  | constant values => exact not_breaks_ok _
  | binary t op x y =>
      exact not_breaks_bind (hinput 0) fun x _ => not_breaks_bind (hinput 1) fun y _ =>
        mt breaks_map_iff.1 (Elementwise.not_breaks_binary op x y)
  | predicate t op x y =>
      exact not_breaks_bind (hinput 0) fun x _ => not_breaks_bind (hinput 1) fun y _ =>
        mt breaks_map_iff.1 (Elementwise.not_breaks_compare op x y)
  | unary t op x =>
      exact not_breaks_bind (hinput 0) fun x _ =>
        mt breaks_map_iff.1 (Elementwise.not_breaks_unary op x)
  | sum t x =>
      refine not_breaks_bind (hinput 0) fun x _ => ?_
      split
      · exact not_breaks_ok _
      · rintro ⟨b, h⟩
        cases h
  | cast t target x =>
      exact not_breaks_bind (hinput 0) fun x _ => not_breaks_bind (x.not_breaks_expect t)
        fun y _ => not_breaks_ok _

theorem Builtin.contained {b : Builtin} {e : Entry} {o : Outlet} (hnode : e.node = b.toNode)
    (ho : e.outlets = [o]) : e.Contained := by
  rintro inputs outlets - hb
  rw [ho, List.map_singleton] at hb
  obtain ⟨o', rfl, -⟩ := List.map_eq_singleton_iff.1 hb
  rw [hnode]
  change ¬ Breaks (((b.compute inputs).run [o']).run.run [o'.values]).1
  unfold compute
  have heval := b.not_breaks_eval inputs
  cases he : b.eval inputs with
  | error f =>
      rintro ⟨c, hc⟩
      exact heval ⟨c, he.trans (congrArg _ (Except.error.inj hc))⟩
  | ok r =>
      cases r with
      | none => exact not_breaks_ok ()
      | some v =>
          dsimp only
          rw [run_setOutput]
          split
          · rintro ⟨c, hc⟩
            cases hc
          · split <;> rintro ⟨c, hc⟩ <;> cases hc

theorem Graph.Built.contained {g : Graph} {kind : Key → Builtin} (h : g.Built kind) :
    ∀ k e, g.entry? k = some e → e.Contained := by
  intro k e he
  obtain ⟨o, ho, -⟩ := h.outlet k e he
  exact Builtin.contained (h.node k e he) ho

end Contained

namespace Graph

variable {g : Graph} {k : Key} {e : Entry}

def Contained (g : Graph) : Prop := ∀ k e, g.entry? k = some e → e.Contained

theorem Contained.setOutlets (h : g.Contained) (he : g.entry? k = some e) {outlets : List Outlet}
    (hb : outlets.map Outlet.blank = e.outlets.map Outlet.blank) :
    (g.setOutlets k outlets).Contained := by
  intro j f hf
  rw [lookup_setOutlets] at hf
  by_cases hj : j = k
  · subst hj
    rw [if_pos rfl, he] at hf
    obtain rfl := Option.some.inj hf
    exact fun inputs outlets' hi ho => h j e he inputs outlets' hi (ho.trans hb)
  · rw [if_neg hj] at hf
    exact h j f hf

theorem Contained.compute (h : g.Contained) (order : List Key) :
    ((Graph.compute order).run.run g).2.Contained :=
  compute_induction (fun _ _ _ _ h he => h.setOutlets he (blank_apply _ _)) order h

theorem Contained.not_breaks_computeNode (h : g.Contained) (k : Key) :
    ¬ Breaks ((computeNode k).run.run g).1 := by
  rw [run_computeNode]
  cases he : g.entry? k with
  | none =>
      rintro ⟨b, hb⟩
      cases hb
  | some e =>
      dsimp only
      have hinlets : ¬ Breaks (e.inlets.mapM fun i => g.gather i.selection) :=
        not_breaks_mapM fun i _ => not_breaks_gather g i.selection
      cases hi : e.inlets.mapM fun i => g.gather i.selection with
      | error f =>
          rintro ⟨b, hb⟩
          exact hinlets ⟨b, hi.trans (congrArg _ (Except.error.inj hb))⟩
      | ok inputs => exact h k e he inputs e.outlets (mapM_eq_ok_iff.1 hi).length_eq.symm rfl

theorem Contained.not_breaks_compute (h : g.Contained) (order : List Key) :
    ¬ Breaks ((Graph.compute order).run.run g).1 := by
  induction order generalizing g with
  | nil => exact not_breaks_ok ()
  | cons k order ih =>
      have hk := h.not_breaks_computeNode k
      have hnext := h.compute [k]
      change ¬ Breaks ((computeNode k >>= fun _ => Graph.compute order).run.run g).1
      change Contained ((computeNode k >>= fun _ => pure ()).run.run g).2 at hnext
      rw [run_bind] at hnext ⊢
      rcases hc : (computeNode k).run.run g with ⟨r, g'⟩
      rw [hc] at hk hnext
      cases r with
      | error f => exact hk
      | ok u => exact ih hnext

end Graph

namespace Transform

variable {t t' : Transform} {values : Values}

/-- The values suit the input, but the vector that its outlet holds now has another length. -/
def Clashes (t : Transform) (values : Values) : Prop :=
  ∃ e o, t.graph.entry? t.input = some e ∧ e.outlets[0]? = some o ∧
    values.length = o.size.getD 0 ∧ o.values.elemType = values.elemType ∧
    o.values.length ≠ values.length

theorem breaks_setInput_iff : Breaks (t.setInput values) ↔ t.Clashes values := by
  unfold setInput inputSize inputOutlet Clashes
  cases he : t.graph.entry? t.input with
  | none => simp [Breaks, Functor.map, Except.map, bind, Except.bind]
  | some e =>
      cases ho : e.outlets with
      | nil => simp [Breaks, firstOutlet, ho, Functor.map, Except.map, bind, Except.bind]
      | cons o os =>
          simp only [firstOutlet, ho, Option.some.injEq, ↓existsAndEq, List.getElem?_cons_zero,
            true_and]
          change Breaks (if values.length ≠ o.size.getD 0 then _ else _) ↔ _
          by_cases hsize : values.length = o.size.getD 0
          · rw [if_neg (not_not.2 hsize), breaks_bind_iff,
              or_iff_right (o.values.not_breaks_expect values.elemType)]
            constructor
            · rintro ⟨held, hheld, hbreak⟩
              obtain ⟨ht, rfl⟩ := Values.expect_eq_ok_iff.1 hheld
              refine ⟨hsize, ht, fun hlen => ?_⟩
              rw [if_neg (not_not.2 hlen)] at hbreak
              exact not_breaks_ok _ hbreak
            · rintro ⟨-, ht, hlen⟩
              refine ⟨_, Values.expect_eq_ok_iff.2 ⟨ht, rfl⟩, .copyLength values.length o.values.length, ?_⟩
              rw [if_pos hlen]
              rfl
          · rw [if_pos hsize]
            refine iff_of_false ?_ fun h => hsize h.1
            rintro ⟨b, hb⟩
            cases hb

theorem contained_setInput (h : t.graph.Contained) (hs : t.setInput values = .ok t') :
    t'.graph.Contained := by
  obtain ⟨e, o, he, ho, rfl⟩ := setInput_eq_ok hs
  exact h.setOutlets he (Graph.map_blank_set ho values)

theorem not_breaks_computeOutput (h : t.graph.Contained) (elemType : ElemType) (index : Nat) :
    ¬ Breaks ((Transform.computeOutput elemType index).run.run t).1 := by
  rw [run_computeOutput]
  unfold output
  cases t.outputs[index]? with
  | none =>
      rintro ⟨b, hb⟩
      cases hb
  | some p =>
      dsimp only
      have horder := Graph.not_breaks_dependencyOrder t.graph [p.2]
      cases ho : t.graph.dependencyOrder [p.2] with
      | error f =>
          rintro ⟨b, hb⟩
          exact horder ⟨b, ho.trans (congrArg _ (Except.error.inj hb))⟩
      | ok order =>
          have hrun := h.not_breaks_compute order
          dsimp only
          rcases hr : (Graph.compute order).run.run t.graph with ⟨r, g⟩
          rw [hr] at hrun
          cases r with
          | error f =>
              rintro ⟨b, hb⟩
              exact hrun ⟨b, congrArg _ (Except.error.inj hb)⟩
          | ok u =>
              exact not_breaks_bind (Graph.not_breaks_gather g p.2) fun v _ =>
                v.not_breaks_expect elemType

def outcome (t : Transform) : Call → Except Fault (Option Values)
  | .setInput values => (fun _ => none) <$> t.setInput values
  | .computeOutput elemType index =>
      some <$> ((Transform.computeOutput elemType index).run.run t).1
  | .compute elemType values => some <$> ((Transform.compute elemType values).run.run t).1

theorem contained_after (h : t.graph.Contained) (c : Call) : (t.after c).graph.Contained :=
  after_induction (P := fun t => t.graph.Contained) (fun _ _ _ h hs => contained_setInput h hs)
    (fun _ order h => h.compute order) h c

theorem breaks_compute_iff (h : t.graph.Contained) (elemType : ElemType) :
    Breaks ((Transform.compute elemType values).run.run t).1 ↔ t.Clashes values := by
  rw [run_compute, ← breaks_setInput_iff]
  cases hs : t.setInput values with
  | error f => simp [Breaks]
  | ok t' =>
      exact iff_of_false (not_breaks_computeOutput (contained_setInput h hs) elemType 0)
        (not_breaks_ok t')

end Transform

end Dataflow
