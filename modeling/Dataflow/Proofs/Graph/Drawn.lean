import Dataflow.Proofs.Graph.Reference
import Dataflow.Proofs.Graph.Stability
import Dataflow.Proofs.Graph.Tally
import Dataflow.Proofs.Graph.Transform

/-!
# Selections drawn from outlets

Whatever is put together from the outlets of a graph, while the graph goes through its requests and is
used in transforms, can be traced back to them. A span lies in its outlet and knows the outlet's size, or it follows an outlet that
had no size yet, or it begins with a cell that was picked out and knows the outlet as far as this cell.
So tallies that are drawn have one element type and the right count, and their fixed spans stay inside
their outlets.
-/

namespace Dataflow

namespace Graph

/-- The graphs that some requests go through, and what becomes of them in transforms. -/
def Stages (actions : List Action) (g : Graph) : Prop :=
  ∃ (n : Nat) (t : Transform) (calls : List Transform.Call),
    t.graph = (replay (actions.take n)).2 ∧ g = (calls.foldl Transform.after t).graph

theorem stages_replay (actions : List Action) (n : Nat) :
    Stages actions (replay (actions.take n)).2 := ⟨n, ⟨_, "", ⟨0, 0⟩, []⟩, [], rfl, rfl⟩

variable {stage : Graph → Prop} {p : Port} {m n : Nat}

/-- At some stage there is an outlet of the size at the port. -/
def SizedAt (stage : Graph → Prop) (p : Port) (n : Nat) : Prop :=
  ∃ g o, stage g ∧ g.outlet p = .ok o ∧ o.size = some n

structure Coherent (stage : Graph → Prop) : Prop where
  port : ∀ g p o, stage g → g.outlet p = .ok o → o.port = p
  size : ∀ p m n, SizedAt stage p m → SizedAt stage p n → m = n

theorem Coherent.outlet_port (hc : Coherent stage) {g : Graph} {o : Outlet} (hg : stage g)
    (ho : g.outlet p = .ok o) : g.outlet o.port = .ok o := by
  rw [hc.port g p o hg ho]
  exact ho

theorem replay_append (actions more : List Action) :
    (replay (actions ++ more)).2 = (replay actions).2.after more := by
  induction more using List.reverseRecOn with
  | nil => rw [List.append_nil]; rfl
  | append_singleton more a ih =>
      rw [← List.append_assoc, replay, List.foldl_concat, ← replay, ih, after, after,
        List.foldl_concat]

theorem Sound.size_after {log : List Key} {g : Graph} (h : Sound log g) (actions : List Action)
    {o o' : Outlet} (ho : g.outlet p = .ok o) (hsize : o.size = some m)
    (ho' : (g.after actions).outlet p = .ok o') : o'.size = some m := by
  have hfits : g.Fits ⟨p, o.elemType, 0, m, m, false⟩ :=
    ⟨o, ho, hsize, rfl, (Nat.zero_add m).le, rfl⟩
  obtain ⟨o'', ho'', hsize', -⟩ := (h.persists_after actions).fits _
    (h.handed (live_of_outlet ho)) hfits (live_of_outlet ho')
  obtain rfl := Except.ok.inj (ho'.symm.trans ho'')
  exact hsize'

/-- Transforms write values only: an outlet stays where it is and as large as it is. -/
theorem Stages.exists_replay {actions : List Action} {g : Graph} (hg : Stages actions g) {o : Outlet}
    (ho : g.outlet p = .ok o) :
    ∃ n o', (replay (actions.take n)).2.outlet p = .ok o' ∧ o'.port = o.port ∧ o'.size = o.size := by
  obtain ⟨n, t, calls, ht, rfl⟩ := hg
  have hsound := (history_replay (actions.take n)).sound
  rw [← ht] at hsound
  have hretains : Transform.Retains _ t t := ⟨rfl, rfl, .refl t.graph, hsound⟩
  obtain ⟨o', ho', hblank⟩ := (hretains.foldl calls).shape.symm.outlet ho
  obtain ⟨-, hport, -, hsize⟩ := Outlet.eq_of_blank hblank
  exact ⟨n, o', ht ▸ ho', hport, hsize⟩

theorem coherent_stages (actions : List Action) : Coherent (Stages actions) where
  port := by
    intro g p o hg ho
    obtain ⟨n, o', ho', hport, -⟩ := hg.exists_replay ho
    obtain ⟨e, he, hi⟩ := outlet_eq_ok_iff.1 ho'
    exact hport.symm.trans (((history_replay _).sound.placed _ e he).ports _ o' hi)
  size := by
    have hle : ∀ i j, i ≤ j → ∀ p m n o o', (replay (actions.take i)).2.outlet p = .ok o →
        o.size = some m → (replay (actions.take j)).2.outlet p = .ok o' → o'.size = some n →
          m = n := by
      intro i j hij p m n o o' ho hm ho' hn
      have htake : actions.take j = actions.take i ++ (actions.take j).drop i := by
        conv_lhs => rw [← List.take_append_drop i (actions.take j), List.take_take, min_eq_left hij]
      rw [htake, replay_append] at ho'
      have hsize := (history_replay (actions.take i)).sound.size_after _ ho hm ho'
      exact Option.some.inj (hsize.symm.trans hn)
    rintro p m n ⟨_, _, hg, ho, hm⟩ ⟨_, _, hg', ho', hn⟩
    obtain ⟨i, o, ho, -, hsize⟩ := hg.exists_replay ho
    obtain ⟨j, o', ho', -, hsize'⟩ := hg'.exists_replay ho'
    rw [← hsize] at hm
    rw [← hsize'] at hn
    rcases le_total i j with hij | hij
    · exact hle i j hij p m n o o' ho hm ho' hn
    · exact (hle j i hij p n m o' o ho' hn ho hm).symm

end Graph

open Dataflow.Graph (Coherent SizedAt Stages)

namespace Span

/-- How far a span knows the outlet it lies in: its size, nothing while it follows an outlet without a
size, or no more than that the outlet reaches as far as a cell that the span has begun with. -/
inductive Traced (stage : Graph → Prop) (picks : Prop) (s : Span) : Prop
  | measured : SizedAt stage s.port s.outletSize → s.stop ≤ s.outletSize → s.Tracks →
      Traced stage picks s
  | pending : s.isFixed = false → s.start = 0 → s.length = 0 → Traced stage picks s
  | picked {n : Nat} : picks → s.isFixed = true → 0 < s.outletSize →
      s.outletSize ≤ s.start + 1 → s.outletSize ≤ n → SizedAt stage s.port n → s.stop ≤ n →
        Traced stage picks s

variable {stage : Graph → Prop} {picks : Prop} {g : Graph} {o : Outlet} {p : Port} {s a b r : Span}

theorem tracks_of_isFixed (h : s.isFixed = true) : s.Tracks := fun hs =>
  absurd (h.symm.trans hs) Bool.noConfusion

theorem Traced.tracks (h : s.Traced stage picks) : s.Tracks := by
  cases h with
  | measured _ _ htracks => exact htracks
  | pending _ hstart _ => exact fun _ => hstart
  | picked _ hfixed _ _ _ _ _ => exact tracks_of_isFixed hfixed

theorem traced_whole (hc : Coherent stage) (hg : stage g) (ho : g.outlet p = .ok o) :
    (whole o).Traced stage picks := by
  cases hsize : o.size with
  | none => exact .pending rfl rfl (by simp [whole, hsize])
  | some n =>
      refine .measured ⟨g, o, hg, hc.outlet_port hg ho, ?_⟩ ?_ fun _ => rfl
      · simp [whole, hsize]
      · simp [whole, stop]

theorem traced_part (hc : Coherent stage) (hg : stage g) (ho : g.outlet p = .ok o)
    {start count : Nat} (h : part o start count = .ok s) : s.Traced stage picks := by
  obtain ⟨n, hsize, hle, rfl⟩ := Reference.part_eq_ok_iff.1 h
  exact .measured ⟨g, o, hg, hc.outlet_port hg ho, hsize⟩ hle (tracks_of_isFixed rfl)

/-- A phrase stands for a whole outlet or for a part that lies inside of one. -/
theorem traced_of_denotes (hc : Coherent stage) (hg : stage g) {q : Reference.Phrase}
    (h : q.Denotes g s) : s.Traced stage picks := by
  obtain ⟨node, port, selector⟩ := q
  obtain ⟨o, hnames, hdenotes⟩ := h
  obtain ⟨p, ho⟩ := hnames.exists_outlet
  cases hdenotes with
  | whole => exact traced_whole hc hg ho
  | single hsize hlt =>
      exact traced_part hc hg ho (Reference.part_eq_ok_iff.2 ⟨_, hsize, hlt, rfl⟩)
  | slice hsize hle hstop =>
      exact traced_part hc hg ho (Reference.part_eq_ok_iff.2 ⟨_, hsize, by omega, rfl⟩)

theorem Traced.resolve (h : s.Traced stage picks) (hg : stage g) (hr : g.resolveSpan s = .ok r) :
    r.Traced stage picks := by
  obtain ⟨o, size, ho, hsize, -, hstop, rfl⟩ := Graph.resolveSpan_eq_ok_iff.1 hr
  exact .measured ⟨g, o, hg, ho, hsize⟩ hstop h.tracks

theorem Traced.exists_size (h : s.Traced stage picks) (hs : s.isFixed = true) :
    ∃ n, SizedAt stage s.port n ∧ s.stop ≤ n := by
  cases h with
  | measured hsize hstop _ => exact ⟨_, hsize, hstop⟩
  | pending hfixed _ _ => exact absurd hs (hfixed ▸ Bool.false_ne_true)
  | picked _ _ _ _ _ hsize hstop => exact ⟨_, hsize, hstop⟩

/-- A merged span ends where the second of the two does. -/
theorem Traced.merge (hc : Coherent stage) (ha : a.Traced stage picks) (hb : b.Traced stage picks)
    (h : a.isAdjacent b = true) : (a.merge b).Traced stage picks := by
  obtain ⟨hfa, hfb, hport, hstart⟩ := isAdjacent_iff.1 h
  obtain ⟨n, hn, hstop⟩ := hb.exists_size hfb
  have hend : (a.merge b).stop = b.stop := by
    rw [stop, stop, ← hstart, stop, Nat.add_assoc]
    rfl
  rw [← hport] at hn
  cases ha with
  | measured hsize _ htracks =>
      obtain rfl := hc.size _ _ _ hsize hn
      exact .measured hsize (hend ▸ hstop) htracks
  | pending hfixed _ _ => exact absurd hfa (hfixed ▸ Bool.false_ne_true)
  | picked hp _ hpos hle hreach hsize _ =>
      obtain rfl := hc.size _ _ _ hsize hn
      exact .picked hp hfa hpos hle hreach hn (hend ▸ hstop)

theorem Traced.extend (hc : Coherent stage) (ha : a.Traced stage picks) (hb : b.Traced stage picks) :
    (b.extend.run.run a).2.Traced stage picks := by
  rw [run_extend, append]
  cases h : a.isAdjacent b with
  | true => exact ha.merge hc hb h
  | false => exact ha

theorem Traced.sub (h : s.Traced stage picks) {offset count : Nat} (hpos : 0 < count)
    (hle : offset + count ≤ s.length) : (s.sub offset count).Traced stage picks := by
  have hstop : (s.sub offset count).stop ≤ s.stop := by
    simp only [stop, start_sub, length_sub]
    omega
  cases h with
  | measured hsize hs _ => exact .measured hsize (hstop.trans hs) (tracks_of_isFixed rfl)
  | pending _ _ hnone =>
      -- Nothing can be cut out of an outlet without a size.
      omega
  | picked hp _ hpos hle hreach hsize hs =>
      exact .picked hp rfl hpos (hle.trans (by rw [start_sub]; omega)) hreach hsize (hstop.trans hs)

theorem Traced.cell (h : s.Traced stage picks) (hp : picks) {c : Cell} (hcell : c ∈ s.cells) :
    c.span.Traced stage picks := by
  obtain ⟨i, hi, rfl⟩ := List.mem_map.1 hcell
  obtain ⟨-, hlt⟩ := List.mem_range'_1.1 hi
  have hend : ∀ n, s.stop ≤ n → i + 1 ≤ n := fun n hn => Nat.succ_le_of_lt (hlt.trans_le hn)
  cases h with
  | measured hsize hs _ =>
      exact .picked hp rfl (Nat.succ_pos i) le_rfl (hend _ hs) hsize (hend _ hs)
  | pending _ hstart hnone => omega
  | picked _ _ _ _ _ hsize hs =>
      exact .picked hp rfl (Nat.succ_pos i) le_rfl (hend _ hs) hsize (hend _ hs)

end Span

namespace Tally

/-- What can be put together from the outlets of a graph at its stages. A type stands by where it has
been looked at; cells are picked out only if `picks` holds. Appending counts whether it is granted or
not. -/
inductive Drawn (stage : Graph → Prop) (picks : Prop) : Option ElemType → Tally → Prop
  | empty : Drawn stage picks none {}
  | whole {g : Graph} {p : Port} {o : Outlet} : stage g → g.outlet p = .ok o →
      Drawn stage picks none (.ofSpan (.whole o))
  | part {g : Graph} {p : Port} {o : Outlet} {start count : Nat} {s : Span} : stage g →
      g.outlet p = .ok o → Span.part o start count = .ok s → Drawn stage picks none (.ofSpan s)
  | single {g : Graph} {p : Port} {o : Outlet} {index : Nat} {s : Span} : stage g →
      g.outlet p = .ok o → Span.single o index = .ok s → Drawn stage picks none (.ofSpan s)
  | parse {g : Graph} {text : String} {t : Tally} : stage g → Tally.parse g text = .ok t →
      Drawn stage picks none t
  | span {t : Tally} {s : Span} : Drawn stage picks none t → s ∈ t.spans →
      Drawn stage picks none (.ofSpan s)
  | extend {s u : Span} : Drawn stage picks none (.ofSpan s) → Drawn stage picks none (.ofSpan u) →
      Drawn stage picks none (.ofSpan (u.extend.run.run s).2)
  | ofSpans {ss : List Span} {t : Tally} : (∀ s ∈ ss, Drawn stage picks none (.ofSpan s)) →
      Tally.ofSpans ss = .ok t → Drawn stage picks none t
  | ofCell {t : Tally} {i : Nat} {c : Cell} : picks → Drawn stage picks none t →
      t.selection.cell i = .ok c → Drawn stage picks none (.ofCell c)
  | ofCells {cs : List Cell} {t : Tally} : (∀ c ∈ cs, Drawn stage picks none (.ofCell c)) →
      Tally.ofCells cs = .ok t → Drawn stage picks none t
  | append {a b : Tally} : Drawn stage picks none a → Drawn stage picks none b →
      Drawn stage picks none (b.append.run.run a).2
  | concat {parts : List Tally} {t : Tally} : (∀ p ∈ parts, Drawn stage picks none p) →
      Tally.concat parts = .ok t → Drawn stage picks none t
  | resolve {g : Graph} {t r : Tally} : stage g → Drawn stage picks none t →
      t.resolve g = .ok r → Drawn stage picks none r
  | consolidate {k : Option ElemType} {t : Tally} : Drawn stage picks k t →
      Drawn stage picks k t.consolidate
  | slice {k : Option ElemType} {t r : Tally} {start count : Nat} : Drawn stage picks k t →
      t.slice start count = .ok r → Drawn stage picks k r
  | typed {u : ElemType} {t : Tally} : Drawn stage picks none t → t.expect u = .ok () →
      Drawn stage picks (some u) t
  | untyped {u : ElemType} {t : Tally} : Drawn stage picks (some u) t → Drawn stage picks none t
  | appendTyped {u : ElemType} {a b : Tally} : Drawn stage picks (some u) a →
      Drawn stage picks (some u) b → Drawn stage picks (some u) (a.addAll b.spans)
  | concatTyped {u : ElemType} {parts : List Tally} :
      (∀ p ∈ parts, Drawn stage picks (some u) p) → Drawn stage picks (some u) (.concatTyped parts)

structure Sound (stage : Graph → Prop) (picks : Prop) (k : Option ElemType) (t : Tally) : Prop where
  total : t.total = t.selection.size
  uniform : t.selection.Uniform
  typed : ∀ u, k = some u → t.selection.OfType u
  traced : ∀ s ∈ t.spans, s.Traced stage picks

variable {stage : Graph → Prop} {picks : Prop} {k : Option ElemType} {a b t r : Tally} {s : Span}
  {ss : List Span} {u : ElemType}

theorem sound_ofSpan (h : s.Traced stage picks) : (ofSpan s).Sound stage picks none where
  total := rfl
  uniform := by simp [Selection.Uniform, ofSpan, selection]
  typed := by simp
  traced := List.forall_mem_singleton.2 h

theorem traced_of_ofSpan (h : (ofSpan s).Sound stage picks k) : s.Traced stage picks :=
  h.traced s (List.mem_singleton_self s)

theorem sound_empty : ({} : Tally).Sound stage picks k where
  total := rfl
  uniform := fun _ h => by cases h
  typed := fun _ _ _ h => by cases h
  traced := fun _ h => by cases h

theorem Sound.addAll (h : t.Sound stage picks k) (hu : Selection.Uniform ⟨t.spans ++ ss⟩)
    (htyped : ∀ u, k = some u → Selection.OfType u ⟨t.spans ++ ss⟩)
    (hss : ∀ s ∈ ss, s.Traced stage picks) : (t.addAll ss).Sound stage picks k where
  total := by rw [addAll_eq, selection, Selection.size_append, h.total]; rfl
  uniform := by rwa [selection_addAll]
  typed := by rwa [selection_addAll]
  traced := by rw [spans_addAll]; exact List.forall_mem_append.2 ⟨h.traced, hss⟩

theorem Sound.addAll_typed (h : t.Sound stage picks (some u)) (htype : Selection.OfType u ⟨ss⟩)
    (hss : ∀ s ∈ ss, s.Traced stage picks) : (t.addAll ss).Sound stage picks (some u) := by
  have hall := (h.typed u rfl).append htype
  exact h.addAll hall.uniform (fun v hv => Option.some.inj hv ▸ hall) hss

theorem sound_ofSpans (h : ∀ s ∈ ss, s.Traced stage picks) (ht : ofSpans ss = .ok t) :
    t.Sound stage picks none := by
  obtain ⟨rfl, hu⟩ := ofSpans_eq_ok_iff.1 ht
  exact sound_empty.addAll hu (by simp) h

theorem Sound.append (ha : a.Sound stage picks none) (hb : b.Sound stage picks none) :
    (b.append.run.run a).2.Sound stage picks none := by
  rw [run_append]
  cases hab : a.selection.append b.selection with
  | error f => exact ha
  | ok e =>
      obtain ⟨-, rfl⟩ := Selection.append_eq_ok_iff.1 hab
      exact ha.addAll (ha.uniform.append hb.uniform hab) (by simp) hb.traced

theorem traced_flatMap {parts : List Tally} (h : ∀ p ∈ parts, p.Sound stage picks k) :
    ∀ s ∈ parts.flatMap (·.spans), s.Traced stage picks := by
  intro s hs
  obtain ⟨p, hp, hs⟩ := List.mem_flatMap.1 hs
  exact (h p hp).traced s hs

theorem sound_concat {parts : List Tally} (h : ∀ p ∈ parts, p.Sound stage picks none)
    (ht : concat parts = .ok t) : t.Sound stage picks none := by
  have hselection : Selection.concat (parts.map selection) = .ok t.selection := by
    rw [← map_concat, ht]
    rfl
  have hu := Selection.Uniform.concat (by simpa using fun p hp => (h p hp).uniform) hselection
  obtain rfl := eq_of_concat ht
  rw [selection_addAll] at hu
  exact sound_empty.addAll hu (by simp) (traced_flatMap h)

theorem sound_concatTyped {parts : List Tally} (h : ∀ p ∈ parts, p.Sound stage picks (some u)) :
    (concatTyped parts).Sound stage picks (some u) := by
  have htype : Selection.OfType u ⟨parts.flatMap (·.spans)⟩ := by
    intro s hs
    obtain ⟨p, hp, hs⟩ := List.mem_flatMap.1 hs
    exact (h p hp).typed u rfl s hs
  rw [concatTyped_eq]
  exact sound_empty.addAll_typed htype (traced_flatMap h)

theorem Sound.consolidate (hc : Coherent stage) (h : t.Sound stage picks k) :
    t.consolidate.Sound stage picks k where
  total := by
    change t.total = t.selection.consolidate.size
    rw [← Selection.length_cells, Selection.cells_consolidate h.uniform, Selection.length_cells,
      h.total]
  uniform := h.uniform.consolidate
  typed u hk s hs := by
    obtain ⟨s', hs', ht⟩ := Selection.exists_of_mem_consolidate hs
    exact ht.trans (h.typed u hk s' hs')
  traced := Selection.consolidate_induction (fun _ _ ha hb => ha.merge hc hb) h.traced

theorem Sound.slice (h : t.Sound stage picks k) {start count : Nat}
    (hr : t.slice start count = .ok r) : r.Sound stage picks k := by
  obtain ⟨hle, rfl⟩ := slice_eq_ok_iff.1 hr
  have hu := h.uniform.slice (Selection.slice_eq_ok_iff.2 ⟨h.total ▸ hle, rfl⟩)
  refine sound_empty.addAll hu (fun u hk s hs => ?_) fun s hs => ?_
  · obtain ⟨b, hb, _, _, -, -, rfl⟩ := Selection.exists_of_mem_cut hs
    exact h.typed u hk b hb
  · obtain ⟨b, hb, _, _, hpos, hle, rfl⟩ := Selection.exists_of_mem_cut hs
    exact (h.traced b hb).sub hpos hle

theorem Sound.expect (h : t.Sound stage picks none) (hu : t.expect u = .ok ()) :
    t.Sound stage picks (some u) where
  total := h.total
  uniform := h.uniform
  typed v hv := by
    obtain rfl := Option.some.inj hv
    obtain ⟨x, hx⟩ := expect_eq_ok_iff.1 hu
    obtain ⟨-, rfl⟩ := TypedSelection.ofSelection_eq_ok_iff.1 hx
    exact TypedSelection.typed_ofSelection hx h.uniform
  traced := h.traced

theorem Sound.untyped (h : t.Sound stage picks k) : t.Sound stage picks none :=
  ⟨h.total, h.uniform, by simp, h.traced⟩

theorem sound_parse (hc : Coherent stage) {g : Graph} (hg : stage g) {text : String}
    (h : parse g text = .ok t) : t.Sound stage picks none := by
  obtain ⟨e, he, ht⟩ := bind_eq_ok_iff.1 h
  obtain rfl := Except.ok.inj ht
  obtain ⟨_, phrases, -, -, hall, hu⟩ := Reference.parse_eq_ok_iff.1 he
  refine sound_empty.addAll hu (by simp) fun s hs => ?_
  obtain ⟨i, hi, rfl⟩ := List.getElem_of_mem hs
  exact Span.traced_of_denotes hc hg (hall.get (hall.length_eq ▸ hi) hi)

/-- Every operation keeps what is known of the spans. -/
theorem Drawn.sound (hc : Coherent stage) (h : Drawn stage picks k t) : t.Sound stage picks k := by
  induction h with
  | empty => exact sound_empty
  | whole hg ho => exact sound_ofSpan (Span.traced_whole hc hg ho)
  | part hg ho hs => exact sound_ofSpan (Span.traced_part hc hg ho hs)
  | single hg ho hs => exact sound_ofSpan (Span.traced_part hc hg ho hs)
  | parse hg ht => exact sound_parse hc hg ht
  | span _ hs ih => exact sound_ofSpan (ih.traced _ hs)
  | extend _ _ ihs ihu => exact sound_ofSpan ((traced_of_ofSpan ihs).extend hc (traced_of_ofSpan ihu))
  | ofSpans _ ht ih => exact sound_ofSpans (fun s hs => traced_of_ofSpan (ih s hs)) ht
  | ofCell hp _ hcell ih =>
      have hmem := List.mem_of_getElem? (Selection.cell_eq_ok_iff.1 hcell)
      obtain ⟨s, hs, hmem⟩ := List.mem_flatMap.1 hmem
      exact sound_ofSpan ((ih.traced s hs).cell hp hmem)
  | ofCells _ ht ih =>
      obtain ⟨e, he, ht⟩ := bind_eq_ok_iff.1 ht
      obtain rfl := Except.ok.inj ht
      refine (sound_ofSpans (fun s hs => ?_) he).consolidate hc
      obtain ⟨c, hcell, rfl⟩ := List.mem_map.1 hs
      exact traced_of_ofSpan (ih c hcell)
  | append _ _ iha ihb => exact iha.append ihb
  | concat _ ht ih => exact sound_concat ih ht
  | resolve hg _ hr ih =>
      obtain ⟨ss, hss, hr⟩ := bind_eq_ok_iff.1 hr
      refine sound_ofSpans (fun s hs => ?_) hr
      obtain ⟨s', hmem, hs'⟩ := exists_of_mem_mapM hss hs
      exact (ih.traced s' hmem).resolve hg hs'
  | consolidate _ ih => exact ih.consolidate hc
  | slice _ hr ih => exact ih.slice hr
  | typed _ hu ih => exact ih.expect hu
  | untyped _ ih => exact ih.untyped
  | appendTyped _ _ iha ihb => exact iha.addAll_typed (ihb.typed _ rfl) ihb.traced
  | concatTyped _ ih => exact sound_concatTyped ih

/-- The count is the sum of the lengths. The spans are of one type, which is the known one if it is known.
A fixed span ends inside of its outlet, whose size never changes, and the bound is one of unbounded
numbers; a span that follows its outlet begins where the outlet does. -/
structure WellFormed (stage : Graph → Prop) (k : Option ElemType) (t : Tally) : Prop where
  total : t.total = (t.spans.map Span.length).sum
  uniform : ∀ a ∈ t.spans, ∀ b ∈ t.spans, a.elemType = b.elemType
  typed : ∀ u, k = some u → ∀ s ∈ t.spans, s.elemType = u
  fixed : ∀ s ∈ t.spans, s.isFixed = true → ∃ n, SizedAt stage s.port n ∧ s.start + s.length ≤ n ∧
    ∀ m, SizedAt stage s.port m → m = n
  tracking : ∀ s ∈ t.spans, s.Tracks

theorem Sound.wellFormed (hc : Coherent stage) (h : t.Sound stage picks k) : t.WellFormed stage k where
  total := h.total.trans (Selection.size_eq_sum _)
  uniform := h.uniform
  typed := h.typed
  fixed s hs hfixed := by
    obtain ⟨n, hn, hstop⟩ := (h.traced s hs).exists_size hfixed
    exact ⟨n, hn, hstop, fun m hm => hc.size _ _ _ hm hn⟩
  tracking s hs := (h.traced s hs).tracks

/-- **Whatever is drawn is well-formed**, from any outlets of a graph while it goes through its requests and
is used in transforms. What cannot be appended leaves both sides as they were: the types differ, or the
spans are not adjacent. -/
theorem wellFormed_of_drawn (actions : List Graph.Action) :
    (∀ k t, Drawn (Stages actions) True k t → t.WellFormed (Stages actions) k) ∧
      (∀ (a b : Tally) f, (b.append.run.run a).1 = .error f → (b.append.run.run a).2 = a ∧
        ∃ u v, a.selection.elemType? = some u ∧ b.selection.elemType? = some v ∧ u ≠ v ∧
          f = .mismatch (.element u) (.element v)) ∧
      (∀ (s u : Span) f, (u.extend.run.run s).1 = .error f → (u.extend.run.run s).2 = s ∧
        s.isAdjacent u = false) ∧ Mirrors := by
  have hc := Graph.coherent_stages actions
  refine ⟨fun k t ht => (ht.sound hc).wellFormed hc, fun a b f h => ?_, fun s u f h => ?_, mirrors⟩
  · rw [run_append] at h ⊢
    cases hab : a.selection.append b.selection with
    | ok e => simp [hab] at h
    | error f' =>
        obtain rfl : f' = f := by simpa [hab] using h
        exact ⟨rfl, Selection.append_eq_error_iff.1 hab⟩
  · rw [Span.run_extend, Span.append] at h ⊢
    cases hadj : s.isAdjacent u with
    | true => simp [hadj] at h
    | false => exact ⟨rfl, rfl⟩

def pair : List Graph.Action := [.addNumbered 0 (Builtin.input .real (some 2)).toNode]

def pairPort : Port := ⟨⟨0, 1⟩, 0⟩

theorem sizedAt_pair : SizedAt (Stages pair) pairPort 2 := ⟨_, _, Graph.stages_replay pair 1, rfl, rfl⟩

def whole : Tally := ofSpan ⟨pairPort, .real, 0, 2, 2, false⟩

theorem drawn_whole : Drawn (Stages pair) True none whole := by
  obtain ⟨g, o, hg, ho, hwhole⟩ : ∃ g o, Stages pair g ∧ g.outlet pairPort = .ok o ∧
      Span.whole o = ⟨pairPort, .real, 0, 2, 2, false⟩ :=
    ⟨_, _, Graph.stages_replay pair 1, rfl, rfl⟩
  rw [whole, ← hwhole]
  exact .whole hg ho

def second : Tally := ofSpan ⟨pairPort, .real, 1, 1, 2, true⟩

def triple : Tally := ofSpan ⟨⟨⟨1, 1⟩, 0⟩, .integer, 0, 3, 3, false⟩

theorem wellFormed_second : Drawn (Stages pair) True (some .real) second ∧
    second.WellFormed (Stages pair) (some .real) ∧ (second.append.run.run triple).2 = triple := by
  have hslice : whole.slice 1 1 = .ok second := rfl
  have hdrawn : Drawn (Stages pair) True (some .real) second := .typed (.slice drawn_whole hslice) rfl
  obtain ⟨hall, happend, -⟩ := wellFormed_of_drawn pair
  exact ⟨hdrawn, hall _ _ hdrawn, (happend triple second (.mismatch _ _) rfl).1⟩

end Tally

end Dataflow
