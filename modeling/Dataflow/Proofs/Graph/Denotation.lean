import Dataflow.Proofs.Graph.Settled

/-!
# What the cells of a graph stand for

The value of a cell is worked out from the graph alone: the input port has the values supplied,
every other input is zero, and what another node holds is made from the values of the cells that
its inlets select. A cell has at most one value, which depends only on nodes that are reached from
it. In settled values every cell holds its value.
-/

namespace Dataflow

namespace Builtin

/-- The value at position `i` of the result for the given operands. -/
def element (b : Builtin) (operands : List (List Scalar)) (i : Nat) : Option Scalar :=
  match b with
  | input .. => none
  | constant values => values.scalars[i]?
  | binary _ op .. => do
    Scalar.binary op (← (← operands[0]?)[i]?) (← (← operands[1]?)[i]?)
  | predicate _ op .. => do
    Scalar.compare op (← (← operands[0]?)[i]?) (← (← operands[1]?)[i]?)
  | unary _ op .. => do Scalar.unary op (← (← operands[0]?)[i]?)
  | sum t .. => do if i = 0 then Scalar.sum t (← operands[0]?) else none
  | cast _ target _ => do return (← (← operands[0]?)[i]?).convert target

variable {b : Builtin} {inputs : List Values}

theorem inputValues_eq_ok {m : Nat} {v : Values} (h : inputValues inputs m = .ok v) :
    inputs[m]? = some v := by
  unfold inputValues at h
  split at h
  case h_1 w hw =>
    rw [hw, Except.ok.inj h]
  case h_2 => cases h

/-- The result of a built-in node, position by position. -/
theorem element_of_eval {v : Values} (h : b.eval inputs = .ok (some v))
    (ht : v.elemType = b.elemType) {i : Nat} {a : Scalar} (ha : v.scalars[i]? = some a) :
    b.element (inputs.map (·.scalars)) i = some a := by
  cases b with
  | input t size => cases h
  | constant values =>
      obtain rfl := Option.some.inj (Except.ok.inj h)
      exact ha
  | binary t op x y =>
      obtain ⟨x, hx, h⟩ := bind_eq_ok_iff.1 h
      obtain ⟨y, hy, h⟩ := bind_eq_ok_iff.1 h
      obtain ⟨w, hw, h⟩ := map_eq_ok_iff.1 h
      obtain rfl := Option.some.inj h
      obtain ⟨p, q, hp, hq, hpq⟩ := Elementwise.binary_eq_ok hw ha
      simp [element, inputValues_eq_ok hx, inputValues_eq_ok hy, hp, hq, hpq]
  | predicate t op x y =>
      obtain ⟨x, hx, h⟩ := bind_eq_ok_iff.1 h
      obtain ⟨y, hy, h⟩ := bind_eq_ok_iff.1 h
      obtain ⟨w, hw, h⟩ := map_eq_ok_iff.1 h
      obtain rfl := Option.some.inj h
      obtain ⟨p, q, hp, hq, hpq⟩ := Elementwise.compare_eq_ok hw ha
      simp [element, inputValues_eq_ok hx, inputValues_eq_ok hy, hp, hq, hpq]
  | unary t op x =>
      obtain ⟨x, hx, h⟩ := bind_eq_ok_iff.1 h
      obtain ⟨w, hw, h⟩ := map_eq_ok_iff.1 h
      obtain rfl := Option.some.inj h
      obtain ⟨p, hp, hpw⟩ := Elementwise.unary_eq_ok hw ha
      simp [element, inputValues_eq_ok hx, hp, hpw]
  | sum t x =>
      obtain ⟨x, hx, h⟩ := bind_eq_ok_iff.1 h
      cases hs : Elementwise.sum? x with
      | none =>
          rw [hs] at h
          cases h
      | some w =>
          rw [hs] at h
          obtain rfl := Option.some.inj (Except.ok.inj h)
          obtain ⟨hx', c, hc, hsum⟩ := Elementwise.sum?_eq_some hs
          obtain rfl : t = x.elemType := ht.symm.trans hx'
          rw [hc] at ha
          cases i with
          | zero =>
              obtain rfl : c = a := Option.some.inj ha
              simp [element, inputValues_eq_ok hx, hsum]
          | succ i => cases ha
  | cast t target x =>
      obtain ⟨y, hy, h⟩ := bind_eq_ok_iff.1 h
      obtain ⟨w, hw, h⟩ := bind_eq_ok_iff.1 h
      obtain ⟨-, rfl⟩ := Values.expect_eq_ok_iff.1 hw
      obtain rfl := Option.some.inj (Except.ok.inj h)
      rw [Values.scalars_convert, List.getElem?_map, Option.map_eq_some_iff] at ha
      obtain ⟨p, hp, rfl⟩ := ha
      simp [element, inputValues_eq_ok hy, hp]

end Builtin

namespace Graph

/-- What the inlets of a node select; nothing for a key of no node. -/
def selections (g : Graph) (k : Key) : List Selection :=
  ((g.entry? k).map fun e => e.inlets.map (·.selection)).getD []

/-- The size of the first outlet of a node, zero if there is none. -/
def width (g : Graph) (k : Key) : Nat :=
  (((g.entry? k).bind fun e => e.outlets.head?).bind (·.size)).getD 0

/-- The cell has the value when the input port holds `x`. -/
inductive Denotes (g : Graph) (kind : Key → Builtin) (input : Key) (x : Values) :
    Cell → Scalar → Prop
  | supplied {c : Cell} {a : Scalar} :
      c.port = ⟨input, 0⟩ → x.scalars[c.index]? = some a → Denotes g kind input x c a
  | idle {c : Cell} {k : Key} {t : ElemType} {size : Option Nat} :
      c.port = ⟨k, 0⟩ → k ≠ input → kind k = .input t size → c.index < g.width k →
      Denotes g kind input x c (.zero t)
  | computed {c : Cell} {k : Key} {a : Scalar} {operands : List (List Scalar)} :
      c.port = ⟨k, 0⟩ → k ≠ input → operands.length = (g.selections k).length →
      (∀ (m : Nat) (s : Selection) (as : List Scalar), (g.selections k)[m]? = some s →
        operands[m]? = some as → as.length = s.cells.length) →
      (∀ (m n : Nat) (s : Selection) (as : List Scalar) (d : Cell) (b : Scalar),
        (g.selections k)[m]? = some s → operands[m]? = some as → s.cells[n]? = some d →
        as[n]? = some b → Denotes g kind input x d b) →
      (kind k).element operands c.index = some a → Denotes g kind input x c a

section Denotes

variable {g g' : Graph} {kind kind' : Key → Builtin} {input : Key} {x : Values}

theorem Denotes.unique {c : Cell} {a b : Scalar} (ha : g.Denotes kind input x c a)
    (hb : g.Denotes kind input x c b) : a = b := by
  induction ha generalizing b with
  | supplied hport ha =>
      cases hb with
      | supplied _ hb => exact Option.some.inj (ha.symm.trans hb)
      | idle hport' hne => exact absurd (Port.mk.inj (hport'.symm.trans hport)).1 hne
      | computed hport' hne => exact absurd (Port.mk.inj (hport'.symm.trans hport)).1 hne
  | idle hport hne hk _ =>
      cases hb with
      | supplied hport' => exact absurd (Port.mk.inj (hport.symm.trans hport')).1 hne
      | idle hport' _ hk' =>
          obtain rfl := (Port.mk.inj (hport'.symm.trans hport)).1
          rw [hk] at hk'
          rw [(Builtin.input.inj hk').1]
      | computed hport' _ _ _ _ hel =>
          obtain rfl := (Port.mk.inj (hport'.symm.trans hport)).1
          rw [hk] at hel
          cases hel
  | @computed c k a operands hport hne hlen hcells _ hel ih =>
      cases hb with
      | supplied hport' => exact absurd (Port.mk.inj (hport.symm.trans hport')).1 hne
      | idle hport' _ hk' =>
          obtain rfl := (Port.mk.inj (hport'.symm.trans hport)).1
          rw [hk'] at hel
          cases hel
      | @computed _ _ _ operands' hport' _ hlen' hcells' hall' hel' =>
          obtain rfl := (Port.mk.inj (hport'.symm.trans hport)).1
          have hsame : operands = operands' := by
            refine List.ext_getElem (hlen.trans hlen'.symm) fun m hm hm' => ?_
            obtain ⟨s, hs⟩ : ∃ s, (g.selections _)[m]? = some s :=
              ⟨_, List.getElem?_eq_getElem (hlen ▸ hm)⟩
            have h₁ := List.getElem?_eq_getElem hm
            have h₂ := List.getElem?_eq_getElem hm'
            have hl := hcells m s _ hs h₁
            have hl' := hcells' m s _ hs h₂
            refine List.ext_getElem (hl.trans hl'.symm) fun n hn hn' => ?_
            exact ih m n s _ _ _ hs h₁ (List.getElem?_eq_getElem (hl ▸ hn))
              (List.getElem?_eq_getElem hn)
              (hall' m n s _ _ _ hs h₂ (List.getElem?_eq_getElem (hl ▸ hn))
                (List.getElem?_eq_getElem hn'))
          subst hsame
          exact Option.some.inj (hel.symm.trans hel')

/-- The node reads from the same cells in both graphs, is as wide and is of the same kind. -/
structure Alike (g g' : Graph) (kind kind' : Key → Builtin) (k : Key) : Prop where
  selections : g'.selections k = g.selections k
  width : g'.width k = g.width k
  kind : kind' k = kind k

theorem reads_of_mem_selections {k : Key} {s : Selection} (hs : s ∈ g.selections k) {a : Span}
    (ha : a ∈ s.spans) : g.Reads k a.port.node := by
  unfold selections at hs
  cases he : g.entry? k with
  | none => simp [he] at hs
  | some e =>
      simp only [he, Option.map_some, Option.getD_some, List.mem_map] at hs
      obtain ⟨i, hi, rfl⟩ := hs
      exact (reads_iff he).2 ⟨i, hi, a, ha, rfl⟩

theorem exists_span_of_mem_cells {s : Selection} {c : Cell} (hc : c ∈ s.cells) :
    ∃ a ∈ s.spans, c.port = a.port := by
  obtain ⟨a, ha, hc⟩ := List.mem_flatMap.1 hc
  obtain ⟨i, -, rfl⟩ := List.mem_map.1 hc
  exact ⟨a, ha, rfl⟩

/-- The value of a cell depends only on the nodes that are reached from it. -/
theorem Denotes.of_alike {c : Cell} {a : Scalar} (h : g.Denotes kind input x c a)
    (halike : ∀ k, Relation.ReflTransGen g.Reads c.port.node k → Alike g g' kind kind' k) :
    g'.Denotes kind' input x c a := by
  induction h with
  | supplied hport ha => exact .supplied hport ha
  | @idle c k t size hport hne hk hlt =>
      obtain ⟨-, hw, hk'⟩ := halike k (by rw [hport])
      exact .idle hport hne (hk'.trans hk) (hw ▸ hlt)
  | @computed c k a operands hport hne hlen hcells _ hel ih =>
      obtain ⟨hs, -, hk'⟩ := halike k (by rw [hport])
      have hlen' : operands.length = (g'.selections k).length := hs ▸ hlen
      refine .computed hport hne hlen' (hs ▸ hcells) ?_ (hk' ▸ hel)
      intro m n s as d b hm hom hd hb
      rw [hs] at hm
      refine ih m n s as d b hm hom hd hb fun k' hreach => halike k' ?_
      obtain ⟨sp, hsp, hdp⟩ := exists_span_of_mem_cells (List.mem_of_getElem? hd)
      have hread := reads_of_mem_selections (List.mem_of_getElem? hm) hsp
      rw [hport]
      rw [hdp] at hreach
      exact hreach.head hread

theorem SameShape.selections_eq (h : SameShape g g') (k : Key) :
    g'.selections k = g.selections k := by
  have hentry := h.entry k
  cases he : g.entry? k with
  | none =>
      rw [he, Option.map_none, Option.map_eq_none_iff] at hentry
      simp [selections, he, hentry]
  | some e =>
      obtain ⟨e', he', hb⟩ := h.exists_entry he
      obtain ⟨-, -, -, hin, -, -⟩ := toSite_eq_of_blank hb
      simp [selections, he, he', hin]

theorem SameShape.width_eq (h : SameShape g g') (k : Key) : g'.width k = g.width k := by
  have hentry := h.entry k
  cases he : g.entry? k with
  | none =>
      rw [he, Option.map_none, Option.map_eq_none_iff] at hentry
      simp [width, he, hentry]
  | some e =>
      obtain ⟨e', he', hb⟩ := h.exists_entry he
      obtain ⟨-, -, -, -, -, hout⟩ := toSite_eq_of_blank hb
      have hsize := congrArg (fun os => (List.head? os).bind Outlet.size) hout
      simp only [List.head?_map, Option.bind_map] at hsize
      have hw : (e'.outlets.head?.bind Outlet.size).getD 0 =
          (e.outlets.head?.bind Outlet.size).getD 0 := congrArg (·.getD 0) hsize
      simpa [width, he, he'] using hw

theorem alike_of_sameShape (h : SameShape g g') (k : Key) : Alike g g' kind kind k :=
  ⟨h.selections_eq k, h.width_eq k, rfl⟩

end Denotes

section Gather

variable {g : Graph} {D : Cell → Scalar → Prop}

def Bears (g : Graph) (D : Cell → Scalar → Prop) (p : Port) : Prop :=
  ∀ o, g.outlet p = .ok o → ∀ (i : Nat) (a : Scalar), o.values.scalars[i]? = some a →
    ∀ t, D ⟨p, t, i⟩ a

theorem forall₂_cells {s : Span} {o : Outlet} (ho : g.outlet s.port = .ok o)
    (hD : g.Bears D s.port) (hlen : s.start + s.length ≤ o.values.length) :
    List.Forall₂ D s.cells ((o.values.scalars.drop s.start).take s.length) := by
  have hl : ((o.values.scalars.drop s.start).take s.length).length = s.length := by
    simp only [List.length_take, List.length_drop, Values.length_scalars]
    omega
  refine List.forall₂_iff_get.2 ⟨by simp [hl], fun i h₁ h₂ => ?_⟩
  have hi : i < s.length := hl ▸ h₂
  have hcell : s.cells.get ⟨i, h₁⟩ = ⟨s.port, s.elemType, s.start + i⟩ := by
    simp [Span.cells]
  rw [hcell]
  refine hD o ho _ _ ?_ _
  rw [List.get_eq_getElem, List.getElem_take, List.getElem_drop]
  exact List.getElem?_eq_getElem _

theorem gatherSpans_bears {spans : List Span} {values v : Values}
    (hD : ∀ a ∈ spans, g.Bears D a.port) (h : g.gatherSpans values spans = .ok v) :
    ∃ rest, v.scalars = values.scalars ++ rest ∧ v.elemType = values.elemType ∧
      List.Forall₂ D (spans.flatMap Span.cells) rest := by
  induction spans generalizing values with
  | nil =>
      obtain rfl := Except.ok.inj h
      exact ⟨[], by simp, rfl, .nil⟩
  | cons a spans ih =>
      rw [gatherSpans] at h
      obtain ⟨o, ho, h⟩ := bind_eq_ok_iff.1 h
      obtain ⟨w, hw, h⟩ := bind_eq_ok_iff.1 h
      obtain ⟨hlen, -, ht, hs⟩ := Values.extend_eq_ok hw
      obtain ⟨rest, hrest, htr, hall⟩ := ih (fun b hb => hD b (by simp [hb])) h
      refine ⟨(o.values.scalars.drop a.start).take a.length ++ rest, ?_, htr.trans ht, ?_⟩
      · rw [hrest, hs, List.append_assoc]
      · rw [List.flatMap_cons]
        exact List.rel_append (forall₂_cells ho (hD a (by simp)) hlen) hall

/-- What a selection gathers are the values of its cells. -/
theorem gather_bears {s : Selection} {v : Values} (hfit : g.FitsAll s)
    (hD : ∀ a ∈ s.spans, g.Bears D a.port) (h : g.gather s = .ok v) :
    List.Forall₂ D s.cells v.scalars := by
  unfold gather at h
  rw [resolve_of_fitsAll hfit] at h
  obtain ⟨rest, hrest, -, hall⟩ := gatherSpans_bears hD h
  rw [hrest, Values.scalars_zeros]
  exact hall

end Gather

section Settled

variable {g : Graph} {kind : Key → Builtin} {input : Key} {x : Values}

structure Supplied (g : Graph) (kind : Key → Builtin) (input : Key) (x : Values)
    (order : List Key) : Prop where
  isInput : (kind input).isInput = true
  given : ∀ o, g.outlet ⟨input, 0⟩ = .ok o → o.values = x
  idle : ∀ k ∈ order, k ≠ input → (kind k).isInput = true → ∀ o, g.outlet ⟨k, 0⟩ = .ok o →
    o.values = .zeros o.elemType (o.size.getD 0)
  fits : ∀ k ∈ order, ∀ s ∈ g.selections k, g.FitsAll s

theorem outlet_eq_ok_of_built (hb : g.Built kind) {k : Key} {i : Nat} {o : Outlet}
    (ho : g.outlet ⟨k, i⟩ = .ok o) :
    i = 0 ∧ ∃ e, g.entry? k = some e ∧ e.outlets = [o] ∧ o.elemType = (kind k).elemType := by
  obtain ⟨e, he, hi⟩ := outlet_eq_ok_iff.1 ho
  obtain ⟨o', ho', ht⟩ := hb.outlet k e he
  simp only at hi
  rw [ho'] at hi
  cases i with
  | zero =>
      obtain rfl : o' = o := Option.some.inj hi
      exact ⟨rfl, e, he, ho', ht⟩
  | succ i => cases hi

/-- A settled node bears the right values when the nodes that it reads do. -/
theorem bears_of_settled {order : List Key} (hb : g.Built kind)
    (hs : g.Supplied kind input x order) {k : Key} (hk : k ∈ order) (hsettled : g.Settled kind k)
    (hreads : ∀ d, g.Reads k d → ∀ i, g.Bears (g.Denotes kind input x) ⟨d, i⟩) (i : Nat) :
    g.Bears (g.Denotes kind input x) ⟨k, i⟩ := by
  intro o ho n a ha t
  obtain ⟨rfl, e, he, hout, ht⟩ := outlet_eq_ok_of_built hb ho
  by_cases hki : k = input
  · subst hki
    obtain rfl := hs.given o ho
    exact .supplied rfl ha
  obtain ⟨e', o', inputs, he', hout', hi, hv⟩ := hsettled
  obtain rfl : e = e' := Option.some.inj (he.symm.trans he')
  obtain rfl : o = o' := List.singleton_inj.1 (hout.symm.trans hout')
  rcases hv with hin | ⟨hv, hsuits⟩
  · rw [hs.idle k hk hki hin o ho, Values.scalars_zeros, List.getElem?_replicate] at ha
    split at ha
    case isFalse => cases ha
    case isTrue hn =>
      obtain rfl := Option.some.inj ha
      cases hkind : kind k with
      | input t' size =>
          rw [ht, hkind]
          exact .idle rfl hki hkind (by simpa [width, he, hout] using hn)
      | _ => simp [hkind, Builtin.isInput] at hin
  · have hsel : g.selections k = e.inlets.map (·.selection) := by simp [selections, he]
    have hall := mapM_eq_ok_iff.1 hi
    have hbears : ∀ (m : Nat) (s : Selection) (as : List Scalar), (g.selections k)[m]? = some s →
        (inputs.map (·.scalars))[m]? = some as →
        List.Forall₂ (g.Denotes kind input x) s.cells as := by
      intro m s as hm has
      have hmem := List.mem_of_getElem? hm
      rw [hsel, List.getElem?_map, Option.map_eq_some_iff] at hm
      obtain ⟨inlet, hinlet, rfl⟩ := hm
      rw [List.getElem?_map, Option.map_eq_some_iff] at has
      obtain ⟨v, hv, rfl⟩ := has
      obtain ⟨h₁, rfl⟩ := List.getElem?_eq_some_iff.1 hinlet
      obtain ⟨h₂, rfl⟩ := List.getElem?_eq_some_iff.1 hv
      refine gather_bears (hs.fits k hk _ hmem) (fun a ha => ?_) (hall.get h₁ h₂)
      exact hreads _ (reads_of_mem_selections hmem ha) _
    have hlen : (inputs.map (·.scalars)).length = (g.selections k).length := by
      rw [hsel, List.length_map, List.length_map, hall.length_eq]
    refine .computed rfl hki hlen ?_ ?_ ?_
    · intro m s as hm has
      exact (hbears m s as hm has).length_eq.symm
    · intro m n s as d b hm has hd hbn
      obtain ⟨h₁, rfl⟩ := List.getElem?_eq_some_iff.1 hd
      obtain ⟨h₂, rfl⟩ := List.getElem?_eq_some_iff.1 hbn
      exact (hbears m s as hm has).get h₁ h₂
    · exact Builtin.element_of_eval hv (hsuits.1.trans ht) ha

/-- The nodes of a dependency order bear the right values once all of them are settled. -/
theorem bears_of_inOrder {order : List Key} (hb : g.Built kind)
    (hs : g.Supplied kind input x order) (horder : g.InOrder order)
    (hsettled : ∀ k ∈ order, g.Settled kind k) :
    ∀ k ∈ order, ∀ i, g.Bears (g.Denotes kind input x) ⟨k, i⟩ := by
  have walk : ∀ (pre post : List Key), order = pre ++ post →
      ∀ k ∈ pre, ∀ i, g.Bears (g.Denotes kind input x) ⟨k, i⟩ := by
    intro pre
    induction pre using List.reverseRecOn with
    | nil =>
        intro post _ k hk
        cases hk
    | append_singleton pre j ih =>
        intro post hsplit k hk
        rw [List.append_assoc] at hsplit
        rcases List.mem_append.1 hk with hk | hk
        · exact ih _ hsplit k hk
        · obtain rfl := List.mem_singleton.1 hk
          have hmem : k ∈ order := by simp [hsplit]
          refine bears_of_settled hb hs hmem (hsettled k hmem) fun d hd => ?_
          exact ih _ hsplit d (horder.2 pre k post hsplit d hd)
  exact walk order [] (by simp)

end Settled

end Graph

end Dataflow
