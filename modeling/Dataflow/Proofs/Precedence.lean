import Dataflow.Proofs.Sorting

/-!
# Which of two nodes is sorted first

Two keys that do not depend on each other are sorted in the order in which the depth-first walk meets
them: under the first listed node that leads to just one of them, or, when a node leads to both, in the
order of its own dependencies. So the order of the list is kept unless a dependent of the later key
is listed before the earlier one, and sometimes even then.
-/

namespace Dataflow.Digraph

open Relation

variable {κ : Type} [DecidableEq κ] (g : Digraph κ)

/-- Two keys neither of which is the other or depends on it, directly or through other keys. -/
def Independent (a b : κ) : Prop := ¬ ReflTransGen g.Edge a b ∧ ¬ ReflTransGen g.Edge b a

/-- A depth-first walk from the listed keys meets `a` before it meets `b`. -/
inductive Precedes : List κ → κ → κ → Prop
  | first {k a b : κ} {ks : List κ} :
      ReflTransGen g.Edge k a → ¬ ReflTransGen g.Edge k b → Precedes (k :: ks) a b
  | within {k a b : κ} {ks : List κ} :
      ReflTransGen g.Edge k a → ReflTransGen g.Edge k b → Precedes (g.next k) a b →
        Precedes (k :: ks) a b
  | later {k a b : κ} {ks : List κ} :
      ¬ ReflTransGen g.Edge k a → ¬ ReflTransGen g.Edge k b → Precedes ks a b →
        Precedes (k :: ks) a b

/-- A visit of the keys `ks` has added what they lead to and was not sorted before, in the order in
which a walk meets it. -/
structure Adds (sorted ks r : List κ) : Prop where
  keeps : sorted <+: r
  mem_iff : ∀ z, z ∈ r ↔ z ∈ sorted ∨ g.Reached ks z
  order : ∀ a ∈ r, ∀ b ∈ r, a ∉ sorted → b ∉ sorted → g.Independent a b →
    (r.idxOf a < r.idxOf b ↔ g.Precedes ks a b)

variable {g} {a b k : κ} {ks path sorted r : List κ}

theorem precedes_cons_within (ha : ReflTransGen g.Edge k a) (hb : ReflTransGen g.Edge k b) :
    g.Precedes (k :: ks) a b ↔ g.Precedes (g.next k) a b := by
  constructor
  · intro h
    cases h with
    | first _ hn => exact absurd hb hn
    | within _ _ h => exact h
    | later hn _ _ => exact absurd ha hn
  · exact .within ha hb

theorem precedes_cons_later (ha : ¬ ReflTransGen g.Edge k a) (hb : ¬ ReflTransGen g.Edge k b) :
    g.Precedes (k :: ks) a b ↔ g.Precedes ks a b := by
  constructor
  · intro h
    cases h with
    | first h _ => exact absurd h ha
    | within h _ _ => exact absurd h ha
    | later _ _ h => exact h
  · exact .later ha hb

theorem not_precedes_cons (ha : ¬ ReflTransGen g.Edge k a) (hb : ReflTransGen g.Edge k b) :
    ¬ g.Precedes (k :: ks) a b := by
  intro h
  cases h with
  | first h _ => exact ha h
  | within h _ _ => exact ha h
  | later _ h _ => exact h hb

/-- The earlier of two keys comes first in a list in which no key before it leads to the later one. -/
theorem precedes_of_not_pulled (hab : ¬ ReflTransGen g.Edge a b) (ha : a ∈ ks)
    (h : ∀ k ∈ ks, ks.idxOf k < ks.idxOf a → ¬ ReflTransGen g.Edge k b) : g.Precedes ks a b := by
  induction ks with
  | nil => cases ha
  | cons k ks ih =>
      by_cases hk : k = a
      · subst hk
        exact .first .refl hab
      · have hkb : ¬ ReflTransGen g.Edge k b := by
          refine h k (by simp) ?_
          rw [List.idxOf_cons_self, List.idxOf_cons_ne _ hk]
          exact Nat.succ_pos _
        by_cases hka : ReflTransGen g.Edge k a
        · exact .first hka hkb
        · refine .later hka hkb (ih ((List.mem_cons.1 ha).resolve_left (Ne.symm hk)) ?_)
          intro x hx hlt
          by_cases hxk : k = x
          · exact hxk ▸ hkb
          · refine h x (by simp [hx]) ?_
            rw [List.idxOf_cons_ne _ hk, List.idxOf_cons_ne _ hxk]
            exact Nat.succ_lt_succ hlt

theorem reached_singleton_iff {z : κ} : g.Reached [k] z ↔ ReflTransGen g.Edge k z := by
  simp [Reached]

theorem reached_cons_iff {z : κ} :
    g.Reached (k :: ks) z ↔ ReflTransGen g.Edge k z ∨ g.Reached ks z := by
  simp [Reached]

theorem reached_next_iff {z : κ} : ReflTransGen g.Edge k z ↔ z = k ∨ g.Reached (g.next k) z := by
  rw [ReflTransGen.cases_head_iff]
  exact or_congr eq_comm Iff.rfl

theorem Settled.mem_of_reaches (h : g.Settled sorted) (ha : a ∈ sorted)
    (hab : ReflTransGen g.Edge a b) : b ∈ sorted := by
  induction hab with
  | refl => exact ha
  | tail _ hbc ih => exact h.mem_of_edge ih hbc

theorem adds_of_mem (h : g.Settled sorted) (hk : k ∈ sorted) : g.Adds sorted [k] sorted where
  keeps := List.prefix_refl _
  mem_iff z := by
    rw [reached_singleton_iff]
    exact ⟨Or.inl, fun hz => hz.elim id fun hz => h.mem_of_reaches hk hz⟩
  order _ ha _ _ hna := absurd ha hna

/-- A key is added after what it depends on. -/
theorem Adds.snoc (h : g.Adds sorted (g.next k) r) : g.Adds sorted [k] (r ++ [k]) where
  keeps := h.keeps.trans (List.prefix_append _ _)
  mem_iff z := by
    rw [reached_singleton_iff, reached_next_iff, List.mem_append, h.mem_iff, List.mem_singleton]
    tauto
  order a ha b hb hna hnb hab := by
    have hreach : ∀ z ∈ r ++ [k], z ∉ sorted → ReflTransGen g.Edge k z := by
      intro z hz hnz
      rw [List.mem_append, h.mem_iff, List.mem_singleton] at hz
      exact reached_next_iff.2 (by tauto)
    have hka := hreach a ha hna
    have hkb := hreach b hb hnb
    -- Neither of them is `k`, since `k` leads to both.
    have har : a ∈ r := by
      rcases List.mem_append.1 ha with ha | ha
      · exact ha
      · obtain rfl : a = k := by simpa using ha
        exact absurd hkb hab.1
    have hbr : b ∈ r := by
      rcases List.mem_append.1 hb with hb | hb
      · exact hb
      · obtain rfl : b = k := by simpa using hb
        exact absurd hka hab.2
    rw [List.idxOf_append_of_mem har, List.idxOf_append_of_mem hbr, precedes_cons_within hka hkb]
    exact h.order a har b hbr hna hnb hab

theorem Adds.idxOf_lt (h : g.Adds sorted ks r) (ha : a ∈ sorted) (hb : b ∉ sorted) :
    r.idxOf a < r.idxOf b := by
  obtain ⟨rest, rfl⟩ := h.keeps
  rw [List.idxOf_append_of_mem ha, List.idxOf_append_of_notMem hb]
  have := List.idxOf_lt_length_iff.2 ha
  omega

theorem Adds.idxOf_eq (h : g.Adds sorted ks r) (ha : a ∈ sorted) : r.idxOf a = sorted.idxOf a := by
  obtain ⟨rest, rfl⟩ := h.keeps
  exact List.idxOf_append_of_mem ha

/-- Of two visits, one after the other, the first has added what its key leads to. -/
theorem Adds.cons {s : List κ} (hk : g.Adds sorted [k] s) (hks : g.Adds s ks r) :
    g.Adds sorted (k :: ks) r where
  keeps := hk.keeps.trans hks.keeps
  mem_iff z := by
    rw [hks.mem_iff, hk.mem_iff, reached_singleton_iff, reached_cons_iff, or_assoc]
  order a ha b hb hna hnb hab := by
    have hmem : ∀ z, z ∉ sorted → (z ∈ s ↔ ReflTransGen g.Edge k z) := by
      intro z hz
      rw [hk.mem_iff, reached_singleton_iff, or_iff_right hz]
    by_cases has : a ∈ s <;> by_cases hbs : b ∈ s
    · have hka := (hmem a hna).1 has
      have hkb := (hmem b hnb).1 hbs
      rw [hks.idxOf_eq has, hks.idxOf_eq hbs, hk.order a has b hbs hna hnb hab,
        precedes_cons_within hka hkb, precedes_cons_within hka hkb]
    · have hkb := fun h => hbs ((hmem b hnb).2 h)
      exact iff_of_true (hks.idxOf_lt has hbs) (.first ((hmem a hna).1 has) hkb)
    · have hka := fun h => has ((hmem a hna).2 h)
      exact iff_of_false (Nat.lt_asymm (hks.idxOf_lt hbs has))
        (not_precedes_cons hka ((hmem b hnb).1 hbs))
    · have hka := fun h => has ((hmem a hna).2 h)
      have hkb := fun h => hbs ((hmem b hnb).2 h)
      rw [hks.order a ha b hb has hbs hab, precedes_cons_later hka hkb]

theorem walk_nil : g.Walk [] [] := ⟨by simp, by simp, ⟨by simp, by simp⟩, by simp⟩

theorem isChain_snoc {d : κ} (h : (path ++ [k]).IsChain g.Edge) (hd : g.Edge k d) :
    (path ++ [k] ++ [d]).IsChain g.Edge := by
  apply List.isChain_append.2
  refine ⟨h, by simp, ?_⟩
  intro x hx y hy
  obtain rfl : k = x := by simpa using hx
  obtain rfl : d = y := by simpa using hy
  exact hd

/-- Visits add what their keys lead to, by induction on their recursion. -/
theorem adds (g : Digraph κ) :
    (∀ path sorted k, g.Walk path sorted → g.Known k → (path ++ [k]).IsChain g.Edge →
      ∀ r, g.visit path sorted k = .ok r → g.Adds sorted [k] r) ∧
    ∀ path sorted ks, g.Walk path sorted → (∀ k ∈ ks, g.Known k) →
      (∀ k ∈ ks, (path ++ [k]).IsChain g.Edge) →
      ∀ r, g.visitAll path sorted ks = .ok r → g.Adds sorted ks r := by
  apply visit.mutual_induct g
  case case1 =>
    intro path sorted k hp _ _ _ r hr
    rw [visit, dif_pos hp] at hr
    cases hr
  case case2 =>
    intro path sorted k hp hs hwalk _ _ r hr
    rw [visit, dif_neg hp, if_pos hs] at hr
    obtain rfl := Except.ok.inj hr
    exact adds_of_mem hwalk.settled hs
  case case3 =>
    intro path sorted k hp hs hn ih hwalk hknown hchain r hr
    rw [visit, dif_neg hp, if_neg hs, dif_pos hn] at hr
    cases hdeps : g.visitAll (path ++ [k]) sorted (g.edges k) with
    | error c =>
        rw [hdeps] at hr
        cases hr
    | ok s =>
        rw [hdeps] at hr
        obtain rfl : s ++ [k] = r := Except.ok.inj hr
        have hedge : ∀ d ∈ g.edges k, g.Edge k d := fun d hd => g.edge_iff.2 ⟨hn, hd⟩
        have hs := ih (hwalk.push hp hs) (fun d hd => Or.inr ⟨k, hedge d hd⟩)
          (fun d hd => isChain_snoc hchain (hedge d hd)) s hdeps
        rw [← (if_pos hn : g.next k = g.edges k)] at hs
        exact hs.snoc
  case case4 =>
    intro path sorted k hp hs hn hwalk hknown _ r hr
    rw [visit, dif_neg hp, if_neg hs, dif_neg hn] at hr
    obtain rfl : sorted ++ [k] = r := Except.ok.inj hr
    refine .snoc ⟨List.prefix_refl _, fun z => ?_, fun a ha _ _ hna => absurd ha hna⟩
    simp [next, hn, Reached]
  case case5 =>
    intro path sorted _ _ _ r hr
    rw [visitAll] at hr
    obtain rfl := Except.ok.inj hr
    exact ⟨List.prefix_refl _, fun z => by simp [Reached], fun a ha _ _ hna => absurd ha hna⟩
  case case6 =>
    intro path sorted k ks ihk ihks hwalk hknown hchain r hr
    rw [visitAll] at hr
    cases hk : g.visit path sorted k with
    | error c =>
        rw [hk] at hr
        cases hr
    | ok s =>
        rw [hk] at hr
        have hwalk' := (visited g).1 path sorted k hwalk (hknown k (by simp)) (hchain k (by simp))
        rw [hk] at hwalk'
        have hfirst := ihk hwalk (hknown k (by simp)) (hchain k (by simp)) s hk
        have hrest := ihks s hwalk'.1 (fun x hx => hknown x (by simp [hx]))
          (fun x hx => hchain x (by simp [hx])) r hr
        exact hfirst.cons hrest

theorem Acyclic.exists_sorted (h : g.Acyclic) : ∃ order, g.sort = .ok order ∧ g.Sorted order := by
  have hresult := sorted_or_genuine g
  cases hr : g.sort with
  | ok order =>
      rw [hr] at hresult
      exact ⟨order, rfl, hresult⟩
  | error c =>
      rw [hr] at hresult
      exact absurd h hresult.not_acyclic

/-- **What decides the order.** Two nodes that do not depend on each other are sorted in the order in
which a depth-first walk from the listed nodes meets them. That is the order of the list if no
node that is listed before the earlier one depends on the later one. -/
theorem sort_in_walk_order (h : g.Acyclic) : ∃ order, g.sort = .ok order ∧
    ∀ a ∈ g.nodes, ∀ b ∈ g.nodes, g.Independent a b →
      (order.idxOf a < order.idxOf b ↔ g.Precedes g.nodes a b) ∧
      ((∀ k ∈ g.nodes, g.nodes.idxOf k < g.nodes.idxOf a → ¬ ReflTransGen g.Edge k b) →
        order.idxOf a < order.idxOf b) := by
  obtain ⟨order, horder, hsorted⟩ := h.exists_sorted
  have hadds := (adds g).2 [] [] g.nodes walk_nil (fun k hk => Or.inl hk) (by simp) order horder
  refine ⟨order, horder, fun a ha b hb hab => ?_⟩
  have hmem : ∀ k ∈ g.nodes, k ∈ order := fun k hk => (hsorted.mem_iff k).2 (Or.inl hk)
  have hiff := hadds.order a (hmem a ha) b (hmem b hb) (by simp) (by simp) hab
  exact ⟨hiff, fun hfirst => hiff.2 (precedes_of_not_pulled hab.1 ha hfirst)⟩

/-- The list has the nodes that do not depend on each other in the order of the graph. -/
def Keeps (g : Digraph κ) (order : List κ) : Prop :=
  ∀ a ∈ g.nodes, ∀ b ∈ g.nodes, g.Independent a b →
    (order.idxOf a < order.idxOf b ↔ g.nodes.idxOf a < g.nodes.idxOf b)

/-- The first of three nodes depends on the third and the second, in this order. -/
def detour : Digraph Nat := ⟨[0, 1, 2], fun k => if k = 0 then [2, 1] else []⟩

theorem edge_detour_iff {a b : Nat} : detour.Edge a b ↔ a = 0 ∧ (b = 1 ∨ b = 2) := by
  rw [edge_iff]
  by_cases ha : a = 0
  · simp [detour, ha, or_comm]
  · simp [detour, ha]

theorem acyclic_detour : detour.Acyclic := by
  intro k hk
  obtain ⟨a, hka, -⟩ := TransGen.head'_iff.1 hk
  obtain ⟨b, -, hbk⟩ := TransGen.tail'_iff.1 hk
  have hfirst := (edge_detour_iff.1 hka).1
  have hlast := (edge_detour_iff.1 hbk).2
  omega

theorem independent_detour_iff {a b : Nat} (ha : a ∈ detour.nodes) (hb : b ∈ detour.nodes) :
    detour.Independent a b ↔ a ≠ 0 ∧ b ≠ 0 ∧ a ≠ b := by
  have hreach : ∀ x y, y ∈ detour.nodes → (ReflTransGen detour.Edge x y ↔ x = 0 ∨ x = y) := by
    intro x y hy
    constructor
    · intro h
      rcases ReflTransGen.cases_head h with rfl | ⟨z, hz, -⟩
      · exact Or.inr rfl
      · exact Or.inl (edge_detour_iff.1 hz).1
    · rintro (rfl | rfl)
      · by_cases h0 : y = 0
        · exact h0 ▸ .refl
        · refine .single (edge_detour_iff.2 ⟨rfl, ?_⟩)
          simpa [detour, h0] using hy
      · exact .refl
  rw [Independent, hreach a b hb, hreach b a ha]
  omega

/-- The walk meets the third node before the second. -/
theorem sort_in_walk_order_detour : detour.Acyclic ∧ detour.Independent 2 1 ∧
    ∃ order, detour.sort = .ok order ∧ order.idxOf 2 < order.idxOf 1 := by
  have hind : detour.Independent 2 1 :=
    (independent_detour_iff (by decide) (by decide)).2 (by decide)
  obtain ⟨order, horder, hwalk⟩ := sort_in_walk_order acyclic_detour
  refine ⟨acyclic_detour, hind, order, horder, (hwalk 2 (by decide) 1 (by decide) hind).1.2 ?_⟩
  have hfirst : detour.next 0 = [2, 1] := by decide
  have hto : ∀ k ∈ [1, 2], ReflTransGen detour.Edge 0 k := by
    intro k hk
    exact .single (edge_detour_iff.2 ⟨rfl, by simpa using hk⟩)
  refine .within (hto 2 (by decide)) (hto 1 (by decide)) ?_
  rw [hfirst]
  exact .first .refl hind.1

/-- Sorting does not keep the order of the list, though there is a sorted order that does. -/
theorem not_keeps_detour : detour.nodes.Nodup ∧ detour.Acyclic ∧
    (∀ k ∈ detour.nodes, ∀ d ∈ detour.edges k, d ∈ detour.nodes) ∧
    (∃ order, detour.sort = .ok order ∧ ¬ detour.Keeps order) ∧
    ∃ order, detour.Sorted order ∧ detour.Keeps order := by
  refine ⟨by decide, acyclic_detour, by decide, ⟨[2, 1, 0], ?_, fun h => ?_⟩, [1, 2, 0], ?_, ?_⟩
  · simp [sort, visitAll, visit, detour, bind, Except.bind, pure, Except.pure]
  · have hind : detour.Independent 1 2 :=
      (independent_detour_iff (by decide) (by decide)).2 (by decide)
    exact absurd ((h 1 (by decide) 2 (by decide) hind).2 (by decide)) (by decide)
  · refine ⟨⟨by decide, fun a _ b hab => ?_⟩, fun k => ?_⟩
    · obtain ⟨rfl, rfl | rfl⟩ := edge_detour_iff.1 hab
      · decide
      · decide
    · simp only [Known, edge_detour_iff]
      simp [detour]
      omega
  · intro a ha b hb hab
    obtain ⟨ha0, hb0, hne⟩ := (independent_detour_iff ha hb).1 hab
    simp only [detour, List.mem_cons, List.not_mem_nil, or_false] at ha hb
    obtain rfl | rfl : a = 1 ∨ a = 2 := by omega
    · obtain rfl : b = 2 := by omega
      decide
    · obtain rfl : b = 1 := by omega
      decide

end Dataflow.Digraph
