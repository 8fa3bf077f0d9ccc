import Dataflow.Digraph
import Mathlib

/-!
# What depth-first walks find

`closure` lists exactly the keys that can be reached from the roots. When some rank falls along
every edge there are no cycles, so `sort` succeeds; and a list that is in dependency order already
is its own sorted list.
-/

namespace Dataflow.Digraph

open Relation

variable {κ : Type} [DecidableEq κ] (g : Digraph κ)

def Edge (a b : κ) : Prop := b ∈ g.next a

theorem edge_iff {a b : κ} : g.Edge a b ↔ a ∈ g.nodes ∧ b ∈ g.edges a := by
  unfold Edge next
  split_ifs with h
  · simp [h]
  · simp [h]

def Reached (roots : List κ) (k : κ) : Prop := ∃ r ∈ roots, ReflTransGen g.Edge r k

def Covered (seen stack : List κ) : Prop :=
  ∀ a ∈ seen, ∀ b, g.Edge a b → b ∈ seen ∨ b ∈ stack

theorem subset_closureFrom (seen stack : List κ) :
    (∀ k ∈ seen, k ∈ g.closureFrom seen stack) ∧ ∀ k ∈ stack, k ∈ g.closureFrom seen stack := by
  induction seen, stack using closureFrom.induct g with
  | case1 seen => simp [closureFrom]
  | case2 seen k stack hk ih =>
      rw [closureFrom, if_pos hk]
      refine ⟨ih.1, fun x hx => ?_⟩
      rcases List.mem_cons.1 hx with rfl | hx
      · exact ih.1 x hk
      · exact ih.2 x hx
  | case3 seen k stack hk ih =>
      rw [closureFrom, if_neg hk]
      refine ⟨fun x hx => ih.1 x (by simp [hx]), fun x hx => ?_⟩
      rcases List.mem_cons.1 hx with rfl | hx
      · exact ih.1 x (by simp)
      · exact ih.2 x (by simp [hx])

theorem closureFrom_covered (seen stack : List κ) (h : g.Covered seen stack) :
    g.Covered (g.closureFrom seen stack) [] := by
  induction seen, stack using closureFrom.induct g with
  | case1 seen => simpa [closureFrom] using h
  | case2 seen k stack hk ih =>
      rw [closureFrom, if_pos hk]
      apply ih
      intro a ha b hab
      rcases h a ha b hab with hb | hb
      · exact Or.inl hb
      · rcases List.mem_cons.1 hb with rfl | hb
        · exact Or.inl hk
        · exact Or.inr hb
  | case3 seen k stack hk ih =>
      rw [closureFrom, if_neg hk]
      apply ih
      intro a ha b hab
      rcases List.mem_append.1 ha with ha | ha
      · rcases h a ha b hab with hb | hb
        · exact Or.inl (by simp [hb])
        · rcases List.mem_cons.1 hb with rfl | hb
          · exact Or.inl (by simp)
          · exact Or.inr (by simp [hb])
      · obtain rfl : a = k := by simpa using ha
        exact Or.inr (List.mem_append_left _ hab)

theorem reached_of_mem_closureFrom (seen stack : List κ) {k : κ}
    (hk : k ∈ g.closureFrom seen stack) : k ∈ seen ∨ g.Reached stack k := by
  induction seen, stack using closureFrom.induct g with
  | case1 seen => exact Or.inl (by simpa [closureFrom] using hk)
  | case2 seen x stack hx ih =>
      rw [closureFrom, if_pos hx] at hk
      rcases ih hk with hs | ⟨r, hr, hrk⟩
      · exact Or.inl hs
      · exact Or.inr ⟨r, List.mem_cons_of_mem _ hr, hrk⟩
  | case3 seen x stack hx ih =>
      rw [closureFrom, if_neg hx] at hk
      rcases ih hk with hs | ⟨r, hr, hrk⟩
      · rcases List.mem_append.1 hs with hs | hs
        · exact Or.inl hs
        · obtain rfl : k = x := by simpa using hs
          exact Or.inr ⟨k, by simp, .refl⟩
      · rcases List.mem_append.1 hr with hr | hr
        · exact Or.inr ⟨x, by simp, hrk.head hr⟩
        · exact Or.inr ⟨r, by simp [hr], hrk⟩

theorem mem_closure_iff (roots : List κ) (k : κ) : k ∈ g.closure roots ↔ g.Reached roots k := by
  constructor
  · intro hk
    rcases g.reached_of_mem_closureFrom [] roots hk with hs | hr
    · simp at hs
    · exact hr
  · rintro ⟨r, hr, hrk⟩
    have hcov := g.closureFrom_covered [] roots (by simp [Covered])
    have hroot : r ∈ g.closure roots := (g.subset_closureFrom [] roots).2 r hr
    induction hrk with
    | refl => exact hroot
    | tail _ hab ih =>
        rcases hcov _ ih _ hab with hb | hb
        · exact hb
        · simp at hb

section Rank

variable {g} {rank : κ → Nat}

/-- Edges lead to keys of lower rank, so a key is never below itself on the path of a walk. -/
theorem exists_visit_eq_ok (hrank : ∀ a b, g.Edge a b → rank b < rank a) (n : Nat) :
    ∀ (k : κ) (path sorted : List κ), rank k < n → (∀ p ∈ path, rank k < rank p) →
      ∃ r, g.visit path sorted k = .ok r := by
  induction n with
  | zero => intro k _ _ hk; omega
  | succ n ih =>
      have all : ∀ (ks path sorted : List κ), (∀ k ∈ ks, rank k < n) →
          (∀ k ∈ ks, ∀ p ∈ path, rank k < rank p) → ∃ r, g.visitAll path sorted ks = .ok r := by
        intro ks
        induction ks with
        | nil => intro path sorted _ _; exact ⟨sorted, by simp [visitAll]⟩
        | cons k ks ihs =>
            intro path sorted hn hp
            obtain ⟨r, hr⟩ := ih k path sorted (hn k (by simp)) (hp k (by simp))
            obtain ⟨r', hr'⟩ := ihs path r (fun k hk => hn k (by simp [hk]))
              (fun k hk => hp k (by simp [hk]))
            exact ⟨r', by rw [visitAll, hr]; exact hr'⟩
      intro k path sorted hk hpath
      rw [visit]
      by_cases hp : k ∈ path
      · exact absurd (hpath k hp) (Nat.lt_irrefl _)
      rw [dif_neg hp]
      by_cases hs : k ∈ sorted
      · exact ⟨sorted, if_pos hs⟩
      rw [if_neg hs]
      by_cases hn : k ∈ g.nodes
      · have hlow : ∀ d ∈ g.edges k, rank d < rank k := fun d hd =>
          hrank k d ((g.edge_iff).2 ⟨hn, hd⟩)
        obtain ⟨r, hr⟩ := all (g.edges k) (path ++ [k]) sorted
          (fun d hd => by have := hlow d hd; omega) (by
            intro d hd p hp
            rcases List.mem_append.1 hp with hp | hp
            · exact Nat.lt_trans (hlow d hd) (hpath p hp)
            · obtain rfl : p = k := by simpa using hp
              exact hlow d hd)
        exact ⟨r ++ [k], by rw [dif_pos hn, hr]; rfl⟩
      · exact ⟨sorted ++ [k], dif_neg hn⟩

theorem exists_sort_eq_ok (hrank : ∀ a b, g.Edge a b → rank b < rank a) :
    ∃ order, g.sort = .ok order := by
  have all : ∀ (ks sorted : List κ), ∃ r, g.visitAll [] sorted ks = .ok r := by
    intro ks
    induction ks with
    | nil => intro sorted; exact ⟨sorted, by simp [visitAll]⟩
    | cons k ks ih =>
        intro sorted
        obtain ⟨r, hr⟩ := exists_visit_eq_ok hrank (rank k + 1) k [] sorted (by omega) (by simp)
        obtain ⟨r', hr'⟩ := ih r
        exact ⟨r', by rw [visitAll, hr]; exact hr'⟩
  exact all g.nodes []

/-- Visiting keys that are sorted already changes nothing. -/
theorem visitAll_of_subset {path sorted : List κ} :
    ∀ {ks : List κ}, (∀ k ∈ ks, k ∉ path) → (∀ k ∈ ks, k ∈ sorted) →
      g.visitAll path sorted ks = .ok sorted
  | [], _, _ => by simp [visitAll]
  | k :: ks, hp, hs => by
      have hk : g.visit path sorted k = .ok sorted := by
        rw [visit, dif_neg (hp k (by simp)), if_pos (hs k (by simp))]
      rw [visitAll, hk]
      exact visitAll_of_subset (fun k hk => hp k (by simp [hk])) fun k hk => hs k (by simp [hk])

/-- A list of rising rank that is closed under dependencies, each of lower rank, is sorted. -/
theorem sort_eq_self (hsorted : g.nodes.Pairwise fun a b => rank a < rank b)
    (hdeps : ∀ k ∈ g.nodes, ∀ d ∈ g.edges k, d ∈ g.nodes ∧ rank d < rank k) :
    g.sort = .ok g.nodes := by
  have walk : ∀ (post pre : List κ), g.nodes = pre ++ post →
      g.visitAll [] pre post = .ok g.nodes := by
    intro post
    induction post with
    | nil => intro pre h; rw [h]; simp [visitAll]
    | cons k post ih =>
        intro pre h
        have hpw := hsorted
        rw [h, List.pairwise_append] at hpw
        have hk : k ∈ g.nodes := by rw [h]; simp
        have hbefore : ∀ d ∈ g.edges k, d ∈ pre := by
          intro d hd
          obtain ⟨hmem, hlt⟩ := hdeps k hk d hd
          rw [h] at hmem
          rcases List.mem_append.1 hmem with hm | hm
          · exact hm
          · rcases List.mem_cons.1 hm with rfl | hm
            · exact absurd hlt (Nat.lt_irrefl _)
            · have := (List.pairwise_cons.1 hpw.2.1).1 d hm
              omega
        have hnew : k ∉ pre := fun hm => Nat.lt_irrefl _ (hpw.2.2 k hm k (by simp))
        have hvisit : g.visit [] pre k = .ok (pre ++ [k]) := by
          have hedges : g.visitAll ([] ++ [k]) pre (g.edges k) = .ok pre :=
            visitAll_of_subset (fun d hd hm => by
              obtain rfl : d = k := by simpa using hm
              exact hnew (hbefore d hd)) hbefore
          rw [visit, dif_neg (by simp), if_neg hnew, dif_pos hk, hedges]
          rfl
        rw [visitAll, hvisit]
        exact ih (pre ++ [k]) (by rw [h]; simp)
  exact walk g.nodes [] rfl

end Rank

end Dataflow.Digraph
