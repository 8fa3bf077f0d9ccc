import Dataflow.Proofs.Digraph
import Mathlib

/-!
# What the depth-first sort finds

`sort` either lists the nodes and their direct dependencies, each key once and after everything it
depends on, or returns a walk from a key back to that key. `Walk` says what holds between two
visits: the keys on the path and the keys sorted so far are apart, and what is sorted stays in
dependency order. A visit keeps this, and a key is found on the path only when the path from there
on leads back to it.
-/

namespace Dataflow.Digraph

open Relation

variable {κ : Type} [DecidableEq κ] (g : Digraph κ)

/-- No key depends on itself, directly or through other keys. -/
def Acyclic : Prop := ∀ k, ¬ TransGen g.Edge k k

/-- A listed key, or a direct dependency of one. -/
def Known (k : κ) : Prop := k ∈ g.nodes ∨ ∃ a, g.Edge a k

/-- No key comes twice, and every key comes after its direct dependencies. -/
structure Settled (keys : List κ) : Prop where
  nodup : keys.Nodup
  before : ∀ a ∈ keys, ∀ b, g.Edge a b → keys.idxOf b < keys.idxOf a

structure Sorted (order : List κ) : Prop extends g.Settled order where
  mem_iff : ∀ k, k ∈ order ↔ g.Known k

/-- A walk along dependencies that comes back to its first key and meets no other key twice. -/
def Genuine (c : Cycle κ) : Prop :=
  ∃ k ks, c.path = k :: ks ++ [k] ∧ (k :: ks).Nodup ∧ c.path.IsChain g.Edge

structure Walk (path sorted : List κ) : Prop where
  path_nodup : path.Nodup
  apart : ∀ p ∈ path, p ∉ sorted
  settled : g.Settled sorted
  known : ∀ k ∈ sorted, g.Known k

def Visited (path sorted ks : List κ) : Except (Cycle κ) (List κ) → Prop
  | .ok r => g.Walk path r ∧ sorted ⊆ r ∧ ks ⊆ r
  | .error c => g.Genuine c

variable {g} {path sorted ks : List κ} {k : κ} {c : Cycle κ}

theorem transGen_of_isChain {a b : κ} {l : List κ} (h : (a :: l ++ [b]).IsChain g.Edge) :
    TransGen g.Edge a b := by
  induction l generalizing a with
  | nil => exact .single h.rel
  | cons x l ih =>
      have htail : (x :: l ++ [b]).IsChain g.Edge := h.tail
      exact .head h.rel (ih htail)

theorem Genuine.not_acyclic (h : g.Genuine c) : ¬ g.Acyclic := by
  obtain ⟨k, ks, hpath, -, hchain⟩ := h
  rw [hpath] at hchain
  intro hacyclic
  exact hacyclic k (transGen_of_isChain hchain)

/-- A key that is met again closes a cycle: the path from its first visit on, and the key. -/
theorem genuine_of_mem (hnodup : path.Nodup) (hchain : (path ++ [k]).IsChain g.Edge)
    (hk : k ∈ path) : g.Genuine ⟨path.dropWhile (· ≠ k) ++ [k]⟩ := by
  obtain ⟨pre, post, rfl, hpre⟩ := List.eq_append_cons_of_mem hk
  have hdrop : (pre ++ k :: post).dropWhile (· ≠ k) = k :: post := by
    rw [List.dropWhile_append_of_pos]
    · simp
    · intro a ha
      have hne : a ≠ k := fun h => hpre (h ▸ ha)
      simpa using hne
  rw [hdrop]
  refine ⟨k, post, rfl, (List.nodup_append.1 hnodup).2.1, ?_⟩
  rw [List.append_assoc] at hchain
  exact (List.isChain_append.1 hchain).2.1

theorem Settled.mem_of_edge (h : g.Settled sorted) {a b : κ} (ha : a ∈ sorted)
    (hab : g.Edge a b) : b ∈ sorted := by
  apply List.idxOf_lt_length_iff.1
  have hbefore := h.before a ha b hab
  have hlength := List.idxOf_lt_length_iff.2 ha
  omega

/-- Positions fall along every walk that starts at a sorted key. -/
theorem Settled.idxOf_lt (h : g.Settled sorted) {a b : κ} (ha : a ∈ sorted)
    (hab : TransGen g.Edge a b) : b ∈ sorted ∧ sorted.idxOf b < sorted.idxOf a := by
  induction hab with
  | single hab => exact ⟨h.mem_of_edge ha hab, h.before a ha _ hab⟩
  | tail _ hbc ih =>
      have hlast := h.before _ ih.1 _ hbc
      refine ⟨h.mem_of_edge ih.1 hbc, ?_⟩
      omega

theorem Sorted.acyclic {order : List κ} (h : g.Sorted order) : g.Acyclic := by
  intro k hk
  have hlisted : k ∈ order := by
    obtain ⟨b, hb, -⟩ := TransGen.head'_iff.1 hk
    exact (h.mem_iff k).2 (Or.inl (g.edge_iff.1 hb).1)
  have hfall := (h.idxOf_lt hlisted hk).2
  omega

theorem Settled.append (h : g.Settled sorted) (hk : k ∉ sorted)
    (hdeps : ∀ b, g.Edge k b → b ∈ sorted) : g.Settled (sorted ++ [k]) := by
  constructor
  · rw [List.nodup_append]
    refine ⟨h.nodup, by simp, ?_⟩
    intro a ha b hb hab
    obtain rfl : b = k := by simpa using hb
    exact hk (hab ▸ ha)
  · intro a ha b hab
    rcases List.mem_append.1 ha with ha | ha
    · have hb := h.mem_of_edge ha hab
      rw [List.idxOf_append_of_mem ha, List.idxOf_append_of_mem hb]
      exact h.before a ha b hab
    · obtain rfl : a = k := by simpa using ha
      have hb := hdeps b hab
      rw [List.idxOf_append_of_mem hb, List.idxOf_append_of_notMem hk]
      have hlength := List.idxOf_lt_length_iff.2 hb
      omega

theorem Walk.push (h : g.Walk path sorted) (hp : k ∉ path) (hs : k ∉ sorted) :
    g.Walk (path ++ [k]) sorted where
  path_nodup := by
    rw [List.nodup_append]
    refine ⟨h.path_nodup, by simp, ?_⟩
    intro a ha b hb hab
    obtain rfl : b = k := by simpa using hb
    exact hp (hab ▸ ha)
  apart := by
    intro p hmem
    rcases List.mem_append.1 hmem with hmem | hmem
    · exact h.apart p hmem
    · obtain rfl : p = k := by simpa using hmem
      exact hs
  settled := h.settled
  known := h.known

/-- The last key of the path is sorted once everything it depends on is. -/
theorem Walk.pop (h : g.Walk (path ++ [k]) sorted) (hk : g.Known k)
    (hdeps : ∀ b, g.Edge k b → b ∈ sorted) : g.Walk path (sorted ++ [k]) where
  path_nodup := (List.nodup_append.1 h.path_nodup).1
  apart := by
    intro p hp hmem
    rcases List.mem_append.1 hmem with hmem | hmem
    · exact h.apart p (by simp [hp]) hmem
    · have hne := (List.nodup_append.1 h.path_nodup).2.2 p hp k (by simp)
      exact hne (by simpa using hmem)
  settled := h.settled.append (h.apart k (by simp)) hdeps
  known := by
    intro a ha
    rcases List.mem_append.1 ha with ha | ha
    · exact h.known a ha
    · obtain rfl : a = k := by simpa using ha
      exact hk

/-- The visits keep the walk, by induction on their recursion: a key is on the path while its
dependencies are visited, and the step from the last key of the path to the next one is an edge. -/
theorem visited (g : Digraph κ) :
    (∀ path sorted k, g.Walk path sorted → g.Known k → (path ++ [k]).IsChain g.Edge →
      g.Visited path sorted [k] (g.visit path sorted k)) ∧
    ∀ path sorted ks, g.Walk path sorted → (∀ k ∈ ks, g.Known k) →
      (∀ k ∈ ks, (path ++ [k]).IsChain g.Edge) →
      g.Visited path sorted ks (g.visitAll path sorted ks) := by
  apply visit.mutual_induct g
  case case1 =>
    intro path sorted k hp hwalk _ hchain
    rw [visit, dif_pos hp]
    exact genuine_of_mem hwalk.path_nodup hchain hp
  case case2 =>
    intro path sorted k hp hs hwalk _ _
    rw [visit, dif_neg hp, if_pos hs]
    exact ⟨hwalk, List.Subset.refl _, by simpa using hs⟩
  case case3 =>
    intro path sorted k hp hs hn ih hwalk hknown hchain
    rw [visit, dif_neg hp, if_neg hs, dif_pos hn]
    have hedge : ∀ d ∈ g.edges k, g.Edge k d := fun d hd => g.edge_iff.2 ⟨hn, hd⟩
    have hvisited := ih (hwalk.push hp hs) (fun d hd => Or.inr ⟨k, hedge d hd⟩) (by
      intro d hd
      apply List.isChain_append.2
      refine ⟨hchain, by simp, ?_⟩
      intro x hx y hy
      obtain rfl : k = x := by simpa using hx
      obtain rfl : d = y := by simpa using hy
      exact hedge d hd)
    cases hr : g.visitAll (path ++ [k]) sorted (g.edges k) with
    | error c => rwa [hr] at hvisited
    | ok r =>
        rw [hr] at hvisited
        obtain ⟨hwalk', hsub, hdeps⟩ := hvisited
        refine ⟨hwalk'.pop hknown ?_, ?_, by simp⟩
        · intro b hb
          exact hdeps (g.edge_iff.1 hb).2
        · exact List.Subset.trans hsub (List.subset_append_left _ _)
  case case4 =>
    intro path sorted k hp hs hn hwalk hknown _
    rw [visit, dif_neg hp, if_neg hs, dif_neg hn]
    refine ⟨(hwalk.push hp hs).pop hknown ?_, List.subset_append_left _ _, by simp⟩
    intro b hb
    exact absurd (g.edge_iff.1 hb).1 hn
  case case5 =>
    intro path sorted hwalk _ _
    rw [visitAll]
    exact ⟨hwalk, List.Subset.refl _, List.nil_subset _⟩
  case case6 =>
    intro path sorted k ks ihk ihks hwalk hknown hchain
    rw [visitAll]
    have hfirst := ihk hwalk (hknown k (by simp)) (hchain k (by simp))
    cases hr : g.visit path sorted k with
    | error c => rwa [hr] at hfirst
    | ok r =>
        rw [hr] at hfirst
        obtain ⟨hwalk', hsub, hk⟩ := hfirst
        have hrest := ihks r hwalk' (fun x hx => hknown x (by simp [hx]))
          (fun x hx => hchain x (by simp [hx]))
        change g.Visited path sorted (k :: ks) (g.visitAll path r ks)
        cases hr' : g.visitAll path r ks with
        | error c => rwa [hr'] at hrest
        | ok r' =>
            rw [hr'] at hrest
            obtain ⟨hwalk'', hsub', hks⟩ := hrest
            refine ⟨hwalk'', List.Subset.trans hsub hsub', ?_⟩
            exact List.cons_subset.2 ⟨hsub' (hk (by simp)), hks⟩

theorem sorted_or_genuine (g : Digraph κ) :
    match g.sort with
    | .ok order => g.Sorted order
    | .error c => g.Genuine c := by
  have hstart : g.Walk [] [] := ⟨by simp, by simp, ⟨by simp, by simp⟩, by simp⟩
  have hvisited := (visited g).2 [] [] g.nodes hstart (fun k hk => Or.inl hk) (by simp)
  rw [← sort] at hvisited
  cases hr : g.sort with
  | error c => rwa [hr] at hvisited
  | ok order =>
      rw [hr] at hvisited
      obtain ⟨hwalk, -, hnodes⟩ := hvisited
      refine ⟨hwalk.settled, fun k => ⟨hwalk.known k, ?_⟩⟩
      rintro (hk | ⟨a, hak⟩)
      · exact hnodes hk
      · exact hwalk.settled.mem_of_edge (hnodes (g.edge_iff.1 hak).1) hak

/-- Sorting succeeds exactly on the graphs without cycles. The order it returns holds the listed
nodes and their direct dependencies, each once and after everything it depends on; its error is a
cycle of the graph. -/
theorem sort_correct (g : Digraph κ) :
    ((∃ order, g.sort = .ok order) ↔ g.Acyclic) ∧
      match g.sort with
      | .ok order => g.Sorted order
      | .error c => g.Genuine c := by
  have hresult := sorted_or_genuine g
  refine ⟨?_, hresult⟩
  cases hr : g.sort with
  | ok order =>
      rw [hr] at hresult
      exact ⟨fun _ => hresult.acyclic, fun _ => ⟨order, rfl⟩⟩
  | error c =>
      rw [hr] at hresult
      exact ⟨nofun, fun h => absurd h hresult.not_acyclic⟩

end Dataflow.Digraph
