/-!
# Finite directed graphs in dependency order

The edges of a graph lead from a key to the keys it depends on. Only the listed nodes have
dependencies, so every walk is finite. `sort` lists dependencies before their dependents, or
finds a cycle; `closure` lists what a set of roots depends on.
-/

namespace Dataflow

structure Digraph (κ : Type) where
  nodes : List κ
  edges : κ → List κ

/-- A walk along dependencies that ends where it begins. -/
structure Cycle (κ : Type) where
  path : List κ

def Cycle.message {κ : Type} (render : κ → String) (c : Cycle κ) : String :=
  "cycle detected: " ++ " -> ".intercalate (c.path.map render)

namespace Digraph

variable {κ : Type} [DecidableEq κ] (g : Digraph κ)

/-- The direct dependencies of a key. -/
def next (k : κ) : List κ := if k ∈ g.nodes then g.edges k else []

/-- How many listed nodes are still outside a list of keys. -/
def outside (seen : List κ) : Nat := (g.nodes.filter (· ∉ seen)).length

theorem outside_append_lt {seen : List κ} {k : κ} (hk : k ∈ g.nodes) (hs : k ∉ seen) :
    g.outside (seen ++ [k]) < g.outside seen := by
  have hsub : (g.nodes.filter (· ∉ seen ++ [k])) =
      (g.nodes.filter (· ∉ seen)).filter (· ≠ k) := by
    rw [List.filter_filter]
    apply List.filter_congr
    intro x _
    simp [not_or, Bool.and_comm]
  have hmem : k ∈ g.nodes.filter (· ∉ seen) := by simp [hk, hs]
  unfold outside
  rw [hsub]
  refine List.length_filter_lt_length_iff_exists.2 ⟨k, hmem, by simp⟩

theorem outside_append_of_notMem {seen : List κ} {k : κ} (hk : k ∉ g.nodes) :
    g.outside (seen ++ [k]) = g.outside seen := by
  unfold outside
  congr 1
  apply List.filter_congr
  intro x hx
  have : x ≠ k := fun h => hk (h ▸ hx)
  simp [this]

mutual

/-- Appends a key to the sorted keys, after everything it depends on. The path holds the keys
whose dependencies are being visited. -/
def visit (path sorted : List κ) (k : κ) : Except (Cycle κ) (List κ) :=
  if _hp : k ∈ path then .error ⟨path.dropWhile (· ≠ k) ++ [k]⟩
  else if k ∈ sorted then .ok sorted
  else if _hn : k ∈ g.nodes then do
    let sorted ← visitAll (path ++ [k]) sorted (g.edges k)
    return sorted ++ [k]
  else .ok (sorted ++ [k])
  termination_by (g.outside path, 0)
  decreasing_by exact Prod.Lex.left _ _ (g.outside_append_lt _hn _hp)

def visitAll (path sorted ks : List κ) : Except (Cycle κ) (List κ) :=
  match ks with
  | [] => .ok sorted
  | k :: ks => do
    let sorted ← visit path sorted k
    visitAll path sorted ks
  termination_by (g.outside path, ks.length + 1)
  decreasing_by
    · exact Prod.Lex.right _ (Nat.succ_pos _)
    · exact Prod.Lex.right _ (by simp)

end

/-- The listed nodes and their direct dependencies, dependencies first. Nodes that do not depend
on each other are visited in the order of the list. -/
def sort : Except (Cycle κ) (List κ) := g.visitAll [] [] g.nodes

/-- The keys met by a depth-first walk with an explicit stack, in the order in which they are
first met. -/
def closureFrom (seen stack : List κ) : List κ :=
  match stack with
  | [] => seen
  | k :: stack =>
    if k ∈ seen then closureFrom seen stack
    else closureFrom (seen ++ [k]) (g.next k ++ stack)
  termination_by (g.outside seen, stack.length)
  decreasing_by
    · exact Prod.Lex.right _ (by simp)
    · rename_i hs
      by_cases hk : k ∈ g.nodes
      · exact Prod.Lex.left _ _ (g.outside_append_lt hk hs)
      · rw [g.outside_append_of_notMem hk]
        exact Prod.Lex.right _ (by simp [next, hk])

/-- Everything that the roots depend on, the roots included, in order of discovery. -/
def closure (roots : List κ) : List κ := g.closureFrom [] roots

end Digraph

end Dataflow
