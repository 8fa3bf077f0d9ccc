import Dataflow.Fault
import Dataflow.Text.Blank

/-!
# Names of nodes

A node is named by a token: a text that is not empty and holds neither blanks nor the delimiters
of the reference grammar. Every numeral is a token, so nodes without a name of their own are
named by numbers.
-/

namespace Dataflow

/-- The characters that the reference grammar keeps for itself. -/
def delimiters : List Char := ['{', '}', '[', ']', ',', '.', ':']

def isDelimiter (c : Char) : Bool := delimiters.contains c

def isTokenChar (c : Char) : Bool := !(Text.isBlank c || isDelimiter c)

def IsToken (s : String) : Prop := s.toList ≠ [] ∧ ∀ c ∈ s.toList, isTokenChar c = true

instance (s : String) : Decidable (IsToken s) :=
  have : Decidable (∀ c ∈ s.toList, isTokenChar c = true) := List.decidableBAll _ _
  inferInstanceAs (Decidable (_ ∧ _))

structure NodeId where
  text : String
  isToken : IsToken text
  deriving DecidableEq

namespace NodeId

def ofToken (token : String) : Except Fault NodeId :=
  if h : IsToken token then .ok ⟨token, h⟩ else .error (.invalid (.nodeId token))

theorem isTokenChar_of_isDigit {c : Char} (h : c.isDigit) : isTokenChar c = true := by
  have hb := Text.isBlank_eq_false_of_isDigit h
  have hd : isDelimiter c = false := by
    simp only [isDelimiter, delimiters, List.contains_eq_mem, decide_eq_false_iff_not]
    intro hm
    simp only [List.mem_cons, List.not_mem_nil, or_false] at hm
    rcases hm with h' | h' | h' | h' | h' | h' | h' <;> subst h' <;> revert h <;> decide
  simp [isTokenChar, hb, hd]

theorem isToken_toString (n : Nat) : IsToken (toString n) := by
  have hs : (toString n).toList = Nat.toDigits 10 n := by
    simp [toString, Nat.repr]
  rw [IsToken, hs]
  refine ⟨Nat.toDigits_ne_nil, fun c hc => isTokenChar_of_isDigit ?_⟩
  exact Nat.isDigit_of_mem_toDigits (by decide) (by decide) hc

/-- The name made of a number. -/
def ofNat (n : Nat) : NodeId := ⟨toString n, isToken_toString n⟩

end NodeId

end Dataflow
