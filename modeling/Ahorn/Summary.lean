import Mathlib.Data.String.Basic
import Ahorn.OrderedMap
import Ahorn.Terms
import Ahorn.Names

set_option autoImplicit false

/-!
# Summaries

A summary describes one path through a function block: the assumptions on input and state variables
along the path, and as hard constraints everything the path writes.
-/
namespace Ahorn

structure Summary where
  assumptions : List (Term String .bool)
  hardConstraints : OrderedMap String (SortedTerm String)
  assumptionLiterals : List String := []

namespace Summary

/-- Summaries are equal if they summarize the same path, characterized by the assumptions. -/
def samePath (s s' : Summary) : Bool := s.assumptions = s'.assumptions

/-- The constants of the hard constraints and of the assumptions. -/
def occurrences (s : Summary) : List (SmtSort × String) :=
  s.hardConstraints.entries.flatMap (fun e => e.2.2.occurrences) ++
    s.assumptions.flatMap Term.occurrences

/-- The names in a summary. -/
def Mentions (s : Summary) (n : String) : Prop :=
  (∃ e, s.hardConstraints.find? n = some e) ∨ ∃ sort, (sort, n) ∈ s.occurrences

/-- A hard constraint without constants is a value, as the encoder leaves it. -/
def Simplified (s : Summary) : Prop :=
  ∀ n e, s.hardConstraints.find? n = some e → e.2.occurrences = [] → e.2.isLiteral = true

end Summary

end Ahorn
