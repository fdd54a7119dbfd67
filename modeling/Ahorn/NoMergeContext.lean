import Ahorn.Evaluator
import Ahorn.PartialModels
import Ahorn.ProgramRuns

set_option autoImplicit false

/-!
# Contexts with concrete valuations

The engine without merging executes concretely and symbolically at once: a state also holds a
concrete valuation of every version, and a fork overwrites those the solver has an interpretation
for. The symbolic half of a state, and what the steps do to it, is that of the merging engine.
-/
namespace Ahorn.EtfaNoMerge

open Etfa

/-- The branches a context has taken are kept for the statements about it; no step reads them. -/
structure Context extends Etfa.Context where
  concreteValuations : OrderedMap String Value
  branches : List Branch := []

namespace Context

def getConcreteValuation (c : Context) (contextualizedName : String) : Except String Value :=
  match c.concreteValuations.find? contextualizedName with
  | some v => .ok v
  | none => .error "assertion failed"

def take (frame : Frame) (taken : Bool) (vertex : Vertex) (expression : Term String .bool)
    (c : Context) : Context where
  toContext := c.toContext.fork vertex expression
  concreteValuations := c.concreteValuations
  branches := c.branches ++ [⟨frame.scope, c.state.vertex.label, taken⟩]

end Context

def setConcreteValuation (contextualizedName : String) (valuation : Value)
    (concreteValuations : OrderedMap String Value) : Except String (OrderedMap String Value) :=
  match concreteValuations.find? contextualizedName with
  | some _ => .error "assertion failed"
  | none => .ok (concreteValuations.emplace contextualizedName valuation)

def setConcreteValuations : List (String × Value) → OrderedMap String Value →
    Except String (OrderedMap String Value)
  | [], concreteValuations => .ok concreteValuations
  | (n, v) :: entries, concreteValuations => do
    let concreteValuations ← setConcreteValuation n v concreteValuations
    setConcreteValuations entries concreteValuations

/-- Update the valuations from a model, which need not be complete. -/
def overwrite : PartialModel String → OrderedMap String Value →
    Except String (OrderedMap String Value)
  | [], concreteValuations => .ok concreteValuations
  | i :: model, concreteValuations =>
    match concreteValuations.find? i.name with
    | some _ => overwrite model (concreteValuations.assign i.name (SmtSort.value i.value))
    | none => .error "map::at"

end Ahorn.EtfaNoMerge
