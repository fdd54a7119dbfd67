import Ahorn.EtfaExecutor
import Ahorn.NoMergeContext

set_option autoImplicit false

/-!
# The choice of summaries at a call

A summary is applied with a model. The model holds the concrete valuations of the interface where
the assumptions are true under them, and comes from the solver where they are true under other
inputs.
-/
namespace Ahorn.EtfaNoMerge

open Etfa

namespace Summarizer

def isDerived (v : Variable) : Bool :=
  match v.dataType with
  | .derivedType _ => true
  | _ => false

/-- The current concrete valuations of the interface, at version 0. -/
def reversionedConcreteValuations (frame : Frame) (c : Context) :
    List Variable → Except String (PartialModel String)
  | [] => .ok []
  | v :: rest =>
    if isDerived v then reversionedConcreteValuations frame c rest
    else do
      let flattenedName := frame.scope ++ "." ++ v.name
      let version ← c.state.getVersion flattenedName
      let valuation ← c.getConcreteValuation (contextualized flattenedName version c.cycle)
      let model ← reversionedConcreteValuations frame c rest
      .ok (match valuation with
        | .bool b => ⟨.bool, versioned flattenedName 0, b⟩ :: model
        | .int i => ⟨.int, versioned flattenedName 0, i⟩ :: model)

/-- The current symbolic valuations of the interface, at version 0. -/
def reversionedSymbolicValuations (frame : Frame) (c : Context) :
    List Variable → Except String (List (String × SortedTerm String))
  | [] => .ok []
  | v :: rest =>
    if isDerived v then reversionedSymbolicValuations frame c rest
    else do
      let flattenedName := frame.scope ++ "." ++ v.name
      let version ← c.state.getVersion flattenedName
      let valuation ← c.state.getSymbolicValuation (contextualized flattenedName version c.cycle)
      let valuations ← reversionedSymbolicValuations frame c rest
      .ok ((versioned flattenedName 0, valuation) :: valuations)

/-- Evaluate the hard constraints one after the other. One that stands for itself is given a default
value. -/
def evaluateHardConstraints (simplifier : Simplifier String) :
    List (String × SortedTerm String) → PartialModel String → Except String (PartialModel String)
  | [], model => .ok model
  | (n, ⟨s, t⟩) :: entries, model =>
    match model.eval? simplifier t with
    | some value => evaluateHardConstraints simplifier entries (model.interpret ⟨s, n, value⟩)
    | none =>
      if t = .constant s n then
        evaluateHardConstraints simplifier entries
          (model.interpret ⟨s, n, PartialModel.complete [] s n⟩)
      else .error "Not implemented yet."

/-- Ask the solver for inputs under which the assumptions are true. The path constraint is not part
of the question. -/
def isSymbolicallyApplicable (finder : ModelFinder String) (frame : Frame) (c : Context)
    (summary : Summary) : Except String (Option (PartialModel String)) := do
  let reversioned ← reversionedSymbolicValuations frame c frame.cfg.interface
  let valuations := reversioned ++ c.state.symbolicValuations.entries
  let literals := (List.range summary.assumptions.length).map fun index =>
    Term.constant SmtSort.bool ("b" ++ toString index)
  let assumptions := (literals.zip summary.assumptions).map fun x =>
    Term.connective .implies x.1 x.2
  .ok (finder.find (valuations.map Executor.equation ++ assumptions ++
    summary.hardConstraints.entries.map Executor.equation ++ literals))

/-- The applicable summaries, in their order. The model built from the concrete valuations goes on to
be used for the next summary, and is stored as a handle: without a model of its own, a summary is
applied with the last state of that one. -/
def checkSummaries (simplifier : Simplifier String) (finder : ModelFinder String) (frame : Frame)
    (c : Context) : List Summary → PartialModel String →
      Except String (List (Summary × Option (PartialModel String)) × PartialModel String)
  | [], model => .ok ([], model)
  | summary :: summaries, model => do
    let model ← evaluateHardConstraints simplifier summary.hardConstraints.entries model
    if summary.assumptions.all fun t => t.eval model.complete then
      let (applicable, last) ← checkSummaries simplifier finder frame c summaries model
      .ok ((summary, none) :: applicable, last)
    else
      let own ← isSymbolicallyApplicable finder frame c summary
      let (applicable, last) ← checkSummaries simplifier finder frame c summaries model
      .ok (match own with
        | some own => ((summary, some own) :: applicable, last)
        | none => (applicable, last))

def findConcretelyApplicableSummaries (simplifier : Simplifier String)
    (finder : ModelFinder String) (getSummaries : String → List Summary) (c : Context) :
    Except String (List (Summary × PartialModel String)) := do
  let frame ← c.toContext.getFrame
  match getSummaries frame.cfg.name with
  | [] => .ok []
  | summaries => do
    let model ← reversionedConcreteValuations frame c frame.cfg.interface
    let (applicable, last) ← checkSummaries simplifier finder frame c summaries model
    .ok (applicable.map fun x => (x.1, x.2.getD last))

end Summarizer

end Ahorn.EtfaNoMerge
