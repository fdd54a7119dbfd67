import Ahorn.UnitExecutor

set_option autoImplicit false

/-!
# The merger of the validation

Contexts of one unit that have come to the same vertex are merged pairwise. What is filed under
literals is united. A variable whose versions differ gets a fresh one, which is written under the
literals in front of the merge point.
-/
namespace Ahorn.Reuse

open Etfa (Frame)
open Summarization (State Context Versions)

/-- The text of a literal: a constant, or the truth value in front of the first vertex. -/
def literalText : Term String .bool → String
  | .constant _ name => name
  | .booleanValue true => "true"
  | _ => "false"

namespace Merger

/-- Valuations of merged versions, by the literal they are filed under. -/
abbrev Instances := OrderedMap String (OrderedMap String (SortedTerm String))

/-- The versions that a merge comes to, the highest ones of the executor among them. -/
structure Merging where
  versions : Versions
  flattenedNameToVersion : Versions
  modifiedVariableInstances : Instances := .empty

def getMainFrame (c : Context) : Except String Frame :=
  match c.callStack.getLast? with
  | some frame => .ok frame
  | none => .error "assertion failed"

/-- File a valuation of a merged version under a literal. -/
def introduce (mergedName : String) (expression : SortedTerm String) (m : Instances)
    (literal : Term String .bool) : Instances :=
  let valuations := (m.find? (literalText literal)).getD .empty
  m.assign (literalText literal) (valuations.emplace mergedName expression)

/-- The merged version stands for the version of a context, under the literals in front of it. -/
def mergeVariable (mergedName flattenedName nameToMerge : String) (c : Context) (m : Instances) :
    Except String Instances := do
  let main ← getMainFrame c
  match main.cfg.flattenedInterface.find? flattenedName with
  | none => .error "assertion failed"
  | some v => do
    let expression ← makeConstant nameToMerge v.dataType
    let predecessors ← c.state.getAssumptionLiterals c.state.assumptionLiteral
    .ok (predecessors.foldl (introduce mergedName expression) m)

/-- A variable with different versions gets the one behind the highest. -/
def mergeVersions (c₁ c₂ : Context) (merging : Merging) (entry : String × ℕ) :
    Except String Merging := do
  let flattenedName := entry.1
  let version₁ ← Etfa.Executor.getVersion merging.flattenedNameToVersion flattenedName
  if version₁ = entry.2 then .ok merging
  else
    let highest ← Etfa.Executor.getVersion merging.versions flattenedName
    let version := highest + 1
    let name := versioned flattenedName version
    let m ← mergeVariable name flattenedName (versioned flattenedName version₁) c₁
      merging.modifiedVariableInstances
    let m ← mergeVariable name flattenedName (versioned flattenedName entry.2) c₂ m
    .ok {
      versions := merging.versions.assign flattenedName version
      flattenedNameToVersion := merging.flattenedNameToVersion.assign flattenedName version
      modifiedVariableInstances := m }

/-- The literals in front of a literal, without duplicates. -/
def unite (literals : List (Term String .bool)) (literal : Term String .bool) :
    List (Term String .bool) :=
  if literals.contains literal then literals else literals ++ [literal]

def mergeLiterals (m : OrderedMap String (List (Term String .bool)))
    (entry : String × List (Term String .bool)) : OrderedMap String (List (Term String .bool)) :=
  match m.find? entry.1 with
  | none => m.emplace entry.1 entry.2
  | some literals => m.assign entry.1 (entry.2.foldl unite literals)

/-- Assumptions under the same literal that are not equal are joined. -/
def mergeAssumptions (simplifier : Simplifier String)
    (m : OrderedMap String (List (Term String .bool))) (entry : String × List (Term String .bool)) :
    OrderedMap String (List (Term String .bool)) :=
  match m.find? entry.1 with
  | none => m.emplace entry.1 entry.2
  | some assumptions =>
    if Term.conjunction assumptions = Term.conjunction entry.2 then m
    else m.assign entry.1 [simplifier.simplify
      (.connective .and (Term.conjunction assumptions) (Term.conjunction entry.2))]

def pushInstances (m : Instances) (entry : String × OrderedMap String (SortedTerm String)) :
    Except String Instances :=
  entry.2.entries.foldlM (fun m valuation =>
    let valuations := (m.find? entry.1).getD .empty
    match valuations.find? valuation.1 with
    | some _ => .error "assertion failed"
    | none => .ok (m.assign entry.1 (valuations.emplace valuation.1 valuation.2))) m

/-- Hard constraints under the same literal are those of the first context. -/
def mergeHardConstraints (merging : Merging) (c₁ c₂ : Context) : Except String Instances :=
  merging.modifiedVariableInstances.entries.foldlM pushInstances
    (c₁.state.hardConstraints.emplaceAll c₂.state.hardConstraints.entries)

def merge (simplifier : Simplifier String) (versions : Versions) (c₁ c₂ : Context) :
    Except String (Versions × Context) :=
  if c₁.state.vertex.label ≠ c₂.state.vertex.label ∨
      c₁.state.assumptionLiteral ≠ c₂.state.assumptionLiteral then .error "assertion failed"
  else do
    let merging ← c₂.state.flattenedNameToVersion.entries.foldlM (mergeVersions c₁ c₂)
      ⟨versions, c₁.state.flattenedNameToVersion, .empty⟩
    let hardConstraints ← mergeHardConstraints merging c₁ c₂
    .ok (merging.versions, {
      state := {
        vertex := c₁.state.vertex
        assumptionLiteral := c₁.state.assumptionLiteral
        assumptionLiterals :=
          c₂.state.assumptionLiterals.entries.foldl mergeLiterals c₁.state.assumptionLiterals
        assumptions :=
          c₂.state.assumptions.entries.foldl (mergeAssumptions simplifier) c₁.state.assumptions
        hardConstraints := hardConstraints
        flattenedNameToVersion := merging.flattenedNameToVersion }
      callStack := c₁.callStack })

end Merger

end Ahorn.Reuse
