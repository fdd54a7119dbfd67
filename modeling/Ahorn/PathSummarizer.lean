import Ahorn.Flattening
import Ahorn.ReuseMerger
import Ahorn.VersionedMaps

set_option autoImplicit false

/-!
# The summarizer of a path

What a context has filed on its way to the exit becomes a summary. The versions come from the
counters of the executor, which all paths share, so they are numbered again: in a first pass over the
path the names are collected, in a second one the constants are substituted.
-/
namespace Ahorn.Summarization

open Etfa (Frame)
open Reuse (literalText)

/-- A summary that remembers what was filed under which literal. -/
structure PathSummary extends Summary where
  assumptionLiteralsToAssumptions : OrderedMap String (List (Term String .bool))
  assumptionLiteralsToHardConstraints : OrderedMap String (OrderedMap String (SortedTerm String))

def flattenFrom (st : State) (entryName : String) : ℕ → String → List String →
    Except String (List String)
  | 0, _, _ => .error "The literals form a cycle."
  | fuel + 1, current, literals =>
    if current = entryName then .ok (current :: literals)
    else do
      match ← st.getAssumptionLiterals current with
      | [preceding] => flattenFrom st entryName fuel (literalText preceding) (current :: literals)
      | _ => .error "assertion failed"

/-- The literals on the path, from the entry on. The way back ends if it meets no literal twice, so
the number of literals is fuel enough. -/
def flattenAssumptionLiterals (frame : Frame) (st : State) : Except String (List String) :=
  flattenFrom st (literalName frame.scope frame.cfg.entryLabel)
    st.assumptionLiterals.entries.length st.assumptionLiteral []

namespace State

/-- The names the first pass comes to at a literal, and whether each one is written there. -/
def occurringNames (st : State) (literal : String) : List (String × Bool) :=
  (((st.assumptions.find? literal).getD []).flatMap fun t =>
    t.constants.map fun k => (k.2, false)) ++
  ((st.hardConstraints.find? literal).getD .empty).entries.flatMap fun e =>
    (e.1, true) :: e.2.2.constants.map fun k => (k.2, false)

end State

structure ContextualizedNames where
  flattenedNamesToContextualizedNames : OrderedMap String (VersionedMap Unit)
  modifiedContextualizedNames : VersionedMap Unit

namespace ContextualizedNames

/-- Instances of other units are not variables. -/
def initial (frame : Frame) : ContextualizedNames where
  flattenedNamesToContextualizedNames := OrderedMap.empty.emplaceAll
    ((frame.cfg.interface.filter (!·.dataType.isDerived)).map fun v =>
      (frame.scope ++ "." ++ v.name, []))
  modifiedContextualizedNames := []

def insertModified (names : ContextualizedNames) (occurring : String × Bool) :
    Except String (VersionedMap Unit) :=
  if occurring.2 then VersionedMap.emplace occurring.1 () names.modifiedContextualizedNames
  else .ok names.modifiedContextualizedNames

def insert (names : ContextualizedNames) (occurring : String × Bool) :
    Except String ContextualizedNames := do
  let modified ← names.insertModified occurring
  let flattenedName := decontextualize occurring.1
  match names.flattenedNamesToContextualizedNames.find? flattenedName with
  | none => .error "map::at"
  | some contextualizedNames => do
    let contextualizedNames ← VersionedMap.emplace occurring.1 () contextualizedNames
    .ok {
      flattenedNamesToContextualizedNames :=
        names.flattenedNamesToContextualizedNames.assign flattenedName contextualizedNames
      modifiedContextualizedNames := modified }

/-- A version that is only read gets the number of the one before it, so the versions that are
written begin with 1. -/
def nextVersion (modified : VersionedMap Unit) (contextualizedName : String) (version : ℕ) :
    Except String ℕ := do
  match ← VersionedMap.find? contextualizedName modified with
  | none => .ok version
  | some () => .ok (version + 1)

def number (modified : VersionedMap Unit) (flattenedName : String) :
    VersionedMap Unit → ℕ → VersionedMap String → Except String (VersionedMap String)
  | [], _, reversionedNames => .ok reversionedNames
  | (contextualizedName, ()) :: contextualizedNames, version, reversionedNames => do
    let version ← nextVersion modified contextualizedName version
    let reversionedNames ←
      VersionedMap.emplace contextualizedName (versioned flattenedName version) reversionedNames
    number modified flattenedName contextualizedNames version reversionedNames

def contextualizedNamesToReversionedNames (names : ContextualizedNames) :
    Except String (VersionedMap String) :=
  names.flattenedNamesToContextualizedNames.entries.foldlM
    (fun reversionedNames e =>
      number names.modifiedContextualizedNames e.1 e.2 0 reversionedNames) []

end ContextualizedNames

def reversionTerm (reversionedNames : VersionedMap String) {s : SmtSort} (t : Term String s) :
    Except String (Term String s) :=
  t.constants.foldlM (fun t k => do
    let reversionedName ← VersionedMap.get k.2 reversionedNames
    .ok (t.substitute k.2 (.constant k.1 reversionedName))) t

def reversionHardConstraint (reversionedNames : VersionedMap String)
    (e : String × SortedTerm String) : Except String (String × SortedTerm String) := do
  let t ← reversionTerm reversionedNames e.2.2
  let reversionedName ← VersionedMap.get e.1 reversionedNames
  .ok (reversionedName, ⟨e.2.1, t⟩)

def reversionAssumptions (reversionedNames : VersionedMap String) (st : State)
    (summary : PathSummary) (literal : String) : Except String PathSummary :=
  match st.assumptions.find? literal with
  | none => .ok summary
  | some assumptions => do
    let assumptions ← assumptions.mapM (reversionTerm reversionedNames)
    .ok { summary with
      assumptions := summary.assumptions ++ assumptions
      assumptionLiteralsToAssumptions :=
        summary.assumptionLiteralsToAssumptions.emplace literal assumptions }

/-- Take over what is written under a literal. Of several definitions of a name the first one
counts. -/
def reversionHardConstraints (reversionedNames : VersionedMap String) (st : State)
    (summary : PathSummary) (literal : String) : Except String PathSummary :=
  match st.hardConstraints.find? literal with
  | none => .ok summary
  | some hardConstraints => do
    let hardConstraints ← hardConstraints.entries.mapM (reversionHardConstraint reversionedNames)
    .ok { summary with
      hardConstraints := summary.hardConstraints.emplaceAll hardConstraints
      assumptionLiteralsToHardConstraints :=
        summary.assumptionLiteralsToHardConstraints.emplace literal
          (OrderedMap.empty.emplaceAll hardConstraints) }

def reversionLiteral (reversionedNames : VersionedMap String) (st : State) (summary : PathSummary)
    (literal : String) : Except String PathSummary := do
  let summary ← reversionAssumptions reversionedNames st summary literal
  reversionHardConstraints reversionedNames st summary literal

def summarize (c : Context) : Except String PathSummary := do
  let frame ← c.getFrame
  let literals ← flattenAssumptionLiterals frame c.state
  let names ← (literals.flatMap c.state.occurringNames).foldlM ContextualizedNames.insert
    (.initial frame)
  let reversionedNames ← names.contextualizedNamesToReversionedNames
  literals.foldlM (reversionLiteral reversionedNames c.state) {
    assumptions := []
    hardConstraints := .empty
    assumptionLiterals := literals
    assumptionLiteralsToAssumptions := .empty
    assumptionLiteralsToHardConstraints := .empty }

/-- Keep the summary of a path, unless there is one of the same path. -/
def summarizePath (nameToSummaries : OrderedMap String (List PathSummary)) (c : Context) :
    Except String (OrderedMap String (List PathSummary)) := do
  let frame ← c.getFrame
  let summary ← summarize c
  match nameToSummaries.find? frame.cfg.name with
  | none => .ok (nameToSummaries.emplace frame.cfg.name [summary])
  | some existing =>
    if existing.any (·.samePath summary.toSummary) then .ok nameToSummaries
    else .ok (nameToSummaries.assign frame.cfg.name (existing ++ [summary]))

end Ahorn.Summarization
