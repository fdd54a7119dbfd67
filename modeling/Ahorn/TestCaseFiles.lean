import Ahorn.Conversions
import Ahorn.EtfaTestSuite
import Ahorn.PropertyTrees

set_option autoImplicit false

/-!
# Files of test cases

A test case is written to a file as a property tree, with its values as the solver prints them, and
read back from there.
-/
namespace Ahorn

namespace Value

def print : Value → String
  | bool true => "true"
  | bool false => "false"
  | int i => if i < 0 then "(- " ++ toString i.natAbs ++ ")" else toString i.natAbs

/-- An integer is neither negative nor too great. -/
def Readable : Value → Prop
  | bool _ => True
  | int i => 0 ≤ i ∧ i ≤ intMax

instance : DecidablePred Readable
  | bool _ => inferInstanceAs (Decidable True)
  | int _ => inferInstanceAs (Decidable (_ ∧ _))

/-- What is neither of the two words is read as an integer. -/
def read (text : String) : Except String Value :=
  if text = "true" then .ok (bool true)
  else if text = "false" then .ok (bool false)
  else (stringToInt 10 text.toList).map int

end Value

/-- The number that a text is, up to white space around it. -/
def readUnsigned (text : String) : Except String ℕ :=
  let (negative, cs) := dropSign (text.toList.dropWhile isSpace)
  let digits := cs.takeWhile (isDigitOf 10)
  let n := digitsValue 10 digits
  if digits ≠ [] ∧ (cs.dropWhile (isDigitOf 10)).all isSpace ∧ n < 2 ^ 32 then
    .ok (if negative then (2 ^ 32 - n) % 2 ^ 32 else n)
  else .error "conversion of data failed"

theorem readUnsigned_toString (n : ℕ) : readUnsigned (toString n) =
    if n < 2 ^ 32 then .ok n else .error "conversion of data failed" := by
  obtain ⟨c, cs, hcs⟩ := List.exists_cons_of_ne_nil (toString_ne_nil n)
  have hdigits := isDigit_toString n
  have hc : c.isDigit = true := hdigits c (hcs ▸ List.mem_cons_self)
  have htake : (toString n).toList.takeWhile (isDigitOf 10) = (toString n).toList := by
    rw [List.takeWhile_eq_self_iff]
    intro d hd
    rw [isDigitOf_ten]
    exact hdigits d hd
  have hdrop : (toString n).toList.dropWhile (isDigitOf 10) = [] := by
    rw [List.dropWhile_eq_nil_iff]
    intro d hd
    rw [isDigitOf_ten]
    exact hdigits d hd
  unfold readUnsigned
  rw [hcs, dropSpace_of_isDigit hc, dropSign_of_isDigit hc, ← hcs]
  dsimp only
  rw [htake, hdrop, digitsValue_toString]
  simp

namespace Value

theorem print_neg {i : ℤ} (hi : i < 0) :
    (int i).print.toList = '(' :: '-' :: ' ' :: ((toString i.natAbs).toList ++ [')']) := by
  have hprint : (int i).print = "(- " ++ toString i.natAbs ++ ")" := if_pos hi
  rw [hprint, String.toList_append, String.toList_append]
  rfl

theorem print_nonneg {i : ℤ} (hi : 0 ≤ i) : (int i).print = toString i.natAbs :=
  if_neg (not_lt.mpr hi)

theorem read_print_int (i : ℤ) :
    read (int i).print = (stringToInt 10 (int i).print.toList).map int := by
  have hhead : ∀ c ∈ (int i).print.toList.head?, c = '(' ∨ c.isDigit = true := by
    intro c hc
    by_cases hi : i < 0
    · rw [print_neg hi] at hc
      exact Or.inl (Option.some.inj hc).symm
    · rw [print_nonneg (not_lt.mp hi)] at hc
      exact Or.inr (isDigit_toString _ c (List.mem_of_mem_head? hc))
  unfold read
  rw [if_neg, if_neg]
  · intro h
    rw [h] at hhead
    rcases hhead 'f' rfl with h | h <;> cases h
  · intro h
    rw [h] at hhead
    rcases hhead 't' rfl with h | h <;> cases h

theorem read_print_neg {i : ℤ} (hi : i < 0) : read (int i).print = .error "invalid_argument" := by
  rw [read_print_int, print_neg hi]
  rfl

theorem read_print_nonneg {i : ℤ} (hi : 0 ≤ i) : read (int i).print =
    if i ≤ intMax then .ok (int i) else .error "out_of_range" := by
  have hread : strtol 10 (toString i.natAbs).toList = some (i.natAbs : ℤ) := by
    have hdigits := @strtol_digits (toString i.natAbs).toList [] (toString_ne_nil _)
      (isDigit_toString _) (by simp)
    rwa [List.append_nil, digitsValue_toString] at hdigits
  rw [read_print_int, print_nonneg hi, stringToInt_of_strtol hread, Int.natAbs_of_nonneg hi]
  split_ifs <;> rfl

theorem read_print_iff (v w : Value) : read v.print = .ok w ↔ v.Readable ∧ w = v := by
  cases v with
  | bool b =>
    have hread : read (bool b).print = .ok (bool b) := by cases b <;> rfl
    rw [hread, Except.ok.injEq]
    exact ⟨fun h => ⟨trivial, h.symm⟩, fun h => h.2.symm⟩
  | int i =>
    unfold Readable
    by_cases hi : i < 0
    · rw [read_print_neg hi]
      constructor
      · intro h
        cases h
      · rintro ⟨⟨hnonneg, -⟩, -⟩
        exact absurd hi (not_lt.mpr hnonneg)
    · rw [read_print_nonneg (not_lt.mp hi)]
      split_ifs with hmax
      · rw [Except.ok.injEq]
        exact ⟨fun h => ⟨⟨not_lt.mp hi, hmax⟩, h.symm⟩, fun h => h.2.symm⟩
      · constructor
        · intro h
          cases h
        · rintro ⟨⟨-, hle⟩, -⟩
          exact absurd hle hmax

end Value

namespace Etfa

namespace TestSuite

def xmlattr (name : String) : List String := ["<xmlattr>", name]

def valuationNode (valuation : String × Value) : String × PropertyTree :=
  ("valuation", (PropertyTree.leaf valuation.2.print).put valuation.1 (xmlattr "variable"))

def addValuations (node : PropertyTree) (valuations : OrderedMap String Value) : PropertyTree :=
  valuations.entries.foldl (fun node e => node.add (valuationNode e).1 (valuationNode e).2) node

def inputNode (input : ℕ × OrderedMap String Value) : String × PropertyTree :=
  ("input", addValuations ((PropertyTree.leaf "").put (toString input.1) (xmlattr "cycle")) input.2)

def toXML (testCase : TestCase) : PropertyTree :=
  let initializationNode :=
    addValuations (.leaf "") testCase.initialConcreteStateValuations
  let testCaseNode := testCase.cycleToConcreteInputValuations.entries.foldl
    (fun node e => node.add (inputNode e).1 (inputNode e).2)
    ((PropertyTree.leaf "").add "initialization" initializationNode)
  (PropertyTree.leaf "").add "testcase" testCaseNode

def readInitialization : List (String × PropertyTree) → OrderedMap String Value →
    Except String (OrderedMap String Value)
  | [], valuations => .ok valuations
  | (_, property) :: properties, valuations => do
    let variableName ← property.get (xmlattr "variable")
    let value ← Value.read property.data
    readInitialization properties (valuations.emplace variableName value)

def readInput : List (String × PropertyTree) → OrderedMap String Value →
    Except String (OrderedMap String Value)
  | [], valuations => .ok valuations
  | (name, property) :: properties, valuations =>
    if name = "<xmlattr>" then readInput properties valuations
    else if name = "valuation" then do
      let variableName ← property.get (xmlattr "variable")
      let value ← Value.read property.data
      readInput properties (valuations.emplace variableName value)
    else .error "Unexpected input property."

def readTestCase : List (String × PropertyTree) → TestCase → Except String TestCase
  | [], testCase => .ok testCase
  | (name, property) :: properties, testCase =>
    if name = "initialization" then do
      let initial ← readInitialization property.children testCase.initialConcreteStateValuations
      readTestCase properties { testCase with initialConcreteStateValuations := initial }
    else if name = "input" then do
      let text ← property.get (xmlattr "cycle")
      let cycle ← readUnsigned text
      let valuations ← readInput property.children .empty
      readTestCase properties
        { testCase with
          cycleToConcreteInputValuations :=
            testCase.cycleToConcreteInputValuations.emplace cycle valuations }
    else .error "Unexpected test case property."

def buildFromXML (propertyTree : PropertyTree) : Except String TestCase :=
  match propertyTree.child? "testcase" with
  | none => .error "No such node"
  | some testCaseNode => readTestCase testCaseNode.children ⟨.empty, .empty⟩

end TestSuite

/-- The property-tree library: whatever is written for a test case is read as it was. -/
structure XmlParser where
  File : Type
  writeXml : PropertyTree → File
  readXml : File → Except String PropertyTree
  readXml_writeXml : ∀ testCase : TestCase,
    readXml (writeXml (TestSuite.toXML testCase)) = .ok (TestSuite.toXML testCase)

/-- The test case is read back from the file it is written to. -/
def Survives (parser : XmlParser) (testCase : TestCase) : Prop :=
  (parser.readXml (parser.writeXml (TestSuite.toXML testCase)) >>= TestSuite.buildFromXML) =
    .ok testCase

/-- Every cycle is an unsigned number, and every integer is neither negative nor too great. -/
def TestCase.Readable (testCase : TestCase) : Prop :=
  (∀ e ∈ testCase.initialConcreteStateValuations.entries, e.2.Readable) ∧
    ∀ input ∈ testCase.cycleToConcreteInputValuations.entries,
      input.1 < 2 ^ 32 ∧ ∀ e ∈ input.2.entries, e.2.Readable

namespace TestSuite

theorem children_addValuations (node : PropertyTree) (valuations : OrderedMap String Value) :
    (addValuations node valuations).children =
      node.children ++ valuations.entries.map valuationNode :=
  PropertyTree.children_foldl_add valuationNode valuations.entries node

theorem emplaceAll_entries {κ ν : Type} [LinearOrder κ] (m : OrderedMap κ ν) :
    OrderedMap.empty.emplaceAll m.entries = m := by
  apply OrderedMap.ext_find?
  intro k
  rw [OrderedMap.find?_emplaceAll, OrderedMap.find?_empty, Option.none_or]
  rfl

theorem readInitialization_eq_iff (entries : List (String × Value))
    (valuations read : OrderedMap String Value) :
    readInitialization (entries.map valuationNode) valuations = .ok read ↔
      (∀ e ∈ entries, e.2.Readable) ∧ read = valuations.emplaceAll entries := by
  induction entries generalizing valuations with
  | nil => simp [readInitialization, OrderedMap.emplaceAll, eq_comm]
  | cons e entries ih =>
    change (PropertyTree.get _ _ >>= fun variableName => Value.read e.2.print >>= fun value =>
      readInitialization (entries.map valuationNode) (valuations.emplace variableName value)) =
        .ok read ↔ _
    rw [PropertyTree.get_put]
    change (Value.read e.2.print >>= fun value =>
      readInitialization (entries.map valuationNode) (valuations.emplace e.1 value)) =
        .ok read ↔ _
    constructor
    · intro h
      obtain ⟨value, hvalue, h⟩ := bind_eq_ok h
      obtain ⟨hreadable, rfl⟩ := (Value.read_print_iff _ _).mp hvalue
      obtain ⟨hentries, hread⟩ := (ih _).mp h
      exact ⟨List.forall_mem_cons.mpr ⟨hreadable, hentries⟩, hread⟩
    · rintro ⟨hentries, hread⟩
      obtain ⟨hreadable, hentries⟩ := List.forall_mem_cons.mp hentries
      rw [(Value.read_print_iff _ _).mpr ⟨hreadable, rfl⟩]
      exact (ih _).mpr ⟨hentries, hread⟩

theorem readInput_eq (entries : List (String × Value)) (valuations : OrderedMap String Value) :
    readInput (entries.map valuationNode) valuations =
      readInitialization (entries.map valuationNode) valuations := by
  induction entries generalizing valuations with
  | nil => rfl
  | cons e entries ih =>
    have hname : ("valuation" : String) ≠ "<xmlattr>" := by decide
    change (if "valuation" = "<xmlattr>" then _ else if "valuation" = "valuation" then _ else _) = _
    rw [if_neg hname, if_pos rfl]
    simp only [ih]
    rfl

/-- Of an input node the cycle and the valuations are read. -/
theorem readTestCase_input (input : ℕ × OrderedMap String Value)
    (properties : List (String × PropertyTree)) (testCase read : TestCase) :
    readTestCase (inputNode input :: properties) testCase = .ok read ↔
      (input.1 < 2 ^ 32 ∧ ∀ e ∈ input.2.entries, e.2.Readable) ∧
        readTestCase properties
          { testCase with
            cycleToConcreteInputValuations :=
              testCase.cycleToConcreteInputValuations.emplace input.1 input.2 } = .ok read := by
  obtain ⟨cycle, valuations⟩ := input
  have hchildren := children_addValuations
    ((PropertyTree.leaf "").put (toString cycle) (xmlattr "cycle")) valuations
  have hget : (inputNode (cycle, valuations)).2.get (xmlattr "cycle") = .ok (toString cycle) :=
    PropertyTree.get_of_children (PropertyTree.get_put _ _ _) hchildren
  have hread : ∀ read, readInput (inputNode (cycle, valuations)).2.children .empty = .ok read ↔
      (∀ e ∈ valuations.entries, e.2.Readable) ∧ read = valuations := by
    intro read
    have hskip : readInput (inputNode (cycle, valuations)).2.children .empty =
        readInput (valuations.entries.map valuationNode) .empty := by
      change readInput (addValuations _ valuations).children .empty = _
      rw [hchildren]
      rfl
    rw [hskip, readInput_eq, readInitialization_eq_iff, emplaceAll_entries]
  have hname : ("input" : String) ≠ "initialization" := by decide
  change (if "input" = "initialization" then _ else if "input" = "input" then
    (inputNode (cycle, valuations)).2.get (xmlattr "cycle") >>= fun text =>
      readUnsigned text >>= fun n =>
        readInput (inputNode (cycle, valuations)).2.children .empty >>= fun read' =>
          readTestCase properties
            { testCase with
              cycleToConcreteInputValuations :=
                testCase.cycleToConcreteInputValuations.emplace n read' }
    else _) = .ok read ↔ _
  rw [if_neg hname, if_pos rfl, hget]
  change (readUnsigned (toString cycle) >>= _) = .ok read ↔ _
  rw [readUnsigned_toString]
  constructor
  · intro h
    obtain ⟨n, hn, hinput⟩ := bind_eq_ok h
    obtain ⟨read', hread', hrest⟩ := bind_eq_ok hinput
    obtain ⟨hreadable, hvaluations⟩ := (hread _).mp hread'
    rw [hvaluations] at hrest
    split_ifs at hn with hcycle
    cases hn
    exact ⟨⟨hcycle, hreadable⟩, hrest⟩
  · rintro ⟨⟨hcycle, hreadable⟩, h⟩
    rw [if_pos hcycle]
    change (readInput _ _ >>= _) = _
    rw [(hread _).mpr ⟨hreadable, rfl⟩]
    exact h

theorem readTestCase_inputs (entries : List (ℕ × OrderedMap String Value))
    (testCase read : TestCase) :
    readTestCase (entries.map inputNode) testCase = .ok read ↔
      (∀ input ∈ entries, input.1 < 2 ^ 32 ∧ ∀ e ∈ input.2.entries, e.2.Readable) ∧
        read = ⟨testCase.initialConcreteStateValuations,
          testCase.cycleToConcreteInputValuations.emplaceAll entries⟩ := by
  induction entries generalizing testCase with
  | nil =>
    change Except.ok testCase = .ok read ↔ _
    simp [OrderedMap.emplaceAll, eq_comm]
  | cons input entries ih =>
    rw [List.map_cons, readTestCase_input, ih, List.forall_mem_cons]
    exact and_assoc.symm

theorem buildFromXML_toXML_iff (testCase read : TestCase) :
    buildFromXML (toXML testCase) = .ok read ↔ testCase.Readable ∧ read = testCase := by
  obtain ⟨initial, inputs⟩ := testCase
  have hchildren := PropertyTree.children_foldl_add inputNode inputs.entries
    ((PropertyTree.leaf "").add "initialization" (addValuations (.leaf "") initial))
  have hbuild : buildFromXML (toXML ⟨initial, inputs⟩) =
      (readInitialization (initial.entries.map valuationNode) .empty >>= fun initial =>
        readTestCase (inputs.entries.map inputNode) ⟨initial, .empty⟩) := by
    change readTestCase (inputs.entries.foldl (fun node e => node.add (inputNode e).1 (inputNode e).2)
      ((PropertyTree.leaf "").add "initialization" (addValuations (.leaf "") initial))).children _ = _
    rw [hchildren]
    change (readInitialization (addValuations (.leaf "") initial).children .empty >>= _) = _
    rw [children_addValuations]
    rfl
  rw [hbuild]
  unfold TestCase.Readable
  constructor
  · intro h
    obtain ⟨initial', hinitial, hinputs⟩ := bind_eq_ok h
    obtain ⟨hreadable, hsame⟩ := (readInitialization_eq_iff _ _ _).mp hinitial
    obtain ⟨hcycles, hread⟩ := (readTestCase_inputs _ _ _).mp hinputs
    rw [emplaceAll_entries] at hsame hread
    rw [hsame] at hread
    exact ⟨⟨hreadable, hcycles⟩, hread⟩
  · rintro ⟨⟨hreadable, hcycles⟩, hread⟩
    rw [(readInitialization_eq_iff initial.entries .empty initial).mpr
      ⟨hreadable, (emplaceAll_entries initial).symm⟩]
    refine (readTestCase_inputs _ _ _).mpr ⟨hcycles, ?_⟩
    rw [emplaceAll_entries]
    exact hread

end TestSuite

/-- Test cases survive the file exactly if their integers are neither negative nor too great. -/
theorem survives_iff (parser : XmlParser) (testCase : TestCase) :
    Survives parser testCase ↔ testCase.Readable := by
  unfold Survives
  rw [parser.readXml_writeXml]
  change TestSuite.buildFromXML (TestSuite.toXML testCase) = _ ↔ _
  rw [TestSuite.buildFromXML_toXML_iff]
  exact and_iff_left rfl

def treeParser : XmlParser where
  File := PropertyTree
  writeXml := id
  readXml := .ok
  readXml_writeXml := fun _ => rfl

/-- An input that is minus one in the only cycle. -/
def belowZero : TestCase :=
  ⟨.empty, OrderedMap.empty.emplace 0 (OrderedMap.empty.emplace "P.x" (.int (-1)))⟩

theorem belowZero_not_survives : ¬Survives treeParser belowZero := by
  intro h
  have hread : (TestSuite.buildFromXML (TestSuite.toXML belowZero)) = .error "invalid_argument" := by
    rfl
  change TestSuite.buildFromXML (TestSuite.toXML belowZero) = .ok belowZero at h
  rw [hread] at h
  cases h

end Etfa

end Ahorn
