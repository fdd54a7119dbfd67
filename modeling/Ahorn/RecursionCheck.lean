import Mathlib.Data.Finset.Card
import Mathlib.Logic.Relation
import Ahorn.CfgHierarchy

set_option autoImplicit false

/-!
# The recursion check of the front end

Units are built after the units their variables are instances of. The check in front of that looks
one instance deep.
-/
namespace Ahorn

theorem exists_rank {α : Type} {R : α → α → Prop} (s : Finset α) (hs : ∀ a b, R a b → b ∈ s)
    (hacyclic : ∀ a, ¬ Relation.TransGen R a a) :
    ∃ rank : α → ℕ, ∀ a b, R a b → rank b < rank a := by
  classical
  refine ⟨fun a => (s.filter (Relation.TransGen R a)).card, ?_⟩
  intro a b hab
  apply Finset.card_lt_card
  rw [Finset.ssubset_iff_of_subset]
  · exact ⟨b, Finset.mem_filter.mpr ⟨hs a b hab, .single hab⟩, fun hb =>
      hacyclic b (Finset.mem_filter.mp hb).2⟩
  · intro c hc
    obtain ⟨hc, hbc⟩ := Finset.mem_filter.mp hc
    exact Finset.mem_filter.mpr ⟨hc, .head hab hbc⟩

/-- A source file after all declarations have been read and all types resolved. -/
structure SourceFile where
  programName : Option String
  functionBlocks : List String
  nameToInterface : OrderedMap String Interface
  declared : ∀ {name}, (∃ i, nameToInterface.find? name = some i) ↔
    name ∈ programName.toList ++ functionBlocks
  resolved : ∀ {name i}, nameToInterface.find? name = some i →
    ∀ {t}, i.Uses t → t ∈ functionBlocks

/-- A unit with the names of the units its variables are instances of. -/
structure Pou where
  interface : Interface
  nameToPou : List String

namespace SourceFile

/-- The first pass over the declarations of a file. Of several units of one name the first is
kept. -/
def ofDeclarations (program : Option (String × Interface))
    (functionBlocks : List (String × Interface))
    (h : ∀ d ∈ program.toList ++ functionBlocks, ∀ t ∈ d.2.referenced,
      t ∈ functionBlocks.map Prod.fst) : SourceFile where
  programName := program.map Prod.fst
  functionBlocks := functionBlocks.map Prod.fst
  nameToInterface := OrderedMap.empty.emplaceAll (program.toList ++ functionBlocks)
  declared := by
    intro name
    have hnames : (program.map Prod.fst).toList ++ functionBlocks.map Prod.fst =
        (program.toList ++ functionBlocks).map Prod.fst := by
      cases program <;> simp
    rw [hnames, OrderedMap.find?_emplaceAll, OrderedMap.find?_empty, Option.none_or]
    constructor
    · rintro ⟨i, hi⟩
      exact List.mem_map_of_mem (f := Prod.fst) (OrderedMap.mem_of_lookup hi)
    · intro hname
      obtain ⟨d, hd, rfl⟩ := List.mem_map.mp hname
      exact OrderedMap.exists_lookup hd
  resolved := by
    intro name i hi t ht
    rw [OrderedMap.find?_emplaceAll, OrderedMap.find?_empty, Option.none_or] at hi
    exact h _ (OrderedMap.mem_of_lookup hi) t (Interface.mem_referenced.mpr ht)

variable (f : SourceFile)

def interfaceAt (name : String) : Except String Interface :=
  match f.nameToInterface.find? name with
  | some i => .ok i
  | none => .error "map::at"

def checkVariable (name : String) (v : Variable) : Except String Unit :=
  match v.dataType with
  | .derivedType t => do
    let used ← f.interfaceAt t
    if used.getVariables.any fun w => w.dataType.getName = name then
      .error ("Not allowed recursion between " ++ name ++ " and " ++ t ++ " detected. ")
    else .ok ()
  | _ => .ok ()

def noRecursionCheck : Except String Unit :=
  f.nameToInterface.entries.forM fun e => e.2.getVariables.forM (f.checkVariable e.1)

/-- Build the unit of a name after those its variables are instances of. -/
def buildPou : ℕ → OrderedMap String Pou → String → Except String (OrderedMap String Pou)
  | 0, _, _ => .error "out of fuel"
  | fuel + 1, pous, name =>
    match pous.find? name with
    | some _ => .ok pous
    | none => do
      let i ← f.interfaceAt name
      let pous ← i.referenced.foldlM (fun pous t =>
        match pous.find? t with
        | some _ => .ok pous
        | none => buildPou fuel pous t) pous
      .ok (pous.emplace name ⟨i, i.referenced⟩)

/-- The units in the order in which they are built, the program first. -/
def units : List String := f.programName.toList ++ f.functionBlocks

def buildPous (fuel : ℕ) : Except String (OrderedMap String Pou) :=
  f.units.foldlM (f.buildPou fuel) .empty

/-- The first unit has an instance of the second. -/
def Contains (a b : String) : Prop := ∃ i, f.nameToInterface.find? a = some i ∧ i.Uses b

/-- Some unit has an instance of itself, directly or through a chain of instances. -/
def Recursive : Prop := ∃ a, Relation.TransGen f.Contains a a

/-- The check accepts exactly the files without recursion, and what it accepts can be built. -/
structure Guarded : Prop where
  accepts_iff : f.noRecursionCheck = .ok () ↔ ¬ f.Recursive
  builds : f.noRecursionCheck = .ok () → ∃ fuel pous, f.buildPous fuel = .ok pous

/-- A unit has an instance of itself, or one of a unit that has an instance of it. -/
def Mutual : Prop := ∃ a b, f.Contains a b ∧ f.Contains b a

/-- A unit has an instance of a unit with a variable of a type that only has the name of the
first. -/
def Misled : Prop := ∃ a b i, f.Contains a b ∧ f.nameToInterface.find? b = some i ∧
  ∃ v ∈ i.getVariables, v.dataType.isDerived = false ∧ v.dataType.getName = a

variable {f}

theorem exists_interface {name t : String} {i : Interface}
    (hi : f.nameToInterface.find? name = some i) (ht : i.Uses t) :
    ∃ j, f.nameToInterface.find? t = some j :=
  f.declared.mpr (List.mem_append_right _ (f.resolved hi ht))

theorem interfaceAt_eq {name : String} {i : Interface}
    (hi : f.nameToInterface.find? name = some i) : f.interfaceAt name = .ok i := by
  unfold interfaceAt
  rw [hi]

theorem noRecursionCheck_iff : f.noRecursionCheck = .ok () ↔ ¬ ∃ a b i, f.Contains a b ∧
    f.nameToInterface.find? b = some i ∧ ∃ w ∈ i.getVariables, w.dataType.getName = a := by
  unfold noRecursionCheck
  simp only [forM_eq_ok]
  constructor
  · rintro h ⟨a, b, i, ⟨j, hj, v, hv, htype⟩, hi, w, hw, hname⟩
    have hok := h (a, j) ((OrderedMap.find?_eq_some_iff _ _ _).mp hj) v hv
    unfold checkVariable at hok
    rw [htype] at hok
    simp only [interfaceAt_eq hi, bind, Except.bind] at hok
    rw [if_pos (List.any_eq_true.mpr ⟨w, hw, by simp [hname]⟩)] at hok
    cases hok
  · rintro h ⟨a, j⟩ hj v hv
    have hj := (OrderedMap.find?_eq_some_iff _ _ _).mpr hj
    unfold checkVariable
    cases htype : v.dataType with
    | derivedType b =>
      have huses : j.Uses b := ⟨v, hv, htype⟩
      obtain ⟨i, hi⟩ := exists_interface hj huses
      simp only [interfaceAt_eq hi, bind, Except.bind]
      rw [if_neg]
      intro hany
      obtain ⟨w, hw, hname⟩ := List.any_eq_true.mp hany
      exact h ⟨a, b, i, ⟨j, hj, huses⟩, hi, w, hw, by simpa using hname⟩
    | _ => rfl

theorem noRecursionCheck_iff_mutual : f.noRecursionCheck = .ok () ↔ ¬ (f.Mutual ∨ f.Misled) := by
  rw [noRecursionCheck_iff, not_iff_not]
  constructor
  · rintro ⟨a, b, i, hab, hi, w, hw, hname⟩
    cases hderived : w.dataType.isDerived with
    | false => exact Or.inr ⟨a, b, i, hab, hi, w, hw, hderived, hname⟩
    | true =>
      refine Or.inl ⟨a, b, hab, i, hi, w, hw, ?_⟩
      cases htype : w.dataType with
      | derivedType t =>
        rw [htype] at hname
        exact congrArg DataType.derivedType hname
      | _ =>
        rw [htype] at hderived
        cases hderived
  · rintro (⟨a, b, hab, i, hi, w, hw, htype⟩ | ⟨a, b, i, hab, hi, w, hw, -, hname⟩)
    · refine ⟨a, b, i, hab, hi, w, hw, ?_⟩
      rw [htype]
      rfl
    · exact ⟨a, b, i, hab, hi, w, hw, hname⟩

theorem Mutual.recursive (h : f.Mutual) : f.Recursive := by
  obtain ⟨a, b, hab, hba⟩ := h
  exact ⟨a, .head hab (.single hba)⟩

section Building

/-- What has been built contains only what has been built before. -/
def Ranked (f : SourceFile) (pous : OrderedMap String Pou) : Prop :=
  ∃ rank : String → ℕ, ∀ {name pou}, pous.find? name = some pou → ∀ {t}, f.Contains name t →
    rank t < rank name ∧ ∃ used, pous.find? t = some used

/-- Everything built before is still there. -/
def Keeps (pous pous' : OrderedMap String Pou) : Prop :=
  ∀ {name pou}, pous.find? name = some pou → ∃ pou', pous'.find? name = some pou'

theorem Ranked.emplace {pous : OrderedMap String Pou} (h : f.Ranked pous) {name : String}
    (hname : pous.find? name = none)
    (hused : ∀ t, f.Contains name t → ∃ used, pous.find? t = some used) (pou : Pou) :
    f.Ranked (pous.emplace name pou) := by
  obtain ⟨rank, hrank⟩ := h
  have hne : ∀ {t used}, pous.find? t = some used → t ≠ name := by
    rintro t used ht rfl
    rw [hname] at ht
    cases ht
  obtain ⟨bound, hbound⟩ : ∃ bound : ℕ, ∀ t, f.Contains name t → rank t ≤ bound := by
    cases hi : f.nameToInterface.find? name with
    | none =>
      refine ⟨0, ?_⟩
      rintro t ⟨i, hi', -⟩
      rw [hi] at hi'
      cases hi'
    | some i =>
      refine ⟨(i.referenced.map rank).max?.getD 0, ?_⟩
      rintro t ⟨i', hi', ht⟩
      rw [hi] at hi'
      cases hi'
      exact List.le_max?_getD_of_mem (List.mem_map_of_mem (Interface.mem_referenced.mpr ht))
  refine ⟨Function.update rank name (bound + 1), ?_⟩
  intro m pou' hm t ht
  rw [OrderedMap.find?_emplace] at hm
  split_ifs at hm with hmn
  · subst hmn
    obtain ⟨used, hused⟩ := hused t ht
    rw [Function.update_of_ne (hne hused), Function.update_self,
      OrderedMap.find?_emplace_ne _ _ (hne hused)]
    exact ⟨Nat.lt_succ_of_le (hbound t ht), used, hused⟩
  · obtain ⟨hlt, used, hused⟩ := hrank hm ht
    rw [Function.update_of_ne (hne hused), Function.update_of_ne hmn,
      OrderedMap.find?_emplace_ne _ _ (hne hused)]
    exact ⟨hlt, used, hused⟩

/-- A step of the build: what was built is kept, and the unit of the name is built. -/
def Builds (f : SourceFile) (pous : OrderedMap String Pou) (name : String)
    (pous' : OrderedMap String Pou) : Prop :=
  f.Ranked pous' ∧ Keeps pous pous' ∧ ∃ pou, pous'.find? name = some pou

theorem Builds.foldlM {g : OrderedMap String Pou → String → Except String (OrderedMap String Pou)}
    (hg : ∀ {pous name pous'}, f.Ranked pous → g pous name = .ok pous' → f.Builds pous name pous')
    {names : List String} {pous pous' : OrderedMap String Pou} (h : f.Ranked pous)
    (hok : names.foldlM g pous = .ok pous') : f.Ranked pous' ∧ Keeps pous pous' ∧
      ∀ name ∈ names, ∃ pou, pous'.find? name = some pou := by
  induction names generalizing pous with
  | nil =>
    cases hok
    exact ⟨h, fun hp => ⟨_, hp⟩, fun _ hname => by cases hname⟩
  | cons name names ih =>
    rw [List.foldlM_cons] at hok
    obtain ⟨pous₁, hstep, hrest⟩ := bind_eq_ok hok
    obtain ⟨hranked, hkeeps, pou, hpou⟩ := hg h hstep
    obtain ⟨hranked', hkeeps', hnames⟩ := ih hranked hrest
    refine ⟨hranked', fun hp => ?_, ?_⟩
    · obtain ⟨pou₁, hpou₁⟩ := hkeeps hp
      exact hkeeps' hpou₁
    · intro m hm
      rcases List.mem_cons.mp hm with rfl | hm
      · exact hkeeps' hpou
      · exact hnames m hm

theorem buildPou_builds (fuel : ℕ) {pous pous' : OrderedMap String Pou} {name : String}
    (h : f.Ranked pous) (hok : f.buildPou fuel pous name = .ok pous') :
    f.Builds pous name pous' := by
  induction fuel generalizing pous pous' name with
  | zero => cases hok
  | succ fuel ih =>
    unfold buildPou at hok
    cases hname : pous.find? name with
    | some pou =>
      rw [hname] at hok
      cases hok
      exact ⟨h, fun hp => ⟨_, hp⟩, pou, hname⟩
    | none =>
      rw [hname] at hok
      obtain ⟨i, hi, hok⟩ := bind_eq_ok hok
      obtain ⟨pous₁, hused, hok⟩ := bind_eq_ok hok
      cases hok
      have hi : f.nameToInterface.find? name = some i := by
        unfold interfaceAt at hi
        cases hfind : f.nameToInterface.find? name with
        | none =>
          rw [hfind] at hi
          cases hi
        | some j =>
          rw [hfind] at hi
          cases hi
          rfl
      obtain ⟨hranked, hkeeps, hbuilt⟩ := Builds.foldlM (fun {pous t pous'} hp hstep => by
        cases ht : pous.find? t with
        | some used =>
          rw [ht] at hstep
          cases hstep
          exact ⟨hp, fun hq => ⟨_, hq⟩, used, ht⟩
        | none =>
          rw [ht] at hstep
          exact ih hp hstep) h hused
      have hcontains : ∀ t, f.Contains name t → ∃ used, pous₁.find? t = some used := by
        rintro t ⟨j, hj, ht⟩
        rw [hi] at hj
        cases hj
        exact hbuilt t (Interface.mem_referenced.mpr ht)
      cases hname₁ : pous₁.find? name with
      | none =>
        refine ⟨hranked.emplace hname₁ hcontains _, fun hp => ?_, ?_⟩
        · obtain ⟨pou, hpou⟩ := hkeeps hp
          rw [OrderedMap.find?_emplace]
          split_ifs with hm
          · rw [hm, hname] at hp
            cases hp
          · exact ⟨pou, hpou⟩
        · exact ⟨_, by rw [OrderedMap.find?_emplace, if_pos rfl, hname₁, Option.none_or]⟩
      | some pou =>
        -- a unit that was built on the way to itself is not built again
        have hsame : pous₁.emplace name ⟨i, i.referenced⟩ = pous₁ := by
          apply OrderedMap.ext_find?
          intro k
          rw [OrderedMap.find?_emplace]
          split_ifs with hk
          · rw [hk, hname₁, Option.some_or]
          · rfl
        rw [hsame]
        exact ⟨hranked, hkeeps, pou, hname₁⟩

theorem buildPou_ok {rank : String → ℕ} (hrank : ∀ a b, f.Contains a b → rank b < rank a)
    {fuel : ℕ} {pous : OrderedMap String Pou} {name : String} (hname : name ∈ f.units)
    (hfuel : rank name < fuel) : ∃ pous', f.buildPou fuel pous name = .ok pous' := by
  induction fuel generalizing pous name with
  | zero => exact absurd hfuel (Nat.not_lt_zero _)
  | succ fuel ih =>
    unfold buildPou
    cases pous.find? name with
    | some pou => exact ⟨pous, rfl⟩
    | none =>
      obtain ⟨i, hi⟩ := f.declared.mpr hname
      refine exists_bind_ok ⟨i, interfaceAt_eq hi⟩ ?_
      intro j hj
      rw [interfaceAt_eq hi] at hj
      cases hj
      refine exists_bind_ok (foldlM_ok ?_ pous) fun _ _ => ⟨_, rfl⟩
      intro t ht pous
      have huses := Interface.mem_referenced.mp ht
      have hlt := hrank name t ⟨i, hi, huses⟩
      cases pous.find? t with
      | some used => exact ⟨pous, rfl⟩
      | none => exact ih (List.mem_append_right _ (f.resolved hi huses)) (by omega)

theorem buildPous_iff : (∃ fuel pous, f.buildPous fuel = .ok pous) ↔ ¬ f.Recursive := by
  constructor
  · rintro ⟨fuel, pous, hok⟩ ⟨a, ha⟩
    have hempty : f.Ranked .empty := ⟨fun _ => 0, fun h => by cases h⟩
    obtain ⟨⟨rank, hrank⟩, -, hbuilt⟩ := Builds.foldlM (buildPou_builds fuel) hempty hok
    have hdecreases : ∀ {b c}, Relation.TransGen f.Contains b c → rank c < rank b := by
      have hstep : ∀ {b c}, f.Contains b c → rank c < rank b := by
        rintro b c ⟨i, hi, huses⟩
        obtain ⟨pou, hpou⟩ := hbuilt b (f.declared.mp ⟨i, hi⟩)
        exact (hrank hpou ⟨i, hi, huses⟩).1
      intro b c hbc
      induction hbc with
      | single h => exact hstep h
      | tail _ h ih => exact (hstep h).trans ih
    exact lt_irrefl _ (hdecreases ha)
  · intro hno
    obtain ⟨rank, hrank⟩ := exists_rank (R := f.Contains) f.units.toFinset (by
      rintro a b ⟨i, hi, huses⟩
      exact List.mem_toFinset.mpr (List.mem_append_right _ (f.resolved hi huses)))
      fun a ha => hno ⟨a, ha⟩
    have hstep : ∀ name ∈ f.units, ∀ pous, ∃ pous',
        f.buildPou ((f.units.map rank).max?.getD 0 + 1) pous name = .ok pous' := fun name hname _ =>
      buildPou_ok hrank hname
        (Nat.lt_succ_of_le (List.le_max?_getD_of_mem (List.mem_map_of_mem hname)))
    exact ⟨_, foldlM_ok hstep .empty⟩

end Building

/-- The check does its work exactly if every recursion comes with one through at most two units,
and no name of a type is mistaken for an instance. -/
theorem guarded_iff (f : SourceFile) :
    f.Guarded ↔ (f.Recursive → f.Mutual ∨ f.Misled) ∧ (f.Misled → f.Recursive) := by
  constructor
  · rintro ⟨haccepts, -⟩
    rw [noRecursionCheck_iff_mutual, not_iff_not] at haccepts
    exact ⟨haccepts.mpr, fun h => haccepts.mp (Or.inr h)⟩
  · rintro ⟨hshort, hmisled⟩
    have haccepts : f.noRecursionCheck = .ok () ↔ ¬ f.Recursive := by
      rw [noRecursionCheck_iff_mutual, not_iff_not]
      exact ⟨fun h => h.elim Mutual.recursive hmisled, hshort⟩
    exact ⟨haccepts, fun hok => buildPous_iff.mpr (haccepts.mp hok)⟩

section Ring

def firstUnit : Interface := .ofVariables [⟨"f", .derivedType "B", .local, none⟩] (by decide)

def secondUnit : Interface := .ofVariables [⟨"f", .derivedType "C", .local, none⟩] (by decide)

def thirdUnit : Interface := .ofVariables [⟨"f", .derivedType "A", .local, none⟩] (by decide)

/-- Three function blocks, each with an instance of the next. -/
def ring : SourceFile :=
  .ofDeclarations none [("A", firstUnit), ("B", secondUnit), ("C", thirdUnit)] (by decide)

theorem ring_not_guarded : ¬ ring.Guarded := by
  rintro ⟨haccepts, -⟩
  have hcontains : ∀ a b, (∃ i, ring.nameToInterface.find? a = some i ∧ b ∈ i.referenced) →
      ring.Contains a b := by
    rintro a b ⟨i, hi, hb⟩
    exact ⟨i, hi, Interface.mem_referenced.mp hb⟩
  refine haccepts.mp (by decide) ⟨"A", ?_⟩
  refine .head (hcontains "A" "B" ⟨firstUnit, rfl, by decide⟩) (.head
    (hcontains "B" "C" ⟨secondUnit, rfl, by decide⟩) (.single
      (hcontains "C" "A" ⟨thirdUnit, rfl, by decide⟩)))

end Ring

end SourceFile

end Ahorn
