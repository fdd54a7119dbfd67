import Ahorn.BuiltGraphs
import Ahorn.CfgHierarchy
import Ahorn.InvokedUnits

set_option autoImplicit false

/-!
# The modules of a project

Each unit is compiled once, behind the units of its instances, with labels of its own. The modules
are closed exactly if the statements of every unit pass the check.
-/
namespace Ahorn

def Interface.inputVariables (i : Interface) : List Variable :=
  i.getVariables.filter (·.storageType = .input)

def Interface.outputVariables (i : Interface) : List Variable :=
  i.getVariables.filter (·.storageType = .output)

/-- The program organisation units with their statements. What a unit invokes it declares. -/
structure SourceProject extends Project where
  bodyOf : String → StatementList
  declared : ∀ {name i}, nameToPou.find? name = some i →
    ∀ v ∈ (bodyOf name).callees, v ∈ i.getVariables

/-- The state of the compiler with the modules compiled so far. -/
structure Compilation where
  compiler : PouCompiler
  nameToModule : OrderedMap String Module

namespace SourceProject

def signatures (p : SourceProject) (typeName : String) : Option Signature :=
  (p.nameToPou.find? typeName).map fun i => ⟨i.inputVariables, i.outputVariables⟩

def calleeModules (p : SourceProject) (c : Compilation) (typeName : String) :
    Option CalleeModule :=
  match p.nameToPou.find? typeName, c.nameToModule.find? typeName with
  | some i, some M => some ⟨i.inputVariables, i.outputVariables, M.entryLabel⟩
  | _, _ => none

/-- Compile the unit of a name, after those of its instances. -/
def compilePou (p : SourceProject) : ℕ → Compilation → String → Except String Compilation
  | 0, _, _ => .error "out of fuel"
  | fuel + 1, c, name =>
    match c.nameToModule.find? name with
    | some _ => .ok c
    | none =>
      match p.nameToPou.find? name with
      | none => .error "No pou for given name exists."
      | some i => do
        let c ← i.referenced.foldlM (compilePou p fuel) c
        let (M, compiler) ← PouCompiler.compile (p.calleeModules c) (p.bodyOf name) c.compiler
        .ok ⟨compiler, c.nameToModule.emplace name M⟩

def compileModules (p : SourceProject) (fuel : ℕ) : Except String Compilation :=
  p.nameToPou.keys.foldlM (p.compilePou fuel) ⟨.initial, .empty⟩

end SourceProject

namespace Compilation

def exitLabels (c : Compilation) (typeName : String) : Option ℤ :=
  (c.nameToModule.find? typeName).map (·.exitLabel)

/-- What is promised of the modules and of the graphs made of them. -/
structure Closed (c : Compilation) : Prop where
  placeholders : c.compiler.nextLabelPlaceholders = []
  closed : ∀ {name M}, c.nameToModule.find? name = some M → M.Closed
  nonneg : ∀ {name M l i}, c.nameToModule.find? name = some M →
    M.labelToInstruction.find? l = some i → ∀ t ∈ i.jumps, 0 ≤ t
  entered : ∀ {name M l v intra inter}, c.nameToModule.find? name = some M →
    M.labelToInstruction.find? l = some (.callInstruction v intra inter) →
    ∃ typeName callee, v.dataType = .derivedType typeName ∧
      c.nameToModule.find? typeName = some callee ∧ inter = callee.entryLabel
  disjoint : ∀ {name name' M M'}, c.nameToModule.find? name = some M →
    c.nameToModule.find? name' = some M' → name ≠ name' →
    M.exitLabel < M'.entryLabel ∨ M'.exitLabel < M.entryLabel
  graphs : ∀ {name M}, c.nameToModule.find? name = some M →
    ∃ cfg, Builder.build c.exitLabels name M = .ok cfg ∧
      ∀ {l v}, cfg.labelToVertex.find? l = some v → l ≠ cfg.exitLabel →
        ∃ e ∈ cfg.edges, e.sourceLabel = l

/-- The modules compiled so far are kept. -/
def Within (c c' : Compilation) : Prop :=
  ∀ name M, c.nameToModule.find? name = some M → c'.nameToModule.find? name = some M

end Compilation

theorem Module.Closed.jumps_nonneg {M : Module} (h : M.Closed) {l : ℤ} {i : Instruction}
    (hi : M.labelToInstruction.find? l = some i) {t : ℤ} (ht : t ∈ i.jumps) : 0 ≤ t := by
  have hentry := h.entry_nonneg
  have hexit := h.entry_lt_exit
  rcases h.jumps hi t ht with rfl | ⟨j, hj, -⟩
  · omega
  · have := (h.instructions t).mp ⟨j, hj⟩
    omega

namespace SourceProject

open PouCompiler (Between)

variable {p : SourceProject} {c c' : Compilation}

theorem calleeModules_eq_some {t : String} {C : CalleeModule} :
    p.calleeModules c t = some C ↔ ∃ i M, p.nameToPou.find? t = some i ∧
      c.nameToModule.find? t = some M ∧
      C = ⟨i.inputVariables, i.outputVariables, M.entryLabel⟩ := by
  unfold calleeModules
  cases p.nameToPou.find? t <;> cases c.nameToModule.find? t <;> simp [eq_comm]

/-- The statements of a unit pass the check. -/
def Passes (p : SourceProject) (name : String) : Prop :=
  ((p.bodyOf name).checkBody p.signatures .other).isSome = true

/-- The modules compiled so far are closed, apart from each other, and call modules compiled so
far. -/
structure Part (p : SourceProject) (c : Compilation) : Prop where
  between : c.compiler.Between
  closed : ∀ {name M}, c.nameToModule.find? name = some M → M.Closed
  below : ∀ {name M}, c.nameToModule.find? name = some M → M.exitLabel < c.compiler.label
  passes : ∀ {name M}, c.nameToModule.find? name = some M →
    (∃ i, p.nameToPou.find? name = some i) ∧ p.Passes name
  enters : ∀ {name M l i}, c.nameToModule.find? name = some M →
    M.labelToInstruction.find? l = some i → i.Enters (p.calleeModules c)
  disjoint : ∀ {name name' M M'}, c.nameToModule.find? name = some M →
    c.nameToModule.find? name' = some M' → name ≠ name' →
    M.exitLabel < M'.entryLabel ∨ M'.exitLabel < M.entryLabel

theorem agree_calleeModules {name : String} {i : Interface}
    (hi : p.nameToPou.find? name = some i)
    (hcallees : ∀ t ∈ i.referenced, ∃ M, c.nameToModule.find? t = some M) :
    Agree (PouCompiler.signatures (p.calleeModules c)) p.signatures (p.bodyOf name).callees := by
  intro v hv
  have hmem := p.declared hi v hv
  unfold signatureOf
  split
  · rename_i t ht
    have huses : i.Uses t := ⟨v, hmem, ht⟩
    obtain ⟨M, hM⟩ := hcallees t (Interface.mem_referenced.mpr huses)
    obtain ⟨rank, hrank⟩ := p.acyclic
    obtain ⟨-, i', hi'⟩ := hrank hi t huses
    unfold PouCompiler.signatures signatures calleeModules
    rw [hi', hM]
    rfl
  · rfl

theorem find?_emplace_cases {m : OrderedMap String Module} {name name' : String} {M M' : Module}
    (h : (m.emplace name M).find? name' = some M') :
    m.find? name' = some M' ∨ (m.find? name = none ∧ name' = name ∧ M' = M) := by
  rw [OrderedMap.find?_emplace] at h
  split_ifs at h with hname
  · cases hold : m.find? name with
    | none =>
      rw [hold, Option.none_or] at h
      cases h
      exact Or.inr ⟨rfl, hname, rfl⟩
    | some M₀ =>
      rw [hold, Option.some_or] at h
      rw [hname, hold]
      exact Or.inl h
  · exact Or.inl h

theorem within_emplace (c : Compilation) (name : String) (M : Module) (compiler : PouCompiler) :
    c.Within ⟨compiler, c.nameToModule.emplace name M⟩ := by
  intro name' M' h
  change (c.nameToModule.emplace name M).find? name' = some M'
  rw [OrderedMap.find?_emplace]
  split_ifs with hname
  · rw [← hname, h, Option.some_or]
  · exact h

theorem Enters_mono (h : c.Within c') {i : Instruction} (hi : i.Enters (p.calleeModules c)) :
    i.Enters (p.calleeModules c') := by
  cases i with
  | callInstruction v intra inter =>
    obtain ⟨t, C, ht, hC, hinter⟩ := hi
    obtain ⟨i, M, hi, hM, rfl⟩ := calleeModules_eq_some.mp hC
    exact ⟨t, _, ht, calleeModules_eq_some.mpr ⟨i, M, hi, h _ _ hM, rfl⟩, hinter⟩
  | assignmentInstruction _ _ _ => exact trivial
  | gotoInstruction _ => exact trivial
  | havocInstruction _ => exact trivial
  | ifInstruction _ _ _ => exact trivial
  | whileInstruction _ _ _ => exact trivial

/-- One unit is compiled behind those compiled so far. -/
theorem Part.compile {name : String} {i : Interface} (hp : p.Part c)
    (hi : p.nameToPou.find? name = some i)
    (hcallees : ∀ t ∈ i.referenced, ∃ M, c.nameToModule.find? t = some M) {M : Module}
    {compiler : PouCompiler}
    (hok : PouCompiler.compile (p.calleeModules c) (p.bodyOf name) c.compiler =
      .ok (M, compiler)) : p.Part ⟨compiler, c.nameToModule.emplace name M⟩ := by
  obtain ⟨hclosed, hbetween, hentry, hlabel⟩ := hp.between.compile_closed hok
  have hlt := hclosed.entry_lt_exit
  have hpasses : p.Passes name := by
    have hcheck := (hp.between.compile_ok_iff (p.calleeModules c) (p.bodyOf name)).mp ⟨_, hok⟩
    rw [StatementList.checkBody_congr _ (agree_calleeModules hi hcallees)] at hcheck
    exact hcheck
  have hwithin := within_emplace c name M compiler
  have hapart : ∀ {name' M'}, c.nameToModule.find? name' = some M' →
      M'.exitLabel < M.entryLabel := by
    intro name' M' h
    rw [hentry]
    exact hp.below h
  refine ⟨hbetween, ?_, ?_, ?_, ?_, ?_⟩
  · intro name' M' h
    rcases find?_emplace_cases h with h | ⟨-, -, rfl⟩
    · exact hp.closed h
    · exact hclosed
  · intro name' M' h
    change M'.exitLabel < compiler.label
    rcases find?_emplace_cases h with h | ⟨-, -, rfl⟩
    · have := hapart h
      omega
    · omega
  · intro name' M' h
    rcases find?_emplace_cases h with h | ⟨-, rfl, -⟩
    · exact hp.passes h
    · exact ⟨⟨i, hi⟩, hpasses⟩
  · intro name' M' l j h hj
    rcases find?_emplace_cases h with h | ⟨-, -, rfl⟩
    · exact Enters_mono hwithin (hp.enters h hj)
    · exact Enters_mono hwithin (hp.between.compile_enters hok hj)
  · intro n n' N N' hN hN' hne
    rcases find?_emplace_cases hN with h | ⟨-, hn, rfl⟩
    · rcases find?_emplace_cases hN' with h' | ⟨-, -, rfl⟩
      · exact hp.disjoint h h' hne
      · exact Or.inl (hapart h)
    · rcases find?_emplace_cases hN' with h' | ⟨-, hn', -⟩
      · exact Or.inr (hapart h')
      · exact absurd (hn.trans hn'.symm) hne

theorem part_initial : p.Part ⟨.initial, .empty⟩ where
  between := ⟨le_rfl, rfl, rfl, rfl⟩
  closed := fun h => by cases h
  below := fun h => by cases h
  passes := fun h => by cases h
  enters := fun h => by cases h
  disjoint := fun h => by cases h

/-- A step that, where it succeeds, compiles the unit of a name and keeps those compiled before. -/
def Compiles (p : SourceProject) (f : Compilation → String → Except String Compilation)
    (name : String) : Prop :=
  ∀ {c c'}, p.Part c → f c name = .ok c' →
    p.Part c' ∧ c.Within c' ∧ ∃ M, c'.nameToModule.find? name = some M

theorem Compiles.foldlM {f : Compilation → String → Except String Compilation}
    {names : List String} (hf : ∀ name ∈ names, p.Compiles f name) (hp : p.Part c)
    (hok : names.foldlM f c = .ok c') : p.Part c' ∧ c.Within c' ∧
      ∀ name ∈ names, ∃ M, c'.nameToModule.find? name = some M := by
  induction names generalizing c with
  | nil =>
    cases hok
    exact ⟨hp, fun _ _ h => h, by simp⟩
  | cons name names ih =>
    rw [List.foldlM_cons] at hok
    obtain ⟨c₁, hname, hok⟩ := bind_eq_ok hok
    obtain ⟨hp₁, hwithin₁, M, hM⟩ := hf name List.mem_cons_self hp hname
    obtain ⟨hp', hwithin, hall⟩ := ih (fun n hn => hf n (List.mem_cons_of_mem _ hn)) hp₁ hok
    refine ⟨hp', fun _ _ h => hwithin _ _ (hwithin₁ _ _ h), ?_⟩
    intro n hn
    rcases List.mem_cons.mp hn with rfl | hn
    · exact ⟨M, hwithin _ _ hM⟩
    · exact hall n hn

theorem compiles_compilePou (fuel : ℕ) (name : String) :
    p.Compiles (p.compilePou fuel) name := by
  induction fuel generalizing name with
  | zero =>
    intro c c' hp hok
    cases hok
  | succ fuel ih =>
    intro c c' hp hok
    unfold compilePou at hok
    cases hM : c.nameToModule.find? name with
    | some M =>
      rw [hM] at hok
      cases hok
      exact ⟨hp, fun _ _ h => h, M, hM⟩
    | none =>
      cases hi : p.nameToPou.find? name with
      | none =>
        rw [hM, hi] at hok
        cases hok
      | some i =>
        simp only [hM, hi] at hok
        obtain ⟨c₁, hfold, hok⟩ := bind_eq_ok hok
        obtain ⟨⟨M, compiler⟩, hcompile, hok⟩ := bind_eq_ok hok
        cases hok
        obtain ⟨hp₁, hwithin, hall⟩ := Compiles.foldlM (fun t _ => ih t) hp hfold
        refine ⟨hp₁.compile hi hall hcompile,
          fun _ _ h => within_emplace c₁ name M compiler _ _ (hwithin _ _ h), ?_⟩
        change ∃ M', (c₁.nameToModule.emplace name M).find? name = some M'
        rw [OrderedMap.find?_emplace, if_pos rfl]
        cases c₁.nameToModule.find? name with
        | none => exact ⟨M, rfl⟩
        | some M₀ => exact ⟨M₀, rfl⟩

theorem compilePou_ok {rank : String → ℕ}
    (hrank : ∀ {name i}, p.nameToPou.find? name = some i →
      ∀ t, i.Uses t → rank t < rank name ∧ ∃ callee, p.nameToPou.find? t = some callee)
    (hpasses : ∀ {name i}, p.nameToPou.find? name = some i → p.Passes name) (fuel : ℕ)
    {name : String} {i : Interface} (hi : p.nameToPou.find? name = some i)
    (hfuel : rank name < fuel) (hp : p.Part c) : ∃ c', p.compilePou fuel c name = .ok c' := by
  induction fuel generalizing name i c with
  | zero => omega
  | succ fuel ih =>
    unfold compilePou
    cases hM : c.nameToModule.find? name with
    | some M => exact ⟨c, rfl⟩
    | none =>
      have hfold : ∀ (names : List String) {c}, p.Part c → (∀ t ∈ names, i.Uses t) →
          ∃ c', names.foldlM (p.compilePou fuel) c = .ok c' := by
        intro names
        induction names with
        | nil =>
          intro c _ _
          exact ⟨c, rfl⟩
        | cons t names ihnames =>
          intro c hp huses
          obtain ⟨hlt, callee, hcallee⟩ := hrank hi t (huses t List.mem_cons_self)
          obtain ⟨c₁, hok₁⟩ := ih hcallee (by omega) hp
          obtain ⟨hp₁, -⟩ := compiles_compilePou fuel t hp hok₁
          obtain ⟨c', hok'⟩ := ihnames hp₁ fun t ht => huses t (List.mem_cons_of_mem _ ht)
          refine ⟨c', ?_⟩
          rw [List.foldlM_cons, hok₁]
          exact hok'
      obtain ⟨c₁, hok₁⟩ := hfold i.referenced hp fun t ht => Interface.mem_referenced.mp ht
      obtain ⟨hp₁, -, hall⟩ := Compiles.foldlM (fun t _ => compiles_compilePou fuel t) hp hok₁
      have hcheck := hpasses hi
      unfold Passes at hcheck
      rw [← StatementList.checkBody_congr _ (agree_calleeModules hi hall)] at hcheck
      obtain ⟨⟨M, compiler⟩, hcompile⟩ :=
        (hp₁.between.compile_ok_iff (p.calleeModules c₁) (p.bodyOf name)).mpr hcheck
      simp only [hi]
      rw [hok₁]
      change ∃ c', (PouCompiler.compile _ _ _ >>= _) = _
      rw [hcompile]
      exact ⟨_, rfl⟩

theorem Part.callsKnown (hp : p.Part c) {name : String} {M : Module}
    (hM : c.nameToModule.find? name = some M) {l : ℤ} {i : Instruction}
    (hi : M.labelToInstruction.find? l = some i) : Builder.CallsKnown c.exitLabels i := by
  rintro v intra inter rfl
  obtain ⟨t, C, ht, hC, -⟩ := hp.enters hM hi
  obtain ⟨-, M', -, hM', -⟩ := calleeModules_eq_some.mp hC
  refine ⟨M'.exitLabel, ?_⟩
  unfold Builder.exitLabelOf Compilation.exitLabels
  simp only [ht, hM', Option.map_some]

theorem Part.promise (hp : p.Part c) : c.Closed where
  placeholders := hp.between.placeholders
  closed := hp.closed
  nonneg := fun hM hi _ ht => (hp.closed hM).jumps_nonneg hi ht
  entered := by
    intro name M l v intra inter hM hi
    obtain ⟨t, C, ht, hC, hinter⟩ := hp.enters hM hi
    obtain ⟨_, M', -, hM', rfl⟩ := calleeModules_eq_some.mp hC
    exact ⟨t, M', ht, hM', hinter⟩
  disjoint := hp.disjoint
  graphs := by
    intro name M hM
    obtain ⟨cfg, hcfg, hbuilt⟩ := M.build_ok name fun hi => hp.callsKnown hM hi
    exact ⟨cfg, hcfg, fun hv hl => hbuilt.exists_edge_out (hp.closed hM) hv hl⟩

/-- The project is compiled to closed modules, one for each unit. -/
def LoweredClosed (p : SourceProject) (fuel : ℕ) : Prop :=
  ∃ c, p.compileModules fuel = .ok c ∧ c.Closed ∧
    ∀ name, (∃ M, c.nameToModule.find? name = some M) ↔ ∃ i, p.nameToPou.find? name = some i

theorem LoweredClosed.passes {fuel : ℕ} (h : p.LoweredClosed fuel) {name : String} {i : Interface}
    (hi : p.nameToPou.find? name = some i) : p.Passes name := by
  obtain ⟨c, hok, -, hunits⟩ := h
  obtain ⟨hp, -⟩ := Compiles.foldlM (fun t _ => compiles_compilePou fuel t) part_initial hok
  obtain ⟨M, hM⟩ := (hunits name).mpr ⟨i, hi⟩
  exact (hp.passes hM).2

/-- With fuel for the nesting of instances, the modules are closed exactly if the statements of
every unit pass the check. -/
theorem loweredClosed_iff (p : SourceProject) : ∃ fuel₀, ∀ fuel ≥ fuel₀,
    (p.LoweredClosed fuel ↔ ∀ name i, p.nameToPou.find? name = some i → p.Passes name) := by
  obtain ⟨rank, hrank⟩ := p.acyclic
  refine ⟨(p.nameToPou.keys.map rank).max?.getD 0 + 1, ?_⟩
  intro fuel hfuel
  constructor
  · intro h name i hi
    exact h.passes hi
  · intro hpasses
    have hfold : ∀ (names : List String) {c}, p.Part c → (∀ n ∈ names, n ∈ p.nameToPou.keys) →
        ∃ c', names.foldlM (p.compilePou fuel) c = .ok c' := by
      intro names
      induction names with
      | nil =>
        intro c _ _
        exact ⟨c, rfl⟩
      | cons name names ih =>
        intro c hp hmem
        have hname := hmem name List.mem_cons_self
        obtain ⟨⟨n, i⟩, hentry, hn⟩ := List.mem_map.mp hname
        have hi : p.nameToPou.find? name = some i :=
          (OrderedMap.find?_eq_some_iff _ _ _).mpr (hn ▸ hentry)
        have hle : rank name ≤ (p.nameToPou.keys.map rank).max?.getD 0 :=
          List.le_max?_getD_of_mem (List.mem_map_of_mem hname)
        obtain ⟨c₁, hok₁⟩ := compilePou_ok hrank (fun hi => hpasses _ _ hi) fuel hi (by omega) hp
        obtain ⟨hp₁, -⟩ := compiles_compilePou fuel name hp hok₁
        obtain ⟨c', hok'⟩ := ih hp₁ fun n hn => hmem n (List.mem_cons_of_mem _ hn)
        refine ⟨c', ?_⟩
        rw [List.foldlM_cons, hok₁]
        exact hok'
    obtain ⟨c, hok⟩ := hfold p.nameToPou.keys part_initial fun _ h => h
    obtain ⟨hp, -, hall⟩ :=
      Compiles.foldlM (fun t _ => compiles_compilePou fuel t) part_initial hok
    refine ⟨c, hok, hp.promise, ?_⟩
    intro name
    constructor
    · rintro ⟨M, hM⟩
      exact (hp.passes hM).1
    · rintro ⟨i, hi⟩
      exact hall name
        (List.mem_map_of_mem (f := Prod.fst) ((OrderedMap.find?_eq_some_iff _ _ _).mp hi))

def calling : Interface :=
  .ofVariables [⟨"a", .bool, .local, none⟩, ⟨"b", .bool, .local, none⟩, ⟨"x", .int, .local, none⟩,
    ⟨"f", .derivedType "Fb", .local, none⟩] (by decide)

/-- `IF a THEN x := 1; ELSIF b THEN f(); END_IF;` -/
def lastCall : StatementList :=
  .cons (.ifStatement (.reference (.variableAccess ⟨"a", .bool, .local, none⟩))
    (.cons (.assignmentStatement (.variableAccess ⟨"x", .int, .local, none⟩) (.integerConstant 1))
      .nil)
    (.cons (.condition (.reference (.variableAccess ⟨"b", .bool, .local, none⟩)))
      (.cons (.invocationStatement ⟨"f", .derivedType "Fb", .local, none⟩ [] []) .nil) .nil)
    .nil) .nil

/-- A program that calls a function block without outputs at the end of its last ELSIF part. -/
def callingLast : SourceProject where
  toProject := .ranked ((OrderedMap.empty.emplace "Fb" .empty).emplace "Main" calling)
    (fun name => if name = "Main" then 1 else 0) (by decide)
  bodyOf := fun name => if name = "Main" then lastCall else .nil
  declared := by
    intro name i hi v hv
    by_cases hname : name = "Main"
    · subst hname
      have hmain : i = calling := Option.some.inj (hi.symm.trans (by rfl))
      subst hmain
      rw [if_pos rfl] at hv
      revert v
      decide
    · rw [if_neg hname] at hv
      cases hv

/-- The program is not compiled, whatever the fuel. -/
theorem callingLast_not_loweredClosed : ¬ ∃ fuel, callingLast.LoweredClosed fuel := by
  rintro ⟨fuel, h⟩
  have hpasses : callingLast.Passes "Main" := h.passes (i := calling) rfl
  revert hpasses
  unfold Passes
  decide

end SourceProject

end Ahorn
