import Ahorn.BuiltTrees
import Ahorn.ProjectModules

set_option autoImplicit false

/-!
# The tree of a compiled project

A unit calls instances of its own interface only, so the graph of a unit stands above the graphs of
the units that its interface refers to.
-/
namespace Ahorn

namespace PouCompiler

variable {modules modules' : String → Option CalleeModule}

/-- The two agree on the units of the instances. -/
def SameUnits (modules modules' : String → Option CalleeModule) (callees : List Variable) : Prop :=
  ∀ v ∈ callees, ∀ t, v.dataType = .derivedType t → modules t = modules' t

theorem SameUnits.left {vs ws : List Variable} (h : SameUnits modules modules' (vs ++ ws)) :
    SameUnits modules modules' vs := fun v hv => h v (List.mem_append_left _ hv)

theorem SameUnits.right {vs ws : List Variable} (h : SameUnits modules modules' (vs ++ ws)) :
    SameUnits modules modules' ws := fun v hv => h v (List.mem_append_right _ hv)

theorem visitInvocationStatement_congr {callee : Variable} {pre post : List Parameter}
    (h : SameUnits modules modules' [callee]) (st : PouCompiler) :
    visitInvocationStatement modules callee pre post st =
      visitInvocationStatement modules' callee pre post st := by
  unfold visitInvocationStatement
  cases ht : callee.dataType with
  | derivedType t =>
    dsimp only
    rw [h callee List.mem_cons_self t ht]
  | _ => rfl

mutual

theorem visit_congr : (s : Statement) → SameUnits modules modules' s.callees →
    visit modules s = visit modules' s
  | .assertStatement _, _ => rfl
  | .assumeStatement _, _ => rfl
  | .assignmentStatement _ _, _ => rfl
  | .ifStatement _ thn elseIfs els, h => by
    funext st
    unfold visit
    rw [visitPart_congr thn h.left.left, visitElseIfs_congr els.isEmpty elseIfs h.left.right,
      visitPart_congr els h.right]
  | .invocationStatement callee pre post, h => by
    funext st
    unfold visit
    exact visitInvocationStatement_congr h st
  | .whileStatement _ body, h => by
    funext st
    unfold visit
    rw [visitPart_congr body h]
  | .caseStatement .nil _, _ => rfl
  | .caseStatement (.cons _ thn elseIfs) els, h => by
    funext st
    unfold visit
    rw [visitPart_congr thn h.left.left, visitElseIfs_congr els.isEmpty elseIfs h.left.right,
      visitPart_congr els h.right]

theorem visitPart_congr : (s : StatementList) → SameUnits modules modules' s.callees →
    visitPart modules s = visitPart modules' s
  | .nil, _ => rfl
  | .cons s .nil, h => by
    funext st
    unfold visitPart
    rw [visit_congr s h.left]
  | .cons s (.cons s' rest), h => by
    funext st
    unfold visitPart
    rw [visit_congr s h.left, visitPart_congr (.cons s' rest) h.right]

theorem visitElseIfs_congr (elseEmpty : Bool) : (elseIfs : ElseIfStatements) →
    SameUnits modules modules' elseIfs.callees →
      visitElseIfs modules elseEmpty elseIfs = visitElseIfs modules' elseEmpty elseIfs
  | .nil, _ => rfl
  | .cons _ part rest, h => by
    funext st
    unfold visitElseIfs
    rw [visitPart_congr part h.left, visitElseIfs_congr elseEmpty rest h.right]

end

theorem visitBody_congr (body : StatementList) (h : SameUnits modules modules' body.callees)
    (st : PouCompiler) : visitBody modules body st = visitBody modules' body st := by
  match body with
  | .nil => rfl
  | .cons s rest =>
    unfold visitBody
    rw [visit_congr s h.left]
    cases visit modules' s st with
    | error e => rfl
    | ok st₁ => exact visitBody_congr rest h.right st₁

theorem compile_congr {body : StatementList} (h : SameUnits modules modules' body.callees)
    (st : PouCompiler) : compile modules body st = compile modules' body st := by
  unfold compile
  rw [visitBody_congr body h]

end PouCompiler

namespace SourceProject

variable {p : SourceProject} {c c' : Compilation}

/-- The modules compiled so far call instances of their interfaces only. -/
def CallsDeclared (p : SourceProject) (c : Compilation) : Prop :=
  ∀ name M, c.nameToModule.find? name = some M → ∃ i, p.nameToPou.find? name = some i ∧
    ∀ l v intra inter, M.labelToInstruction.find? l = some (.callInstruction v intra inter) →
      ∃ t, v.dataType = .derivedType t ∧ t ∈ i.referenced

theorem CallsDeclared.compile {name : String} {i : Interface} (hc : p.CallsDeclared c)
    (hp : p.Part c) (hi : p.nameToPou.find? name = some i) {M : Module} {compiler : PouCompiler}
    (hok : PouCompiler.compile (p.calleeModules c) (p.bodyOf name) c.compiler =
      .ok (M, compiler)) : p.CallsDeclared ⟨compiler, c.nameToModule.emplace name M⟩ := by
  intro name' M' hM'
  rcases find?_emplace_cases hM' with h | ⟨-, rfl, rfl⟩
  · exact hc name' M' h
  · refine ⟨i, hi, ?_⟩
    intro l v intra inter hl
    have hsame : PouCompiler.SameUnits (p.calleeModules c)
        (fun t => if t ∈ i.referenced then p.calleeModules c t else none)
        (p.bodyOf name').callees := by
      intro w hw t ht
      dsimp only
      rw [if_pos (Interface.mem_referenced.mpr ⟨w, p.declared hi w hw, ht⟩)]
    rw [PouCompiler.compile_congr hsame] at hok
    obtain ⟨t, C, ht, hC, -⟩ := hp.between.compile_enters hok hl
    refine ⟨t, ht, ?_⟩
    by_contra hmem
    dsimp only at hC
    rw [if_neg hmem] at hC
    cases hC

/-- A step that compiles only units that call instances of their interfaces. -/
def KeepsCalls (p : SourceProject) (f : Compilation → String → Except String Compilation)
    (name : String) : Prop :=
  ∀ {c c'}, p.Part c → p.CallsDeclared c → f c name = .ok c' → p.Part c' ∧ p.CallsDeclared c'

theorem KeepsCalls.foldlM {f : Compilation → String → Except String Compilation}
    {names : List String} (hf : ∀ name ∈ names, p.KeepsCalls f name) (hp : p.Part c)
    (hc : p.CallsDeclared c) (hok : names.foldlM f c = .ok c') :
    p.Part c' ∧ p.CallsDeclared c' := by
  induction names generalizing c with
  | nil =>
    cases hok
    exact ⟨hp, hc⟩
  | cons name names ih =>
    rw [List.foldlM_cons] at hok
    obtain ⟨c₁, hname, hok⟩ := bind_eq_ok hok
    obtain ⟨hp₁, hc₁⟩ := hf name List.mem_cons_self hp hc hname
    exact ih (fun n hn => hf n (List.mem_cons_of_mem _ hn)) hp₁ hc₁ hok

theorem keepsCalls_compilePou (fuel : ℕ) (name : String) :
    p.KeepsCalls (p.compilePou fuel) name := by
  induction fuel generalizing name with
  | zero =>
    intro c c' hp hc hok
    cases hok
  | succ fuel ih =>
    intro c c' hp hc hok
    have hp' := (compiles_compilePou (fuel + 1) name hp hok).1
    unfold compilePou at hok
    cases hM : c.nameToModule.find? name with
    | some M =>
      rw [hM] at hok
      cases hok
      exact ⟨hp, hc⟩
    | none =>
      cases hi : p.nameToPou.find? name with
      | none =>
        rw [hM, hi] at hok
        cases hok
      | some i =>
        simp only [hM, hi] at hok
        obtain ⟨c₁, hfold, hok⟩ := bind_eq_ok hok
        obtain ⟨⟨M, compiler⟩, hcompile, hok⟩ := bind_eq_ok hok
        cases hok
        obtain ⟨hp₁, hc₁⟩ := KeepsCalls.foldlM (fun t _ => ih t) hp hc hfold
        exact ⟨hp', hc₁.compile hp₁ hi hcompile⟩

def calleeNames (i : Interface) : List String :=
  (i.referenced.foldl (fun m t => m.emplace t ()) (OrderedMap.empty : OrderedMap String Unit)).keys

/-- The graph of a unit above those of its callees. -/
def callTree (p : SourceProject) (c : Compilation) : ℕ → String → Except String (CallTree Cfg)
  | 0, _ => .error "out of fuel"
  | fuel + 1, name =>
    match p.nameToPou.find? name, c.nameToModule.find? name with
    | some i, some M => do
      let callees ← (calleeNames i).mapM (callTree p c fuel)
      let cfg ← Builder.build c.exitLabels name M
      .ok (.node name cfg (.ofList callees))
    | _, _ => .error "No module for given name exists."

theorem mem_calleeNames {i : Interface} {t : String} : t ∈ calleeNames i ↔ t ∈ i.referenced := by
  have hfold : ∀ (names : List String) (m : OrderedMap String Unit),
      (∃ v, (names.foldl (fun m t => m.emplace t ()) m).find? t = some v) ↔
        t ∈ names ∨ ∃ v, m.find? t = some v := by
    intro names
    induction names with
    | nil => simp
    | cons n names ih =>
      intro m
      rw [List.foldl_cons, ih, OrderedMap.find?_emplace, List.mem_cons]
      by_cases hn : t = n
      · cases hm : m.find? n <;> simp [hn, hm]
      · simp [hn]
  have hkeys : t ∈ calleeNames i ↔ ∃ v, (i.referenced.foldl (fun m t => m.emplace t ())
      (OrderedMap.empty : OrderedMap String Unit)).find? t = some v := by
    unfold calleeNames OrderedMap.keys
    simp only [OrderedMap.find?_eq_some_iff, List.mem_map, Prod.exists, exists_and_right,
      exists_eq_right]
  rw [hkeys, hfold]
  simp [OrderedMap.find?_empty]

theorem callTree_root {fuel : ℕ} {name : String} {t : CallTree Cfg}
    (hok : p.callTree c fuel name = .ok t) : ∃ M, c.nameToModule.find? name = some M ∧
      Builder.build c.exitLabels name M = .ok t.root := by
  cases fuel with
  | zero => cases hok
  | succ fuel =>
    unfold callTree at hok
    split at hok
    · rename_i i M hi hM
      obtain ⟨callees, -, hok⟩ := bind_eq_ok hok
      obtain ⟨cfg, hcfg, hok⟩ := bind_eq_ok hok
      cases hok
      exact ⟨M, hM, hcfg⟩
    · cases hok

/-- The tree of a compiled project is built of closed modules. -/
theorem callTree_built (hp : p.Part c) (hc : p.CallsDeclared c) (fuel : ℕ) {name : String}
    {t : CallTree Cfg} (hok : p.callTree c fuel name = .ok t) : t.Built := by
  induction fuel generalizing name t with
  | zero => cases hok
  | succ fuel ih =>
    unfold callTree at hok
    split at hok
    · rename_i i M hi hM
      obtain ⟨callees, hcallees, hok⟩ := bind_eq_ok hok
      obtain ⟨cfg, hcfg, hok⟩ := bind_eq_ok hok
      cases hok
      have hforall := forall₂_of_mapM hcallees
      have hbuild : ∀ {n N g}, c.nameToModule.find? n = some N →
          Builder.build c.exitLabels n N = .ok g → g.BuiltFrom N c.exitLabels n := by
        intro n N g hN hg
        obtain ⟨g', hg', hbuilt⟩ := N.build_ok n fun hi => hp.callsKnown hN hi
        rw [hg] at hg'
        cases hg'
        exact hbuilt
      have hunit : CallUnit.BuiltFrom ⟨name, cfg, (CallForest.ofList callees).roots⟩ M
          c.exitLabels := by
        refine ⟨hp.closed hM, hbuild hM hcfg, ?_, ?_⟩
        · intro l v intra inter hl
          obtain ⟨i', hi', hcalls⟩ := hc name M hM
          obtain ⟨n, hn, href⟩ := hcalls l v intra inter hl
          obtain rfl := Option.some.inj (hi.symm.trans hi')
          obtain ⟨n', C, hn', hC, hinter⟩ := hp.enters hM hl
          obtain rfl : n = n' := DataType.derivedType.inj (hn.symm.trans hn')
          obtain ⟨_, N, -, hN, rfl⟩ := calleeModules_eq_some.mp hC
          obtain ⟨callee, hcallee, htree⟩ :=
            exists_of_forall₂ hforall (mem_calleeNames.mpr href)
          obtain ⟨N', hN', hroot⟩ := callTree_root htree
          obtain rfl := Option.some.inj (hN.symm.trans hN')
          have hbuilt := hbuild hN hroot
          refine ⟨callee.root, ?_, hbuilt.entry.trans hinter.symm, ?_⟩
          · rw [CallForest.roots_ofList]
            exact List.mem_map_of_mem hcallee
          · unfold Builder.exitLabelOf Compilation.exitLabels
            simp only [hn, hN, Option.map_some, hbuilt.exit]
        · intro callee hcallee
          rw [CallForest.roots_ofList] at hcallee
          obtain ⟨tree, htree, rfl⟩ := List.mem_map.mp hcallee
          obtain ⟨n, hn, hok⟩ := exists_of_forall₂ hforall.flip htree
          obtain ⟨N, hN, hroot⟩ := callTree_root hok
          have hbuilt := hbuild hN hroot
          have hlt := (hp.closed hN).entry_lt_exit
          rw [hbuilt.entry, hbuilt.exit]
          have hne : name ≠ n := by
            rintro rfl
            obtain ⟨rank, hrank⟩ := p.acyclic
            have := (hrank hi name (Interface.mem_referenced.mp (mem_calleeNames.mp hn))).1
            omega
          exact ⟨hlt, (hp.disjoint hM hN hne).symm⟩
      intro u hu
      rcases List.mem_append.mp hu with hu | hu
      · rw [CallForest.units_ofList] at hu
        obtain ⟨tree, htree, hu⟩ := List.mem_flatMap.mp hu
        obtain ⟨n, -, hok⟩ := exists_of_forall₂ hforall.flip htree
        exact ih hok u hu
      · rw [List.mem_singleton.mp hu]
        exact ⟨M, c.exitLabels, hunit⟩
    · cases hok

theorem compileModules_built {fuel : ℕ} (hok : p.compileModules fuel = .ok c) {fuel' : ℕ}
    {name : String} {t : CallTree Cfg} (htree : p.callTree c fuel' name = .ok t) : t.Built := by
  have hempty : p.CallsDeclared ⟨.initial, .empty⟩ := fun _ _ h => by cases h
  obtain ⟨hp, hc⟩ := KeepsCalls.foldlM (fun n _ => keepsCalls_compilePou fuel n)
    part_initial hempty hok
  exact callTree_built hp hc fuel' htree

end SourceProject

end Ahorn
