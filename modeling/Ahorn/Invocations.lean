import Mathlib.Data.List.Dedup
import Ahorn.LoweringClosed
import Ahorn.LoweringCompile

set_option autoImplicit false

/-!
# The code of an invocation

A call is completed: every input of the callee is assigned before it and every output behind it. The
assignments that are not written in the program assign a variable to itself. Control passes through
the assignments and the call in order; the last of them leaves the invocation.
-/
namespace Ahorn

abbrev Parameter := VariableReference × Expression

/-- The input a parameter is for. The parameters of a call are expressions. -/
def inputName : Parameter → Option String
  | (.fieldAccess _ (.variableAccess _), .nondeterministicConstant _) => none
  | (.fieldAccess _ (.variableAccess v), _) => some v.name
  | _ => none

def outputName (callee : Variable) : Parameter → Option String
  | (.variableAccess _, .reference (.fieldAccess record (.variableAccess v))) =>
    if record.name = callee.name then some v.name else none
  | _ => none

/-- The parameters are for distinct variables among the given ones. -/
def fit (name : Parameter → Option String) (vs : List Variable) (ps : List Parameter) : Bool :=
  match ps.mapM name with
  | some names => decide names.Nodup && names.all (· ∈ vs.map (·.name))
  | none => false

def identityAssignment (callee v : Variable) : Parameter :=
  (.fieldAccess callee (.variableAccess v), .reference (.fieldAccess callee (.variableAccess v)))

/-- What the parameters of a call have to fit. -/
structure Signature where
  inputVariables : List Variable
  outputVariables : List Variable

def signatureOf (signatures : String → Option Signature) (callee : Variable) : Option Signature :=
  match callee.dataType with
  | .derivedType typeName => signatures typeName
  | _ => none

/-- An invocation whose parameters fit the interface of the callee. -/
def invocationFits (signatures : String → Option Signature) (callee : Variable)
    (pre post : List Parameter) : Bool :=
  match signatureOf signatures callee with
  | some S =>
    fit inputName S.inputVariables pre &&
      (S.outputVariables.isEmpty || fit (outputName callee) S.outputVariables post)
  | none => false

/-- The explicit parameters followed by identity assignments of the other variables: each variable
is assigned once. -/
def Completes (name : Parameter → Option String) (callee : Variable) (vs : List Variable)
    (explicit all : List Parameter) : Prop :=
  ∃ (names : List String) (rest : List Variable), explicit.mapM name = some names ∧
    all = explicit ++ rest.map (identityAssignment callee) ∧ (∀ v ∈ rest, v ∈ vs) ∧
    (names ++ rest.map (·.name)).Nodup ∧
    ∀ x, x ∈ names ++ rest.map (·.name) ↔ x ∈ vs.map (·.name)

/-- Assignments from the label `l` on, each left to the next one and the last one to `k`. -/
def parameterCode (type : AssignmentType) (l k : ℤ) : List Parameter → List Instruction
  | [] => []
  | (r, e) :: rest =>
    .assignmentInstruction type r e :: .gotoInstruction (if rest.isEmpty then k else l + 2) ::
      parameterCode type (l + 2) k rest

/-- The inputs, the call and the outputs, entered at `l` and left to `k`. -/
def invocationCode (callee : Variable) (entryLabel : ℤ) (inputs outputs : List Parameter)
    (l k : ℤ) : List Instruction :=
  parameterCode .parameterIn l (l + 2 * inputs.length) inputs ++
    .callInstruction callee (if outputs.isEmpty then k else l + 2 * inputs.length + 1) entryLabel ::
      parameterCode .parameterOut (l + 2 * inputs.length + 1) k outputs

theorem length_parameterCode (type : AssignmentType) (l k : ℤ) (ps : List Parameter) :
    (parameterCode type l k ps).length = 2 * ps.length := by
  induction ps generalizing l with
  | nil => rfl
  | cons p ps ih =>
    simp only [parameterCode, List.length_cons, ih]
    omega

theorem length_invocationCode (callee : Variable) (entryLabel : ℤ) (inputs outputs : List Parameter)
    (l k : ℤ) : (invocationCode callee entryLabel inputs outputs l k).length =
      2 * inputs.length + 1 + 2 * outputs.length := by
  simp only [invocationCode, List.length_append, List.length_cons, length_parameterCode]
  omega

theorem parameterCode_append (type : AssignmentType) (l k : ℤ) (ps qs : List Parameter) :
    parameterCode type l k (ps ++ qs) =
      parameterCode type l (if qs.isEmpty then k else l + 2 * ps.length) ps ++
        parameterCode type (l + 2 * ps.length) k qs := by
  induction ps generalizing l with
  | nil => simp [parameterCode]
  | cons p ps ih =>
    have hlabel : l + 2 * ((p :: ps).length : ℤ) = l + 2 + 2 * (ps.length : ℤ) := by
      simp only [List.length_cons]
      omega
    simp only [List.cons_append, parameterCode, ih, hlabel]
    congr 2
    cases ps with
    | nil => cases qs <;> simp
    | cons q ps => rfl

theorem rename_parameterCode {ρ : ℤ → ℤ} (hρ : ∀ t, 0 ≤ t → ρ t = t) (type : AssignmentType)
    {l : ℤ} (hl : 0 ≤ l) (k : ℤ) (ps : List Parameter) :
    (parameterCode type l k ps).map (Instruction.rename ρ) = parameterCode type l (ρ k) ps := by
  induction ps generalizing l with
  | nil => rfl
  | cons p ps ih =>
    simp only [parameterCode, List.map_cons, ih (by omega : 0 ≤ l + 2), Instruction.rename]
    congr 3
    split_ifs
    · rfl
    · exact hρ _ (by omega)

theorem rename_invocationCode {ρ : ℤ → ℤ} (hρ : ∀ t, 0 ≤ t → ρ t = t) (callee : Variable)
    (entryLabel : ℤ) (inputs outputs : List Parameter) {l : ℤ} (hl : 0 ≤ l) (k : ℤ) :
    (invocationCode callee entryLabel inputs outputs l k).map (Instruction.rename ρ) =
      invocationCode callee entryLabel inputs outputs l (ρ k) := by
  simp only [invocationCode, List.map_append, List.map_cons, rename_parameterCode hρ _ hl,
    rename_parameterCode hρ _ (by omega : 0 ≤ l + 2 * (inputs.length : ℤ) + 1),
    Instruction.rename, hρ _ (by omega : 0 ≤ l + 2 * (inputs.length : ℤ))]
  congr 3
  split_ifs
  · rfl
  · exact hρ _ (by omega)

namespace PouCompiler

/-- The instructions are placed one behind the other from the next label on. -/
structure Writes (st st' : PouCompiler) (code : List Instruction) : Prop where
  label : st'.label = st.label + code.length
  placeholder : st'.nextLabelPlaceholder = st.nextLabelPlaceholder
  placeholders : st'.nextLabelPlaceholders = st.nextLabelPlaceholders
  at? : ∀ l, st'.at? l =
    if st.label ≤ l ∧ l < st'.label then code[(l - st.label).toNat]? else st.at? l

/-- No instruction stands at a label that has not been handed out. -/
def Fresh (st : PouCompiler) : Prop := ∀ l, st.label ≤ l → st.at? l = none

variable {st st₁ st₂ : PouCompiler} {code code₁ code₂ : List Instruction}

namespace Writes

theorem refl (st : PouCompiler) : Writes st st [] where
  label := by simp
  placeholder := rfl
  placeholders := rfl
  at? := by
    intro l
    rw [if_neg]
    omega

theorem trans (h₁ : Writes st st₁ code₁) (h₂ : Writes st₁ st₂ code₂) :
    Writes st st₂ (code₁ ++ code₂) := by
  have hl₁ := h₁.label
  have hl₂ := h₂.label
  refine ⟨?_, h₂.placeholder.trans h₁.placeholder, h₂.placeholders.trans h₁.placeholders, ?_⟩
  · rw [hl₂, hl₁, List.length_append]
    omega
  · intro l
    rw [h₂.at?, h₁.at?]
    by_cases hlow : l < st₁.label
    · rw [if_neg (by omega)]
      by_cases hge : st.label ≤ l
      · rw [if_pos ⟨hge, hlow⟩, if_pos (by omega), List.getElem?_append_left (by omega)]
      · rw [if_neg (by omega), if_neg (by omega)]
    · rw [if_neg (by omega : ¬ (st.label ≤ l ∧ l < st₁.label))]
      by_cases hlt : l < st₂.label
      · rw [if_pos (by omega), if_pos (by omega), List.getElem?_append_right (by omega)]
        congr 1
        omega
      · rw [if_neg (by omega), if_neg (by omega)]

theorem fresh (h : Writes st st₁ code) (hf : st.Fresh) : st₁.Fresh := by
  intro l hl
  have := h.label
  rw [h.at?, if_neg (by omega)]
  exact hf l (by omega)

end Writes

def target (st : PouCompiler) : ℤ :=
  if st.lastStatement then st.nextLabelPlaceholders.headD 0 else st.label + 2

/-- An assignment and the goto behind it. -/
theorem visitAssignmentStatement_writes (hf : st.Fresh)
    (hps : st.lastStatement = true → st.nextLabelPlaceholders ≠ []) (r : VariableReference)
    (e : Expression) : ∃ st', st.visitAssignmentStatement r e = .ok st' ∧
      Writes st st' [compileAssignment r e, .gotoInstruction st.target] ∧
      st'.lastStatement = st.lastStatement := by
  have hemit : ∀ (st : PouCompiler) (i : Instruction), st.Fresh → Writes st (st.emit i) [i] := by
    intro st i hf
    refine ⟨rfl, rfl, rfl, ?_⟩
    intro l
    change (st.emplace st.label i).at? l = if st.label ≤ l ∧ l < st.label + 1 then _ else _
    by_cases hl : l = st.label
    · rw [hl, at?_emplace_self (hf _ le_rfl), if_pos (by omega), sub_self]
      rfl
    · rw [at?_emplace_ne hl, if_neg (by omega)]
  have h₁ := hemit st (compileAssignment r e) hf
  have h₂ := h₁.trans (hemit _ (.gotoInstruction st.target) (h₁.fresh hf))
  refine ⟨_, ?_, h₂, rfl⟩
  unfold visitAssignmentStatement
  have hlast : (st.emit (compileAssignment r e)).lastStatement = st.lastStatement := rfl
  dsimp only
  rw [hlast]
  cases hl : st.lastStatement with
  | false =>
    unfold target
    rw [hl, if_neg (by simp), if_neg (by simp)]
    congr 3
    simp only [emit, emplace]
    omega
  | true =>
    cases hst : st.nextLabelPlaceholders with
    | nil => exact absurd hst (hps hl)
    | cons p ps =>
      have htop : (st.emit (compileAssignment r e)).top = .ok p := by
        unfold top
        rw [show (st.emit (compileAssignment r e)).nextLabelPlaceholders = p :: ps from hst]
      unfold target
      rw [htop, hl, hst]
      rfl

theorem compileAssignment_eq {r : VariableReference} {e : Expression}
    (he : ∀ d, e ≠ .nondeterministicConstant d) :
    compileAssignment r e = .assignmentInstruction .regular r e := by
  cases e <;> first | rfl | exact absurd rfl (he _)

theorem visitParameter_writes (hf : st.Fresh)
    (hps : st.lastStatement = true → st.nextLabelPlaceholders ≠ []) (type : AssignmentType)
    {r : VariableReference} {e : Expression} (he : ∀ d, e ≠ .nondeterministicConstant d) :
    ∃ st', st.visitParameter type r e = .ok st' ∧
      Writes st st' (parameterCode type st.label st.target [(r, e)]) ∧
      st'.lastStatement = st.lastStatement := by
  obtain ⟨st₁, hok, h₁, hlast⟩ := visitAssignmentStatement_writes hf hps r e
  rw [compileAssignment_eq he] at h₁
  have hlabel : st₁.label = st.label + 2 := h₁.label
  have hfind : st₁.labelToInstruction.find? st.label =
      some (.assignmentInstruction .regular r e) := by
    change st₁.at? st.label = _
    rw [h₁.at?, if_pos (by omega), sub_self]
    rfl
  refine ⟨{ st₁ with
    labelToInstruction := st₁.labelToInstruction.assign st.label (.assignmentInstruction type r e) },
    ?_, ⟨hlabel, h₁.placeholder, h₁.placeholders, ?_⟩, hlast⟩
  · unfold visitParameter
    rw [hok]
    dsimp only [bind, Except.bind]
    rw [hfind]
  · intro l
    change OrderedMap.find? (st₁.labelToInstruction.assign _ _) l = if _ ∧ l < st₁.label then _ else _
    rw [OrderedMap.find?_assign]
    by_cases hl : l = st.label
    · rw [hl, if_pos rfl, if_pos (by omega), sub_self]
      rfl
    · rw [if_neg hl]
      change st₁.at? l = _
      rw [h₁.at?]
      by_cases hl' : l = st.label + 1
      · rw [if_pos (by omega), if_pos (by omega), hl', add_sub_cancel_left]
        rfl
      · rw [if_neg (by omega), if_neg (by omega)]

theorem visitParameter_nondeterministic (hf : st.Fresh) (type : AssignmentType)
    (r : VariableReference) (d : DataType) :
    ∃ e, st.visitParameter type r (.nondeterministicConstant d) = .error e := by
  unfold visitParameter
  cases hok : st.visitAssignmentStatement r (.nondeterministicConstant d) with
  | error e => exact ⟨e, rfl⟩
  | ok st₁ =>
    have hfind : st₁.labelToInstruction.find? st.label = some (.havocInstruction r) := by
      have hself : (st.emit (.havocInstruction r)).at? st.label = some (.havocInstruction r) :=
        at?_emplace_self (hf _ le_rfl)
      have hemit : ∀ g, ((st.emit (.havocInstruction r)).emit g).at? st.label =
          some (.havocInstruction r) := by
        intro g
        rw [← hself]
        exact at?_emplace_ne (by simp only [emit, emplace]; omega)
      unfold visitAssignmentStatement at hok
      dsimp only at hok
      split at hok
      · obtain ⟨p, -, hok⟩ := bind_eq_ok hok
        cases hok
        exact hemit _
      · cases hok
        exact hemit _
    refine ⟨"compiled assignment expected", ?_⟩
    dsimp only [bind, Except.bind]
    rw [hfind]

/-- The variables that are left when those of the parameters are taken away. -/
def remaining (name : Parameter → Option String) (names : OrderedMap String Variable) :
    List Parameter → Option (OrderedMap String Variable)
  | [] => some names
  | p :: ps =>
    match name p with
    | none => none
    | some x => if names.find? x = none then none else remaining name (names.erase x) ps

theorem remaining_eq_some_iff {name : Parameter → Option String} {ps : List Parameter}
    {names left : OrderedMap String Variable} :
    remaining name names ps = some left ↔ ∃ xs, ps.mapM name = some xs ∧ xs.Nodup ∧
      (∀ x ∈ xs, names.find? x ≠ none) ∧
      ∀ x, left.find? x = if x ∈ xs then none else names.find? x := by
  induction ps generalizing names with
  | nil =>
    simp only [remaining, List.mapM_nil]
    constructor
    · intro h
      cases h
      exact ⟨[], rfl, List.nodup_nil, by simp, by simp⟩
    · rintro ⟨xs, hxs, -, -, hleft⟩
      cases hxs
      rw [@OrderedMap.ext_find? _ _ _ left names (by simpa using hleft)]
  | cons p ps ih =>
    rw [List.mapM_cons]
    unfold remaining
    cases hp : name p with
    | none => simp
    | some x =>
      have herase : ∀ y, (names.erase x).find? y = if y = x then none else names.find? y :=
        fun y => OrderedMap.find?_erase names x y
      by_cases hx : names.find? x = none
      · simp only [hx, if_true]
        constructor
        · intro h
          cases h
        · rintro ⟨xs, hxs, -, hmem, -⟩
          simp only [Option.bind_eq_bind, Option.bind_some] at hxs
          obtain ⟨ys, -, hys⟩ := Option.bind_eq_some_iff.mp hxs
          cases hys
          exact absurd hx (hmem x List.mem_cons_self)
      · simp only [hx, if_false]
        rw [ih]
        constructor
        · rintro ⟨ys, hys, hnodup, hmem, hleft⟩
          have hxys : x ∉ ys := by
            intro hin
            have := hmem x hin
            rw [herase, if_pos rfl] at this
            exact this rfl
          refine ⟨x :: ys, by simp [hys], List.nodup_cons.mpr ⟨hxys, hnodup⟩, ?_, ?_⟩
          · intro y hy
            rcases List.mem_cons.mp hy with rfl | hy
            · exact hx
            · intro hnone
              apply hmem y hy
              rw [herase]
              split_ifs
              · rfl
              · exact hnone
          · intro y
            rw [hleft, herase]
            by_cases hyx : y = x
            · simp [hyx]
            · simp [hyx]
        · rintro ⟨xs, hxs, hnodup, hmem, hleft⟩
          simp only [Option.bind_eq_bind, Option.bind_some] at hxs
          obtain ⟨ys, hys, hxs⟩ := Option.bind_eq_some_iff.mp hxs
          cases hxs
          obtain ⟨hxys, hnodup⟩ := List.nodup_cons.mp hnodup
          refine ⟨ys, hys, hnodup, ?_, ?_⟩
          · intro y hy
            rw [herase, if_neg]
            · exact hmem y (List.mem_cons_of_mem _ hy)
            · rintro rfl
              exact hxys hy
          · intro y
            rw [hleft, herase]
            by_cases hyx : y = x
            · simp [hyx]
            · simp [hyx]

/-- Where `n` assignments are left to: the last of them is the last statement of a part if `last` is
set. -/
def exitTarget (last : Bool) (n : ℕ) (st : PouCompiler) : ℤ :=
  if last then st.nextLabelPlaceholders.headD 0 else st.label + 2 * n

theorem name_inputName {p : Parameter} {x : String} (h : inputName p = some x) :
    ∃ v callee e, p = (.fieldAccess callee (.variableAccess v), e) ∧ v.name = x ∧
      ∀ d, e ≠ .nondeterministicConstant d := by
  obtain ⟨r, e⟩ := p
  unfold inputName at h
  split at h
  · cases h
  · rename_i hne heq
    cases heq
    refine ⟨_, _, _, rfl, Option.some.inj h, ?_⟩
    rintro d rfl
    exact hne _ rfl
  · cases h

theorem visitPreAssignments_ok {pre : List Parameter} {names left : OrderedMap String Variable}
    (hf : st.Fresh) (hl : st.lastStatement = false)
    (hleft : remaining inputName names pre = some left) :
    ∃ st', st.visitPreAssignments names pre = .ok (st', left) ∧
      Writes st st' (parameterCode .parameterIn st.label (st.label + 2 * pre.length) pre) ∧
      st'.lastStatement = false := by
  induction pre generalizing st names with
  | nil =>
    cases hleft
    exact ⟨st, rfl, .refl st, hl⟩
  | cons p pre ih =>
    unfold remaining at hleft
    split at hleft
    · cases hleft
    rename_i x hname
    obtain ⟨v, record, e, rfl, rfl, he⟩ := name_inputName hname
    split at hleft
    · cases hleft
    rename_i hfind
    obtain ⟨st₁, hok₁, h₁, hl₁⟩ := visitParameter_writes hf (by simp [hl]) .parameterIn
      (r := .fieldAccess record (.variableAccess v)) he
    obtain ⟨st₂, hok₂, h₂, hl₂⟩ := ih (h₁.fresh hf) (hl₁.trans hl) hleft
    refine ⟨st₂, ?_, ?_, hl₂⟩
    · unfold visitPreAssignments
      dsimp only
      rw [if_neg hfind, hok₁]
      exact hok₂
    · have htarget : st.target = st.label + 2 := by
        unfold target
        rw [hl]
        rfl
      have hlabel : st₁.label = st.label + 2 := h₁.label
      have hcode := h₁.trans h₂
      rw [htarget, hlabel] at hcode
      have happend := parameterCode_append .parameterIn st.label
        (st.label + 2 * (((VariableReference.fieldAccess record (.variableAccess v), e) ::
          pre).length : ℤ)) [(.fieldAccess record (.variableAccess v), e)] pre
      rw [List.singleton_append] at happend
      rw [happend]
      have hend : st.label + 2 * (((VariableReference.fieldAccess record (.variableAccess v), e) ::
          pre).length : ℤ) = st.label + 2 + 2 * (pre.length : ℤ) := by
        simp only [List.length_cons]
        omega
      rw [hend]
      cases pre with
      | nil => simpa using hcode
      | cons q pre => exact hcode

theorem visitPreAssignments_error {pre : List Parameter} {names : OrderedMap String Variable}
    (hf : st.Fresh) (hl : st.lastStatement = false) (hleft : remaining inputName names pre = none) :
    ∃ e, st.visitPreAssignments names pre = .error e := by
  induction pre generalizing st names with
  | nil => cases hleft
  | cons p pre ih =>
    obtain ⟨r, e⟩ := p
    unfold visitPreAssignments
    split
    · rename_i record v
      split_ifs with hfind
      · exact ⟨_, rfl⟩
      cases hname : inputName (.fieldAccess record (.variableAccess v), e) with
      | none =>
        have he : ∃ d, e = .nondeterministicConstant d := by
          cases e <;> simp [inputName] at hname
          exact ⟨_, rfl⟩
        obtain ⟨d, rfl⟩ := he
        obtain ⟨msg, hmsg⟩ := visitParameter_nondeterministic hf .parameterIn
          (.fieldAccess record (.variableAccess v)) d
        rw [hmsg]
        exact ⟨msg, rfl⟩
      | some x =>
        obtain ⟨v', record', e', heq, rfl, he⟩ := name_inputName hname
        cases heq
        obtain ⟨st₁, hok₁, h₁, hl₁⟩ := visitParameter_writes hf (by simp [hl]) .parameterIn
          (r := .fieldAccess record (.variableAccess v)) he
        unfold remaining at hleft
        simp only [hname, if_neg hfind] at hleft
        rw [hok₁]
        exact ih (h₁.fresh hf) (hl₁.trans hl) hleft
    · exact ⟨_, rfl⟩

theorem visitParameter_last (hf : st.Fresh) (hl : st.lastStatement = false) {last b : Bool}
    (hps : last = true → st.nextLabelPlaceholders ≠ []) (type : AssignmentType)
    {r : VariableReference} {e : Expression} (he : ∀ d, e ≠ .nondeterministicConstant d) :
    ∃ st', (if b then st.setLastStatement last else st).visitParameter type r e = .ok st' ∧
      Writes st st'
        (parameterCode type st.label (if b then st.exitTarget last 1 else st.label + 2) [(r, e)]) ∧
      st'.lastStatement = (b && last) := by
  cases b with
  | false =>
    obtain ⟨st', hok, hwrites, hlast⟩ := visitParameter_writes hf (by simp [hl]) type (r := r) he
    refine ⟨st', hok, ?_, hlast.trans hl⟩
    have htarget : st.target = st.label + 2 := by
      unfold target
      rw [hl]
      rfl
    rw [htarget] at hwrites
    exact hwrites
  | true =>
    obtain ⟨st', hok, hwrites, hlast⟩ := @visitParameter_writes (st.setLastStatement last) hf
      hps type r e he
    refine ⟨st', hok, ?_, hlast⟩
    have htarget : (st.setLastStatement last).target = st.exitTarget last 1 := by
      unfold target exitTarget
      rfl
    rw [htarget] at hwrites
    exact ⟨hwrites.label, hwrites.placeholder, hwrites.placeholders, hwrites.at?⟩

/-- The assignments that complete the interface. -/
theorem completeInterface_writes {type : AssignmentType} {callee : Variable} {last : Bool}
    {vs : List Variable} (hf : st.Fresh) (hl : st.lastStatement = false ∨ vs = [])
    (hps : last = true → st.nextLabelPlaceholders ≠ []) :
    ∃ st', st.completeInterface type callee last vs = .ok st' ∧
      Writes st st' (parameterCode type st.label (st.exitTarget last vs.length)
        (vs.map (identityAssignment callee))) ∧
      st'.lastStatement = if vs.isEmpty then st.lastStatement else last := by
  induction vs generalizing st with
  | nil => exact ⟨st, rfl, .refl st, rfl⟩
  | cons v vs ih =>
    have hl := hl.resolve_right (List.cons_ne_nil v vs)
    have hset : (if vs.isEmpty then (if last then st.setLastStatement true else st) else st) =
        if (vs.isEmpty && last) = true then st.setLastStatement last else st := by
      cases vs.isEmpty <;> cases last <;> rfl
    obtain ⟨st₁, hok₁, h₁, hl₁⟩ := visitParameter_last (b := vs.isEmpty && last) hf hl hps type
      (r := .fieldAccess callee (.variableAccess v))
      (e := .reference (.fieldAccess callee (.variableAccess v))) (by simp)
    have hlabel : st₁.label = st.label + 2 := h₁.label
    obtain ⟨st₂, hok₂, h₂, hl₂⟩ := @ih st₁ (h₁.fresh hf)
      (by
        cases vs with
        | nil => exact Or.inr rfl
        | cons w vs => exact Or.inl (by simpa using hl₁))
      (fun h => h₁.placeholders ▸ hps h)
    refine ⟨st₂, ?_, ?_, ?_⟩
    · unfold completeInterface
      dsimp only
      rw [hset, hok₁]
      exact hok₂
    · have hcode := h₁.trans h₂
      have happend := parameterCode_append type st.label (st.exitTarget last (v :: vs).length)
        [identityAssignment callee v] (vs.map (identityAssignment callee))
      rw [List.singleton_append] at happend
      rw [List.map_cons, happend]
      rw [hlabel] at hcode
      have hend : st₁.exitTarget last vs.length = st.exitTarget last (v :: vs).length := by
        unfold exitTarget
        rw [h₁.placeholders, hlabel, List.length_cons]
        split_ifs
        · rfl
        · omega
      rw [hend] at hcode
      cases vs with
      | nil =>
        cases last with
        | false => exact hcode
        | true => exact hcode
      | cons w vs => exact hcode
    · rw [hl₂, hl₁]
      cases vs <;> simp

theorem outputName_eq_some {callee : Variable} {p : Parameter} {x : String}
    (h : outputName callee p = some x) : ∃ y record v,
      p = (.variableAccess y, .reference (.fieldAccess record (.variableAccess v))) ∧ v.name = x ∧
        record.name = callee.name := by
  obtain ⟨r, e⟩ := p
  unfold outputName at h
  split at h
  · rename_i heq
    cases heq
    split_ifs at h with hrecord
    exact ⟨_, _, _, rfl, Option.some.inj h, hrecord⟩
  · cases h

theorem visitPostAssignments_ok {callee : Variable} {last : Bool} {post : List Parameter}
    {names left : OrderedMap String Variable} (hf : st.Fresh) (hl : st.lastStatement = false)
    (hps : last = true → st.nextLabelPlaceholders ≠ [])
    (hleft : remaining (outputName callee) names post = some left) :
    ∃ st', visitPostAssignments callee last st names post = .ok (st', left) ∧
      Writes st st' (parameterCode .parameterOut st.label
        (if left.entries.isEmpty then st.exitTarget last post.length else st.label + 2 * post.length)
        post) ∧
      st'.lastStatement = (!post.isEmpty && left.entries.isEmpty && last) := by
  induction post generalizing st names with
  | nil =>
    cases hleft
    exact ⟨st, rfl, .refl st, by simpa using hl⟩
  | cons p post ih =>
    unfold remaining at hleft
    split at hleft
    · cases hleft
    rename_i x hname
    obtain ⟨y, record, v, rfl, rfl, hrecord⟩ := outputName_eq_some hname
    split at hleft
    · cases hleft
    rename_i hfind
    let b := (names.erase v.name).entries.isEmpty && post.isEmpty
    obtain ⟨st₁, hok₁, h₁, hl₁⟩ := visitParameter_last (b := b) hf hl hps .parameterOut
      (r := .variableAccess y) (e := .reference (.fieldAccess record (.variableAccess v))) (by simp)
    have hlabel : st₁.label = st.label + 2 := h₁.label
    have hok : ∀ res, visitPostAssignments callee last st₁ (names.erase v.name) post = res →
        visitPostAssignments callee last st names
          ((.variableAccess y, .reference (.fieldAccess record (.variableAccess v))) :: post) =
            res := by
      intro res hres
      rw [visitPostAssignments]
      dsimp only
      rw [if_neg (by simp [hrecord]), if_neg hfind]
      change (do
        let st ← (if b = true then st.setLastStatement last else st).visitParameter _ _ _
        visitPostAssignments callee last st (names.erase v.name) post) = res
      rw [hok₁]
      exact hres
    have hcode : ∀ {st₂ : PouCompiler} {k : ℤ}, Writes st₁ st₂ (parameterCode .parameterOut
        (st.label + 2) k post) → (post = [] → (if b then st.exitTarget last 1 else st.label + 2) = k) →
        Writes st st₂ (parameterCode .parameterOut st.label k
          ((.variableAccess y, .reference (.fieldAccess record (.variableAccess v))) :: post)) := by
      intro st₂ k h₂ hk
      have h := h₁.trans h₂
      have happend := parameterCode_append .parameterOut st.label k
        [(.variableAccess y, .reference (.fieldAccess record (.variableAccess v)))] post
      rw [List.singleton_append] at happend
      rw [happend]
      cases post with
      | nil =>
        rw [hk rfl] at h
        exact h
      | cons q post =>
        have hb : b = false := by simp [b]
        rw [hb] at h
        exact h
    cases post with
    | nil =>
      cases hleft
      refine ⟨st₁, hok _ rfl, hcode (.refl st₁) ?_, ?_⟩
      · intro _
        simp [b, exitTarget]
      · rw [hl₁]
        simp [b]
    | cons q post =>
      have hb : b = false := by simp [b]
      have hl₁' : st₁.lastStatement = false := by
        rw [hl₁, hb]
        rfl
      obtain ⟨st₂, hok₂, h₂, hl₂⟩ := ih (h₁.fresh hf) hl₁'
        (fun h => h₁.placeholders ▸ hps h) hleft
      refine ⟨st₂, hok _ hok₂, hcode ?_ (fun h => by cases h), ?_⟩
      · rw [hlabel] at h₂
        have hexit : st₁.exitTarget last (q :: post).length = st.exitTarget last
            ((VariableReference.variableAccess y, Expression.reference
              (.fieldAccess record (.variableAccess v))) :: q :: post).length := by
          unfold exitTarget
          rw [h₁.placeholders, hlabel]
          simp only [List.length_cons]
          split_ifs
          · rfl
          · omega
        have hend : st.label + 2 + 2 * ((q :: post).length : ℤ) = st.label + 2 *
            (((VariableReference.variableAccess y, Expression.reference
              (.fieldAccess record (.variableAccess v))) :: q :: post).length : ℤ) := by
          simp only [List.length_cons]
          omega
        rw [hexit, hend] at h₂
        exact h₂
      · simpa using hl₂

theorem visitPostAssignments_error {callee : Variable} {last : Bool} {post : List Parameter}
    {names : OrderedMap String Variable} (hf : st.Fresh) (hl : st.lastStatement = false)
    (hps : last = true → st.nextLabelPlaceholders ≠ [])
    (hleft : remaining (outputName callee) names post = none) :
    ∃ e, visitPostAssignments callee last st names post = .error e := by
  induction post generalizing st names with
  | nil => cases hleft
  | cons p post ih =>
    obtain ⟨r, e⟩ := p
    unfold visitPostAssignments
    split
    · rename_i y record v
      split_ifs with hrecord hfind
      · exact ⟨_, rfl⟩
      · exact ⟨_, rfl⟩
      have hname : outputName callee
          (.variableAccess y, .reference (.fieldAccess record (.variableAccess v))) =
            some v.name := by
        unfold outputName
        exact if_pos (not_not.mp hrecord)
      unfold remaining at hleft
      simp only [hname, if_neg hfind] at hleft
      cases post with
      | nil => cases hleft
      | cons q post =>
        obtain ⟨st₁, hok₁, h₁, hl₁⟩ := visitParameter_writes hf (by simp [hl]) .parameterOut
          (r := .variableAccess y) (e := .reference (.fieldAccess record (.variableAccess v)))
          (by simp)
        simp only [List.isEmpty_cons, Bool.and_false, Bool.false_eq_true, if_false]
        rw [hok₁]
        exact ih (h₁.fresh hf) (hl₁.trans hl) (fun h => h₁.placeholders ▸ hps h) hleft
    · exact ⟨_, rfl⟩

theorem find?_nameSet (vs : List Variable) (x : String) :
    (nameSet vs).find? x = vs.find? (·.name = x) := by
  have hfold : ∀ (vs : List Variable) (m : OrderedMap String Variable),
      (vs.foldl (fun s v => s.emplace v.name v) m).find? x =
        (m.find? x).or (vs.find? (·.name = x)) := by
    intro vs
    induction vs with
    | nil => simp
    | cons v vs ih =>
      intro m
      rw [List.foldl_cons, ih, OrderedMap.find?_emplace, List.find?_cons]
      by_cases hx : x = v.name
      · subst hx
        cases m.find? v.name <;> simp
      · simp [hx, Ne.symm hx]
  unfold nameSet
  rw [hfold, OrderedMap.find?_empty, Option.none_or]

theorem mem_of_find?_nameSet {vs : List Variable} {x : String} {v : Variable}
    (h : (nameSet vs).find? x = some v) : v ∈ vs ∧ v.name = x := by
  rw [find?_nameSet] at h
  exact ⟨List.mem_of_find?_eq_some h, by simpa using List.find?_some h⟩

theorem find?_nameSet_ne_none {vs : List Variable} {x : String} :
    (nameSet vs).find? x ≠ none ↔ x ∈ vs.map (·.name) := by
  rw [find?_nameSet, ne_eq, List.find?_eq_none]
  simp

theorem fit_eq_isSome_remaining (name : Parameter → Option String) (vs : List Variable)
    (ps : List Parameter) : fit name vs ps = (remaining name (nameSet vs) ps).isSome := by
  rw [Bool.eq_iff_iff, Option.isSome_iff_exists]
  simp only [remaining_eq_some_iff, find?_nameSet_ne_none]
  unfold fit
  cases hps : ps.mapM name with
  | none => simp
  | some xs =>
    simp only [Bool.and_eq_true, decide_eq_true_eq, List.all_eq_true, Option.some.injEq]
    constructor
    · rintro ⟨hnodup, hmem⟩
      let left : OrderedMap String Variable :=
        xs.foldl (fun m x => m.erase x) (nameSet vs)
      have hfold : ∀ (xs : List String) (m : OrderedMap String Variable) (x : String),
          (xs.foldl (fun m x => m.erase x) m).find? x = if x ∈ xs then none else m.find? x := by
        intro xs
        induction xs with
        | nil => simp
        | cons y xs ih =>
          intro m x
          rw [List.foldl_cons, ih, OrderedMap.find?_erase]
          by_cases hxy : x = y <;> simp [hxy]
      exact ⟨left, xs, rfl, hnodup, hmem, hfold xs _⟩
    · rintro ⟨left, ys, rfl, hnodup, hmem, -⟩
      exact ⟨hnodup, hmem⟩

theorem completes_of_remaining {name : Parameter → Option String} {callee : Variable}
    {vs : List Variable} {ps : List Parameter} {left : OrderedMap String Variable}
    (h : remaining name (nameSet vs) ps = some left) :
    Completes name callee vs ps
      (ps ++ (left.entries.map Prod.snd).map (identityAssignment callee)) := by
  obtain ⟨xs, hxs, hnodup, hmem, hleft⟩ := remaining_eq_some_iff.mp h
  have hentry : ∀ e ∈ left.entries, e.1 ∉ xs ∧ e.2 ∈ vs ∧ e.2.name = e.1 := by
    intro e he
    have hfind := (OrderedMap.find?_eq_some_iff left e.1 e.2).mpr he
    rw [hleft] at hfind
    split_ifs at hfind with hx
    exact ⟨hx, mem_of_find?_nameSet hfind⟩
  have hnames : (left.entries.map Prod.snd).map (·.name) = left.entries.map Prod.fst := by
    rw [List.map_map]
    exact List.map_congr_left fun e he => (hentry e he).2.2
  refine ⟨xs, left.entries.map Prod.snd, hxs, rfl, ?_, ?_, ?_⟩
  · intro v hv
    obtain ⟨e, he, rfl⟩ := List.mem_map.mp hv
    exact (hentry e he).2.1
  · rw [hnames]
    refine List.nodup_append.mpr ⟨hnodup, ?_, ?_⟩
    · exact (left.sorted.map Prod.fst fun _ _ hlt => hlt).imp fun hlt => ne_of_lt hlt
    · rintro x hx y hy rfl
      obtain ⟨e, he, rfl⟩ := List.mem_map.mp hy
      exact (hentry e he).1 hx
  · intro x
    rw [hnames, List.mem_append, ← find?_nameSet_ne_none]
    constructor
    · rintro (hx | hx)
      · exact hmem x hx
      · obtain ⟨e, he, rfl⟩ := List.mem_map.mp hx
        have hfind := (OrderedMap.find?_eq_some_iff left e.1 e.2).mpr he
        rw [hleft, if_neg (hentry e he).1] at hfind
        rw [hfind]
        simp
    · intro hx
      by_cases hxs' : x ∈ xs
      · exact Or.inl hxs'
      · obtain ⟨v, hv⟩ := Option.ne_none_iff_exists'.mp hx
        have hfind := hleft x
        rw [if_neg hxs', hv] at hfind
        exact Or.inr (List.mem_map.mpr ⟨_, (OrderedMap.find?_eq_some_iff left x v).mp hfind, rfl⟩)

end PouCompiler

def variableCount (vs : List Variable) : ℕ := (vs.map (·.name)).dedup.length

theorem length_eq_of_mapM {name : Parameter → Option String} {ps : List Parameter}
    {xs : List String} (h : ps.mapM name = some xs) : ps.length = xs.length := by
  induction ps generalizing xs with
  | nil =>
    cases h
    rfl
  | cons p ps ih =>
    rw [List.mapM_cons] at h
    obtain ⟨x, -, h⟩ := Option.bind_eq_some_iff.mp h
    obtain ⟨ys, hys, h⟩ := Option.bind_eq_some_iff.mp h
    cases h
    simp [ih hys]

theorem Completes.length {name : Parameter → Option String} {callee : Variable}
    {vs : List Variable} {explicit all : List Parameter}
    (h : Completes name callee vs explicit all) : all.length = variableCount vs := by
  obtain ⟨xs, rest, hxs, rfl, -, hnodup, hmem⟩ := h
  have hperm : (xs ++ rest.map (·.name)).Perm (vs.map (·.name)).dedup := by
    rw [List.perm_ext_iff_of_nodup hnodup (List.nodup_dedup _)]
    intro x
    rw [hmem, List.mem_dedup]
  have hlength : explicit.length = xs.length := length_eq_of_mapM hxs
  unfold variableCount
  rw [← hperm.length_eq]
  simp [hlength]

theorem Completes.ne_nil {name : Parameter → Option String} {callee : Variable}
    {vs : List Variable} {explicit all : List Parameter}
    (h : Completes name callee vs explicit all) (hvs : vs ≠ []) : all ≠ [] := by
  rintro rfl
  obtain ⟨v, vs, rfl⟩ := List.exists_cons_of_ne_nil hvs
  have hmem : v.name ∈ ((v :: vs).map (·.name)).dedup := by simp
  have hlength : 0 = variableCount (v :: vs) := h.length
  exact List.ne_nil_of_mem hmem (List.length_eq_zero_iff.mp hlength.symm)

namespace PouCompiler

variable {st st₁ : PouCompiler} {code : List Instruction}

theorem Writes.hole (h : Writes st.skipLabel st₁ code) (hf : st.Fresh) (i : Instruction) :
    Writes st (st₁.emplace st.label i) (i :: code) := by
  have hlabel : st₁.label = st.label + 1 + code.length := h.label
  have hnone : st₁.at? st.label = none := by
    rw [h.at?, if_neg]
    · exact hf _ le_rfl
    · simp only [PouCompiler.skipLabel]
      omega
  refine ⟨?_, h.placeholder, h.placeholders, ?_⟩
  · change st₁.label = _
    simp only [List.length_cons]
    omega
  · intro l
    change (st₁.emplace st.label i).at? l = if st.label ≤ l ∧ l < st₁.label then _ else _
    by_cases hl : l = st.label
    · rw [hl, at?_emplace_self hnone, if_pos (by omega), sub_self]
      rfl
    · rw [at?_emplace_ne hl, h.at?]
      change (if st.label + 1 ≤ l ∧ l < st₁.label then code[(l - (st.label + 1)).toNat]?
        else st.at? l) = _
      by_cases hin : st.label + 1 ≤ l ∧ l < st₁.label
      · have hnat : (l - st.label).toNat = (l - (st.label + 1)).toNat + 1 := by omega
        rw [if_pos hin, if_pos (by omega), hnat, List.getElem?_cons_succ]
      · rw [if_neg hin, if_neg (by omega)]

def signatures (modules : String → Option CalleeModule) (typeName : String) : Option Signature :=
  (modules typeName).map fun M => ⟨M.inputVariables, M.outputVariables⟩

theorem exists_callee_of_fits {modules : String → Option CalleeModule} {callee : Variable}
    {pre post : List Parameter}
    (hfit : invocationFits (signatures modules) callee pre post = true) :
    ∃ typeName M, callee.dataType = .derivedType typeName ∧ modules typeName = some M := by
  unfold invocationFits signatureOf signatures at hfit
  split at hfit
  · rename_i S hS
    split at hS
    · rename_i typeName htype
      obtain ⟨M, hM, -⟩ := Option.map_eq_some_iff.mp hS
      exact ⟨typeName, M, htype, hM⟩
    · cases hS
  · cases hfit

/-- The code of an invocation of the module `M`, left to `k`. -/
def InvocationCode (M : CalleeModule) (callee : Variable) (pre post : List Parameter) (l k : ℤ)
    (code : List Instruction) : Prop :=
  ∃ inputs outputs, Completes inputName callee M.inputVariables pre inputs ∧
    (if M.outputVariables.isEmpty then outputs = []
      else Completes (outputName callee) callee M.outputVariables post outputs) ∧
    code = invocationCode callee M.entryLabel inputs outputs l k

theorem inputs_ok {callee : Variable} {pre : List Parameter}
    {names left : OrderedMap String Variable} (hf : st.Fresh) (hl : st.lastStatement = false)
    (hleft : remaining inputName names pre = some left) {inputs : List Parameter}
    (hinputs : inputs = pre ++ (left.entries.map Prod.snd).map (identityAssignment callee)) :
    ∃ st₁ st₂, st.visitPreAssignments names pre = .ok (st₁, left) ∧
      st₁.completeInterface .parameterIn callee false (left.entries.map Prod.snd) = .ok st₂ ∧
      Writes st st₂ (parameterCode .parameterIn st.label (st.label + 2 * inputs.length) inputs) ∧
      st₂.lastStatement = false := by
  obtain ⟨st₁, hok₁, h₁, hl₁⟩ := visitPreAssignments_ok hf hl hleft
  obtain ⟨st₂, hok₂, h₂, hl₂⟩ := @completeInterface_writes _ .parameterIn callee false
    (left.entries.map Prod.snd) (h₁.fresh hf)
    (Or.inl hl₁) (by simp)
  have hlabel : st₁.label = st.label + 2 * (pre.length : ℤ) := by
    rw [h₁.label, length_parameterCode]
    omega
  refine ⟨st₁, st₂, hok₁, hok₂, ?_, ?_⟩
  · have h := h₁.trans h₂
    rw [hinputs, parameterCode_append]
    have hend : st₁.exitTarget false (left.entries.map Prod.snd).length = st.label + 2 *
        ((pre ++ (left.entries.map Prod.snd).map (identityAssignment callee)).length : ℤ) := by
      unfold exitTarget
      rw [hlabel]
      simp only [Bool.false_eq_true, if_false, List.length_append, List.length_map]
      omega
    rw [hend, hlabel] at h
    cases hleft : left.entries with
    | nil => simpa [hleft] using h
    | cons e es => simpa [hleft] using h
  · rw [hl₂, hl₁, ite_self]

theorem outputs_ok {callee : Variable} {last : Bool} {post : List Parameter}
    {names left : OrderedMap String Variable} (hf : st.Fresh) (hl : st.lastStatement = false)
    (hps : last = true → st.nextLabelPlaceholders ≠ [])
    (hleft : remaining (outputName callee) names post = some left) {outputs : List Parameter}
    (houtputs : outputs = post ++ (left.entries.map Prod.snd).map (identityAssignment callee))
    (hne : outputs ≠ []) :
    ∃ st₁ st₂, visitPostAssignments callee last st names post = .ok (st₁, left) ∧
      st₁.completeInterface .parameterOut callee last (left.entries.map Prod.snd) = .ok st₂ ∧
      Writes st st₂
        (parameterCode .parameterOut st.label (st.exitTarget last outputs.length) outputs) ∧
      st₂.lastStatement = last := by
  obtain ⟨st₁, hok₁, h₁, hl₁⟩ := visitPostAssignments_ok hf hl hps hleft
  have hlabel : st₁.label = st.label + 2 * (post.length : ℤ) := by
    rw [h₁.label, length_parameterCode]
    omega
  obtain ⟨st₂, hok₂, h₂, hl₂⟩ := @completeInterface_writes _ .parameterOut callee last
    (left.entries.map Prod.snd) (h₁.fresh hf)
    (by
      cases hentries : left.entries with
      | nil => exact Or.inr rfl
      | cons e es =>
        rw [hl₁, hentries]
        simp)
    (fun h => h₁.placeholders ▸ hps h)
  refine ⟨st₁, st₂, hok₁, hok₂, ?_, ?_⟩
  · have h := h₁.trans h₂
    rw [houtputs, parameterCode_append]
    have hend : st₁.exitTarget last (left.entries.map Prod.snd).length = st.exitTarget last
        (post ++ (left.entries.map Prod.snd).map (identityAssignment callee)).length := by
      unfold exitTarget
      rw [h₁.placeholders, hlabel]
      simp only [List.length_append, List.length_map]
      split_ifs
      · rfl
      · omega
    rw [hend, hlabel] at h
    cases hentries : left.entries with
    | nil => simpa [hentries] using h
    | cons e es => simpa [hentries] using h
  · rw [hl₂, hl₁]
    cases hentries : left.entries with
    | nil =>
      cases post with
      | nil =>
        rw [houtputs, hentries] at hne
        exact absurd rfl hne
      | cons p post => rfl
    | cons e es => rfl

/-- An invocation that fits is compiled to its code. -/
theorem visitInvocationStatement_ok {modules : String → Option CalleeModule} {callee : Variable}
    {typeName : String} {M : CalleeModule} {pre post : List Parameter}
    (htype : callee.dataType = .derivedType typeName) (hM : modules typeName = some M)
    (hfit : invocationFits (signatures modules) callee pre post = true) (hf : st.Fresh)
    (hps : st.lastStatement = true → st.nextLabelPlaceholders ≠ []) :
    ∃ st' code, visitInvocationStatement modules callee pre post st = .ok st' ∧
      InvocationCode M callee pre post st.label (continuation st st') code ∧
      Writes st st' code ∧ st'.lastStatement = st.lastStatement := by
  unfold invocationFits signatureOf signatures at hfit
  simp only [htype, hM, Option.map_some, Bool.and_eq_true, Bool.or_eq_true,
    fit_eq_isSome_remaining, Option.isSome_iff_exists] at hfit
  obtain ⟨⟨left, hleft⟩, hpost⟩ := hfit
  obtain ⟨inputs, hinputs⟩ : ∃ inputs, inputs =
    pre ++ (left.entries.map Prod.snd).map (identityAssignment callee) := ⟨_, rfl⟩
  have hcompletes : Completes inputName callee M.inputVariables pre inputs :=
    hinputs ▸ completes_of_remaining hleft
  obtain ⟨st₁, st₂, hok₁, hok₂, h₂, hl₂⟩ := @inputs_ok (st.setLastStatement false) _ _ _ _ hf rfl
    hleft _ hinputs
  have hwrites : Writes st st₂
      (parameterCode .parameterIn st.label (st.label + 2 * inputs.length) inputs) :=
    ⟨h₂.label, h₂.placeholder, h₂.placeholders, h₂.at?⟩
  have hf₂ : st₂.Fresh := hwrites.fresh hf
  have hlabel₂ : st₂.label = st.label + 2 * (inputs.length : ℤ) := by
    rw [hwrites.label, length_parameterCode]
    omega
  have hcode : ∀ {st' : PouCompiler} {outputs : List Parameter} {k : ℤ} (n : ℤ), Writes st₂ st'
      (.callInstruction callee n M.entryLabel ::
        parameterCode .parameterOut (st.label + 2 * inputs.length + 1) k outputs) →
      n = (if outputs.isEmpty then k else st.label + 2 * inputs.length + 1) →
      Writes st st' (invocationCode callee M.entryLabel inputs outputs st.label k) := by
    rintro st' outputs k _ hout rfl
    exact hwrites.trans hout
  unfold visitInvocationStatement
  simp only [htype, hM]
  rw [hok₁]
  change ∃ st' code, (st₁.completeInterface _ _ _ _ >>= _) = _ ∧ _
  rw [hok₂]
  by_cases hempty : M.outputVariables.isEmpty = true
  · -- without outputs the call itself is left to the continuation
    change ∃ st' code, (if M.outputVariables.isEmpty = true then _ else _) = _ ∧ _
    rw [if_pos hempty]
    let s₃ := st₂.skipLabel.setLastStatement st.lastStatement
    have hcall : ∀ k, k = continuation st s₃ →
        let st' := s₃.emplace st₂.label (.callInstruction callee k M.entryLabel)
        ∃ code, InvocationCode M callee pre post st.label (continuation st st') code ∧
          st.Writes st' code ∧ st'.lastStatement = st.lastStatement := by
      intro k hk
      refine ⟨_, ⟨inputs, [], hcompletes, ?_, rfl⟩, hcode k ?_ ?_, rfl⟩
      · rw [if_pos hempty]
      · have h := (Writes.refl st₂.skipLabel).hole hf₂ (.callInstruction callee k M.entryLabel)
        exact ⟨h.label, h.placeholder, h.placeholders, h.at?⟩
      · exact hk
    cases hl : st.lastStatement with
    | false =>
      obtain ⟨code, hc⟩ := hcall s₃.label (by
        unfold continuation
        rw [hl]
        rfl)
      rw [hl] at hc
      exact ⟨_, code, by simp [s₃, hl, bind, Except.bind], hc⟩
    | true =>
      cases hst : st.nextLabelPlaceholders with
      | nil => exact absurd hst (hps hl)
      | cons p ps =>
        have htop : (st₂.skipLabel.setLastStatement st.lastStatement).top = .ok p := by
          have hps₂ : st₂.nextLabelPlaceholders = p :: ps := hwrites.placeholders.trans hst
          simp only [top, skipLabel, setLastStatement, hps₂]
        obtain ⟨code, hc⟩ := hcall p (by
          unfold continuation
          rw [hl, hst]
          rfl)
        rw [hl] at hc htop
        refine ⟨_, code, ?_, hc⟩
        rw [if_pos rfl, htop]
        simp [s₃, hl, bind, Except.bind]
  · change ∃ st' code, (if M.outputVariables.isEmpty = true then _ else _) = _ ∧ _
    rw [if_neg hempty]
    obtain ⟨left', hleft'⟩ := hpost.resolve_left hempty
    obtain ⟨outputs, houtputs⟩ : ∃ outputs, outputs =
      post ++ (left'.entries.map Prod.snd).map (identityAssignment callee) := ⟨_, rfl⟩
    have hcompletes' : Completes (outputName callee) callee M.outputVariables post outputs :=
      houtputs ▸ completes_of_remaining hleft'
    have hne : outputs ≠ [] := hcompletes'.ne_nil (by simpa using hempty)
    have hps₂ : st.lastStatement = true → st₂.skipLabel.nextLabelPlaceholders ≠ [] := by
      intro hl
      change st₂.nextLabelPlaceholders ≠ []
      rw [hwrites.placeholders]
      exact hps hl
    have hf₃ : st₂.skipLabel.Fresh := fun l hl =>
      hf₂ l (le_trans (by simp only [skipLabel]; omega) hl)
    obtain ⟨st₄, st₅, hok₄, hok₅, h₅, hl₅⟩ := @outputs_ok st₂.skipLabel _ _ _ _ _
      hf₃ hl₂ hps₂ hleft' _ houtputs hne
    rw [hok₄]
    change ∃ st' code, (st₄.completeInterface _ _ _ _ >>= _) = _ ∧ _
    rw [hok₅]
    refine ⟨_, _, rfl, ⟨inputs, outputs, hcompletes, ?_, rfl⟩,
      hcode st₂.skipLabel.label ?_ ?_, ?_⟩
    · rw [if_neg hempty]
      exact hcompletes'
    · have hlabel : st₂.skipLabel.label = st.label + 2 * (inputs.length : ℤ) + 1 := by
        simp only [skipLabel]
        omega
      have hexit : st₂.skipLabel.exitTarget st.lastStatement outputs.length =
          continuation st st₅ := by
        have hstack : st₂.skipLabel.nextLabelPlaceholders = st.nextLabelPlaceholders :=
          hwrites.placeholders
        unfold exitTarget continuation
        rw [hstack, h₅.label, length_parameterCode]
        split_ifs
        · rfl
        · omega
      rw [hexit, hlabel] at h₅
      exact h₅.hole hf₂ _
    · have hisEmpty : outputs.isEmpty = false := by simpa using hne
      rw [hisEmpty]
      simp only [skipLabel, hlabel₂]
      rfl
    · exact hl₅

/-- Any other invocation is refused. -/
theorem visitInvocationStatement_error {modules : String → Option CalleeModule} {callee : Variable}
    {pre post : List Parameter} (hfit : invocationFits (signatures modules) callee pre post = false)
    (hf : st.Fresh) (hps : st.lastStatement = true → st.nextLabelPlaceholders ≠ []) :
    ∃ e, visitInvocationStatement modules callee pre post st = .error e := by
  unfold visitInvocationStatement
  split
  · rename_i typeName htype
    split
    · exact ⟨_, rfl⟩
    rename_i M hM
    unfold invocationFits signatureOf signatures at hfit
    simp only [htype, hM, Option.map_some, Bool.and_eq_false_iff, fit_eq_isSome_remaining] at hfit
    cases hleft : remaining inputName (nameSet M.inputVariables) pre with
    | none =>
      obtain ⟨e, he⟩ := @visitPreAssignments_error (st.setLastStatement false) _ _ hf rfl hleft
      dsimp only
      rw [he]
      exact ⟨e, rfl⟩
    | some left =>
      rw [hleft] at hfit
      have hfit := hfit.resolve_left (by simp)
      rw [Bool.or_eq_false_iff] at hfit
      obtain ⟨st₁, st₂, hok₁, hok₂, h₂, hl₂⟩ := @inputs_ok (st.setLastStatement false) callee _ _ _
        hf rfl hleft _ rfl
      have hf₂ : st₂.Fresh := h₂.fresh hf
      obtain ⟨e, he⟩ := @visitPostAssignments_error st₂.skipLabel callee st.lastStatement post _
        (fun l hl => hf₂ l (le_trans (by simp only [skipLabel]; omega) hl)) hl₂
        (fun hl => by
          change st₂.nextLabelPlaceholders ≠ []
          rw [h₂.placeholders]
          exact hps hl)
        (by simpa using hfit.2)
      dsimp only
      rw [hok₁]
      change ∃ e, (st₁.completeInterface _ _ _ _ >>= _) = _
      rw [hok₂]
      change ∃ e, (if M.outputVariables.isEmpty = true then _ else _) = _
      rw [if_neg (by simp [hfit.1]), he]
      exact ⟨e, rfl⟩
  · exact ⟨_, rfl⟩

end PouCompiler

end Ahorn
