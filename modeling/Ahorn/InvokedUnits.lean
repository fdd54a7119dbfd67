import Ahorn.LoweringChecks

set_option autoImplicit false

/-!
# The units that a unit invokes

Every call in compiled code enters the unit of an instance that is invoked; only the signatures of
these units matter.
-/
namespace Ahorn

mutual

def Statement.callees : Statement → List Variable
  | .invocationStatement callee _ _ => [callee]
  | .ifStatement _ thn elseIfs els => thn.callees ++ elseIfs.callees ++ els.callees
  | .whileStatement _ body => body.callees
  | .caseStatement cases els => cases.callees ++ els.callees
  | _ => []

def StatementList.callees : StatementList → List Variable
  | .nil => []
  | .cons s rest => s.callees ++ rest.callees

def ElseIfStatements.callees : ElseIfStatements → List Variable
  | .nil => []
  | .cons _ part rest => part.callees ++ rest.callees

end

section Congruence

variable {signatures signatures' : String → Option Signature}

/-- The two agree on the signatures of the instances. -/
def Agree (signatures signatures' : String → Option Signature) (callees : List Variable) : Prop :=
  ∀ v ∈ callees, signatureOf signatures v = signatureOf signatures' v

theorem Agree.left {vs ws : List Variable} (h : Agree signatures signatures' (vs ++ ws)) :
    Agree signatures signatures' vs := fun v hv => h v (List.mem_append_left _ hv)

theorem Agree.right {vs ws : List Variable} (h : Agree signatures signatures' (vs ++ ws)) :
    Agree signatures signatures' ws := fun v hv => h v (List.mem_append_right _ hv)

mutual

theorem Statement.check_congr : (s : Statement) → Agree signatures signatures' s.callees →
    s.check signatures = s.check signatures'
  | .assertStatement _, _ => rfl
  | .assumeStatement _, _ => rfl
  | .assignmentStatement _ _, _ => rfl
  | .ifStatement _ thn elseIfs els, h => by
    funext k
    unfold Statement.check
    rw [StatementList.check_congr thn h.left.left,
      ElseIfStatements.check_congr elseIfs els.isEmpty h.left.right,
      StatementList.check_congr els h.right]
  | .invocationStatement callee pre post, h => by
    funext k
    unfold Statement.check invocationFits
    rw [h callee List.mem_cons_self]
  | .whileStatement _ body, h => by
    funext k
    unfold Statement.check
    rw [StatementList.check_congr body h]
  | .caseStatement .nil _, _ => rfl
  | .caseStatement (.cons _ thn elseIfs) els, h => by
    funext k
    unfold Statement.check
    rw [StatementList.check_congr thn h.left.left,
      ElseIfStatements.check_congr elseIfs els.isEmpty h.left.right,
      StatementList.check_congr els h.right]

theorem StatementList.check_congr : (s : StatementList) →
    Agree signatures signatures' s.callees → s.check signatures = s.check signatures'
  | .nil, _ => rfl
  | .cons s .nil, h => by
    funext k
    unfold StatementList.check
    rw [Statement.check_congr s h.left]
  | .cons s (.cons s' rest), h => by
    funext k
    unfold StatementList.check
    rw [Statement.check_congr s h.left, StatementList.check_congr (.cons s' rest) h.right]

theorem ElseIfStatements.check_congr : (s : ElseIfStatements) → (elseEmpty : Bool) →
    Agree signatures signatures' s.callees →
    s.check signatures elseEmpty = s.check signatures' elseEmpty
  | .nil, _, _ => rfl
  | .cons _ part rest, elseEmpty, h => by
    funext k
    unfold ElseIfStatements.check
    rw [StatementList.check_congr part h.left, ElseIfStatements.check_congr rest elseEmpty h.right]

end

theorem StatementList.checkBody_congr (s : StatementList)
    (h : Agree signatures signatures' s.callees) :
    s.checkBody signatures = s.checkBody signatures' := by
  match s with
  | .nil => rfl
  | .cons s rest =>
    funext k
    unfold StatementList.checkBody
    rw [Statement.check_congr s h.left, StatementList.checkBody_congr rest h.right]

end Congruence

def Instruction.Enters (modules : String → Option CalleeModule) : Instruction → Prop
  | callInstruction v _ inter =>
    ∃ typeName M, v.dataType = .derivedType typeName ∧ modules typeName = some M ∧
      inter = M.entryLabel
  | _ => True

namespace PouCompiler

def Enters (modules : String → Option CalleeModule) (st : PouCompiler) : Prop :=
  ∀ l i, st.at? l = some i → i.Enters modules

variable {modules : String → Option CalleeModule} {st st' : PouCompiler}

namespace Enters

theorem emplace (h : st.Enters modules) (l : ℤ) {i : Instruction} (hi : i.Enters modules) :
    (st.emplace l i).Enters modules := by
  intro l' j hj
  change OrderedMap.find? (OrderedMap.emplace st.labelToInstruction l i) l' = some j at hj
  rw [OrderedMap.find?_emplace] at hj
  split_ifs at hj with hl
  · cases hold : st.labelToInstruction.find? l with
    | none =>
      rw [hold, Option.none_or] at hj
      cases hj
      exact hi
    | some j' =>
      rw [hold, Option.some_or] at hj
      cases hj
      exact h _ _ hold
  · exact h _ _ hj

theorem assign (h : st.Enters modules) (l : ℤ) {i : Instruction} (hi : i.Enters modules) :
    ({ st with labelToInstruction := st.labelToInstruction.assign l i } : PouCompiler).Enters
      modules := by
  intro l' j hj
  change OrderedMap.find? (OrderedMap.assign st.labelToInstruction l i) l' = some j at hj
  rw [OrderedMap.find?_assign] at hj
  split_ifs at hj with hl
  · cases hj
    exact hi
  · exact h _ _ hj

theorem resolveTop (h : st.Enters modules) (n : ℤ) : (st.resolveTop n).Enters modules := by
  intro l j hj
  unfold PouCompiler.resolveTop at hj
  split at hj
  · exact h _ _ hj
  · change OrderedMap.find? (OrderedMap.mapValues _ st.labelToInstruction) l = some j at hj
    rw [OrderedMap.find?_mapValues] at hj
    obtain ⟨i, hi, rfl⟩ := Option.map_eq_some_iff.mp hj
    have hold := h _ _ hi
    cases i <;> exact hold

end Enters

/-- A step of the compiler after which calls still enter the units of their instances. -/
def KeepsEnters (modules : String → Option CalleeModule)
    (f : PouCompiler → Except String PouCompiler) : Prop :=
  ∀ {st st' : PouCompiler}, st.Enters modules → f st = .ok st' → st'.Enters modules

theorem keepsEnters_visitAssignmentStatement (r : VariableReference) (e : Expression) :
    KeepsEnters modules (visitAssignmentStatement r e) := by
  intro st st' h hok
  have hi : (compileAssignment r e).Enters modules := by
    cases e <;> exact trivial
  unfold visitAssignmentStatement at hok
  dsimp only at hok
  split at hok
  · obtain ⟨p, -, hok⟩ := bind_eq_ok hok
    cases hok
    exact (h.emplace st.label hi).emplace (i := .gotoInstruction p) (st.label + 1) trivial
  · cases hok
    exact (h.emplace st.label hi).emplace (i := .gotoInstruction (st.label + 1 + 1)) (st.label + 1)
      trivial

theorem keepsEnters_visitParameter (type : AssignmentType) (r : VariableReference)
    (e : Expression) : KeepsEnters modules (visitParameter type r e) := by
  intro st st' h hok
  obtain ⟨st₁, hv, hok⟩ := bind_eq_ok hok
  have h₁ := keepsEnters_visitAssignmentStatement r e h hv
  split at hok
  · cases hok
    exact h₁.assign _ trivial
  · cases hok

theorem visitPreAssignments_enters {pre : List Parameter}
    {names names' : OrderedMap String Variable} (h : st.Enters modules)
    (hok : st.visitPreAssignments names pre = .ok (st', names')) : st'.Enters modules := by
  induction pre generalizing st names with
  | nil =>
    cases hok
    exact h
  | cons a pre ih =>
    obtain ⟨r, e⟩ := a
    unfold visitPreAssignments at hok
    split at hok
    · split at hok
      · cases hok
      · obtain ⟨st₁, hv, hok⟩ := bind_eq_ok hok
        exact ih (keepsEnters_visitParameter .parameterIn _ e h hv) hok
    · cases hok

theorem completeInterface_enters {type : AssignmentType} {callee : Variable} {last : Bool}
    {vs : List Variable} (h : st.Enters modules)
    (hok : st.completeInterface type callee last vs = .ok st') : st'.Enters modules := by
  induction vs generalizing st with
  | nil =>
    cases hok
    exact h
  | cons v vs ih =>
    unfold completeInterface at hok
    obtain ⟨st₁, hv, hok⟩ := bind_eq_ok hok
    refine ih (keepsEnters_visitParameter type _ _ ?_ hv) hok
    split_ifs
    · exact h
    · exact h
    · exact h

theorem visitPostAssignments_enters {callee : Variable} {last : Bool} {post : List Parameter}
    {names names' : OrderedMap String Variable} (h : st.Enters modules)
    (hok : visitPostAssignments callee last st names post = .ok (st', names')) :
    st'.Enters modules := by
  induction post generalizing st names with
  | nil =>
    cases hok
    exact h
  | cons a post ih =>
    obtain ⟨r, e⟩ := a
    unfold visitPostAssignments at hok
    split at hok
    · split_ifs at hok
      obtain ⟨st₁, hv, hok⟩ := bind_eq_ok hok
      refine ih (keepsEnters_visitParameter .parameterOut _ _ ?_ hv) hok
      split_ifs
      · exact h
      · exact h
    · cases hok

theorem keepsEnters_visitInvocationStatement (callee : Variable) (pre post : List Parameter) :
    KeepsEnters modules (visitInvocationStatement modules callee pre post) := by
  intro st st' h hok
  unfold visitInvocationStatement at hok
  split at hok
  · rename_i typeName htype
    split at hok
    · cases hok
    rename_i M hM
    obtain ⟨⟨st₁, inputs⟩, hpre, hok⟩ := bind_eq_ok hok
    obtain ⟨st₂, hin, hok⟩ := bind_eq_ok hok
    have h₂ : st₂.Enters modules :=
      completeInterface_enters
        (@visitPreAssignments_enters _ (st.setLastStatement false) _ _ _ _ h hpre)
        hin
    have hcall : ∀ next, (Instruction.callInstruction callee next M.entryLabel).Enters modules :=
      fun _ => ⟨typeName, M, htype, hM, rfl⟩
    split at hok
    · dsimp only at hok
      split at hok
      · obtain ⟨next, -, hok⟩ := bind_eq_ok hok
        cases hok
        exact @Enters.emplace _ (st₂.skipLabel.setLastStatement st.lastStatement) h₂ _ _
          (hcall next)
      · cases hok
        exact @Enters.emplace _ (st₂.skipLabel.setLastStatement st.lastStatement) h₂ _ _ (hcall _)
    · obtain ⟨⟨st₄, outputs⟩, hpost, hok⟩ := bind_eq_ok hok
      obtain ⟨st₅, hout, hok⟩ := bind_eq_ok hok
      cases hok
      have h₅ : st₅.Enters modules :=
        completeInterface_enters
          (@visitPostAssignments_enters _ st₂.skipLabel _ _ _ _ _ _ h₂ hpost) hout
      exact h₅.emplace _ (hcall _)
  · cases hok

section Selection

variable {e : Expression} {thn els : StatementList} {elseIfs : ElseIfStatements}
  {visitThen visitElseIfs visitElse : PouCompiler → Except String PouCompiler}

theorem keepsEnters_visitThenPart (hthen : KeepsEnters modules visitThen) :
    KeepsEnters modules (visitThenPart e thn elseIfs els visitThen) := by
  intro st st' h hok
  unfold visitThenPart at hok
  split at hok
  · cases hok
    exact h
  · obtain ⟨st₁, hpart, hok⟩ := bind_eq_ok hok
    dsimp only at hok
    obtain ⟨x, -, hok⟩ := ite_bind_eq_ok hok
    cases hok
    have h₁ : st₁.Enters modules := @hthen st.skipLabel _ h hpart
    exact h₁.emplace (i := .ifInstruction e (st.label + 1) x) st.label trivial

theorem keepsEnters_visitElsePart (helse : KeepsEnters modules visitElse) :
    KeepsEnters modules (visitElsePart e thn elseIfs els visitElse) := by
  intro st st' h hok
  unfold visitElsePart at hok
  split at hok
  · cases hok
    exact h
  split at hok
  · obtain ⟨st₁, hpart, hok⟩ := bind_eq_ok hok
    obtain ⟨t, -, hok⟩ := bind_eq_ok hok
    cases hok
    have h₁ : st₁.Enters modules := @helse st.skipLabel _ h hpart
    exact h₁.emplace (i := .ifInstruction (elseExpression e elseIfs) t (st.label + 1)) st.label
      trivial
  · exact helse h hok

theorem keepsEnters_visitIf (hthen : KeepsEnters modules visitThen)
    (helseIfs : KeepsEnters modules visitElseIfs) (helse : KeepsEnters modules visitElse) :
    KeepsEnters modules (visitIf e thn elseIfs els visitThen visitElseIfs visitElse) := by
  have hparts : KeepsEnters modules
      (visitParts e thn elseIfs els visitThen visitElseIfs visitElse) := by
    intro st st' h hok
    obtain ⟨st₁, h1, hok⟩ := bind_eq_ok hok
    have h₁ := keepsEnters_visitThenPart hthen h h1
    dsimp only at hok
    obtain ⟨st₂, h2, hok⟩ := ite_bind_eq_ok hok
    have h₂ : st₂.Enters modules := by
      split at h2
      · cases h2
        exact h₁
      · exact helseIfs h₁ h2
    exact keepsEnters_visitElsePart helse h₂ hok
  intro st st' h hok
  unfold visitIf at hok
  cases hl : st.lastStatement with
  | true =>
    rw [hl] at hok
    dsimp only [if_true] at hok
    split at hok
    · cases hok
      exact h
    · obtain ⟨st₁, hp, hok⟩ := bind_eq_ok hok
      cases hok
      have h₁ : st₁.Enters modules := @hparts (st.setLastStatement false) _ h hp
      exact h₁
  | false =>
    rw [hl] at hok
    simp only [Bool.false_eq_true, if_false] at hok
    split at hok
    · cases hok
      exact h
    · obtain ⟨st₁, hp, hok⟩ := bind_eq_ok hok
      cases hok
      exact (@hparts st.pushPlaceholder _ h hp).resolveTop _

theorem keepsEnters_visitWhile {body : StatementList}
    {visitBody : PouCompiler → Except String PouCompiler} (hbody : KeepsEnters modules visitBody) :
    KeepsEnters modules (visitWhile e body visitBody) := by
  intro st st' h hok
  unfold visitWhile at hok
  dsimp only at hok
  split at hok
  · cases hok
    exact h
  · obtain ⟨st₁, hb, hok⟩ := bind_eq_ok hok
    obtain ⟨next, -, hok⟩ := ite_bind_eq_ok hok
    cases hok
    have h₁ : st₁.Enters modules :=
      @hbody (st.setLastStatement false).pushPlaceholder.skipLabel _ h hb
    have h₂ : ((st₁.resolveTop st.label).setLastStatement st.lastStatement).Enters modules :=
      h₁.resolveTop st.label
    exact h₂.emplace (i := .whileInstruction e (st.label + 1) next) st.label trivial

end Selection

mutual

theorem keepsEnters_visit (modules : String → Option CalleeModule) :
    (s : Statement) → KeepsEnters modules (visit modules s)
  | .assertStatement _ => fun _ hok => by cases hok
  | .assumeStatement _ => fun _ hok => by cases hok
  | .assignmentStatement r e => keepsEnters_visitAssignmentStatement r e
  | .ifStatement _ thn elseIfs els =>
    keepsEnters_visitIf (keepsEnters_visitPart modules thn)
      (keepsEnters_visitElseIfs modules els.isEmpty elseIfs) (keepsEnters_visitPart modules els)
  | .invocationStatement callee pre post => keepsEnters_visitInvocationStatement callee pre post
  | .whileStatement _ body => keepsEnters_visitWhile (keepsEnters_visitPart modules body)
  | .caseStatement .nil _ => fun _ hok => by cases hok
  | .caseStatement (.cons _ thn elseIfs) els =>
    keepsEnters_visitIf (keepsEnters_visitPart modules thn)
      (keepsEnters_visitElseIfs modules els.isEmpty elseIfs) (keepsEnters_visitPart modules els)

theorem keepsEnters_visitPart (modules : String → Option CalleeModule) :
    (s : StatementList) → KeepsEnters modules (visitPart modules s)
  | .nil => fun _ hok => by cases hok
  | .cons s .nil => fun h hok => by
    unfold visitPart at hok
    obtain ⟨st₁, hv, hok⟩ := bind_eq_ok hok
    cases hok
    have h₁ : st₁.Enters modules :=
      keepsEnters_visit modules s (show (PouCompiler.setLastStatement true _).Enters modules from h)
        hv
    exact h₁
  | .cons s (.cons s' rest) => fun h hok => by
    unfold visitPart at hok
    obtain ⟨st₁, hv, hok⟩ := bind_eq_ok hok
    exact keepsEnters_visitPart modules (.cons s' rest) (keepsEnters_visit modules s h hv) hok

theorem keepsEnters_visitElseIfs (modules : String → Option CalleeModule) (elseEmpty : Bool) :
    (elseIfs : ElseIfStatements) → KeepsEnters modules (visitElseIfs modules elseEmpty elseIfs)
  | .nil => fun h hok => by
    cases hok
    exact h
  | .cons g part rest => fun h hok => by
    unfold visitElseIfs at hok
    dsimp only at hok
    obtain ⟨st₁, hp, hok⟩ := bind_eq_ok hok
    obtain ⟨x, -, hok⟩ := ite_bind_eq_ok hok
    have h₁ : st₁.Enters modules :=
      keepsEnters_visitPart modules part (show (PouCompiler.skipLabel _).Enters modules from h) hp
    exact keepsEnters_visitElseIfs modules elseEmpty rest
      (h₁.emplace (i := .ifInstruction g.expression _ x) _ trivial) hok

end

theorem visitBody_enters (modules : String → Option CalleeModule) (body : StatementList)
    {st st' : PouCompiler} (h : st.Enters modules) (hok : visitBody modules body st = .ok st') :
    st'.Enters modules := by
  match body with
  | .nil =>
    cases hok
    exact h
  | .cons s rest =>
    unfold visitBody at hok
    obtain ⟨st₁, hv, hok⟩ := bind_eq_ok hok
    exact visitBody_enters modules rest (keepsEnters_visit modules s h hv) hok

theorem Between.compile_enters {modules : String → Option CalleeModule} {body : StatementList}
    {st st' : PouCompiler} {M : Module} (h : st.Between)
    (hok : compile modules body st = .ok (M, st')) {l : ℤ} {i : Instruction}
    (hi : M.labelToInstruction.find? l = some i) : i.Enters modules := by
  obtain ⟨st₁, hbody, hok⟩ := bind_eq_ok hok
  cases hok
  have hstart : st.skipLabel.Enters modules := by
    intro l i hi
    have hinstructions : st.skipLabel.labelToInstruction = .empty := h.instructions
    unfold at? at hi
    rw [hinstructions] at hi
    cases hi
  exact visitBody_enters modules body hstart hbody l i hi

end PouCompiler

end Ahorn
