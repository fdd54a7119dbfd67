import Ahorn.MachineRuns
import Ahorn.PouCompiler

set_option autoImplicit false

/-!
# Lowered code and its meaning

`CodeAt f s l k` says that the instructions `f` hold code for `s` that is entered at `l` and left to
`k`, wherever its parts are placed. Such code and the structured meaning of `s` agree, also about
termination.
-/
namespace Ahorn

/-- One step over the label-to-instruction map: an assignment is followed by the goto at the next
label. -/
def flow (f : ℤ → Option Instruction) : ℤ × Memory → Option (ℤ × Memory)
  | (l, m) =>
    match f l with
    | some (.assignmentInstruction _ r e) =>
      match f (l + 1) with
      | some (.gotoInstruction t) => some (t, m.assign r e)
      | _ => none
    | some (.havocInstruction r) =>
      match f (l + 1) with
      | some (.gotoInstruction t) => some (t, m.havoc r)
      | _ => none
    | some (.ifInstruction e t x) => some (if m.holds e then t else x, m)
    | some (.whileInstruction e t x) => some (if m.holds e then t else x, m)
    | _ => none

/-- Code that branches on `e`, or no code at all if every part is empty. -/
def BranchAt (f : ℤ → Option Instruction) (e : Expression) (allEmpty : Bool)
    (thenCode elseCode : ℤ → ℤ → Prop) (l k : ℤ) : Prop :=
  (allEmpty = true ∧ l = k) ∨
    ∃ t x, f l = some (.ifInstruction e t x) ∧ thenCode t k ∧ elseCode x k

mutual

def Statement.CodeAt (f : ℤ → Option Instruction) : Statement → ℤ → ℤ → Prop
  | .assignmentStatement r e, l, k =>
    f l = some (PouCompiler.compileAssignment r e) ∧ f (l + 1) = some (.gotoInstruction k)
  | .ifStatement e thn elseIfs els, l, k =>
    BranchAt f e (thn.isEmpty && elseIfs.allEmpty && els.isEmpty) (thn.CodeAt f)
      (elseIfs.CodeAt f els.isEmpty (els.CodeAt f)) l k
  | .whileStatement e body, l, k =>
    ∃ b, f l = some (.whileInstruction e b k) ∧ body.CodeAt f b l
  | .caseStatement (.cons g thn elseIfs) els, l, k =>
    BranchAt f g.expression (thn.isEmpty && elseIfs.allEmpty && els.isEmpty) (thn.CodeAt f)
      (elseIfs.CodeAt f els.isEmpty (els.CodeAt f)) l k
  | _, _, _ => False

def StatementList.CodeAt (f : ℤ → Option Instruction) : StatementList → ℤ → ℤ → Prop
  | .nil, l, k => l = k
  | .cons s rest, l, k => ∃ c, s.CodeAt f l c ∧ rest.CodeAt f c k

def ElseIfStatements.CodeAt (f : ℤ → Option Instruction) (elseEmpty : Bool)
    (elseCode : ℤ → ℤ → Prop) : ElseIfStatements → ℤ → ℤ → Prop
  | .nil, l, k => elseCode l k
  | .cons g part rest, l, k =>
    BranchAt f g.expression (part.isEmpty && rest.allEmpty && elseEmpty) (part.CodeAt f)
      (rest.CodeAt f elseEmpty elseCode) l k

end

theorem flow_compileAssignment {f : ℤ → Option Instruction} {r : VariableReference}
    {e : Expression} {l k : ℤ} (m : Memory)
    (h : f l = some (PouCompiler.compileAssignment r e))
    (hg : f (l + 1) = some (.gotoInstruction k)) : flow f (l, m) = some (k, m.write r e) := by
  cases e <;> simp [flow, h, hg, PouCompiler.compileAssignment, Memory.write]

theorem StatementList.codeAt_of_isEmpty {f : ℤ → Option Instruction} {s : StatementList}
    {l : ℤ} (h : s.isEmpty = true) : s.CodeAt f l l := by
  cases s with
  | nil => rfl
  | cons _ _ => simp [StatementList.isEmpty] at h

theorem ElseIfStatements.select_of_allEmpty {m : Memory} {els : StatementList} :
    (elseIfs : ElseIfStatements) → elseIfs.allEmpty = true → els.isEmpty = true →
      (elseIfs.select m els).isEmpty = true
  | .nil, _, h => h
  | .cons g part rest, ha, h => by
    simp only [allEmpty, Bool.and_eq_true] at ha
    simp only [select]
    split_ifs
    · exact ha.1
    · exact select_of_allEmpty rest ha.2 h

theorem BranchAt.enters {f : ℤ → Option Instruction} {e : Expression} {allEmpty : Bool}
    {thenCode elseCode : ℤ → ℤ → Prop} {l k : ℤ} {m : Memory}
    (selected : StatementList) (h : BranchAt f e allEmpty thenCode elseCode l k)
    (hempty : allEmpty = true → selected.isEmpty = true)
    (hthen : ∀ t, m.holds e = true → thenCode t k → selected.CodeAt f t k)
    (helse : ∀ x, m.holds e = false → elseCode x k → ∃ n c, Runs (flow f) (x, m) n (c, m) ∧
      selected.CodeAt f c k) :
    (selected.isEmpty = true ∧ l = k) ∨
      ∃ n c, Runs (flow f) (l, m) (n + 1) (c, m) ∧ selected.CodeAt f c k := by
  rcases h with ⟨ha, rfl⟩ | ⟨t, x, hf, ht, hx⟩
  · exact Or.inl ⟨hempty ha, rfl⟩
  · refine Or.inr ?_
    cases hg : m.holds e with
    | true => exact ⟨0, t, .next (by simp [flow, hf, hg]) (.refl _), hthen t hg ht⟩
    | false =>
      obtain ⟨n, c, hr, hc⟩ := helse x hg hx
      exact ⟨n, c, .next (by simp [flow, hf, hg]) hr, hc⟩

theorem ElseIfStatements.enters {f : ℤ → Option Instruction} {m : Memory}
    {els : StatementList} {k : ℤ} : (elseIfs : ElseIfStatements) → (l : ℤ) →
      elseIfs.CodeAt f els.isEmpty (els.CodeAt f) l k →
      ∃ n c, Runs (flow f) (l, m) n (c, m) ∧ (elseIfs.select m els).CodeAt f c k
  | .nil, l, h => ⟨0, l, .refl _, h⟩
  | .cons g part rest, l, h => by
    have hstep := BranchAt.enters (m := m)
      ((ElseIfStatements.cons g part rest).select m els) h
      (by
        intro ha
        simp only [Bool.and_eq_true] at ha
        exact select_of_allEmpty _ (by simp [allEmpty, ha.1.1, ha.1.2]) ha.2)
      (by
        intro t hg ht
        rw [Guard.holds_expression] at hg
        simpa [select, hg] using ht)
      (by
        intro x hg hx
        rw [Guard.holds_expression] at hg
        obtain ⟨n, c, hr, hc⟩ := ElseIfStatements.enters rest x hx
        exact ⟨n, c, hr, by simpa [select, hg] using hc⟩)
    rcases hstep with ⟨he, rfl⟩ | ⟨n, c, hr, hc⟩
    · exact ⟨0, l, .refl _, StatementList.codeAt_of_isEmpty he⟩
    · exact ⟨n + 1, c, hr, hc⟩

theorem BranchAt.enters_selected {f : ℤ → Option Instruction} {g : Guard}
    {thn els : StatementList} {elseIfs : ElseIfStatements} {l k : ℤ} (m : Memory)
    (h : BranchAt f g.expression (thn.isEmpty && elseIfs.allEmpty && els.isEmpty) (thn.CodeAt f)
      (elseIfs.CodeAt f els.isEmpty (els.CodeAt f)) l k) :
    (((ElseIfStatements.cons g thn elseIfs).select m els).isEmpty = true ∧ l = k) ∨
      ∃ n c, Runs (flow f) (l, m) (n + 1) (c, m) ∧
        ((ElseIfStatements.cons g thn elseIfs).select m els).CodeAt f c k := by
  refine BranchAt.enters _ h ?_ ?_ ?_
  · intro ha
    simp only [Bool.and_eq_true] at ha
    exact ElseIfStatements.select_of_allEmpty _
      (by simp [ElseIfStatements.allEmpty, ha.1.1, ha.1.2]) ha.2
  · intro t hg ht
    rw [Guard.holds_expression] at hg
    simpa [ElseIfStatements.select, hg] using ht
  · intro x hg hx
    rw [Guard.holds_expression] at hg
    obtain ⟨n, c, hr, hc⟩ := ElseIfStatements.enters elseIfs x hx
    exact ⟨n, c, hr, by simpa [ElseIfStatements.select, hg] using hc⟩

/-- Lowered code follows every terminating execution of the structured program. -/
theorem Exec.reaches {f : ℤ → Option Instruction} {s : StatementList} {m m' : Memory}
    (h : Exec s m m') {l k : ℤ} (hc : s.CodeAt f l k) :
    Reaches (flow f) (l, m) (k, m') := by
  induction h generalizing l k with
  | nil m =>
    have hlk : l = k := hc
    subst hlk
    exact .refl _
  | assignment _ ih =>
    obtain ⟨c, ⟨hf, hg⟩, hrest⟩ := hc
    exact .head (flow_compileAssignment _ hf hg) (ih hrest)
  | @selection e thn els rest elseIfs m m₁ m' _ _ ihs ihr =>
    obtain ⟨c, hb, hrest⟩ := hc
    have hsel := BranchAt.enters_selected (g := .condition e) m hb
    rcases hsel with ⟨hempty, rfl⟩ | ⟨n, a, hrun, hcode⟩
    · exact (ihs (StatementList.codeAt_of_isEmpty hempty)).trans (ihr hrest)
    · exact Reaches.trans ⟨n + 1, hrun⟩ ((ihs hcode).trans (ihr hrest))
  | @caseSelection cases els rest m m₁ m' _ _ ihs ihr =>
    obtain ⟨c, hb, hrest⟩ := hc
    cases cases with
    | nil => exact False.elim hb
    | cons g thn elseIfs =>
      rcases BranchAt.enters_selected m hb with ⟨hempty, rfl⟩ | ⟨n, a, hrun, hcode⟩
      · exact (ihs (StatementList.codeAt_of_isEmpty hempty)).trans (ihr hrest)
      · exact Reaches.trans ⟨n + 1, hrun⟩ ((ihs hcode).trans (ihr hrest))
  | whileFalse hg _ ih =>
    obtain ⟨c, ⟨b, hf, _⟩, hrest⟩ := hc
    exact .head (by simp [flow, hf, hg]) (ih hrest)
  | whileTrue hg _ _ ihb ihr =>
    obtain ⟨c, ⟨b, hf, hbody⟩, hrest⟩ := hc
    exact .head (by simp [flow, hf, hg]) ((ihb hbody).trans (ihr ⟨c, ⟨b, hf, hbody⟩, hrest⟩))

section Backward

variable {f : ℤ → Option Instruction} {x : ℤ} {m' : Memory}

/-- What a run of at most `n` steps from the code of `s` to the end tells about `s`. -/
def Explained (f : ℤ → Option Instruction) (x : ℤ) (m' : Memory) (n : ℕ)
    (s : StatementList) : Prop :=
  ∀ (l k : ℤ) (m : Memory), s.CodeAt f l k → Runs (flow f) (l, m) n (x, m') →
    ∃ m₁ j, j ≤ n ∧ Exec s m m₁ ∧ Runs (flow f) (k, m₁) j (x, m')

theorem flow_end (hx : f x = none) (m : Memory) : flow f (x, m) = none := by
  simp [flow, hx]

theorem explained_selection (hx : f x = none) {n : ℕ} (ih : ∀ j < n, ∀ s, Explained f x m' j s)
    {g : Guard} {thn els rest : StatementList} {elseIfs : ElseIfStatements} {l c k : ℤ}
    {m : Memory} (hrest : Explained f x m' n rest)
    (hb : BranchAt f g.expression (thn.isEmpty && elseIfs.allEmpty && els.isEmpty) (thn.CodeAt f)
      (elseIfs.CodeAt f els.isEmpty (els.CodeAt f)) l c)
    (hcode : rest.CodeAt f c k) (hrun : Runs (flow f) (l, m) n (x, m')) :
    ∃ m₁ m₂ j, j ≤ n ∧ Exec ((ElseIfStatements.cons g thn elseIfs).select m els) m m₂ ∧
      Exec rest m₂ m₁ ∧ Runs (flow f) (k, m₁) j (x, m') := by
  rcases BranchAt.enters_selected m hb with ⟨hempty, rfl⟩ | ⟨i, a, hr, hsel⟩
  · obtain ⟨m₁, j, hj, hexec, hrun'⟩ := hrest _ _ _ hcode hrun
    refine ⟨m₁, m, j, hj, ?_, hexec, hrun'⟩
    cases hs : (ElseIfStatements.cons g thn elseIfs).select m els with
    | nil => exact .nil m
    | cons _ _ => simp [hs, StatementList.isEmpty] at hempty
  · obtain ⟨j, rfl, hj⟩ := hrun.suffix hr (flow_end hx m')
    obtain ⟨m₂, j₂, hj₂, hexec₂, hrun₂⟩ := ih j (by omega) _ _ _ _ hsel hj
    obtain ⟨m₁, j₁, hj₁, hexec₁, hrun₁⟩ := ih j₂ (by omega) rest _ _ _ hcode hrun₂
    exact ⟨m₁, m₂, j₁, by omega, hexec₂, hexec₁, hrun₁⟩

theorem explained_step (hx : f x = none) {n : ℕ} (ih : ∀ j < n, ∀ s, Explained f x m' j s) :
    (s : StatementList) → Explained f x m' n s
  | .nil => by
    intro l k m hc hrun
    have hlk : l = k := hc
    subst hlk
    exact ⟨m, n, le_refl n, .nil m, hrun⟩
  | .cons s rest => by
    have hrest := explained_step hx ih rest
    intro l k m hc hrun
    obtain ⟨c, hs, hcode⟩ := hc
    match s, hs with
    | .assignmentStatement r e, ⟨hf, hg⟩ =>
      obtain ⟨j, rfl, hj⟩ :=
        hrun.of_step (flow_compileAssignment m hf hg) (flow_end hx m')
      obtain ⟨m₁, i, hi, hexec, hrun'⟩ := ih j (by omega) rest _ _ _ hcode hj
      exact ⟨m₁, i, by omega, .assignment hexec, hrun'⟩
    | .ifStatement e thn elseIfs els, hb =>
      obtain ⟨m₁, m₂, j, hj, h₂, h₁, hrun'⟩ :=
        explained_selection (g := .condition e) hx ih hrest hb hcode hrun
      exact ⟨m₁, j, hj, .selection h₂ h₁, hrun'⟩
    | .caseStatement (.cons g thn elseIfs) els, hb =>
      obtain ⟨m₁, m₂, j, hj, h₂, h₁, hrun'⟩ :=
        explained_selection hx ih hrest hb hcode hrun
      exact ⟨m₁, j, hj, .caseSelection h₂ h₁, hrun'⟩
    | .whileStatement e body, ⟨b, hf, hbody⟩ =>
      cases hg : m.holds e with
      | false =>
        obtain ⟨j, rfl, hj⟩ := hrun.of_step (d := (c, m)) (by simp [flow, hf, hg]) (flow_end hx m')
        obtain ⟨m₁, i, hi, hexec, hrun'⟩ := ih j (by omega) rest _ _ _ hcode hj
        exact ⟨m₁, i, by omega, .whileFalse hg hexec, hrun'⟩
      | true =>
        obtain ⟨j, rfl, hj⟩ := hrun.of_step (d := (b, m)) (by simp [flow, hf, hg]) (flow_end hx m')
        obtain ⟨m₂, i, hi, hexec₂, hrun₂⟩ := ih j (by omega) body _ _ _ hbody hj
        -- the body leads back to the header, with fewer steps left
        obtain ⟨m₁, i₁, hi₁, hexec₁, hrun₁⟩ := ih i (by omega)
          (.cons (.whileStatement e body) rest) _ _ _ ⟨c, ⟨b, hf, hbody⟩, hcode⟩ hrun₂
        exact ⟨m₁, i₁, by omega, .whileTrue hg hexec₂ hexec₁, hrun₁⟩

theorem explained (hx : f x = none) (n : ℕ) : ∀ s, Explained f x m' n s := by
  induction n using Nat.strongRecOn with
  | ind n ih => exact explained_step hx ih

end Backward

theorem StatementList.CodeAt.reaches_iff {f : ℤ → Option Instruction} {s : StatementList}
    {l x : ℤ} (hc : s.CodeAt f l x) (hx : f x = none) (m m' : Memory) :
    Reaches (flow f) (l, m) (x, m') ↔ Exec s m m' := by
  constructor
  · rintro ⟨n, hn⟩
    obtain ⟨m₁, j, _, hexec, hrun⟩ := explained hx n s _ _ _ hc hn
    have hend : (x, m') = (x, m₁) :=
      hrun.end_unique (.refl _) (flow_end hx m') (flow_end hx m₁)
    cases hend
    exact hexec
  · intro h
    exact h.reaches hc

end Ahorn
