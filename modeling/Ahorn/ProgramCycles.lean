import Ahorn.Loops
import Ahorn.ProgramRuns

set_option autoImplicit false

/-!
# The cycles of a run

An execution goes through one cycle after the other, and there is one execution for the values of
the inputs: what it does in a cycle is told by the configurations on the way from the one the cycle
begins with to the one the next cycle begins with.
-/
namespace Ahorn.Etfa.Program

variable {p : Program} {inputs : Inputs} {conf conf' : Configuration}

theorem step_cycle (h : p.step inputs conf = .ok conf') :
    conf'.cycle = conf.cycle ∨ conf'.cycle = conf.cycle + 1 := by
  unfold step at h
  split at h
  · rename_i frame frames _
    unfold stepIn at h
    split at h
    · obtain ⟨_, -, h⟩ := bind_eq_ok h
      cases h
      exact Or.inl rfl
    · split at h
      · obtain ⟨_, -, h⟩ := bind_eq_ok h
        cases h
        exact Or.inl rfl
      · obtain ⟨_, -, h⟩ := bind_eq_ok h
        obtain ⟨_, -, h⟩ := bind_eq_ok h
        cases h
        exact Or.inl rfl
      · unfold enter at h
        obtain ⟨_, -, h⟩ := bind_eq_ok h
        obtain ⟨_, -, h⟩ := bind_eq_ok h
        split at h
        · split at h
          · obtain ⟨_, -, h⟩ := bind_eq_ok h
            cases h
            exact Or.inl rfl
          · cases h
        · cases h
      · obtain ⟨_, -, h⟩ := bind_eq_ok h
        obtain ⟨_, -, h⟩ := bind_eq_ok h
        cases h
        exact Or.inl rfl
      · cases h
    · split at h
      · obtain ⟨_, -, h⟩ := bind_eq_ok h
        cases h
        exact Or.inr rfl
      · unfold leave at h
        split at h
        · obtain ⟨_, -, h⟩ := bind_eq_ok h
          cases h
          exact Or.inl rfl
        · cases h
      · cases h
  · cases h

theorem runs_cycle (h : p.Runs inputs conf conf') : conf.cycle ≤ conf'.cycle := by
  induction h with
  | refl => exact Nat.le_refl _
  | tail _ hstep ih =>
    rcases step_cycle hstep with heq | heq
    · exact ih.trans (Nat.le_of_eq heq.symm)
    · exact ih.trans (heq ▸ Nat.le_succ _)

theorem runs_taken (h : p.Runs inputs conf conf') :
    ∃ branches, conf'.branches = conf.branches ++ branches ∧ ∀ branch ∈ branches,
      ∃ conf₁ conf₂ taken, p.Runs inputs conf conf₁ ∧ p.step inputs conf₁ = .ok conf₂ ∧
        p.Runs inputs conf₂ conf' ∧ conf₂.branches = conf₁.branches ++ taken ∧ branch ∈ taken := by
  induction h with
  | refl => exact ⟨[], (List.append_nil _).symm, fun _ h => absurd h List.not_mem_nil⟩
  | @tail conf₁ conf₂ hruns hstep ih =>
    obtain ⟨branches, hbranches, ih⟩ := ih
    obtain ⟨taken, htaken⟩ := step_branches hstep
    refine ⟨branches ++ taken, ?_, fun branch hbranch => ?_⟩
    · rw [← htaken, hbranches, List.append_assoc]
    · rcases List.mem_append.mp hbranch with hbranch | hbranch
      · obtain ⟨conf₃, conf₄, taken', hruns₃, hstep₃, hruns₄, htaken', hmem⟩ := ih branch hbranch
        exact ⟨conf₃, conf₄, taken', hruns₃, hstep₃, hruns₄.tail hstep, htaken', hmem⟩
      · exact ⟨conf₁, conf₂, taken, hruns, hstep, .refl, htaken.symm, hbranch⟩

variable (p inputs) (conf₀ : Configuration) (k : ℕ)

/-- The execution goes through a label in a cycle. -/
def Executes (label : ℤ) : Prop :=
  ∃ conf, p.Runs inputs conf₀ conf ∧ conf.cycle = k ∧ conf.vertex.label = label

/-- The execution takes the side of a branch in a cycle. -/
def Takes (branch : Branch) : Prop :=
  ∃ conf conf' branches, p.Runs inputs conf₀ conf ∧ p.Runs inputs conf conf' ∧ conf.cycle = k ∧
    conf'.cycle = k ∧ conf'.branches = conf.branches ++ branches ∧ branch ∈ branches

/-- The last configuration of a cycle. -/
def Ends (conf : Configuration) : Prop :=
  ∃ conf', p.Runs inputs conf₀ conf ∧ conf.cycle = k ∧ p.step inputs conf = .ok conf' ∧
    conf'.cycle = k + 1

/-- The cycle begins with the configuration, which all later ones come from. -/
structure Begins (conf : Configuration) : Prop where
  runs : p.Runs inputs conf₀ conf
  cycle : conf.cycle = k
  first : ∀ conf', p.Runs inputs conf₀ conf' → k ≤ conf'.cycle → p.Runs inputs conf conf'

variable {p inputs conf₀ k}

theorem Begins.start (h : conf₀.cycle = 0) : p.Begins inputs conf₀ 0 conf₀ :=
  ⟨.refl, h, fun _ h _ => h⟩

theorem Ends.unique (h : p.Ends inputs conf₀ k conf) (h' : p.Ends inputs conf₀ k conf') :
    conf = conf' := by
  obtain ⟨next, hruns, hk, hstep, hnext⟩ := h
  obtain ⟨next', hruns', hk', hstep', hnext'⟩ := h'
  have hunique : Relator.RightUnique fun conf conf' => p.step inputs conf = .ok conf' :=
    fun _ _ _ hb hc => Except.ok.inj (hb.symm.trans hc)
  rcases Relation.ReflTransGen.total_of_right_unique hunique hruns hruns' with hle | hle
  · refine ((runs_cases hle hstep).resolve_right fun hrest => ?_).symm
    have hcycle := runs_cycle hrest
    omega
  · refine (runs_cases hle hstep').resolve_right fun hrest => ?_
    have hcycle := runs_cycle hrest
    omega

section Cycle

variable {visits : List Configuration}

theorem Begins.next (h : p.Begins inputs conf₀ k conf)
    (hvisits : Loop.Visits (fun conf => conf.cycle = k) (p.step inputs) conf visits conf')
    (hcycle : conf'.cycle = k + 1) : p.Begins inputs conf₀ (k + 1) conf' := by
  refine ⟨h.runs.trans hvisits.reaches_of_mem.1, hcycle, fun conf₁ hruns hk => ?_⟩
  have hreaches := h.first conf₁ hruns (Nat.le_of_succ_le hk)
  refine (hvisits.mem_or_reaches hreaches).resolve_left fun hmem => ?_
  have heq : conf₁.cycle = k := of_decide_eq_true (hvisits.of_mem _ hmem)
  omega

theorem Begins.mem_iff (h : p.Begins inputs conf₀ k conf)
    (hvisits : Loop.Visits (fun conf => conf.cycle = k) (p.step inputs) conf visits conf')
    (hcycle : conf'.cycle = k + 1) {conf₁ : Configuration} :
    conf₁ ∈ visits ↔ p.Runs inputs conf₀ conf₁ ∧ conf₁.cycle = k := by
  constructor
  · intro hmem
    exact ⟨h.runs.trans (hvisits.reaches_of_mem.2 _ hmem).1, of_decide_eq_true (hvisits.of_mem _ hmem)⟩
  · rintro ⟨hruns, hk⟩
    refine (hvisits.mem_or_reaches (h.first conf₁ hruns hk.ge)).resolve_right fun hreaches => ?_
    have hle := runs_cycle hreaches
    omega

theorem Begins.executes_iff (h : p.Begins inputs conf₀ k conf)
    (hvisits : Loop.Visits (fun conf => conf.cycle = k) (p.step inputs) conf visits conf')
    (hcycle : conf'.cycle = k + 1) {label : ℤ} :
    p.Executes inputs conf₀ k label ↔ ∃ conf₁ ∈ visits, conf₁.vertex.label = label := by
  unfold Executes
  simp only [h.mem_iff hvisits hcycle, and_assoc]

theorem Begins.takes_iff (h : p.Begins inputs conf₀ k conf)
    (hvisits : Loop.Visits (fun conf => conf.cycle = k) (p.step inputs) conf visits conf')
    (hcycle : conf'.cycle = k + 1) {branch : Branch} :
    p.Takes inputs conf₀ k branch ↔ ∃ conf₁ ∈ visits, ∃ conf₂ taken,
      p.step inputs conf₁ = .ok conf₂ ∧ conf₂.cycle = k ∧
        conf₂.branches = conf₁.branches ++ taken ∧ branch ∈ taken := by
  constructor
  · rintro ⟨conf₁, conf₂, branches, hruns, hruns', hk, hk', hbranches, hmem⟩
    obtain ⟨branches', hbranches', htaken⟩ := runs_taken hruns'
    have heq : branches' = branches := List.append_cancel_left (hbranches'.symm.trans hbranches)
    obtain ⟨conf₃, conf₄, taken, hruns₃, hstep, hruns₄, hgrown, hmem'⟩ := htaken branch (heq ▸ hmem)
    have hle := runs_cycle hruns₃
    have hle' := runs_cycle hruns₄
    have hsame : conf₃.cycle = k ∧ conf₄.cycle = k := by
      rcases step_cycle hstep with hcycle' | hcycle' <;> omega
    exact ⟨conf₃, (h.mem_iff hvisits hcycle).mpr ⟨hruns.trans hruns₃, hsame.1⟩, conf₄, taken, hstep,
      hsame.2, hgrown, hmem'⟩
  · rintro ⟨conf₁, hconf₁, conf₂, taken, hstep, hk, hgrown, hmem⟩
    obtain ⟨hruns, hk₁⟩ := (h.mem_iff hvisits hcycle).mp hconf₁
    exact ⟨conf₁, conf₂, taken, hruns, .single hstep, hk₁, hk, hgrown, hmem⟩

end Cycle

end Ahorn.Etfa.Program
