import Mathlib.Data.List.Forall2
import Mathlib.Data.Nat.Notation
import Mathlib.Logic.Relation

set_option autoImplicit false

/-!
# Loops

A loop takes one step after the other while its condition holds. What it does is told by the states
it goes through, so two loops that move in step are compared state by state.
-/
namespace Ahorn.Loop

variable {ε σ τ : Type}

/-- The loop, for at most as many steps as there is fuel; `exhausted` is the failure without. -/
def run (exhausted : ε) (continues : σ → Bool) (step : σ → Except ε σ) : ℕ → σ → Except ε σ
  | 0, s => if continues s then .error exhausted else .ok s
  | n + 1, s =>
    if continues s then do
      let s ← step s
      run exhausted continues step n s
    else .ok s

/-- The states the loop goes through before it ends, and the one it ends in. -/
inductive Visits (continues : σ → Bool) (step : σ → Except ε σ) : σ → List σ → σ → Prop
  | done {s : σ} (h : continues s = false) : Visits continues step s [] s
  | next {s s' final : σ} {visits : List σ} (h : continues s = true) (hstep : step s = .ok s')
    (rest : Visits continues step s' visits final) : Visits continues step s (s :: visits) final

variable {exhausted : ε} {continues : σ → Bool} {step : σ → Except ε σ} {s s' final : σ}
  {visits : List σ} {n m : ℕ}

theorem run_of_not_continues (h : continues s = false) :
    run exhausted continues step n s = .ok s := by
  cases n with
  | zero =>
    unfold run
    rw [h]
    rfl
  | succ n =>
    unfold run
    rw [h]
    rfl

theorem run_succ (h : continues s = true) (hstep : step s = .ok s') :
    run exhausted continues step (n + 1) s = run exhausted continues step n s' := by
  conv_lhs => unfold run
  rw [h, if_pos rfl, hstep]
  rfl

/-- A loop that ends has gone through some states. -/
theorem exists_visits (h : run exhausted continues step n s = .ok final) :
    ∃ visits, Visits continues step s visits final ∧ visits.length ≤ n := by
  induction n generalizing s with
  | zero =>
    unfold run at h
    cases hc : continues s with
    | true =>
      rw [hc] at h
      cases h
    | false =>
      rw [hc] at h
      cases h
      exact ⟨[], .done hc, Nat.le_refl 0⟩
  | succ n ih =>
    cases hc : continues s with
    | false =>
      rw [run_of_not_continues hc] at h
      cases h
      exact ⟨[], .done hc, Nat.zero_le _⟩
    | true =>
      cases hstep : step s with
      | error e =>
        unfold run at h
        rw [hc, if_pos rfl, hstep] at h
        cases h
      | ok s' =>
        rw [run_succ hc hstep] at h
        obtain ⟨visits, hvisits, hlength⟩ := ih h
        exact ⟨s :: visits, .next hc hstep hvisits, Nat.succ_le_succ hlength⟩

theorem Visits.run_eq (h : Visits continues step s visits final) (hn : visits.length ≤ n) :
    run exhausted continues step n s = .ok final := by
  induction h generalizing n with
  | done hc => exact run_of_not_continues hc
  | next hc hstep _ ih =>
    cases n with
    | zero => cases hn
    | succ n =>
      rw [run_succ hc hstep]
      exact ih (Nat.le_of_succ_le_succ hn)

theorem Visits.not_continues (h : Visits continues step s visits final) :
    continues final = false := by
  induction h with
  | done hc => exact hc
  | next _ _ _ ih => exact ih

theorem Visits.of_mem (h : Visits continues step s visits final) :
    ∀ v ∈ visits, continues v = true := by
  induction h with
  | done _ => exact fun v hv => absurd hv List.not_mem_nil
  | next hc _ _ ih => exact List.forall_mem_cons.mpr ⟨hc, ih⟩

theorem Visits.keeps {P : σ → Prop} (h : Visits continues step s visits final)
    (hP : ∀ v v', continues v = true → P v → step v = .ok v' → P v') (hs : P s) :
    (∀ v ∈ visits, P v) ∧ P final := by
  induction h with
  | done _ => exact ⟨fun v hv => absurd hv List.not_mem_nil, hs⟩
  | next hc hstep _ ih =>
    obtain ⟨hvisits, hfinal⟩ := ih (hP _ _ hc hs hstep)
    exact ⟨List.forall_mem_cons.mpr ⟨hs, hvisits⟩, hfinal⟩

theorem Visits.leads {Q : σ → σ → Prop} (h : Visits continues step s visits final)
    (hstep : ∀ v v', continues v = true → step v = .ok v' → Q v v')
    (hkeeps : ∀ u v v', Q u v → step v = .ok v' → Q u v') : ∀ v ∈ visits, Q v final := by
  induction h with
  | done _ => exact fun v hv => absurd hv List.not_mem_nil
  | @next s s' final visits hc hs hrest ih =>
    refine List.forall_mem_cons.mpr ⟨?_, ih⟩
    exact (hrest.keeps (P := Q s) (fun v v' _ hv => hkeeps s v v' hv) (hstep _ _ hc hs)).2

theorem Visits.simulates {continues' : τ → Bool} {step' : τ → Except ε τ} {R : σ → τ → Prop} {t : τ}
    (h : Visits continues step s visits final)
    (hc : ∀ v w, R v w → continues v = continues' w)
    (hR : ∀ v ∈ visits, ∀ v' w, R v w → step v = .ok v' → ∃ w', step' w = .ok w' ∧ R v' w')
    (ht : R s t) :
    ∃ visits' final', Visits continues' step' t visits' final' ∧ List.Forall₂ R visits visits' ∧
      R final final' := by
  induction h generalizing t with
  | done hdone => exact ⟨[], t, .done ((hc _ _ ht).symm.trans hdone), .nil, ht⟩
  | next hcontinues hstep _ ih =>
    obtain ⟨hhead, hrest⟩ := List.forall_mem_cons.mp hR
    obtain ⟨t', ht', hR'⟩ := hhead _ _ ht hstep
    obtain ⟨visits', final', hvisits, hall, hfinal⟩ := ih hrest hR'
    exact ⟨t :: visits', final', .next ((hc _ _ ht).symm.trans hcontinues) ht' hvisits,
      .cons ht hall, hfinal⟩

theorem Visits.collects {Q G : σ → Prop} (h : Visits continues step s visits final)
    (hQ : ∀ v ∈ visits, ∀ v', step v = .ok v' → (Q v' ↔ Q v ∨ G v)) :
    Q final ↔ Q s ∨ ∃ v ∈ visits, G v := by
  induction h with
  | done _ =>
    refine ⟨Or.inl, fun h => h.resolve_right ?_⟩
    rintro ⟨v, hv, -⟩
    cases hv
  | next _ hstep _ ih =>
    obtain ⟨hhead, hrest⟩ := List.forall_mem_cons.mp hQ
    rw [ih hrest, hhead _ hstep, List.exists_mem_cons_iff, or_assoc]

theorem Visits.mem_or_reaches {v : σ} (h : Visits continues step s visits final)
    (hv : Relation.ReflTransGen (fun s s' => step s = .ok s') s v) :
    v ∈ visits ∨ Relation.ReflTransGen (fun s s' => step s = .ok s') final v := by
  induction h with
  | done _ => exact Or.inr hv
  | next _ hstep _ ih =>
    rcases hv.cases_head with rfl | ⟨s', hs', hrest⟩
    · exact Or.inl List.mem_cons_self
    · rw [hstep] at hs'
      cases hs'
      exact (ih hrest).imp_left (List.mem_cons_of_mem _)

theorem Visits.reaches_of_mem (h : Visits continues step s visits final) :
    Relation.ReflTransGen (fun s s' => step s = .ok s') s final ∧
    ∀ v ∈ visits, Relation.ReflTransGen (fun s s' => step s = .ok s') s v ∧ ∃ v', step v = .ok v' := by
  induction h with
  | done _ => exact ⟨.refl, fun v hv => absurd hv List.not_mem_nil⟩
  | next _ hstep _ ih =>
    exact ⟨.head hstep ih.1, List.forall_mem_cons.mpr
      ⟨⟨.refl, _, hstep⟩, fun v hv => ⟨.head hstep (ih.2 v hv).1, (ih.2 v hv).2⟩⟩⟩

theorem exists_mem_iff {α β : Type} {R : α → β → Prop} {P : α → Prop} {Q : β → Prop} {as : List α}
    {bs : List β} (h : List.Forall₂ R as bs) (hPQ : ∀ a ∈ as, ∀ b, R a b → (P a ↔ Q b)) :
    (∃ a ∈ as, P a) ↔ ∃ b ∈ bs, Q b := by
  induction h with
  | nil => exact ⟨fun ⟨a, ha, _⟩ => absurd ha List.not_mem_nil, fun ⟨b, hb, _⟩ => absurd hb List.not_mem_nil⟩
  | cons hab _ ih =>
    obtain ⟨hhead, hrest⟩ := List.forall_mem_cons.mp hPQ
    rw [List.exists_mem_cons_iff, List.exists_mem_cons_iff, hhead _ hab, ih hrest]

end Ahorn.Loop
