import Mathlib.Data.Nat.Notation
import Mathlib.Logic.Relation

set_option autoImplicit false

/-!
# Runs of a deterministic machine

Finite runs of a partial step function, counted in steps.
-/
namespace Ahorn

variable {σ : Type}

/-- A run of the given number of steps. -/
inductive Runs (step : σ → Option σ) : σ → ℕ → σ → Prop where
  | refl (c : σ) : Runs step c 0 c
  | next {c d e : σ} {n : ℕ} (h : step c = some d) (tail : Runs step d n e) :
      Runs step c (n + 1) e

/-- Some run leads from the one configuration to the other. -/
def Reaches (step : σ → Option σ) (c d : σ) : Prop := ∃ n, Runs step c n d

namespace Runs

variable {step : σ → Option σ}

theorem trans {c d e : σ} {n k : ℕ} (h : Runs step c n d) (h' : Runs step d k e) :
    Runs step c (n + k) e := by
  induction h with
  | refl _ => simpa using h'
  | next hs _ ih =>
    simpa only [Nat.add_assoc, Nat.add_comm, Nat.add_left_comm] using Runs.next hs (ih h')

theorem of_step {c d e : σ} {n : ℕ} (h : Runs step c n e) (hs : step c = some d)
    (hend : step e = none) : ∃ k, n = k + 1 ∧ Runs step d k e := by
  cases h with
  | refl _ => simp [hs] at hend
  | next h tail =>
    rw [hs] at h
    cases h
    exact ⟨_, rfl, tail⟩

theorem suffix {c d e : σ} {n k : ℕ} (h : Runs step c n e) (h' : Runs step c k d)
    (hend : step e = none) : ∃ j, n = k + j ∧ Runs step d j e := by
  induction h' generalizing n with
  | refl _ => exact ⟨n, (Nat.zero_add n).symm, h⟩
  | next hs _ ih =>
    obtain ⟨j, rfl, hj⟩ := h.of_step hs hend
    obtain ⟨i, rfl, hi⟩ := ih hj
    exact ⟨i, by omega, hi⟩

theorem end_unique {c d e : σ} {n k : ℕ} (h : Runs step c n e) (h' : Runs step c k d)
    (he : step e = none) (hd : step d = none) : e = d := by
  obtain ⟨j, _, hj⟩ := h.suffix h' he
  cases hj with
  | refl _ => rfl
  | next hs _ => simp [hd] at hs

end Runs

namespace Reaches

variable {step : σ → Option σ}

theorem refl (c : σ) : Reaches step c c := ⟨0, .refl c⟩

theorem head {c d e : σ} (hs : step c = some d) (h : Reaches step d e) : Reaches step c e := by
  obtain ⟨n, hn⟩ := h
  exact ⟨n + 1, .next hs hn⟩

theorem single {c d : σ} (hs : step c = some d) : Reaches step c d := head hs (refl d)

theorem trans {c d e : σ} (h : Reaches step c d) (h' : Reaches step d e) : Reaches step c e := by
  obtain ⟨n, hn⟩ := h
  obtain ⟨k, hk⟩ := h'
  exact ⟨n + k, hn.trans hk⟩

theorem iff_reflTransGen {R : σ → σ → Prop} {P : σ → Prop}
    (hR : ∀ c d, P c → (R c d ↔ step c = some d)) (hP : ∀ c d, P c → step c = some d → P d)
    {c e : σ} (hc : P c) : Relation.ReflTransGen R c e ↔ Reaches step c e := by
  constructor
  · intro h
    induction h using Relation.ReflTransGen.head_induction_on with
    | refl => exact refl e
    | head hcd _ ih =>
      have hs := (hR _ _ hc).mp hcd
      exact head hs (ih (hP _ _ hc hs))
  · rintro ⟨n, h⟩
    induction h with
    | refl _ => exact .refl
    | next hs _ ih => exact .head ((hR _ _ hc).mpr hs) (ih (hP _ _ hc hs))

end Reaches

end Ahorn
