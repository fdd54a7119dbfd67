import Mathlib.Data.List.Basic
import Mathlib.Data.Nat.Init

set_option autoImplicit false

/-!
# Worklists

A loop takes the first element of a queue; what the step asks for comes behind the others. An
element may have to wait for others, in which case it goes to the end of the queue again. The loop
ends if some element never has to wait, and if the elements that do not wait use something up.
-/
namespace Ahorn.Worklist

section Loop

variable {ε α β σ : Type}

/-- The loop, for at most as many steps as there is fuel; `exhausted` is the failure without. -/
def run (exhausted : ε) (next : α → σ → Except ε (List α × σ)) : ℕ → List α → σ → Except ε σ
  | _, [], s => .ok s
  | 0, _ :: _, _ => .error exhausted
  | n + 1, a :: q, s => do
    let (l, s) ← next a s
    run exhausted next n (q ++ l) s

variable {exhausted : ε} {next : α → σ → Except ε (List α × σ)} {a : α} {q l : List α} {s s' : σ}

@[simp] theorem run_nil (n : ℕ) : run exhausted next n [] s = .ok s := by
  cases n <;> rfl

theorem run_cons {n : ℕ} (h : next a s = .ok (l, s')) :
    run exhausted next (n + 1) (a :: q) s = run exhausted next n (q ++ l) s' := by
  rw [run, h]
  rfl

/-- What a loop does: the queue and the state it comes to, and what it has emitted on the way. -/
inductive Traces (next : α → σ → Except ε (List α × σ)) (emit : α → σ → List β) (q₀ : List α)
    (s₀ : σ) : List β → List α → σ → Prop
  | start : Traces next emit q₀ s₀ [] q₀ s₀
  | step {t : List β} {a : α} {q l : List α} {s s' : σ} (h : Traces next emit q₀ s₀ t (a :: q) s)
    (hnext : next a s = .ok (l, s')) : Traces next emit q₀ s₀ (t ++ emit a s) (q ++ l) s'

variable {emit : α → σ → List β} {q₀ : List α} {s₀ : σ} {t : List β}

theorem Traces.run_eq (h : Traces next emit q₀ s₀ t q s) {n : ℕ}
    (hrun : run exhausted next n q₀ s₀ = .ok s') : ∃ m, run exhausted next m q s = .ok s' := by
  induction h with
  | start => exact ⟨n, hrun⟩
  | step _ hnext ih =>
    obtain ⟨m, hm⟩ := ih
    cases m with
    | zero => cases hm
    | succ m =>
      rw [run_cons hnext] at hm
      exact ⟨m, hm⟩

theorem exists_emitted {b : β} (h : Traces next emit q₀ s₀ t q s) (hb : b ∈ t) :
    ∃ t₁ a q₁ l₁ s₁ s₂, Traces next emit q₀ s₀ t₁ (a :: q₁) s₁ ∧ next a s₁ = .ok (l₁, s₂) ∧
      b ∈ emit a s₁ := by
  induction h with
  | start => cases hb
  | @step t a q l s₁ s₂ h hnext ih =>
    rcases List.mem_append.mp hb with hb | hb
    · exact ih hb
    · exact ⟨t, a, q, l, s₁, s₂, h, hnext, hb⟩

theorem exists_next {n : ℕ} (h : run exhausted next n (a :: q) s = .ok s') :
    ∃ l s₁, next a s = .ok (l, s₁) := by
  cases n with
  | zero => cases h
  | succ n =>
    rw [run] at h
    cases hnext : next a s with
    | error e =>
      rw [hnext] at h
      cases h
    | ok r => exact ⟨r.1, r.2, rfl⟩

/-- What keeps a loop going: waiting elements change nothing, some element does not wait, and those
that do not wait make the state smaller or the queue shorter. -/
structure Progress (next : α → σ → Except ε (List α × σ)) (Inv : List α → σ → Prop)
    (Waits : α → σ → Prop) (size : σ → ℕ) : Prop where
  waits : ∀ {a q s}, Inv (a :: q) s → Waits a s → next a s = .ok ([a], s) ∧ Inv (q ++ [a]) s
  works : ∀ {a q s}, Inv (a :: q) s → ¬ Waits a s → ∃ l s', next a s = .ok (l, s') ∧
    Inv (q ++ l) s' ∧ (size s' < size s ∨ size s' = size s ∧ l = [])
  ready : ∀ {q s}, Inv q s → q ≠ [] → ∃ a ∈ q, ¬ Waits a s

variable {Inv : List α → σ → Prop} {Waits : α → σ → Prop} {size : σ → ℕ}

theorem exists_first {P : α → Prop} (h : ∃ a ∈ q, ¬ P a) :
    ∃ front a back, q = front ++ a :: back ∧ (∀ b ∈ front, P b) ∧ ¬ P a := by
  induction q with
  | nil => simp at h
  | cons b q ih =>
    by_cases hb : P b
    · rw [List.exists_mem_cons_iff] at h
      obtain ⟨front, a, back, rfl, hfront, ha⟩ := ih (h.resolve_left (not_not.mpr hb))
      exact ⟨b :: front, a, back, rfl, List.forall_mem_cons.mpr ⟨hb, hfront⟩, ha⟩
    · exact ⟨[], b, q, rfl, nofun, hb⟩

variable (exhausted) in
theorem Progress.rotates (hp : Progress next Inv Waits size) {front back : List α}
    (hfront : ∀ b ∈ front, Waits b s) (h : Inv (front ++ back) s) :
    Inv (back ++ front) s ∧ ∀ n, run exhausted next (n + front.length) (front ++ back) s =
      run exhausted next n (back ++ front) s := by
  induction front generalizing back with
  | nil => simpa using h
  | cons b front ih =>
    rw [List.forall_mem_cons] at hfront
    obtain ⟨hnext, hinv⟩ := hp.waits h hfront.1
    have hcons : back ++ b :: front = (back ++ [b]) ++ front := by simp
    have hinv : Inv (front ++ (back ++ [b])) s := by
      rw [← List.append_assoc]
      exact hinv
    obtain ⟨hlast, hrun⟩ := ih hfront.2 hinv
    rw [hcons]
    refine ⟨hlast, fun n => ?_⟩
    rw [← hrun n, List.length_cons, ← Nat.add_assoc, List.cons_append, run_cons hnext,
      List.append_assoc]

variable (exhausted) in
theorem Progress.terminates (hp : Progress next Inv Waits size) (h : Inv q s) :
    ∃ n s', (∀ m, n ≤ m → run exhausted next m q s = .ok s') ∧ Inv [] s' := by
  induction hsize : size s using Nat.strong_induction_on generalizing q s with
  | _ d ihsize =>
    induction hlength : q.length using Nat.strong_induction_on generalizing q s with
    | _ k ihlength =>
      by_cases hq : q = []
      · subst hq
        exact ⟨0, s, fun m _ => run_nil m, h⟩
      · obtain ⟨front, a, back, rfl, hfront, ha⟩ := exists_first (hp.ready h hq)
        obtain ⟨hinv, hrotate⟩ := hp.rotates exhausted hfront h
        obtain ⟨l, s₁, hnext, hinv, hless⟩ := hp.works hinv ha
        have hrest : ∃ n s', (∀ m, n ≤ m →
            run exhausted next m (back ++ front ++ l) s₁ = .ok s') ∧ Inv [] s' := by
          rcases hless with hless | ⟨hsame, rfl⟩
          · exact ihsize _ (by omega) hinv rfl
          · refine ihlength _ ?_ hinv (by omega) rfl
            simp only [List.length_append, List.length_cons, List.append_nil] at hlength ⊢
            omega
        obtain ⟨n, s', hrun, hend⟩ := hrest
        refine ⟨n + 1 + front.length, s', fun m hm => ?_, hend⟩
        obtain ⟨m, rfl⟩ := Nat.exists_eq_add_of_le hm
        have hfuel : n + 1 + front.length + m = n + m + 1 + front.length := by omega
        rw [hfuel, hrotate, List.cons_append, run_cons hnext]
        exact hrun (n + m) (Nat.le_add_right n m)

end Loop

end Ahorn.Worklist
