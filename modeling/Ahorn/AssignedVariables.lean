import Ahorn.SsaVisits

set_option autoImplicit false

/-!
# Variables with a value

A variable has a value at the end of a block if the block writes it, or if it comes to the block
with a value on all ways. The variables of the unit that are not temporary have one at the entry.
-/
namespace Ahorn.SsaPass

section Blocks

variable (cfg : TypedUnit) (name : String)

/-- The block at the label writes the variable. -/
def writes (l : ℤ) : Bool :=
  match cfg.labelToVertex.find? l with
  | none => false
  | some v => name ∈ writtenNames v.instructions

/-- The variable comes to a block with a value, given the blocks at whose end it has one. Where
several blocks come together, it has to be a variable of the unit. -/
def comesWith (atEnd : ℤ → Bool) (l : ℤ) : Bool :=
  (l = cfg.entryLabel && declared cfg name) ||
    (!(cfg.getPrecedingLabels l).isEmpty &&
      ((cfg.getPrecedingLabels l).length = 1 || hasVariable cfg name) &&
      (cfg.getPrecedingLabels l).all atEnd)

/-- The variable has a value at the end of a block, as far as the fuel allows to look back. -/
def isAssigned : ℕ → ℤ → Bool
  | 0, _ => false
  | n + 1, l => writes cfg name l || comesWith cfg name (isAssigned n) l

/-- Without loops, no way back is longer than there are blocks. -/
def isKnown (l : ℤ) : Bool :=
  comesWith cfg name (isAssigned cfg name cfg.labelToVertex.entries.length) l

end Blocks

/-- The pass implements all instructions, and what a block reads is written in it before or comes to
it with a value. -/
def ReadsKnown (cfg : TypedUnit) : Prop :=
  ∀ l v, cfg.labelToVertex.find? l = some v →
    (readsBlock (fun name => isKnown cfg name l) (fun _ => []) v.instructions (0, [])).isSome = true

/-- No variable that is read has the name of one that the pass introduces for a constant. -/
def NamesApart (cfg : TypedUnit) : Prop :=
  ∀ l v, cfg.labelToVertex.find? l = some v → ∀ i ∈ v.instructions, ∀ name ∈ i.readNames,
    ¬ IsConstantName name

/-- The variable has a value at the end of a block. -/
def Assigned (cfg : TypedUnit) (name : String) (l : ℤ) : Prop :=
  ∀ fuel, distance cfg l < fuel → isAssigned cfg name fuel l = true

variable {cfg : TypedUnit} {name : String} {s : State} {l : ℤ}

theorem writes_iff : writes cfg name l = true ↔
    ∃ v, cfg.labelToVertex.find? l = some v ∧ name ∈ writtenNames v.instructions := by
  unfold writes
  cases cfg.labelToVertex.find? l with
  | none => simp
  | some v => simp

theorem comesWith_iff {atEnd : ℤ → Bool} : comesWith cfg name atEnd l = true ↔
    l = cfg.entryLabel ∧ declared cfg name = true ∨
      cfg.getPrecedingLabels l ≠ [] ∧
        ((cfg.getPrecedingLabels l).length = 1 ∨ hasVariable cfg name = true) ∧
        ∀ p, cfg.Precedes p l → atEnd p = true := by
  unfold comesWith BlockCfg.Precedes
  simp [and_assoc]

theorem reaches_of_comesWith {atEnd : ℤ → Bool}
    (hinitial : ∀ name, declared cfg name = true → s.definition name cfg.entryLabel ≠ none)
    (hatEnd : ∀ p, cfg.Precedes p l → atEnd p = true → s.Reaches cfg name p)
    (h : comesWith cfg name atEnd l = true) : s.Reaches cfg name l := by
  rcases comesWith_iff.mp h with ⟨rfl, hdeclared⟩ | ⟨hne, hjoin, hpreceding⟩
  · exact .here (hinitial name hdeclared)
  · exact .before hne hjoin fun p hp => hatEnd p hp (hpreceding p hp)

theorem reaches_of_isAssigned
    (hinitial : ∀ name, declared cfg name = true → s.definition name cfg.entryLabel ≠ none)
    {fuel : ℕ} (hwritten : ∀ l' ∈ before cfg l, ∀ v, cfg.labelToVertex.find? l' = some v →
      ∀ n ∈ writtenNames v.instructions, s.definition n l' ≠ none)
    (h : isAssigned cfg name fuel l = true) : s.Reaches cfg name l := by
  induction fuel generalizing l with
  | zero => cases h
  | succ fuel ih =>
    unfold isAssigned at h
    rcases Bool.or_eq_true_iff.mp h with h | h
    · obtain ⟨v, hv, hname⟩ := writes_iff.mp h
      exact .here (hwritten l .refl v hv name hname)
    · exact reaches_of_comesWith hinitial (fun p hp => ih fun l' hl' =>
        hwritten l' (before_subset hp hl')) h

theorem Assigned.of_writes (h : writes cfg name l = true) : Assigned cfg name l := by
  intro fuel hfuel
  obtain ⟨fuel, rfl⟩ := Nat.exists_eq_add_of_lt hfuel
  unfold isAssigned
  rw [h, Bool.true_or]

theorem Assigned.of_declared (h : declared cfg name = true) : Assigned cfg name cfg.entryLabel := by
  intro fuel hfuel
  obtain ⟨fuel, rfl⟩ := Nat.exists_eq_add_of_lt hfuel
  unfold isAssigned
  rw [comesWith_iff.mpr (Or.inl ⟨rfl, h⟩), Bool.or_true]

theorem Assigned.of_before (hcfg : cfg.LoopFree) (hne : cfg.getPrecedingLabels l ≠ [])
    (hjoin : (cfg.getPrecedingLabels l).length = 1 ∨ hasVariable cfg name = true)
    (h : ∀ p, cfg.Precedes p l → Assigned cfg name p) : Assigned cfg name l := by
  intro fuel hfuel
  cases fuel with
  | zero => exact absurd hfuel (Nat.not_lt_zero _)
  | succ fuel =>
    unfold isAssigned
    have hcomes : comesWith cfg name (isAssigned cfg name fuel) l = true := by
      refine comesWith_iff.mpr (Or.inr ⟨hne, hjoin, fun p hp => h p hp fuel ?_⟩)
      have hless := distance_lt hcfg hp
      omega
    rw [hcomes, Bool.or_true]

theorem assigned_of_reaches (hcfg : cfg.LoopFree)
    (hdefined : ∀ l, s.definition name l ≠ none → Assigned cfg name l)
    (h : s.Reaches cfg name l) : Assigned cfg name l := by
  induction h with
  | here h => exact hdefined _ h
  | before hne hjoin _ ih => exact .of_before hcfg hne hjoin ih

theorem isKnown_of_reaches (hcfg : cfg.LoopFree)
    (hdefined : ∀ l, s.definition name l ≠ none → Assigned cfg name l)
    (hown : s.definition name l ≠ none → l = cfg.entryLabel ∧ declared cfg name = true)
    (h : s.Reaches cfg name l) : isKnown cfg name l = true := by
  unfold isKnown
  rw [comesWith_iff]
  cases h with
  | here h => exact Or.inl (hown h)
  | before hne hjoin hpreceding =>
    refine Or.inr ⟨hne, hjoin, fun p hp => ?_⟩
    refine assigned_of_reaches hcfg hdefined (hpreceding p hp) _ (distance_lt_length hcfg ?_)
    obtain ⟨e, he, rfl, -⟩ := BlockCfg.precedes_iff.mp hp
    exact hcfg.source e he

theorem reaches_of_declared (hcfg : cfg.LoopFree)
    (hinitial : s.definition name cfg.entryLabel ≠ none) (hdeclared : declared cfg name = true)
    (hl : ∃ v, cfg.labelToVertex.find? l = some v) : s.Reaches cfg name l := by
  have hvariable : hasVariable cfg name = true := by
    obtain ⟨y, hy⟩ := exists_of_declared hdeclared
    unfold hasVariable
    rw [hy]
    rfl
  induction l using hcfg.acyclic.induction with
  | _ l ih =>
    by_cases hentry : l = cfg.entryLabel
    · exact .here (hentry ▸ hinitial)
    · obtain ⟨p, hp⟩ := exists_precedes hcfg hl hentry
      refine .before (List.ne_nil_of_mem hp) (Or.inr hvariable) fun p hp => ih p hp ?_
      obtain ⟨e, he, rfl, -⟩ := BlockCfg.precedes_iff.mp hp
      exact hcfg.source e he

end Ahorn.SsaPass
