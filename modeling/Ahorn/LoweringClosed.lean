import Ahorn.LoweringLayout
import Ahorn.Results

set_option autoImplicit false

/-!
# Closed code

While a unit is compiled, every label handed out holds an instruction or is reserved for a header;
every target is a placeholder on the stack or a label where something other than a goto stands or
will stand. At the end of the unit no placeholder and no reserved label is left.
-/
namespace Ahorn

namespace Instruction

/-- Assignments and havocs are the instructions that a goto follows. -/
def isWrite : Instruction → Bool
  | assignmentInstruction _ _ _ | havocInstruction _ => true
  | _ => false

def bodyEntry? : Instruction → Option ℤ
  | whileInstruction _ b _ => some b
  | _ => none

end Instruction

namespace PouCompiler

open Instruction

/-- A label that may be jumped to: what stands there now, if anything, is no goto. -/
structure Valid (entry : ℤ) (st : PouCompiler) (t : ℤ) : Prop where
  above : entry < t
  le_label : t ≤ st.label
  notGoto : ∀ u, st.at? t ≠ some (.gotoInstruction u)

/-- The state in the middle of a unit whose entry label is `entry`; the labels in `reserved` are
those of the headers of the statements that are being compiled. -/
structure Sound (entry : ℤ) (reserved : ℤ → Prop) (st : PouCompiler) : Prop where
  entry_nonneg : 0 ≤ entry
  entry_lt : entry < st.label
  filled : ∀ l, entry < l → l < st.label → ¬ reserved l → ∃ i, st.at? l = some i
  within : ∀ {l i}, st.at? l = some i → entry < l ∧ l < st.label ∧ ¬ reserved l
  reserved : ∀ l, reserved l → entry < l ∧ l < st.label
  follows : ∀ {l i}, st.at? l = some i → i.isWrite = true →
    ∃ t, st.at? (l + 1) = some (.gotoInstruction t)
  preceded : ∀ {l t}, st.at? l = some (.gotoInstruction t) →
    ∃ i, st.at? (l - 1) = some i ∧ i.isWrite = true
  targets : ∀ {l i}, st.at? l = some i → ∀ t ∈ i.targets,
    t ∈ st.nextLabelPlaceholders ∨ Valid entry st t
  bodies : ∀ {l i}, st.at? l = some i → ∀ t ∈ i.bodyEntry?, Valid entry st t

/-- What the compilation of a statement keeps. -/
structure Keeps (entry : ℤ) (st st' : PouCompiler) : Prop where
  placeholders : st'.nextLabelPlaceholders = st.nextLabelPlaceholders
  notLast : st.lastStatement = false → st'.lastStatement = false
  valid : ∀ {t}, Valid entry st t → Valid entry st' t
  label_le : st.label ≤ st'.label

variable {entry : ℤ} {reserved : ℤ → Prop} {st st₁ st₂ : PouCompiler}

namespace Keeps

theorem refl (st : PouCompiler) : Keeps entry st st := ⟨rfl, id, id, le_rfl⟩

theorem trans (h₁ : Keeps entry st st₁) (h₂ : Keeps entry st₁ st₂) : Keeps entry st st₂ where
  placeholders := h₂.placeholders.trans h₁.placeholders
  notLast := fun h => h₂.notLast (h₁.notLast h)
  valid := fun h => h₂.valid (h₁.valid h)
  label_le := le_trans h₁.label_le h₂.label_le

end Keeps

namespace Sound

theorem at?_label (h : Sound entry reserved st) {l : ℤ} (hl : st.label ≤ l) : st.at? l = none := by
  by_contra hne
  obtain ⟨i, hi⟩ := Option.ne_none_iff_exists'.mp hne
  have := (h.within hi).2.1
  omega

/-- Only labels, placeholders and instructions matter. -/
theorem congr (h : Sound entry reserved st) (hlabel : st₁.label = st.label)
    (hplaceholders : st₁.nextLabelPlaceholders = st.nextLabelPlaceholders)
    (hinstructions : st₁.labelToInstruction = st.labelToInstruction) :
    Sound entry reserved st₁ := by
  have hat : ∀ l, st₁.at? l = st.at? l := by
    intro l
    unfold at?
    rw [hinstructions]
  have hvalid : ∀ {t}, Valid entry st t → Valid entry st₁ t := by
    intro t ht
    exact ⟨ht.above, hlabel ▸ ht.le_label, fun u => hat t ▸ ht.notGoto u⟩
  constructor
  · exact h.entry_nonneg
  · rw [hlabel]
    exact h.entry_lt
  · intro l hl hlt hr
    rw [hat]
    exact h.filled l hl (hlabel ▸ hlt) hr
  · intro l i hi
    rw [hat] at hi
    rw [hlabel]
    exact h.within hi
  · rw [hlabel]
    exact h.reserved
  · intro l i hi
    rw [hat] at hi
    rw [hat]
    exact h.follows hi
  · intro l t hl
    rw [hat] at hl
    rw [hat]
    exact h.preceded hl
  · intro l i hi t ht
    rw [hat] at hi
    rw [hplaceholders]
    exact (h.targets hi t ht).imp id hvalid
  · intro l i hi t ht
    rw [hat] at hi
    exact hvalid (h.bodies hi t ht)

theorem setLastStatement (h : Sound entry reserved st) (b : Bool) :
    Sound entry reserved (st.setLastStatement b) :=
  h.congr rfl rfl rfl

theorem valid_label (h : Sound entry reserved st) : Valid entry st st.label := by
  refine ⟨h.entry_lt, le_rfl, ?_⟩
  intro u
  rw [h.at?_label le_rfl]
  simp

theorem valid_reserved (h : Sound entry reserved st) {l : ℤ} (hl : reserved l) :
    Valid entry st l := by
  obtain ⟨habove, hlt⟩ := h.reserved l hl
  refine ⟨habove, hlt.le, ?_⟩
  intro u hu
  exact (h.within hu).2.2 hl

theorem skipLabel (h : Sound entry reserved st) :
    Sound entry (fun l => reserved l ∨ l = st.label) st.skipLabel ∧ Keeps entry st st.skipLabel := by
  have hvalid : ∀ {t}, Valid entry st t → Valid entry st.skipLabel t := fun ht =>
    ⟨ht.above, le_trans ht.le_label (by simp only [PouCompiler.skipLabel]; omega), ht.notGoto⟩
  refine ⟨?_, rfl, id, hvalid, by simp only [PouCompiler.skipLabel]; omega⟩
  have hlt := h.entry_lt
  constructor
  · exact h.entry_nonneg
  · simp only [PouCompiler.skipLabel]
    omega
  · intro l hl hl' hr
    rw [not_or] at hr
    simp only [PouCompiler.skipLabel] at hl'
    exact h.filled l hl (by omega) hr.1
  · intro l i hi
    obtain ⟨habove, hbelow, hr⟩ := h.within hi
    refine ⟨habove, ?_, ?_⟩
    · simp only [PouCompiler.skipLabel]
      omega
    · rintro (hr' | rfl)
      · exact hr hr'
      · omega
  · simp only [PouCompiler.skipLabel]
    rintro l (hr | rfl)
    · have := h.reserved l hr
      omega
    · omega
  · exact h.follows
  · exact h.preceded
  · intro l i hi t ht
    exact (h.targets hi t ht).imp id hvalid
  · intro l i hi t ht
    exact hvalid (h.bodies hi t ht)

/-- A header at the label that was reserved for it. -/
theorem fill {header : ℤ} {i : Instruction}
    (h : Sound entry (fun l => reserved l ∨ l = header) st) (hfresh : ¬ reserved header)
    (hgoto : i.isGoto = false) (hwrite : i.isWrite = false)
    (htargets : ∀ t ∈ i.targets, t ∈ st.nextLabelPlaceholders ∨ Valid entry st t)
    (hbodies : ∀ t ∈ i.bodyEntry?, Valid entry st t) :
    Sound entry reserved (st.emplace header i) ∧ Keeps entry st (st.emplace header i) := by
  obtain ⟨habove, hbelow⟩ := h.reserved header (Or.inr rfl)
  have hnone : st.at? header = none := by
    by_contra hne
    obtain ⟨j, hj⟩ := Option.ne_none_iff_exists'.mp hne
    exact (h.within hj).2.2 (Or.inr rfl)
  have hself : (st.emplace header i).at? header = some i := at?_emplace_self hnone
  have hold : ∀ {l j}, st.at? l = some j → (st.emplace header i).at? l = some j := by
    intro l j hj
    rw [at?_emplace_ne, hj]
    rintro rfl
    rw [hnone] at hj
    cases hj
  have hcases : ∀ {l j}, (st.emplace header i).at? l = some j →
      (l = header ∧ j = i) ∨ st.at? l = some j := by
    intro l j hj
    by_cases hl : l = header
    · rw [hl, hself] at hj
      exact Or.inl ⟨hl, (Option.some.inj hj).symm⟩
    · rw [at?_emplace_ne hl] at hj
      exact Or.inr hj
  have hvalid : ∀ {t}, Valid entry st t → Valid entry (st.emplace header i) t := by
    intro t ht
    refine ⟨ht.above, ht.le_label, ?_⟩
    intro u hu
    rcases hcases hu with ⟨-, rfl⟩ | hu
    · cases hgoto
    · exact ht.notGoto u hu
  refine ⟨⟨h.entry_nonneg, h.entry_lt, ?_, ?_, ?_, ?_, ?_, ?_, ?_⟩, rfl, id, hvalid, le_rfl⟩
  · intro l hl hlt hr
    by_cases hlh : l = header
    · exact ⟨i, hlh ▸ hself⟩
    · obtain ⟨j, hj⟩ := h.filled l hl hlt (by
        rintro (hr' | hr')
        · exact hr hr'
        · exact hlh hr')
      exact ⟨j, hold hj⟩
  · intro l j hj
    rcases hcases hj with ⟨rfl, -⟩ | hj
    · exact ⟨habove, hbelow, hfresh⟩
    · obtain ⟨hl, hlt, hr⟩ := h.within hj
      exact ⟨hl, hlt, fun hr' => hr (Or.inl hr')⟩
  · intro l hr
    exact h.reserved l (Or.inl hr)
  · intro l j hj hw
    rcases hcases hj with ⟨-, rfl⟩ | hj
    · rw [hwrite] at hw
      cases hw
    · obtain ⟨t, ht⟩ := h.follows hj hw
      exact ⟨t, hold ht⟩
  · intro l t hl
    rcases hcases hl with ⟨-, rfl⟩ | hl
    · cases hgoto
    · obtain ⟨j, hj, hw⟩ := h.preceded hl
      exact ⟨j, hold hj, hw⟩
  · intro l j hj t ht
    rcases hcases hj with ⟨-, rfl⟩ | hj
    · exact (htargets t ht).imp id hvalid
    · exact (h.targets hj t ht).imp id hvalid
  · intro l j hj t ht
    rcases hcases hj with ⟨-, rfl⟩ | hj
    · exact hvalid (hbodies t ht)
    · exact hvalid (h.bodies hj t ht)

/-- A write and the goto behind it. -/
theorem emitWrite {i : Instruction} {g : ℤ} (h : Sound entry reserved st)
    (hwrite : i.isWrite = true) (hg : g ∈ st.nextLabelPlaceholders ∨ g = st.label + 2) :
    Sound entry reserved ((st.emit i).emit (.gotoInstruction g)) ∧
      Keeps entry st ((st.emit i).emit (.gotoInstruction g)) := by
  have hlt := h.entry_lt
  have hnone : st.at? st.label = none := h.at?_label le_rfl
  have hnone' : (st.emit i).at? (st.label + 1) = none := by
    change (st.emplace st.label i).at? (st.label + 1) = none
    rw [at?_emplace_ne (by omega)]
    exact h.at?_label (by omega)
  have hlabel : ((st.emit i).emit (.gotoInstruction g)).label = st.label + 2 := by
    simp only [PouCompiler.emit, PouCompiler.emplace]
    omega
  have hat : ∀ l, ((st.emit i).emit (.gotoInstruction g)).at? l =
      if l = st.label then some i
      else if l = st.label + 1 then some (.gotoInstruction g) else st.at? l := by
    intro l
    by_cases hl1 : l = st.label + 1
    · rw [if_neg (by omega), if_pos hl1, hl1]
      exact at?_emplace_self hnone'
    · have hne : ((st.emit i).emit (.gotoInstruction g)).at? l = (st.emit i).at? l :=
        at?_emplace_ne hl1
      rw [hne]
      by_cases hl : l = st.label
      · rw [if_pos hl, hl]
        exact at?_emplace_self hnone
      · rw [if_neg hl, if_neg hl1]
        exact at?_emplace_ne hl
  have hold : ∀ {l j}, st.at? l = some j →
      ((st.emit i).emit (.gotoInstruction g)).at? l = some j := by
    intro l j hj
    have := (h.within hj).2.1
    rw [hat, if_neg (by omega), if_neg (by omega), hj]
  have hnotGoto : ∀ u, i ≠ .gotoInstruction u := by
    rintro u rfl
    cases hwrite
  have hvalid : ∀ {t}, Valid entry st t →
      Valid entry ((st.emit i).emit (.gotoInstruction g)) t := by
    intro t ht
    have hle := ht.le_label
    refine ⟨ht.above, by omega, ?_⟩
    intro u hu
    rw [hat] at hu
    split_ifs at hu with h1 h2
    · exact hnotGoto u (Option.some.inj hu)
    · omega
    · exact ht.notGoto u hu
  refine ⟨⟨h.entry_nonneg, by omega, ?_, ?_, ?_, ?_, ?_, ?_, ?_⟩, rfl, id, hvalid, by omega⟩
  · intro l hl hl' hr
    rw [hat]
    split_ifs with h1 h2
    · exact ⟨i, rfl⟩
    · exact ⟨_, rfl⟩
    · exact h.filled l hl (by omega) hr
  · intro l j hj
    rw [hat] at hj
    split_ifs at hj with h1 h2
    · refine ⟨by omega, by omega, ?_⟩
      intro hr
      have := (h.reserved l hr).2
      omega
    · refine ⟨by omega, by omega, ?_⟩
      intro hr
      have := (h.reserved l hr).2
      omega
    · obtain ⟨ha, hb, hr⟩ := h.within hj
      exact ⟨ha, by omega, hr⟩
  · intro l hr
    have := h.reserved l hr
    omega
  · intro l j hj hw
    rw [hat] at hj
    split_ifs at hj with h1 h2
    · refine ⟨g, ?_⟩
      rw [hat, if_neg (by omega), if_pos (by omega)]
    · cases hj
      cases hw
    · obtain ⟨t, ht⟩ := h.follows hj hw
      exact ⟨t, hold ht⟩
  · intro l t hl
    rw [hat] at hl
    split_ifs at hl with h1 h2
    · exact absurd (Option.some.inj hl) (hnotGoto t)
    · refine ⟨i, ?_, hwrite⟩
      rw [hat, if_pos (by omega)]
    · obtain ⟨j, hj, hw⟩ := h.preceded hl
      exact ⟨j, hold hj, hw⟩
  · intro l j hj t ht
    rw [hat] at hj
    split_ifs at hj with h1 h2
    · cases hj
      cases i <;> simp [isWrite, Instruction.targets] at hwrite ht
    · cases hj
      have htg : t = g := by simpa [Instruction.targets] using ht
      subst htg
      refine hg.imp id ?_
      intro hgl
      refine ⟨by omega, by omega, ?_⟩
      intro u hu
      rw [hat, if_neg (by omega), if_neg (by omega), h.at?_label (by omega)] at hu
      cases hu
    · exact (h.targets hj t ht).imp id hvalid
  · intro l j hj t ht
    rw [hat] at hj
    split_ifs at hj with h1 h2
    · cases hj
      cases i <;> simp [isWrite, Instruction.bodyEntry?] at hwrite ht
    · cases hj
      cases ht
    · exact hvalid (h.bodies hj t ht)

theorem pushPlaceholder (h : Sound entry reserved st) :
    Sound entry reserved st.pushPlaceholder :=
  ⟨h.entry_nonneg, h.entry_lt, h.filled, h.within, h.reserved, h.follows, h.preceded,
    fun hi t ht => (h.targets hi t ht).imp (List.mem_cons_of_mem _) fun hv => ⟨hv.1, hv.2, hv.3⟩,
    fun hi t ht => ⟨(h.bodies hi t ht).1, (h.bodies hi t ht).2, (h.bodies hi t ht).3⟩⟩

theorem rename_eq_goto {ρ : ℤ → ℤ} {i : Instruction} {u : ℤ}
    (h : i.rename ρ = .gotoInstruction u) : ∃ u', i = .gotoInstruction u' := by
  cases i <;> simp [Instruction.rename] at h
  exact ⟨_, rfl⟩

/-- The placeholder on top of the stack is patched everywhere. -/
theorem resolveTop {p n : ℤ} {ps : List ℤ} (h : Sound entry reserved st)
    (hp : st.nextLabelPlaceholders = p :: ps) (hn : Valid entry st n) :
    Sound entry reserved (st.resolveTop n) ∧ (st.resolveTop n).nextLabelPlaceholders = ps ∧
      (st.resolveTop n).lastStatement = st.lastStatement ∧
      (st.resolveTop n).label = st.label ∧
      ∀ {t}, Valid entry st t → Valid entry (st.resolveTop n) t := by
  have hat := fun l => Extends.at?_resolveTop hp n l
  have hlabel : (st.resolveTop n).label = st.label := by
    unfold PouCompiler.resolveTop
    rw [hp]
  have hps : (st.resolveTop n).nextLabelPlaceholders = ps := by
    unfold PouCompiler.resolveTop
    rw [hp]
  have hlast : (st.resolveTop n).lastStatement = st.lastStatement := by
    unfold PouCompiler.resolveTop
    rw [hp]
  have hsome : ∀ {l j}, (st.resolveTop n).at? l = some j →
      ∃ i, st.at? l = some i ∧ i.rename (redirect p n) = j := by
    intro l j hj
    rw [hat] at hj
    exact Option.map_eq_some_iff.mp hj
  have hkind : ∀ i : Instruction, (i.rename (redirect p n)).isWrite = i.isWrite := by
    intro i
    cases i <;> rfl
  have hvalid : ∀ {t}, Valid entry st t → Valid entry (st.resolveTop n) t := by
    intro t ht
    refine ⟨ht.above, hlabel ▸ ht.le_label, ?_⟩
    intro u hu
    obtain ⟨i, hi, hr⟩ := hsome hu
    obtain ⟨u', rfl⟩ := rename_eq_goto hr
    exact ht.notGoto u' hi
  refine ⟨⟨h.entry_nonneg, hlabel ▸ h.entry_lt, ?_, ?_, ?_, ?_, ?_, ?_, ?_⟩, hps, hlast, hlabel,
    hvalid⟩
  · intro l hl hlt hr
    rw [hlabel] at hlt
    obtain ⟨i, hi⟩ := h.filled l hl hlt hr
    refine ⟨i.rename (redirect p n), ?_⟩
    rw [hat, hi]
    rfl
  · intro l j hj
    obtain ⟨i, hi, -⟩ := hsome hj
    rw [hlabel]
    exact h.within hi
  · rw [hlabel]
    exact h.reserved
  · intro l j hj hw
    obtain ⟨i, hi, rfl⟩ := hsome hj
    rw [hkind] at hw
    obtain ⟨t, ht⟩ := h.follows hi hw
    refine ⟨redirect p n t, ?_⟩
    rw [hat, ht]
    rfl
  · intro l t hl
    obtain ⟨i, hi, hr⟩ := hsome hl
    obtain ⟨u, rfl⟩ := rename_eq_goto hr
    obtain ⟨j, hj, hw⟩ := h.preceded hi
    refine ⟨j.rename (redirect p n), ?_, ?_⟩
    · rw [hat, hj]
      rfl
    · rw [hkind]
      exact hw
  · intro l j hj t ht
    obtain ⟨i, hi, rfl⟩ := hsome hj
    rw [targets_rename] at ht
    obtain ⟨t', ht', rfl⟩ := List.mem_map.mp ht
    rw [hps]
    by_cases htp : t' = p
    · rw [htp, redirect_self]
      exact Or.inr (hvalid hn)
    · rw [redirect_of_ne n htp]
      rcases h.targets hi t' ht' with hmem | hv
      · rw [hp] at hmem
        exact Or.inl ((List.mem_cons.mp hmem).resolve_left htp)
      · exact Or.inr (hvalid hv)
  · intro l j hj t ht
    obtain ⟨i, hi, rfl⟩ := hsome hj
    have ht' : t ∈ i.bodyEntry? := by
      cases i <;> exact ht
    exact hvalid (h.bodies hi t ht')

/-- An assignment gets the type of its parameter. -/
theorem assignType {l : ℤ} {type type' : AssignmentType} {r : VariableReference} {e : Expression}
    (h : Sound entry reserved st) (hl : st.at? l = some (.assignmentInstruction type r e)) :
    Sound entry reserved { st with
      labelToInstruction := st.labelToInstruction.assign l (.assignmentInstruction type' r e) } ∧
    Keeps entry st { st with
      labelToInstruction := st.labelToInstruction.assign l (.assignmentInstruction type' r e) } := by
  let st' : PouCompiler := { st with
    labelToInstruction := st.labelToInstruction.assign l (.assignmentInstruction type' r e) }
  have hat : ∀ l', st'.at? l' =
      if l' = l then some (.assignmentInstruction type' r e) else st.at? l' := fun l' =>
    OrderedMap.find?_assign _ _ _ _
  have hgoto : ∀ {l' u}, st'.at? l' = some (.gotoInstruction u) ↔
      st.at? l' = some (.gotoInstruction u) := by
    intro l' u
    rw [hat]
    split_ifs with hll
    · rw [hll, hl]
      simp
    · rfl
  have hvalid : ∀ {t}, Valid entry st t → Valid entry st' t := fun ht =>
    ⟨ht.above, ht.le_label, fun u hu => ht.notGoto u (hgoto.mp hu)⟩
  have hback : ∀ {l' i}, st'.at? l' = some i → ∃ j, st.at? l' = some j ∧
      j.isWrite = i.isWrite ∧ i.targets = j.targets ∧ i.bodyEntry? = j.bodyEntry? := by
    intro l' i hi
    rw [hat] at hi
    split_ifs at hi with hll
    · cases hi
      exact ⟨.assignmentInstruction type r e, hll ▸ hl, rfl, rfl, rfl⟩
    · exact ⟨i, hi, rfl, rfl, rfl⟩
  refine ⟨⟨h.entry_nonneg, h.entry_lt, ?_, ?_, h.reserved, ?_, ?_, ?_, ?_⟩, rfl, id, hvalid, le_rfl⟩
  · intro l' hl' hlt hr
    obtain ⟨i, hi⟩ := h.filled l' hl' hlt hr
    by_cases hll : l' = l
    · exact ⟨.assignmentInstruction type' r e, (hat l').trans (if_pos hll)⟩
    · exact ⟨i, ((hat l').trans (if_neg hll)).trans hi⟩
  · intro l' i hi
    obtain ⟨j, hj, -⟩ := hback hi
    exact h.within hj
  · intro l' i hi hw
    obtain ⟨j, hj, hjw, -⟩ := hback hi
    obtain ⟨t, ht⟩ := h.follows hj (hjw.trans hw)
    exact ⟨t, hgoto.mpr ht⟩
  · intro l' t ht
    obtain ⟨i, hi, hw⟩ := h.preceded (hgoto.mp ht)
    by_cases hll : l' - 1 = l
    · exact ⟨.assignmentInstruction type' r e, (hat _).trans (if_pos hll), rfl⟩
    · exact ⟨i, ((hat _).trans (if_neg hll)).trans hi, hw⟩
  · intro l' i hi t ht
    obtain ⟨j, hj, -, htargets, -⟩ := hback hi
    exact (h.targets hj t (htargets ▸ ht)).imp id hvalid
  · intro l' i hi t ht
    obtain ⟨j, hj, -, -, hbody⟩ := hback hi
    exact hvalid (h.bodies hj t (hbody ▸ ht))

end Sound

/-- A step of the compiler that keeps the state sound. As the last statement of a part it needs a
placeholder. -/
def Preserves (entry : ℤ) (f : PouCompiler → Except String PouCompiler) : Prop :=
  ∀ {reserved : ℤ → Prop} {st st' : PouCompiler}, Sound entry reserved st →
    (st.lastStatement = true → st.nextLabelPlaceholders ≠ []) → f st = .ok st' →
    Sound entry reserved st' ∧ Keeps entry st st'

theorem isWrite_compileAssignment (r : VariableReference) (e : Expression) :
    (compileAssignment r e).isWrite = true := by
  cases e <;> rfl

theorem preserves_visitAssignmentStatement (r : VariableReference) (e : Expression) :
    Preserves entry (visitAssignmentStatement r e) := by
  intro reserved st st' h hps hok
  unfold visitAssignmentStatement at hok
  have hlast : (st.emit (compileAssignment r e)).lastStatement = st.lastStatement := rfl
  simp only [hlast] at hok
  split at hok
  · rename_i hl
    cases hst : st.nextLabelPlaceholders with
    | nil => exact absurd hst (hps hl)
    | cons p ps =>
      have htop : (st.emit (compileAssignment r e)).top = .ok p := by
        unfold top
        rw [show (st.emit (compileAssignment r e)).nextLabelPlaceholders = p :: ps from hst]
      rw [htop] at hok
      cases hok
      apply h.emitWrite (isWrite_compileAssignment r e)
      rw [hst]
      exact Or.inl List.mem_cons_self
  · cases hok
    apply h.emitWrite (isWrite_compileAssignment r e)
    right
    simp only [PouCompiler.emit, PouCompiler.emplace]
    omega

theorem preserves_visitParameter (type : AssignmentType) (r : VariableReference) (e : Expression) :
    Preserves entry (visitParameter type r e) := by
  intro reserved st st' h hps hok
  obtain ⟨st₁, hv, hok⟩ := bind_eq_ok hok
  obtain ⟨h₁, hk₁⟩ := preserves_visitAssignmentStatement r e h hps hv
  split at hok
  · rename_i hfind
    cases hok
    obtain ⟨h₂, hk₂⟩ := h₁.assignType hfind
    exact ⟨h₂, hk₁.trans hk₂⟩
  · cases hok

theorem mem_of_top {p : ℤ} (h : st.top = .ok p) : p ∈ st.nextLabelPlaceholders := by
  unfold top at h
  split at h
  · cases h
  · rename_i hst
    cases h
    rw [hst]
    exact List.mem_cons_self

theorem visitPreAssignments_sound {pre : List (VariableReference × Expression)}
    {names names' : OrderedMap String Variable} {st' : PouCompiler} (h : Sound entry reserved st)
    (hl : st.lastStatement = false) (hok : st.visitPreAssignments names pre = .ok (st', names')) :
    Sound entry reserved st' ∧ Keeps entry st st' := by
  induction pre generalizing st names with
  | nil =>
    cases hok
    exact ⟨h, .refl _⟩
  | cons a pre ih =>
    obtain ⟨r, e⟩ := a
    unfold visitPreAssignments at hok
    split at hok
    · split at hok
      · cases hok
      · obtain ⟨st₁, hv, hok⟩ := bind_eq_ok hok
        obtain ⟨h₁, hk₁⟩ := preserves_visitParameter .parameterIn _ e h (by simp [hl]) hv
        obtain ⟨h₂, hk₂⟩ := ih h₁ (hk₁.notLast hl) hok
        exact ⟨h₂, hk₁.trans hk₂⟩
    · cases hok

theorem completeInterface_sound {type : AssignmentType} {callee : Variable} {last : Bool}
    {vs : List Variable} {st' : PouCompiler} (h : Sound entry reserved st)
    (hl : st.lastStatement = false ∨ vs = [])
    (hlast : last = true → st.nextLabelPlaceholders ≠ [])
    (hok : st.completeInterface type callee last vs = .ok st') :
    Sound entry reserved st' ∧ (last = false → Keeps entry st st') ∧
      st'.nextLabelPlaceholders = st.nextLabelPlaceholders ∧ st.label ≤ st'.label ∧
      ∀ {t}, Valid entry st t → Valid entry st' t := by
  induction vs generalizing st with
  | nil =>
    cases hok
    exact ⟨h, fun _ => .refl _, rfl, le_rfl, id⟩
  | cons v vs ih =>
    have hl := hl.resolve_right (List.cons_ne_nil v vs)
    unfold completeInterface at hok
    obtain ⟨st₁, hv, hok⟩ := bind_eq_ok hok
    by_cases hset : vs.isEmpty = true ∧ last = true
    · rw [if_pos hset.1, if_pos hset.2] at hv
      obtain ⟨h₁, hk₁⟩ := preserves_visitParameter type _ _ (h.setLastStatement true)
        (fun _ => hlast hset.2) hv
      obtain ⟨h₂, hk₂, hps, hle, hvalid⟩ := ih h₁ (Or.inr (List.isEmpty_iff.mp hset.1))
        (fun hlt => hk₁.placeholders ▸ hlast hlt) hok
      refine ⟨h₂, ?_, hps.trans hk₁.placeholders, le_trans hk₁.label_le hle, ?_⟩
      · intro hfalse
        rw [hset.2] at hfalse
        cases hfalse
      · intro t ht
        exact hvalid (hk₁.valid ⟨ht.above, ht.le_label, ht.notGoto⟩)
    · have hsame : (if vs.isEmpty = true then if last = true then st.setLastStatement true else st
          else st) = st := by
        split_ifs with h1 h2
        · exact absurd ⟨h1, h2⟩ hset
        · rfl
        · rfl
      rw [hsame] at hv
      obtain ⟨h₁, hk₁⟩ := preserves_visitParameter type _ _ h (by simp [hl]) hv
      obtain ⟨h₂, hk₂, hps, hle, hvalid⟩ := ih h₁ (Or.inl (hk₁.notLast hl))
        (fun hlt => hk₁.placeholders ▸ hlast hlt) hok
      exact ⟨h₂, fun hf => hk₁.trans (hk₂ hf), hps.trans hk₁.placeholders,
        le_trans hk₁.label_le hle, fun ht => hvalid (hk₁.valid ht)⟩

theorem visitPostAssignments_sound {callee : Variable} {last : Bool}
    {post : List (VariableReference × Expression)} {names names' : OrderedMap String Variable}
    {st' : PouCompiler} (h : Sound entry reserved st) (hl : st.lastStatement = false)
    (hlast : last = true → st.nextLabelPlaceholders ≠ [])
    (hok : visitPostAssignments callee last st names post = .ok (st', names')) :
    Sound entry reserved st' ∧ (last = false → Keeps entry st st') ∧
      st'.nextLabelPlaceholders = st.nextLabelPlaceholders ∧ st.label ≤ st'.label ∧
      (∀ {t}, Valid entry st t → Valid entry st' t) ∧
      (st'.lastStatement = false ∨ names'.entries = []) := by
  induction post generalizing st names with
  | nil =>
    cases hok
    exact ⟨h, fun _ => .refl _, rfl, le_rfl, id, Or.inl hl⟩
  | cons a post ih =>
    obtain ⟨r, e⟩ := a
    unfold visitPostAssignments at hok
    split at hok
    · split_ifs at hok
      rename_i v _ _
      obtain ⟨st₁, hv, hok⟩ := bind_eq_ok hok
      by_cases hset : ((names.erase v.name).entries.isEmpty && post.isEmpty) = true
      · rw [if_pos hset] at hv
        rw [Bool.and_eq_true, List.isEmpty_iff, List.isEmpty_iff] at hset
        obtain ⟨hnames, rfl⟩ := hset
        obtain ⟨h₁, hk₁⟩ := preserves_visitParameter .parameterOut _ _
          (h.setLastStatement last) hlast hv
        cases hok
        have hvalid : ∀ {t}, Valid entry st t → Valid entry st' t := fun ht =>
          hk₁.valid ⟨ht.above, ht.le_label, ht.notGoto⟩
        refine ⟨h₁, ?_, hk₁.placeholders, hk₁.label_le, hvalid, Or.inr hnames⟩
        intro hf
        exact ⟨hk₁.placeholders, fun _ => hk₁.notLast hf, hvalid, hk₁.label_le⟩
      · rw [if_neg hset] at hv
        obtain ⟨h₁, hk₁⟩ := preserves_visitParameter .parameterOut _ _ h (by simp [hl]) hv
        obtain ⟨h₂, hk₂, hps, hle, hvalid, hend⟩ := ih h₁ (hk₁.notLast hl)
          (fun hlt => hk₁.placeholders ▸ hlast hlt) hok
        exact ⟨h₂, fun hf => hk₁.trans (hk₂ hf), hps.trans hk₁.placeholders,
          le_trans hk₁.label_le hle, fun ht => hvalid (hk₁.valid ht), hend⟩
    · cases hok

/-- The call goes on behind itself or to the placeholder on top; the assignments around it are
sound. -/
theorem preserves_visitInvocationStatement (modules : String → Option CalleeModule)
    (callee : Variable) (pre post : List (VariableReference × Expression)) :
    Preserves entry (visitInvocationStatement modules callee pre post) := by
  intro reserved st st' h hps hok
  unfold visitInvocationStatement at hok
  split at hok
  · split at hok
    · cases hok
    rename_i calleeModule _
    obtain ⟨⟨st₁, inputs⟩, hpre, hok⟩ := bind_eq_ok hok
    obtain ⟨st₂, hin, hok⟩ := bind_eq_ok hok
    have hfalse : (st.setLastStatement false).lastStatement = false := rfl
    obtain ⟨h₁, hk₁⟩ := visitPreAssignments_sound (h.setLastStatement false) hfalse hpre
    obtain ⟨h₂, hk₂, hps₂, hle₂, hvalid₂⟩ := completeInterface_sound h₁
      (Or.inl (hk₁.notLast hfalse)) (by simp) hin
    have hplaceholders₂ : st₂.nextLabelPlaceholders = st.nextLabelPlaceholders :=
      hps₂.trans hk₁.placeholders
    have hnot₂ : st₂.lastStatement = false := (hk₂ rfl).notLast (hk₁.notLast hfalse)
    have hto₂ : ∀ {t}, Valid entry st t → Valid entry st₂ t := fun ht =>
      hvalid₂ (hk₁.valid ⟨ht.above, ht.le_label, ht.notGoto⟩)
    have hle : st.label ≤ st₂.label := le_trans hk₁.label_le hle₂
    have hfresh : ¬ reserved st₂.label := fun hr => by
      have := (h₂.reserved _ hr).2
      omega
    obtain ⟨h₃, hk₃⟩ := h₂.skipLabel
    have hle₃ : st₂.label ≤ st₂.skipLabel.label := hk₃.label_le
    split at hok
    · -- no outputs: the call itself is left to the continuation
      obtain ⟨next, htarget, rfl⟩ : ∃ next, (next ∈ st₂.skipLabel.nextLabelPlaceholders ∨
          Valid entry st₂.skipLabel next) ∧ st' =
            (st₂.skipLabel.setLastStatement st.lastStatement).emplace st₂.label
              (.callInstruction callee next calleeModule.entryLabel) := by
        dsimp only at hok
        split at hok
        · obtain ⟨next, hnext, hok⟩ := bind_eq_ok hok
          cases hok
          exact ⟨next, Or.inl (mem_of_top hnext), rfl⟩
        · cases hok
          exact ⟨_, Or.inr h₃.valid_label, rfl⟩
      obtain ⟨h₄, hk₄⟩ := (h₃.setLastStatement st.lastStatement).fill
        (i := .callInstruction callee next calleeModule.entryLabel) hfresh rfl rfl
        (by
          intro t ht
          have htn : t = next := by simpa [Instruction.targets] using ht
          rw [htn]
          exact htarget.imp id fun hv => ⟨hv.above, hv.le_label, hv.notGoto⟩)
        (by
          intro t ht
          cases ht)
      refine ⟨h₄, hplaceholders₂, fun hl => hl, ?_, le_trans hle hle₃⟩
      intro t ht
      have hv := hk₃.valid (hto₂ ht)
      exact hk₄.valid ⟨hv.above, hv.le_label, hv.notGoto⟩
    · obtain ⟨⟨st₄, outputs⟩, hpost, hok⟩ := bind_eq_ok hok
      obtain ⟨st₅, hout, hok⟩ := bind_eq_ok hok
      cases hok
      have hlast : st.lastStatement = true → st₂.skipLabel.nextLabelPlaceholders ≠ [] := by
        intro hl
        rw [hk₃.placeholders, hplaceholders₂]
        exact hps hl
      obtain ⟨h₄, hk₄, hps₄, hle₄, hvalid₄, hend⟩ :=
        visitPostAssignments_sound h₃ (hk₃.notLast hnot₂) hlast hpost
      obtain ⟨h₅, hk₅, hps₅, hle₅, hvalid₅⟩ := completeInterface_sound h₄
        (hend.imp id fun hnames => by rw [hnames]; rfl) (fun hl => hps₄ ▸ hlast hl) hout
      have hto₅ : ∀ {t}, Valid entry st₂.skipLabel t → Valid entry st₅ t := fun ht =>
        hvalid₅ (hvalid₄ ht)
      obtain ⟨h₆, hk₆⟩ := h₅.fill
        (i := .callInstruction callee st₂.skipLabel.label calleeModule.entryLabel) hfresh rfl rfl
        (by
          intro t ht
          have htn : t = st₂.skipLabel.label := by simpa [Instruction.targets] using ht
          rw [htn]
          exact Or.inr (hto₅ h₃.valid_label))
        (by
          intro t ht
          cases ht)
      refine ⟨h₆, ?_, ?_, fun ht => hk₆.valid (hto₅ (hk₃.valid (hto₂ ht))), ?_⟩
      · exact (hps₅.trans hps₄).trans hplaceholders₂
      · intro hl
        exact (hk₅ hl).notLast ((hk₄ hl).notLast (hk₃.notLast hnot₂))
      · exact le_trans hle (le_trans hle₃ (le_trans hle₄ hle₅))
  · cases hok

/-- The visitor of a part needs the placeholder of the statement around it. -/
def PreservesPart (entry : ℤ) (f : PouCompiler → Except String PouCompiler) : Prop :=
  ∀ {reserved : ℤ → Prop} {st st' : PouCompiler}, Sound entry reserved st →
    st.lastStatement = false → st.nextLabelPlaceholders ≠ [] → f st = .ok st' →
    Sound entry reserved st' ∧ Keeps entry st st'

theorem Sound.targetOfLastInstruction (h : Sound entry reserved st) {t : ℤ}
    (hok : st.targetOfLastInstruction = .ok t) : t ∈ st.nextLabelPlaceholders ∨ Valid entry st t := by
  unfold PouCompiler.targetOfLastInstruction at hok
  split at hok
  · rename_i hlast
    cases hok
    exact h.targets (OrderedMap.find?_of_last? hlast) t (by simp [Instruction.targets])
  · rename_i hlast
    cases hok
    exact h.targets (OrderedMap.find?_of_last? hlast) t (by simp [Instruction.targets])
  · cases hok

theorem Sound.gotoOfLastInstruction (h : Sound entry reserved st) {t : ℤ}
    (hok : st.gotoOfLastInstruction = .ok t) : t ∈ st.nextLabelPlaceholders ∨ Valid entry st t := by
  unfold PouCompiler.gotoOfLastInstruction at hok
  split at hok
  · rename_i hlast
    cases hok
    exact h.targets (OrderedMap.find?_of_last? hlast) t (by simp [Instruction.targets])
  · cases hok

theorem branch_sound {e : Expression} {t x : ℤ} (h : Sound entry reserved st)
    (h₁ : Sound entry (fun l => reserved l ∨ l = st.label) st₁)
    (hk : Keeps entry st.skipLabel st₁)
    (ht : t ∈ st₁.nextLabelPlaceholders ∨ Valid entry st₁ t)
    (hx : x ∈ st₁.nextLabelPlaceholders ∨ Valid entry st₁ x) :
    Sound entry reserved (st₁.emplace st.label (.ifInstruction e t x)) ∧
      Keeps entry st (st₁.emplace st.label (.ifInstruction e t x)) := by
  have hfresh : ¬ reserved st.label := fun hr => by
    have := (h.reserved _ hr).2
    omega
  obtain ⟨h₂, hk₂⟩ := h₁.fill (i := .ifInstruction e t x) hfresh rfl rfl
    (by
      intro u hu
      have hu : u = t ∨ u = x := by simpa [Instruction.targets] using hu
      rcases hu with rfl | rfl
      · exact ht
      · exact hx)
    (by
      intro u hu
      cases hu)
  exact ⟨h₂, (h.skipLabel.2.trans hk).trans hk₂⟩

theorem preserves_visitThenPart {e : Expression} {thn els : StatementList}
    {elseIfs : ElseIfStatements} {f : PouCompiler → Except String PouCompiler}
    (hf : PreservesPart entry f) : PreservesPart entry (visitThenPart e thn elseIfs els f) := by
  intro reserved st st' h hl hps hok
  unfold visitThenPart at hok
  split at hok
  · cases hok
    exact ⟨h, .refl _⟩
  · obtain ⟨st₁, hpart, hok⟩ := bind_eq_ok hok
    obtain ⟨h₀, hk₀⟩ := h.skipLabel
    obtain ⟨h₁, hk₁⟩ := hf h₀ hl hps hpart
    dsimp only at hok
    obtain ⟨x, hx, hok⟩ := ite_bind_eq_ok hok
    cases hok
    apply branch_sound h h₁ hk₁ (Or.inr (hk₁.valid h₀.valid_label))
    split at hx
    · exact h₁.targetOfLastInstruction hx
    · cases hx
      exact Or.inr h₁.valid_label

theorem preserves_visitElsePart {e : Expression} {thn els : StatementList}
    {elseIfs : ElseIfStatements} {f : PouCompiler → Except String PouCompiler}
    (hf : PreservesPart entry f) : PreservesPart entry (visitElsePart e thn elseIfs els f) := by
  intro reserved st st' h hl hps hok
  unfold visitElsePart at hok
  split at hok
  · cases hok
    exact ⟨h, .refl _⟩
  split at hok
  · obtain ⟨st₁, hpart, hok⟩ := bind_eq_ok hok
    obtain ⟨h₀, hk₀⟩ := h.skipLabel
    obtain ⟨h₁, hk₁⟩ := hf h₀ hl hps hpart
    obtain ⟨t, ht, hok⟩ := bind_eq_ok hok
    cases hok
    exact branch_sound h h₁ hk₁ (h₁.gotoOfLastInstruction ht)
      (Or.inr (hk₁.valid h₀.valid_label))
  · exact hf h hl hps hok

theorem preserves_visitIf {e : Expression} {thn els : StatementList} {elseIfs : ElseIfStatements}
    {visitThen visitElseIfs visitElse : PouCompiler → Except String PouCompiler}
    (hthen : PreservesPart entry visitThen) (helseIfs : PreservesPart entry visitElseIfs)
    (helse : PreservesPart entry visitElse) :
    Preserves entry (visitIf e thn elseIfs els visitThen visitElseIfs visitElse) := by
  have hparts : PreservesPart entry
      (visitParts e thn elseIfs els visitThen visitElseIfs visitElse) := by
    intro reserved st st' h hl hps hok
    obtain ⟨st₁, h1, hok⟩ := bind_eq_ok hok
    obtain ⟨h₁, hk₁⟩ := preserves_visitThenPart hthen h hl hps h1
    dsimp only at hok
    obtain ⟨st₂, h2, hok⟩ := ite_bind_eq_ok hok
    have hstep : Sound entry reserved st₂ ∧ Keeps entry st₁ st₂ := by
      split at h2
      · cases h2
        exact ⟨h₁, .refl _⟩
      · exact helseIfs h₁ (hk₁.notLast hl) (hk₁.placeholders ▸ hps) h2
    obtain ⟨h₂, hk₂⟩ := hstep
    have hk := hk₁.trans hk₂
    obtain ⟨h₃, hk₃⟩ := preserves_visitElsePart helse h₂ (hk.notLast hl)
      (hk.placeholders ▸ hps) hok
    exact ⟨h₃, hk.trans hk₃⟩
  intro reserved st st' h hps hok
  unfold visitIf at hok
  cases hl : st.lastStatement with
  | true =>
    rw [hl] at hok
    dsimp only [if_true] at hok
    split at hok
    · cases hok
      exact ⟨h.setLastStatement false, rfl, fun _ => rfl,
        fun ht => ⟨ht.above, ht.le_label, ht.notGoto⟩, le_rfl⟩
    · obtain ⟨st₁, hp, hok⟩ := bind_eq_ok hok
      cases hok
      obtain ⟨h₁, hk₁⟩ := hparts (h.setLastStatement false) rfl (hps hl) hp
      refine ⟨h₁.setLastStatement true, hk₁.placeholders, ?_, ?_, hk₁.label_le⟩
      · intro hfalse
        rw [hl] at hfalse
        cases hfalse
      · intro t ht
        have hv := hk₁.valid ⟨ht.above, ht.le_label, ht.notGoto⟩
        exact ⟨hv.above, hv.le_label, hv.notGoto⟩
  | false =>
    rw [hl] at hok
    simp only [Bool.false_eq_true, if_false] at hok
    split at hok
    · cases hok
      exact ⟨h.congr rfl rfl rfl, rfl, fun hf => hf,
        fun ht => ⟨ht.above, ht.le_label, ht.notGoto⟩, le_rfl⟩
    · obtain ⟨st₁, hp, hok⟩ := bind_eq_ok hok
      cases hok
      obtain ⟨h₁, hk₁⟩ := hparts h.pushPlaceholder hl (List.cons_ne_nil _ _) hp
      obtain ⟨h₂, hps₂, hlast₂, hlabel₂, hvalid₂⟩ :=
        h₁.resolveTop hk₁.placeholders h₁.valid_label
      refine ⟨h₂, hps₂, ?_, ?_, ?_⟩
      · intro _
        rw [hlast₂]
        exact hk₁.notLast hl
      · intro t ht
        exact hvalid₂ (hk₁.valid ⟨ht.above, ht.le_label, ht.notGoto⟩)
      · rw [hlabel₂]
        exact hk₁.label_le

theorem preserves_visitWhile {e : Expression} {body : StatementList}
    {f : PouCompiler → Except String PouCompiler} (hf : PreservesPart entry f) :
    Preserves entry (visitWhile e body f) := by
  intro reserved st st' h hps hok
  unfold visitWhile at hok
  dsimp only at hok
  split at hok
  · cases hok
    exact ⟨h.setLastStatement false, rfl, fun _ => rfl,
      fun ht => ⟨ht.above, ht.le_label, ht.notGoto⟩, le_rfl⟩
  · obtain ⟨st₁, hbody, hok⟩ := bind_eq_ok hok
    have hp : Sound entry reserved (st.setLastStatement false).pushPlaceholder :=
      (h.setLastStatement false).pushPlaceholder
    obtain ⟨h₀, hk₀⟩ := hp.skipLabel
    obtain ⟨h₁, hk₁⟩ := hf h₀ rfl (List.cons_ne_nil _ _) hbody
    have hheader : Valid entry st₁ st.label := h₁.valid_reserved (Or.inr rfl)
    obtain ⟨h₂, hps₂, hlast₂, hlabel₂, hvalid₂⟩ := h₁.resolveTop hk₁.placeholders hheader
    obtain ⟨next, hnext, hok⟩ := ite_bind_eq_ok hok
    cases hok
    have hfresh : ¬ reserved st.label := fun hr => by
      have := (h.reserved _ hr).2
      omega
    have hbodyEntry := hvalid₂ (hk₁.valid h₀.valid_label)
    have hset : ∀ {t}, Valid entry (st₁.resolveTop st.label) t →
        Valid entry ((st₁.resolveTop st.label).setLastStatement st.lastStatement) t := fun ht =>
      ⟨ht.above, ht.le_label, ht.notGoto⟩
    obtain ⟨h₃, hk₃⟩ := (h₂.setLastStatement st.lastStatement).fill
      (i := .whileInstruction e (st.label + 1) next) hfresh rfl rfl
      (by
        intro t ht
        have htn : t = next := by simpa [Instruction.targets] using ht
        rw [htn]
        split at hnext
        · exact Or.inl (mem_of_top hnext)
        · cases hnext
          exact Or.inr (hset h₂.valid_label))
      (by
        intro t ht
        cases ht
        exact hset hbodyEntry)
    refine ⟨h₃, hps₂, fun hf => hf, ?_, ?_⟩
    · intro t ht
      exact hk₃.valid (hset (hvalid₂ (hk₁.valid (hk₀.valid ⟨ht.above, ht.le_label, ht.notGoto⟩))))
    · have hle : st.label + 1 ≤ st₁.label := hk₁.label_le
      change st.label ≤ (st₁.resolveTop st.label).label
      rw [hlabel₂]
      omega

theorem preserves_visitElseIfs_cons {modules : String → Option CalleeModule} {c : Bool} {g : Guard}
    {part : StatementList} {rest : ElseIfStatements} (hpart : PreservesPart entry (visitPart modules part))
    (hrest : PreservesPart entry (visitElseIfs modules c rest)) :
    PreservesPart entry (visitElseIfs modules c (.cons g part rest)) := by
  intro reserved st st' h hl hps hok
  unfold visitElseIfs at hok
  dsimp only at hok
  obtain ⟨st₁, hp, hok⟩ := bind_eq_ok hok
  obtain ⟨h₀, hk₀⟩ := h.skipLabel
  obtain ⟨h₁, hk₁⟩ := hpart h₀ hl hps hp
  obtain ⟨x, hx, hok⟩ := ite_bind_eq_ok hok
  have htarget : x ∈ st₁.nextLabelPlaceholders ∨ Valid entry st₁ x := by
    split at hx
    · exact h₁.gotoOfLastInstruction hx
    · cases hx
      exact Or.inr h₁.valid_label
  obtain ⟨h₂, hk₂⟩ := branch_sound (e := g.expression) h h₁ hk₁
    (Or.inr (hk₁.valid h₀.valid_label)) htarget
  obtain ⟨h₃, hk₃⟩ := hrest h₂ (hk₂.notLast hl) (hk₂.placeholders ▸ hps) hok
  exact ⟨h₃, hk₂.trans hk₃⟩

theorem preserves_last {modules : String → Option CalleeModule} {s : Statement}
    (hs : Preserves entry (visit modules s)) :
    PreservesPart entry (visitPart modules (.cons s .nil)) := by
  intro reserved st st' h hl hps hok
  unfold visitPart at hok
  obtain ⟨st₁, hv, hok⟩ := bind_eq_ok hok
  cases hok
  obtain ⟨h₁, hk₁⟩ := hs (h.setLastStatement true) (fun _ => hps) hv
  refine ⟨h₁.setLastStatement false, hk₁.placeholders, fun _ => rfl, ?_, hk₁.label_le⟩
  intro t ht
  have hv := hk₁.valid ⟨ht.above, ht.le_label, ht.notGoto⟩
  exact ⟨hv.above, hv.le_label, hv.notGoto⟩

mutual

theorem preserves_visit (modules : String → Option CalleeModule) :
    (s : Statement) → Preserves entry (visit modules s)
  | .assertStatement _ => fun _ _ hok => by cases hok
  | .assumeStatement _ => fun _ _ hok => by cases hok
  | .assignmentStatement r e => preserves_visitAssignmentStatement r e
  | .ifStatement _ thn elseIfs els =>
    preserves_visitIf (preserves_visitPart modules thn)
      (preserves_visitElseIfs modules els.isEmpty elseIfs) (preserves_visitPart modules els)
  | .invocationStatement callee pre post =>
    preserves_visitInvocationStatement modules callee pre post
  | .whileStatement _ body => preserves_visitWhile (preserves_visitPart modules body)
  | .caseStatement .nil _ => fun _ _ hok => by cases hok
  | .caseStatement (.cons _ thn elseIfs) els =>
    preserves_visitIf (preserves_visitPart modules thn)
      (preserves_visitElseIfs modules els.isEmpty elseIfs) (preserves_visitPart modules els)

theorem preserves_visitPart (modules : String → Option CalleeModule) :
    (s : StatementList) → PreservesPart entry (visitPart modules s)
  | .nil => fun _ _ _ hok => by cases hok
  | .cons s .nil => preserves_last (preserves_visit modules s)
  | .cons s (.cons s' rest) => fun h hl hps hok => by
    unfold visitPart at hok
    obtain ⟨st₁, hv, hok⟩ := bind_eq_ok hok
    obtain ⟨h₁, hk₁⟩ := preserves_visit modules s h (by simp [hl]) hv
    obtain ⟨h₂, hk₂⟩ := preserves_visitPart modules (.cons s' rest) h₁ (hk₁.notLast hl)
      (hk₁.placeholders ▸ hps) hok
    exact ⟨h₂, hk₁.trans hk₂⟩

theorem preserves_visitElseIfs (modules : String → Option CalleeModule) (c : Bool) :
    (elseIfs : ElseIfStatements) → PreservesPart entry (visitElseIfs modules c elseIfs)
  | .nil => fun h _ _ hok => by
    cases hok
    exact ⟨h, .refl _⟩
  | .cons _ part rest =>
    preserves_visitElseIfs_cons (preserves_visitPart modules part)
      (preserves_visitElseIfs modules c rest)

end

theorem visitBody_sound (modules : String → Option CalleeModule) (body : StatementList)
    {st st' : PouCompiler} (h : Sound entry reserved st) (hl : st.lastStatement = false)
    (hok : visitBody modules body st = .ok st') :
    Sound entry reserved st' ∧ Keeps entry st st' := by
  match body with
  | .nil =>
    cases hok
    exact ⟨h, .refl _⟩
  | .cons s rest =>
    unfold visitBody at hok
    obtain ⟨st₁, hv, hok⟩ := bind_eq_ok hok
    obtain ⟨h₁, hk₁⟩ := preserves_visit modules s h (by simp [hl]) hv
    obtain ⟨h₂, hk₂⟩ := visitBody_sound modules rest h₁ (hk₁.notLast hl) hok
    exact ⟨h₂, hk₁.trans hk₂⟩

end PouCompiler

/-- The targets of an instruction in its own unit. -/
def Instruction.jumps (i : Instruction) : List ℤ := i.targets ++ i.bodyEntry?.toList

/-- The labels of a module are those between its entry and its exit, and every jump in it goes to
an instruction other than a goto or to the exit. -/
structure Module.Closed (M : Module) : Prop where
  entry_nonneg : 0 ≤ M.entryLabel
  entry_lt_exit : M.entryLabel < M.exitLabel
  instructions : ∀ l, (∃ i, M.labelToInstruction.find? l = some i) ↔
    M.entryLabel < l ∧ l < M.exitLabel
  jumps : ∀ {l i}, M.labelToInstruction.find? l = some i → ∀ t ∈ i.jumps, t = M.exitLabel ∨
    ∃ j, M.labelToInstruction.find? t = some j ∧ j.isGoto = false
  follows : ∀ {l i}, M.labelToInstruction.find? l = some i → i.isWrite = true →
    ∃ t, M.labelToInstruction.find? (l + 1) = some (.gotoInstruction t)
  preceded : ∀ {l t}, M.labelToInstruction.find? l = some (.gotoInstruction t) →
    ∃ i, M.labelToInstruction.find? (l - 1) = some i ∧ i.isWrite = true

namespace PouCompiler

/-- The state between two units. -/
structure Between (st : PouCompiler) : Prop where
  label_nonneg : 0 ≤ st.label
  placeholders : st.nextLabelPlaceholders = []
  notLast : st.lastStatement = false
  instructions : st.labelToInstruction = .empty

theorem Between.sound {st : PouCompiler} (h : st.Between) :
    Sound st.label (fun _ => False) st.skipLabel := by
  have hnone : ∀ l, st.skipLabel.at? l = none := by
    intro l
    unfold at? PouCompiler.skipLabel
    rw [h.instructions]
    rfl
  have hempty : ∀ {l i} {P : Prop}, st.skipLabel.at? l = some i → P := by
    intro l i P hi
    rw [hnone] at hi
    cases hi
  constructor
  · exact h.label_nonneg
  · simp only [PouCompiler.skipLabel]
    omega
  · intro l hl hlt
    simp only [PouCompiler.skipLabel] at hlt
    omega
  · exact fun hi => hempty hi
  · intro l hl
    exact hl.elim
  · exact fun hi => hempty hi
  · exact fun hi => hempty hi
  · exact fun hi => hempty hi
  · exact fun hi => hempty hi

/-- A compiled module is closed. The next unit is compiled in a state like the first one. -/
theorem Between.compile_closed {modules : String → Option CalleeModule} {body : StatementList}
    {st st' : PouCompiler} {M : Module} (h : st.Between)
    (hok : compile modules body st = .ok (M, st')) :
    M.Closed ∧ st'.Between ∧ M.entryLabel = st.label ∧ st'.label = M.exitLabel + 1 := by
  obtain ⟨st₁, hbody, hok⟩ := bind_eq_ok hok
  cases hok
  have hstart := h.sound
  obtain ⟨h₁, hk₁⟩ := visitBody_sound modules body hstart h.notLast hbody
  have hps : st₁.nextLabelPlaceholders = [] := hk₁.placeholders.trans h.placeholders
  have hlast : st₁.lastStatement = false := hk₁.notLast h.notLast
  have hle : st.label + 1 ≤ st₁.label := hk₁.label_le
  have hvalid : ∀ {t}, Valid st.label st₁ t → t = st₁.label ∨
      ∃ j, st₁.at? t = some j ∧ j.isGoto = false := by
    intro t ht
    by_cases hexit : t = st₁.label
    · exact Or.inl hexit
    · have hlt := ht.le_label
      obtain ⟨j, hj⟩ := h₁.filled t ht.above (by omega) id
      refine Or.inr ⟨j, hj, ?_⟩
      cases j <;> first | rfl | exact absurd hj (ht.notGoto _)
  have hlt : st.label < st₁.label := by omega
  refine ⟨⟨h.label_nonneg, hlt, ?_, ?_, h₁.follows, h₁.preceded⟩,
    ⟨?_, hps, hlast, rfl⟩, rfl, rfl⟩
  · intro l
    constructor
    · rintro ⟨i, hi⟩
      obtain ⟨ha, hb, -⟩ := h₁.within hi
      exact ⟨ha, hb⟩
    · rintro ⟨ha, hb⟩
      exact h₁.filled l ha hb id
  · intro l i hi t ht
    rcases List.mem_append.mp ht with ht | ht
    · rcases h₁.targets hi t ht with hmem | hv
      · rw [hps] at hmem
        cases hmem
      · exact hvalid hv
    · exact hvalid (h₁.bodies hi t (Option.mem_toList.mp ht))
  · have := h.label_nonneg
    simp only [PouCompiler.skipLabel]
    omega

end PouCompiler

end Ahorn
