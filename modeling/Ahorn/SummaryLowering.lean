import Ahorn.SettledTerms
import Ahorn.ShadowLowering
import Ahorn.Summary

set_option autoImplicit false

/-!
# Lowering through hard constraints

An expression is lowered by putting the hard constraints of a summary in the place of its constants
until only constants without a further definition are left. A name that is its own definition is not
lowered.
-/
namespace Ahorn

open Shadow (Lowering unfinished)

namespace Definitions

section Code

variable {N : Type} [DecidableEq N]

/-- Lower constants one after the other, each result put in the place of its constant. -/
def substituteSimplified (simplifier : Simplifier N)
    (lower : (k : SmtSort × N) → Lowering (Term N k.1)) {s : SmtSort} :
    List (SmtSort × N) → Term N s → Lowering (Term N s)
  | [], lowered => pure lowered
  | k :: ks, lowered => do
    let loweredConstant ← lower k
    substituteSimplified simplifier lower ks
      (simplifier.simplify (lowered.substitute k.2 loweredConstant))

/-- Lower an expression through the definitions. An expression without constants is simplified by
`again` once more. -/
def lowerExpression (simplifier again : Simplifier N) (D : Definitions N) :
    ℕ → {s : SmtSort} → Term N s → Lowering (Term N s)
  | 0, _, _ => unfinished
  | fuel + 1, _, expression =>
    let lowered := simplifier.simplify expression
    match expression.constants with
    | [] =>
      let lowered := again.simplify lowered
      if lowered.isLiteral then pure lowered else throw "assertion failed"
    | [(sort, name)] =>
      match D name with
      | none => pure lowered
      | some definition =>
        if definition = ⟨definition.1, .constant definition.1 name⟩ then
          pure lowered
        else if definition.1 = sort then
          lowerExpression simplifier again D fuel
            (simplifier.simplify (lowered.substitute name definition.2))
        else throw "Invalid argument"
    | constants =>
      substituteSimplified simplifier
        (fun k => lowerExpression simplifier again D fuel (.constant k.1 k.2)) constants lowered

end Code

end Definitions

/-- The lowering of the engine that validates summaries after a change. -/
def Reuse.Engine.lowerExpression (simplifier : Simplifier String) (summary : Summary) :
    ℕ → {s : SmtSort} → Term String s → Lowering (Term String s) :=
  Definitions.lowerExpression simplifier simplifier summary.hardConstraints.find?

def Summarization.Summarizer.lowerExpressionForEvaluation (simplifier : Simplifier String)
    (summary : Summary) : ℕ → {s : SmtSort} → Term String s → Lowering (Term String s) :=
  Definitions.lowerExpression simplifier (.identity String) summary.hardConstraints.find?

/-- Values are simplified to values. -/
def Simplifier.KeepsValues {N : Type} (simplifier : Simplifier N) : Prop :=
  ∀ {s : SmtSort} (v : s.Carrier), ∃ v' : s.Carrier,
    simplifier.simplify (PartialModel.literal v) = PartialModel.literal v'

namespace Definitions

variable {N : Type} {D : Definitions N} {s : SmtSort} {t : Term N s}

/-- Constants are used at the sorts of their definitions. -/
def Sorted (D : Definitions N) (t : Term N s) : Prop :=
  ∀ k ∈ t.occurrences, ∀ e, D k.2 = some e → e.1 = k.1

/-- No name leads back to itself, except that a name may be its own definition. -/
structure Layered (D : Definitions N) : Prop where
  wellFounded : WellFounded D.Uses
  sorted : ∀ n e, D n = some e → D.Sorted e.2

/-- The constant has no further definition. -/
def IsInput (D : Definitions N) (k : SmtSort × N) : Prop :=
  ∀ e, D k.2 = some e → e = ⟨k.1, .constant k.1 k.2⟩

/-- The second term is over constants without a further definition and has the value of the
first. -/
structure Resolves (D : Definitions N) (t r : Term N s) : Prop where
  inputs : ∀ k ∈ r.occurrences, D.IsInput k
  value : ∀ M, D.Respects M → r.eval M = t.eval M

/-- A name that is defined by other names ranks above them. -/
structure Ranks (D : Definitions N) (rank : N → ℕ) : Prop where
  uses : ∀ k n, D.Uses k n → rank k < rank n
  pos : ∀ n e, D n = some e → e.2 ≠ .constant e.1 n → 0 < rank n

section Depth

open Classical

/-- A rank: one more than the depth, where a name has a definition to go on with. -/
noncomputable def height (D : Definitions N) (names : List N) (n : N) : ℕ :=
  if ∃ e, D n = some e ∧ e.2 ≠ .constant e.1 n then D.depth names n + 1 else 0

theorem ranks_height (hD : WellFounded D.Uses) {names : List N}
    (hnames : ∀ n e, D n = some e → n ∈ names) : D.Ranks (D.height names) where
  uses k n h := by
    obtain ⟨s, e, he, hself, -⟩ := id h
    have hn : D.height names n = D.depth names n + 1 := if_pos ⟨⟨s, e⟩, he, hself⟩
    rw [hn]
    unfold height
    split_ifs with hk
    · obtain ⟨e', he', -⟩ := hk
      have hlt := depth_lt_of_uses hD (hnames k e' he') h
      omega
    · omega
  pos n e he hself := by
    have hn : D.height names n = D.depth names n + 1 := if_pos ⟨e, he, hself⟩
    omega

theorem height_le (hD : WellFounded D.Uses) {names : List N}
    (hnames : ∀ n e, D n = some e → n ∈ names) (n : N) : D.height names n ≤ names.length := by
  unfold height
  split_ifs with hn
  · obtain ⟨e, he, -⟩ := hn
    exact depth_lt_length hD (hnames n e he)
  · exact Nat.zero_le _

end Depth

section Lowering

variable [DecidableEq N] {simplifier again : Simplifier N} {bound bound' : ℕ}

/-- With enough fuel, however much it is, the lowering has one and the same result. -/
def LowersWithin (lower : ℕ → {s : SmtSort} → Term N s → Lowering (Term N s)) (D : Definitions N)
    (bound : ℕ) (t : Term N s) : Prop :=
  ∃ r, (∀ fuel, bound ≤ fuel → lower fuel t = pure r) ∧ D.Resolves t r

omit [DecidableEq N] in
theorem LowersWithin.mono {lower : ℕ → {s : SmtSort} → Term N s → Lowering (Term N s)}
    (hle : bound ≤ bound') (h : LowersWithin lower D bound t) : LowersWithin lower D bound' t := by
  obtain ⟨r, hr, hresolves⟩ := h
  exact ⟨r, fun fuel hfuel => hr fuel (hle.trans hfuel), hresolves⟩

omit [DecidableEq N] in
theorem lowersWithin_succ {lower : ℕ → {s : SmtSort} → Term N s → Lowering (Term N s)} {r : Term N s}
    (hr : ∀ fuel, bound ≤ fuel → lower (fuel + 1) t = pure r) (hresolves : D.Resolves t r) :
    LowersWithin lower D (bound + 1) t := by
  refine ⟨r, fun fuel hfuel => ?_, hresolves⟩
  obtain ⟨fuel', rfl⟩ := Nat.exists_eq_add_of_le' hfuel
  exact hr (fuel' + bound) (Nat.le_add_left bound fuel')

omit [DecidableEq N] in
theorem resolves_simplify (h : ∀ k ∈ t.occurrences, D.IsInput k) :
    D.Resolves t (simplifier.simplify t) where
  inputs k hk := h k (simplifier.occurrences_simplify t hk)
  value M _ := simplifier.eval_simplify t M

omit [DecidableEq N] in
theorem occurrences_literal (v : s.Carrier) :
    (PartialModel.literal v : Term N s).occurrences = [] := by
  cases s <;> rfl

variable (simplifier again D) in
/-- The lowering as it is called by itself. -/
abbrev Lowers (bound : ℕ) (t : Term N s) : Prop :=
  LowersWithin (D.lowerExpression simplifier again) D bound t

theorem lowers_closed (hsimplifier : PartialModel.Reduces simplifier)
    (hagain : again.KeepsValues)
    (h : t.constants = []) : D.Lowers simplifier again 1 t := by
  have hnone := Term.occurrences_of_constants h
  obtain ⟨v, hv⟩ := hsimplifier t hnone
  obtain ⟨v', hv'⟩ := hagain v
  refine lowersWithin_succ (r := PartialModel.literal v') (fun fuel _ => ?_) ⟨?_, ?_⟩
  · unfold lowerExpression
    rw [h]
    simp only
    rw [hv, hv', PartialModel.isLiteral_literal]
    rfl
  · rw [occurrences_literal]
    exact nofun
  · intro M _
    rw [← hv', again.eval_simplify, ← hv, simplifier.eval_simplify]

theorem lowers_input {k : SmtSort × N} (h : t.constants = [k]) (hk : D.IsInput k) :
    D.Lowers simplifier again 1 t := by
  refine lowersWithin_succ (r := simplifier.simplify t) (fun fuel _ => ?_)
    (resolves_simplify fun c hc => Term.eq_of_constants h hc ▸ hk)
  unfold lowerExpression
  rw [h]
  simp only
  cases hdefinition : D k.2 with
  | none => rfl
  | some e =>
    obtain rfl := hk e hdefinition
    exact if_pos rfl

theorem lowers_nested {k : SmtSort × N} {e : Term N k.1} (h : t.constants = [k])
    (hk : D k.2 = some ⟨k.1, e⟩) (hself : e ≠ .constant k.1 k.2)
    (hrest : D.Lowers simplifier again bound
      (simplifier.simplify ((simplifier.simplify t).substitute k.2 e))) :
    D.Lowers simplifier again (bound + 1) t := by
  obtain ⟨r, hr, hresolves⟩ := hrest
  refine lowersWithin_succ (r := r) (fun fuel hfuel => ?_) ⟨hresolves.inputs, fun M hM => ?_⟩
  · unfold lowerExpression
    rw [h]
    simp only
    rw [hk]
    simp only
    have hne : (⟨k.1, e⟩ : SortedTerm N) ≠ ⟨k.1, .constant k.1 k.2⟩ := fun heq =>
      hself (eq_of_heq (Sigma.mk.inj heq).2)
    rw [if_neg hne, if_pos trivial]
    exact hr fuel hfuel
  · calc
      r.eval M = (simplifier.simplify ((simplifier.simplify t).substitute k.2 e)).eval M :=
        hresolves.value M hM
      _ = ((simplifier.simplify t).substitute k.2 e).eval M := simplifier.eval_simplify _ M
      _ = (simplifier.simplify t).eval M := Term.eval_substitute (hM k.2 k.1 e hk).symm _
      _ = t.eval M := simplifier.eval_simplify t M

/-- Put a term for every constant of a list in its place. -/
def replaceEach (simplifier : Simplifier N) (lowered : (k : SmtSort × N) → Term N k.1) :
    List (SmtSort × N) → Term N s → Term N s
  | [], t => t
  | k :: ks, t =>
    replaceEach simplifier lowered ks (simplifier.simplify (t.substitute k.2 (lowered k)))

theorem substituteSimplified_eq {lower : (k : SmtSort × N) → Lowering (Term N k.1)}
    {lowered : (k : SmtSort × N) → Term N k.1} {ks : List (SmtSort × N)}
    (h : ∀ k ∈ ks, lower k = pure (lowered k)) (t : Term N s) :
    substituteSimplified simplifier lower ks t = pure (replaceEach simplifier lowered ks t) := by
  induction ks generalizing t with
  | nil => rfl
  | cons k ks ih =>
    rw [List.forall_mem_cons] at h
    unfold substituteSimplified replaceEach
    rw [h.1, pure_bind]
    exact ih h.2 _

theorem eval_replaceEach {lowered : (k : SmtSort × N) → Term N k.1} {ks : List (SmtSort × N)}
    {M : Model N} (h : ∀ k ∈ ks, (lowered k).eval M = M k.1 k.2) (t : Term N s) :
    (replaceEach simplifier lowered ks t).eval M = t.eval M := by
  induction ks generalizing t with
  | nil => rfl
  | cons k ks ih =>
    rw [List.forall_mem_cons] at h
    unfold replaceEach
    rw [ih h.2, simplifier.eval_simplify]
    exact Term.eval_substitute h.1 t

theorem mem_occurrences_replaceEach {lowered : (k : SmtSort × N) → Term N k.1}
    {P : SmtSort × N → Prop} {ks : List (SmtSort × N)}
    (h : ∀ k ∈ ks, ∀ c ∈ (lowered k).occurrences, P c) {t : Term N s} {c : SmtSort × N}
    (hc : c ∈ (replaceEach simplifier lowered ks t).occurrences) :
    P c ∨ c ∈ t.occurrences ∧ c ∉ ks := by
  induction ks generalizing t with
  | nil => exact Or.inr ⟨hc, List.not_mem_nil⟩
  | cons k ks ih =>
    rw [List.forall_mem_cons] at h
    unfold replaceEach at hc
    rcases ih h.2 hc with hP | ⟨hmem, hnot⟩
    · exact Or.inl hP
    · have hmem := simplifier.occurrences_simplify _ hmem
      rcases Term.mem_occurrences_substitute hmem with hnew | ⟨hold, hne⟩
      · exact Or.inl (h.1 c hnew)
      · exact Or.inr ⟨hold, fun hcons => (List.mem_cons.mp hcons).elim hne hnot⟩

theorem lowers_several (hlength : 2 ≤ t.constants.length)
    (h : ∀ k ∈ t.constants, D.Lowers simplifier again bound (.constant k.1 k.2 : Term N k.1)) :
    D.Lowers simplifier again (bound + 1) t := by
  have hnonempty : ∀ k : SmtSort × N, Nonempty (Term N k.1) := fun k => ⟨.constant k.1 k.2⟩
  choose! lowered hlowered hresolves using h
  refine lowersWithin_succ
    (r := replaceEach simplifier lowered t.constants (simplifier.simplify t))
    (fun fuel hfuel => ?_) ⟨fun c hc => ?_, fun M hM => ?_⟩
  · have hstep : D.lowerExpression simplifier again (fuel + 1) t =
        substituteSimplified simplifier
          (fun k => D.lowerExpression simplifier again fuel (.constant k.1 k.2)) t.constants
          (simplifier.simplify t) := by
      rw [lowerExpression]
      cases hc : t.constants with
      | nil => simp [hc] at hlength
      | cons k rest =>
        cases rest with
        | nil => simp [hc] at hlength
        | cons k' rest => rfl
    rw [hstep]
    exact substituteSimplified_eq (fun k hk => hlowered k hk fuel hfuel) _
  · rcases mem_occurrences_replaceEach (fun k hk => (hresolves k hk).inputs) hc with
      hinput | ⟨hmem, hnot⟩
    · exact hinput
    · have hmem := simplifier.occurrences_simplify t hmem
      exact absurd ((Term.mem_constants t c).mpr hmem) hnot
  · rw [eval_replaceEach fun k hk => (hresolves k hk).value M hM]
    exact simplifier.eval_simplify t M

variable {rank : N → ℕ}

omit [DecidableEq N] in
theorem exists_definition {k : SmtSort × N} (hk : ∀ e, D k.2 = some e → e.1 = k.1)
    (hinput : ¬ D.IsInput k) : ∃ e, D k.2 = some ⟨k.1, e⟩ ∧ e ≠ .constant k.1 k.2 := by
  unfold IsInput at hinput
  push Not at hinput
  obtain ⟨⟨s, e⟩, he, hne⟩ := hinput
  obtain rfl : s = k.1 := hk _ he
  exact ⟨e, he, fun heq => hne (by rw [heq])⟩

theorem lowers_of_rank (hsimplifier : PartialModel.Reduces simplifier)
    (hagain : again.KeepsValues) (hD : D.Layered) (hrank : D.Ranks rank) (d : ℕ) {s : SmtSort}
    (t : Term N s) (ht : D.Sorted t) (hd : ∀ k ∈ t.occurrences, rank k.2 ≤ d) :
    D.Lowers simplifier again (2 * d + 2) t := by
  induction d using Nat.strong_induction_on generalizing s with
  | _ d ih =>
    have hsingle : ∀ {s : SmtSort} {t : Term N s} {k : SmtSort × N}, t.constants = [k] →
        D.Sorted t → rank k.2 ≤ d → D.Lowers simplifier again (2 * d + 1) t := by
      intro s t k hc ht hk
      by_cases hinput : D.IsInput k
      · exact (lowers_input hc hinput).mono (by omega)
      · have hmem : k ∈ t.occurrences := by
          rw [← Term.mem_constants, hc]
          exact List.mem_singleton_self k
        obtain ⟨e, he, hself⟩ := exists_definition (ht k hmem) hinput
        have hpos : 0 < rank k.2 := hrank.pos k.2 _ he hself
        -- only the constants of the definition are left
        have hleft : ∀ c ∈ (simplifier.simplify
            ((simplifier.simplify t).substitute k.2 e)).occurrences, c ∈ e.occurrences := by
          intro c hc'
          rcases Term.mem_occurrences_substitute (simplifier.occurrences_simplify _ hc') with
            hnew | ⟨hold, hne⟩
          · exact hnew
          · exact absurd (Term.eq_of_constants hc (simplifier.occurrences_simplify t hold)) hne
        have hrest := ih (d - 1) (by omega)
          (simplifier.simplify ((simplifier.simplify t).substitute k.2 e))
          (fun c hc' => hD.sorted k.2 _ he c (hleft c hc')) fun c hc' => by
            have hlt := hrank.uses c.2 k.2 ⟨k.1, e, he, hself, c.1, hleft c hc'⟩
            omega
        exact (lowers_nested hc he hself hrest).mono (by omega)
    cases hc : t.constants with
    | nil => exact (lowers_closed hsimplifier hagain hc).mono (by omega)
    | cons k rest =>
      cases rest with
      | nil =>
        have hmem : k ∈ t.occurrences := by
          rw [← Term.mem_constants, hc]
          exact List.mem_cons_self
        exact (hsingle hc ht (hd k hmem)).mono (by omega)
      | cons k' rest =>
        refine lowers_several (by simp [hc]) fun c hc => ?_
        have hmem := (Term.mem_constants t c).mp hc
        refine hsingle rfl ?_ (hd c hmem)
        intro c' hc' e he
        obtain rfl := List.mem_singleton.mp hc'
        exact ht _ hmem e he

end Lowering

end Definitions

namespace Summarization

/-- Both lowerings end within two steps for each hard constraint, with a term over constants without
a further definition that has the value of the expression. -/
theorem lowerings_faithful (simplifier : Simplifier String)
    (hsimplifier : PartialModel.Reduces simplifier) {summary : Summary}
    (hsummary : Definitions.Layered summary.hardConstraints.find?) {s : SmtSort}
    {expression : Term String s}
    (hexpression : Definitions.Sorted summary.hardConstraints.find? expression) :
    Definitions.LowersWithin (Reuse.Engine.lowerExpression simplifier summary)
      summary.hardConstraints.find? (2 * summary.hardConstraints.entries.length + 2) expression ∧
    Definitions.LowersWithin (Summarizer.lowerExpressionForEvaluation simplifier summary)
      summary.hardConstraints.find? (2 * summary.hardConstraints.entries.length + 2)
      expression := by
  have hnames : ∀ n e, summary.hardConstraints.find? n = some e →
      n ∈ summary.hardConstraints.keys := fun n e h => OrderedMap.mem_keys_iff.mpr ⟨e, h⟩
  have hlength : summary.hardConstraints.keys.length = summary.hardConstraints.entries.length :=
    List.length_map _
  have hrank := Definitions.ranks_height hsummary.wellFounded hnames
  have hheight : ∀ k ∈ expression.occurrences, Definitions.height summary.hardConstraints.find?
      summary.hardConstraints.keys k.2 ≤ summary.hardConstraints.entries.length := fun k _ =>
    hlength ▸ Definitions.height_le hsummary.wellFounded hnames k.2
  constructor
  · refine Definitions.lowers_of_rank hsimplifier ?_ hsummary hrank _ _ hexpression hheight
    intro s v
    exact hsimplifier _ (Definitions.occurrences_literal v)
  · refine Definitions.lowers_of_rank hsimplifier ?_ hsummary hrank _ _ hexpression hheight
    intro s v
    exact ⟨v, rfl⟩

/-- A sum of a variable that is written and one that may have any value. -/
def summed : Summary where
  assumptions := []
  hardConstraints := ⟨[
    ("x_1", ⟨.int, .arithmetic .add (.constant .int "x_0") (.integerValue 1)⟩),
    ("y_1", ⟨.int, .constant .int "y_1"⟩),
    ("z_1", ⟨.int, .arithmetic .add (.constant .int "x_1") (.constant .int "y_1")⟩)], by decide⟩

theorem layered_summed : Definitions.Layered summed.hardConstraints.find? := by
  have hmem : ∀ n e, summed.hardConstraints.find? n = some e →
      (n, e) ∈ summed.hardConstraints.entries := fun n e =>
    (OrderedMap.find?_eq_some_iff _ n e).mp
  let rank : String → ℕ := fun n => if n = "z_1" then 2 else if n = "x_1" then 1 else 0
  have hrank : ∀ x ∈ summed.hardConstraints.entries, x.2.2 ≠ .constant x.2.1 x.1 →
      ∀ k ∈ x.2.2.occurrences, rank k.2 < rank x.1 := by decide
  have hsorted : ∀ x ∈ summed.hardConstraints.entries, ∀ k ∈ x.2.2.occurrences,
      ∀ y ∈ summed.hardConstraints.entries, y.1 = k.2 → y.2.1 = k.1 := by decide
  refine ⟨Subrelation.wf ?_ (measure rank).wf, ?_⟩
  · rintro k n ⟨s, t, ht, hself, s', hk⟩
    exact hrank _ (hmem n _ ht) hself _ hk
  · intro n e he k hk e' he'
    exact hsorted _ (hmem n e he) k hk _ (hmem k.2 e' he') rfl

theorem summed_lowered :
    Definitions.LowersWithin (Reuse.Engine.lowerExpression (PartialModel.folding String) summed)
      summed.hardConstraints.find? 8
      (.comparison .lt (.constant .int "x_1") (.constant .int "z_1")) :=
  (lowerings_faithful (PartialModel.folding String) (PartialModel.reduces_folding String)
    layered_summed (s := .bool) (by
      intro k hk e he
      have hsort : ∀ c ∈ (Term.comparison .lt (.constant .int "x_1") (.constant .int "z_1") :
          Term String .bool).occurrences, ∀ y ∈ summed.hardConstraints.entries, y.1 = c.2 →
          y.2.1 = c.1 := by decide
      exact hsort k hk (k.2, e) ((OrderedMap.find?_eq_some_iff _ _ _).mp he) rfl)).1

end Summarization

end Ahorn
