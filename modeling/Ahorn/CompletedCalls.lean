import Ahorn.InvocationLayout

set_option autoImplicit false

/-!
# Which invocations are left to where the statement goes on

An invocation with nothing but dropped statements behind it goes on where its part goes on. The
compiler leaves it to the label behind it, which is the right one only at the end of the code of
the statements around it.
-/
namespace Ahorn

open Instruction PouCompiler

mutual

/-- Every invocation in a statement at `l` that goes on at `k` stands where it belongs. What stands
behind a statement without being compiled to any instruction does not count. -/
def Statement.Calls (modules : String → Option CalleeModule) (f : ℤ → Option Instruction) :
    Statement → ℤ → ℤ → Prop
  | .invocationStatement callee pre post, l, k => InvocationAt modules f callee pre post l k
  | .ifStatement _ thn elseIfs els, l, k =>
    (thn.Calls modules f (l + 1) k ∧
      elseIfs.Calls modules f (l + thenSize thn (thn.size (signatures modules))) k) ∧
    els.Calls modules f (l + ↑(thenSize thn (thn.size (signatures modules)) +
      elseIfsSize elseIfs (elseIfs.size (signatures modules))) + elseHeader thn elseIfs els) k
  | .whileStatement _ body, l, _ => body.Calls modules f (l + 1) l
  | .caseStatement (.cons _ thn elseIfs) els, l, k =>
    (thn.Calls modules f (l + 1) k ∧
      elseIfs.Calls modules f (l + thenSize thn (thn.size (signatures modules))) k) ∧
    els.Calls modules f (l + ↑(thenSize thn (thn.size (signatures modules)) +
      elseIfsSize elseIfs (elseIfs.size (signatures modules))) + elseHeader thn elseIfs els) k
  | _, _, _ => True

def StatementList.Calls (modules : String → Option CalleeModule) (f : ℤ → Option Instruction) :
    StatementList → ℤ → ℤ → Prop
  | .nil, _, _ => True
  | .cons s rest, l, k =>
    s.Calls modules f l (if rest.emits then l + s.size (signatures modules) else k) ∧
      rest.Calls modules f (l + s.size (signatures modules)) k

def ElseIfStatements.Calls (modules : String → Option CalleeModule)
    (f : ℤ → Option Instruction) : ElseIfStatements → ℤ → ℤ → Prop
  | .nil, _, _ => True
  | .cons _ part rest, l, k =>
    part.Calls modules f (l + 1) k ∧
      rest.Calls modules f (l + ↑(1 + part.size (signatures modules))) k

end

/-- Where a statement goes on. -/
inductive Exit where
  /-- At the label behind its code. -/
  | behind
  /-- At another label, which the compiler leaves it to. -/
  | elsewhere
  /-- At another label, which the compiler does not leave it to. -/
  | missed
  deriving DecidableEq, Repr

namespace Exit

/-- Where a part of a statement goes on, which may be the last one that is compiled to anything. -/
def part (e : Exit) (last : Bool) : Exit :=
  if last then e else if e = .behind then .elsewhere else e

/-- Where a statement goes on in front of the statements of its part. Dropped statements keep it
from being the last statement. -/
def inFront (e : Exit) (rest : StatementList) : Exit :=
  if rest.emits then .behind
  else if rest.isEmpty then e
  else if e = .behind then .behind else .missed

end Exit

mutual

/-- No invocation in the statement goes on at a label that the compiler does not leave it to. -/
def Statement.completes : Statement → Exit → Bool
  | .invocationStatement _ _ _, e => e ≠ .missed
  | .ifStatement _ thn elseIfs els, e =>
    thn.completes (e.part (elseIfs.allEmpty && !els.emits)) &&
      elseIfs.completes (e.part !els.emits) && els.completes e
  | .whileStatement _ body, _ => body.completes .elsewhere
  | .caseStatement (.cons _ thn elseIfs) els, e =>
    thn.completes (e.part (elseIfs.allEmpty && !els.emits)) &&
      elseIfs.completes (e.part !els.emits) && els.completes e
  | _, _ => true

def StatementList.completes : StatementList → Exit → Bool
  | .nil, _ => true
  | .cons s rest, e => s.completes (e.inFront rest) && rest.completes e

def ElseIfStatements.completes : ElseIfStatements → Exit → Bool
  | .nil, _ => true
  | .cons _ part rest, e => part.completes (e.part rest.isEmpty) && rest.completes e

end

/-- Code of `n` labels at `l` goes on at `k` and is left to `a`. -/
def Exit.Goes (e : Exit) (l : ℤ) (n : ℕ) (a k : ℤ) : Prop :=
  match e with
  | .behind => a = k ∧ k = l + n
  | .elsewhere => a = k ∧ ¬ (l < k ∧ k ≤ l + n)
  | .missed => (0 < n → a ≠ k) ∧ ¬ (l < k ∧ k ≤ l + n)

theorem Exit.Goes.last {e : Exit} {l a k : ℤ} {n : ℕ} (h : e.Goes l n a k) {l' : ℤ} {m : ℕ}
    (hl : l ≤ l') (hend : l' + m = l + n) : e.Goes l' m a k := by
  cases e with
  | behind => exact ⟨h.1, by rw [h.2, hend]⟩
  | elsewhere => exact ⟨h.1, fun hk => h.2 ⟨by omega, by omega⟩⟩
  | missed => exact ⟨fun hm => h.1 (by omega), fun hk => h.2 ⟨by omega, by omega⟩⟩

theorem Exit.Goes.part {e : Exit} {l a k : ℤ} {n : ℕ} (h : e.Goes l n a k) {l' : ℤ} {m : ℕ}
    {last : Bool} (hl : l ≤ l') (hlast : last = true → l' + m = l + n)
    (hmore : last = false → l' + m < l + n) : (e.part last).Goes l' m a k := by
  unfold Exit.part
  cases last with
  | true =>
    rw [if_pos rfl]
    exact h.last hl (hlast rfl)
  | false =>
    have hend := hmore rfl
    rw [if_neg Bool.false_ne_true]
    cases e with
    | behind =>
      rw [if_pos rfl]
      have hk := h.2
      exact ⟨h.1, by omega⟩
    | elsewhere => exact ⟨h.1, fun hk => h.2 ⟨by omega, by omega⟩⟩
    | missed => exact ⟨fun hm => h.1 (by omega), fun hk => h.2 ⟨by omega, by omega⟩⟩

section Sizes

variable {S : String → Option Signature} {modules : String → Option CalleeModule}
  {f : ℤ → Option Instruction}

theorem Statement.size_of_dropped {s : Statement} (h : s.emits = false) :
    s.size S = 0 := by
  have selection : ∀ {thn els : StatementList} {elseIfs : ElseIfStatements},
      (!(thn.isEmpty && elseIfs.allEmpty && els.isEmpty)) = false →
      thenSize thn (thn.size S) + elseIfsSize elseIfs (elseIfs.size S) +
        (elseHeader thn elseIfs els + els.size S) = 0 := by
    intro thn els elseIfs hempty
    rw [Bool.not_eq_false', Bool.and_eq_true, Bool.and_eq_true] at hempty
    obtain ⟨⟨hthn, helseIfs⟩, hels⟩ := hempty
    simp [thenSize, elseIfsSize, elseHeader, hthn, helseIfs, hels,
      StatementList.size_of_isEmpty hels]
  cases s with
  | ifStatement _ thn elseIfs els => exact selection h
  | whileStatement _ body =>
    have hbody : body.isEmpty = true := by simpa [Statement.emits] using h
    rw [Statement.size, if_pos hbody]
  | caseStatement cases els =>
    cases cases with
    | nil => rfl
    | cons _ thn elseIfs => exact selection h
  | _ => cases h

theorem StatementList.size_of_dropped :
    (s : StatementList) → s.emits = false → s.size S = 0
  | .nil, _ => rfl
  | .cons s rest, h => by
    unfold StatementList.emits at h
    rw [Bool.or_eq_false_iff] at h
    rw [StatementList.size, Statement.size_of_dropped h.1, size_of_dropped rest h.2]

theorem ElseIfStatements.size_pos {elseIfs : ElseIfStatements} (h : elseIfs.isEmpty = false) :
    0 < elseIfs.size S := by
  cases elseIfs with
  | nil => cases h
  | cons _ part rest =>
    rw [ElseIfStatements.size]
    omega

theorem InvocationAt.size_pos {callee : Variable} {pre post : List Parameter} {l k : ℤ}
    (h : InvocationAt modules f callee pre post l k) :
    0 < Statement.size (signatures modules) (.invocationStatement callee pre post) := by
  obtain ⟨typeName, M, code, htype, hM, -, -⟩ := h
  simp only [Statement.size, signatureOf, PouCompiler.signatures, htype, hM, Option.map_some]
  omega

theorem Statement.size_pos_of_left {s : Statement} {l k : ℤ} (h : s.Left modules f l k)
    (hemits : s.emits = true) : 0 < s.size (signatures modules) := by
  have selection : ∀ {thn els : StatementList} {elseIfs : ElseIfStatements},
      (!(thn.isEmpty && elseIfs.allEmpty && els.isEmpty)) = true →
      0 < thenSize thn (thn.size (signatures modules)) +
        elseIfsSize elseIfs (elseIfs.size (signatures modules)) +
        (elseHeader thn elseIfs els + els.size (signatures modules)) := by
    intro thn els elseIfs hsome
    by_cases hthn : thn.isEmpty = true
    · by_cases helseIfs : elseIfs.allEmpty = true
      · have hels : els.isEmpty = false := by simpa [hthn, helseIfs] using hsome
        have hheader : elseHeader thn elseIfs els = 1 := by simp [elseHeader, hthn, helseIfs, hels]
        omega
      · have hne : elseIfs.isEmpty = false := by
          cases elseIfs with
          | nil => exact absurd rfl helseIfs
          | cons _ _ _ => rfl
        have hsize := @ElseIfStatements.size_pos (signatures modules) _ hne
        rw [elseIfsSize, if_neg helseIfs]
        omega
    · rw [thenSize, if_neg hthn]
      omega
  cases s with
  | assertStatement _ => exact h.elim
  | assumeStatement _ => exact h.elim
  | assignmentStatement _ _ => exact Nat.two_pos
  | ifStatement _ thn elseIfs els => exact selection hemits
  | invocationStatement callee pre post => exact h.size_pos
  | whileStatement _ body =>
    have hbody : body.isEmpty = false := by simpa [Statement.emits] using hemits
    rw [Statement.size, if_neg (by simp [hbody])]
    omega
  | caseStatement cases els =>
    cases cases with
    | nil => exact h.elim
    | cons _ thn elseIfs => exact selection hemits

theorem StatementList.left_cons {s : Statement} {rest : StatementList} {l k : ℤ}
    (h : StatementList.Left modules f (.cons s rest) l k) :
    s.Left modules f l (if rest.isEmpty then k else l + s.size (signatures modules)) ∧
      rest.Left modules f (l + s.size (signatures modules)) k := by
  cases rest with
  | nil => exact ⟨h, trivial⟩
  | cons _ _ => exact h

theorem StatementList.size_pos_of_left : (s : StatementList) → ∀ {l k : ℤ},
    s.Left modules f l k → s.emits = true → 0 < s.size (signatures modules)
  | .nil, _, _, _, hemits => by cases hemits
  | .cons s rest, l, k, h, hemits => by
    obtain ⟨hs, hrest⟩ := left_cons h
    rw [StatementList.size]
    rw [StatementList.emits, Bool.or_eq_true] at hemits
    rcases hemits with hemits | hemits
    · have := Statement.size_pos_of_left hs hemits
      omega
    · have := size_pos_of_left rest hrest hemits
      omega

end Sizes

section Completion

variable {modules : String → Option CalleeModule} {f : ℤ → Option Instruction}

theorem getLast?_invocationCode (callee : Variable) (entryLabel : ℤ)
    (inputs outputs : List Parameter) (l k : ℤ) :
    (invocationCode callee entryLabel inputs outputs l k).getLast? =
      some (if outputs.length = 0 then .callInstruction callee k entryLabel
        else .gotoInstruction k) := by
  unfold invocationCode
  cases outputs with
  | nil => simp [parameterCode]
  | cons p ps =>
    rw [List.getLast?_append, List.getLast?_cons, getLast?_parameterCode (List.cons_ne_nil p ps)]
    rfl

theorem PlacedAt.last {l : ℤ} {code : List Instruction} {i : Instruction}
    (h : PlacedAt f l code) (hlast : code.getLast? = some i) :
    f (l + ↑(code.length - 1)) = some i := by
  rw [List.getLast?_eq_getElem?, List.getElem?_eq_some_iff] at hlast
  obtain ⟨hlt, rfl⟩ := hlast
  exact h (code.length - 1) hlt

theorem InvocationAt.unique {callee : Variable} {pre post : List Parameter} {l k k' : ℤ}
    (h : InvocationAt modules f callee pre post l k)
    (h' : InvocationAt modules f callee pre post l k') : k = k' := by
  obtain ⟨typeName, M, code, htype, hM, hcode, hplaced⟩ := h
  obtain ⟨typeName', M', code', htype', hM', hcode', hplaced'⟩ := h'
  obtain rfl : typeName = typeName' := by
    rw [htype] at htype'
    cases htype'
    rfl
  obtain rfl : M = M' := Option.some.inj (hM.symm.trans hM')
  obtain ⟨inputs, outputs, hinputs, houtputs, rfl⟩ := hcode
  obtain ⟨inputs', outputs', hinputs', houtputs', rfl⟩ := hcode'
  have hlength : outputs'.length = outputs.length := by
    rw [outputs_length houtputs, outputs_length houtputs']
  have hlast := hplaced.last (getLast?_invocationCode callee M.entryLabel inputs outputs l k)
  have hlast' := hplaced'.last
    (getLast?_invocationCode callee M.entryLabel inputs' outputs' l k')
  rw [length_invocationCode, hinputs'.length, hlength, ← hinputs.length,
    ← length_invocationCode callee M.entryLabel inputs outputs l k, hlast] at hlast'
  split at hlast' <;> cases hlast' <;> rfl

theorem Exit.Goes.inFront {e : Exit} {l a k : ℤ} {s : Statement} {rest : StatementList}
    (hrest : rest.Left modules f (l + s.size (signatures modules)) a)
    (h : e.Goes l (StatementList.size (signatures modules) (.cons s rest)) a k) :
    (e.inFront rest).Goes l (s.size (signatures modules))
      (if rest.isEmpty then a else l + s.size (signatures modules))
      (if rest.emits then l + s.size (signatures modules) else k) := by
  rw [StatementList.size] at h
  unfold Exit.inFront
  by_cases hemits : rest.emits = true
  · have hne : rest.isEmpty = false := by
      cases rest with
      | nil => cases hemits
      | cons _ _ => rfl
    simp only [hemits, hne, if_true, Bool.false_eq_true, if_false]
    exact ⟨rfl, rfl⟩
  · rw [Bool.not_eq_true] at hemits
    rw [StatementList.size_of_dropped rest hemits, Nat.add_zero] at h
    simp only [hemits, Bool.false_eq_true, if_false]
    by_cases hempty : rest.isEmpty = true
    · rw [if_pos hempty, if_pos hempty]
      exact h
    · rw [if_neg hempty, if_neg hempty]
      cases e with
      | behind =>
        rw [if_pos rfl]
        exact ⟨h.2.symm, h.2⟩
      | elsewhere => exact ⟨fun hsize hk => h.2 ⟨by omega, by omega⟩, h.2⟩
      | missed => exact ⟨fun hsize hk => h.2 ⟨by omega, by omega⟩, h.2⟩

theorem StatementList.completes_of_isEmpty {s : StatementList} (h : s.isEmpty = true)
    (e : Exit) : s.completes e = true := by
  cases s with
  | nil => rfl
  | cons _ _ => cases h

theorem ElseIfStatements.completes_of_allEmpty : (s : ElseIfStatements) → s.allEmpty = true →
    ∀ e : Exit, s.completes e = true
  | .nil, _, _ => rfl
  | .cons _ part rest, h, e => by
    unfold ElseIfStatements.allEmpty at h
    rw [Bool.and_eq_true] at h
    rw [ElseIfStatements.completes, StatementList.completes_of_isEmpty h.1,
      completes_of_allEmpty rest h.2, Bool.and_true]

theorem StatementList.calls_of_isEmpty {s : StatementList} (h : s.isEmpty = true) (l k : ℤ) :
    s.Calls modules f l k := by
  cases s with
  | nil => exact trivial
  | cons _ _ => cases h

theorem ElseIfStatements.calls_of_allEmpty : (s : ElseIfStatements) → s.allEmpty = true →
    ∀ l k : ℤ, s.Calls modules f l k
  | .nil, _, _, _ => trivial
  | .cons _ part rest, h, l, k => by
    unfold ElseIfStatements.allEmpty at h
    rw [Bool.and_eq_true] at h
    exact ⟨StatementList.calls_of_isEmpty h.1 _ k, calls_of_allEmpty rest h.2 _ k⟩

/-- A selection, given its parts. -/
theorem selection_calls_iff {thn els : StatementList} {elseIfs : ElseIfStatements} {e : Exit}
    {l a k : ℤ}
    (hleft : (thn.Left modules f (l + 1) a ∧
        elseIfs.Left modules f (l + thenSize thn (thn.size (signatures modules))) a) ∧
      els.Left modules f (l + ↑(thenSize thn (thn.size (signatures modules)) +
        elseIfsSize elseIfs (elseIfs.size (signatures modules))) + elseHeader thn elseIfs els) a)
    (h : e.Goes l (thenSize thn (thn.size (signatures modules)) +
      elseIfsSize elseIfs (elseIfs.size (signatures modules)) +
      (elseHeader thn elseIfs els + els.size (signatures modules))) a k)
    (hthen : ∀ {e : Exit} {l}, thn.Left modules f l a →
      e.Goes l (thn.size (signatures modules)) a k →
      (thn.Calls modules f l k ↔ thn.completes e = true))
    (helseIfs : ∀ {e : Exit} {l}, elseIfs.Left modules f l a →
      e.Goes l (elseIfs.size (signatures modules)) a k →
      (elseIfs.Calls modules f l k ↔ elseIfs.completes e = true))
    (helse : ∀ {e : Exit} {l}, els.Left modules f l a →
      e.Goes l (els.size (signatures modules)) a k →
      (els.Calls modules f l k ↔ els.completes e = true)) :
    (thn.Calls modules f (l + 1) k ∧
        elseIfs.Calls modules f (l + thenSize thn (thn.size (signatures modules))) k) ∧
      els.Calls modules f (l + ↑(thenSize thn (thn.size (signatures modules)) +
        elseIfsSize elseIfs (elseIfs.size (signatures modules))) + elseHeader thn elseIfs els) k ↔
    (thn.completes (e.part (elseIfs.allEmpty && !els.emits)) &&
      elseIfs.completes (e.part !els.emits) && els.completes e) = true := by
  obtain ⟨⟨hleftThen, hleftElseIfs⟩, hleftElse⟩ := hleft
  rw [Bool.and_eq_true, Bool.and_eq_true]
  have hbehind : els.emits = false → els.size (signatures modules) = 0 :=
    StatementList.size_of_dropped els
  have hmore : els.emits = true → 0 < els.size (signatures modules) :=
    StatementList.size_pos_of_left els hleftElse
  have helseIfsSize : elseIfs.allEmpty = false →
      0 < elseIfsSize elseIfs (elseIfs.size (signatures modules)) := by
    intro hempty
    rw [elseIfsSize, if_neg (by simp [hempty])]
    apply ElseIfStatements.size_pos
    cases elseIfs with
    | nil => cases hempty
    | cons _ _ _ => rfl
  refine and_congr (and_congr ?_ ?_) ?_
  · by_cases hempty : thn.isEmpty = true
    · exact iff_of_true (StatementList.calls_of_isEmpty hempty _ _)
        (StatementList.completes_of_isEmpty hempty _)
    · apply hthen hleftThen
      have hheader : elseHeader thn elseIfs els = 0 := by simp [elseHeader, hempty]
      rw [hheader, thenSize, if_neg hempty] at h
      refine h.part (by omega) (fun hlast => ?_) (fun hlast => ?_)
      · rw [Bool.and_eq_true, Bool.not_eq_true'] at hlast
        have := hbehind hlast.2
        rw [elseIfsSize, if_pos hlast.1]
        omega
      · rw [Bool.and_eq_false_iff, Bool.not_eq_false'] at hlast
        rcases hlast with hlast | hlast
        · have := helseIfsSize hlast
          omega
        · have := hmore hlast
          omega
  · by_cases hempty : elseIfs.allEmpty = true
    · exact iff_of_true (ElseIfStatements.calls_of_allEmpty elseIfs hempty _ _)
        (ElseIfStatements.completes_of_allEmpty elseIfs hempty _)
    · apply helseIfs hleftElseIfs
      have hheader : elseHeader thn elseIfs els = 0 := by simp [elseHeader, hempty]
      rw [hheader, elseIfsSize, if_neg hempty] at h
      refine h.part (by omega) (fun hlast => ?_) (fun hlast => ?_)
      · have := hbehind (by simpa using hlast)
        omega
      · have := hmore (by simpa using hlast)
        omega
  · apply helse hleftElse
    exact h.last (by omega) (by omega)

mutual

theorem Statement.calls_iff : (s : Statement) → ∀ {e : Exit} {l a k : ℤ}, s.Left modules f l a →
    e.Goes l (s.size (signatures modules)) a k →
    (s.Calls modules f l k ↔ s.completes e = true)
  | .assertStatement _, _, _, _, _, hleft, _ => hleft.elim
  | .assumeStatement _, _, _, _, _, hleft, _ => hleft.elim
  | .assignmentStatement _ _, _, _, _, _, _, _ => iff_of_true trivial rfl
  | .ifStatement _ thn elseIfs els, _, _, _, _, hleft, h =>
    selection_calls_iff hleft h (StatementList.calls_iff thn) (ElseIfStatements.calls_iff elseIfs)
      (StatementList.calls_iff els)
  | .invocationStatement callee pre post, e, l, a, k, hleft, h => by
    have hpos := InvocationAt.size_pos hleft
    cases e with
    | behind =>
      obtain ⟨rfl, -⟩ := h
      exact iff_of_true hleft rfl
    | elsewhere =>
      obtain ⟨rfl, -⟩ := h
      exact iff_of_true hleft rfl
    | missed =>
      refine iff_of_false (fun hcalls => h.1 hpos ?_) (by simp [Statement.completes])
      exact InvocationAt.unique hleft hcalls
  | .whileStatement _ body, _, l, _, _, hleft, _ =>
    StatementList.calls_iff body (e := .elsewhere) hleft ⟨rfl, fun hl => by omega⟩
  | .caseStatement .nil _, _, _, _, _, hleft, _ => hleft.elim
  | .caseStatement (.cons _ thn elseIfs) els, _, _, _, _, hleft, h =>
    selection_calls_iff hleft h (StatementList.calls_iff thn) (ElseIfStatements.calls_iff elseIfs)
      (StatementList.calls_iff els)

theorem StatementList.calls_iff : (s : StatementList) → ∀ {e : Exit} {l a k : ℤ},
    s.Left modules f l a → e.Goes l (s.size (signatures modules)) a k →
    (s.Calls modules f l k ↔ s.completes e = true)
  | .nil, _, _, _, _, _, _ => iff_of_true trivial rfl
  | .cons s rest, e, l, a, k, hleft, h => by
    obtain ⟨hs, hrest⟩ := StatementList.left_cons hleft
    rw [StatementList.completes, Bool.and_eq_true]
    apply and_congr
    · exact Statement.calls_iff s hs (h.inFront hrest)
    · apply StatementList.calls_iff rest hrest
      rw [StatementList.size] at h
      exact h.last (by omega) (by omega)

theorem ElseIfStatements.calls_iff : (s : ElseIfStatements) → ∀ {e : Exit} {l a k : ℤ},
    s.Left modules f l a → e.Goes l (s.size (signatures modules)) a k →
    (s.Calls modules f l k ↔ s.completes e = true)
  | .nil, _, _, _, _, _, _ => iff_of_true trivial rfl
  | .cons _ part rest, e, l, a, k, hleft, h => by
    rw [ElseIfStatements.completes, Bool.and_eq_true]
    rw [ElseIfStatements.size] at h
    apply and_congr
    · apply StatementList.calls_iff part hleft.1
      refine h.part (by omega) (fun hlast => ?_) (fun hlast => ?_)
      · cases rest with
        | nil =>
          rw [ElseIfStatements.size]
          omega
        | cons _ _ _ => cases hlast
      · have := @ElseIfStatements.size_pos (signatures modules) _ hlast
        omega
    · apply ElseIfStatements.calls_iff rest hleft.2
      exact h.last (by omega) (by omega)

end

end Completion

/-- The unit is compiled, and every invocation in it stands where it belongs. -/
def CallsCompleted (modules : String → Option CalleeModule) (body : StatementList)
    (st : PouCompiler) : Prop :=
  ∃ M st', compile modules body st = .ok (M, st') ∧
    body.Calls modules M.labelToInstruction.find? (M.entryLabel + 1) M.exitLabel

/-- The invocations of a unit are completed and linked exactly if its statements pass the check and
none is left elsewhere than where it goes on. -/
theorem callsCompleted_iff (modules : String → Option CalleeModule) (body : StatementList)
    {st : PouCompiler} (h : st.Between) (hnext : st.nextLabelPlaceholder < 0) :
    CallsCompleted modules body st ↔
      (body.checkBody (signatures modules) .other).isSome = true ∧
        body.completes .behind = true := by
  rw [← h.compile_ok_iff]
  have hcalls : ∀ M st', compile modules body st = .ok (M, st') →
      (body.Calls modules M.labelToInstruction.find? (M.entryLabel + 1) M.exitLabel ↔
        body.completes .behind = true) := by
    intro M st' hok
    obtain ⟨st₁, hbody, hcompile⟩ := bind_eq_ok hok
    cases hcompile
    have hlays := lays_visitBody modules body h.sound (h.stacked hnext) h.notLast hbody
    have hleft : body.Left modules st₁.labelToInstruction.find? (st.label + 1) st₁.label := by
      apply @Lays.code _ _ _ _ _ hlays _ id (fun _ _ => rfl)
      intro l _ _
      rw [show Instruction.rename id = id from funext rename_id, Option.map_id]
      rfl
    exact body.calls_iff hleft ⟨rfl, hlays.label⟩
  constructor
  · rintro ⟨M, st', hok, h⟩
    exact ⟨⟨_, hok⟩, (hcalls M st' hok).mp h⟩
  · rintro ⟨⟨⟨M, st'⟩, hok⟩, h⟩
    exact ⟨M, st', hok, (hcalls M st' hok).mpr h⟩

/-- The only unit that is called has one input and no outputs, and begins at label 5. -/
def withoutOutputs (name : String) : Option CalleeModule :=
  if name = "Fb" then some ⟨[⟨"in", .int, .input, none⟩], [], 5⟩ else none

/-- `f(); IF b THEN END_IF;`, where `f` has no outputs. -/
def callDropped : StatementList :=
  .cons (.invocationStatement ⟨"f", .derivedType "Fb", .local, none⟩ [] [])
    (.cons (.ifStatement (.reference (.variableAccess ⟨"b", .bool, .local, none⟩)) .nil .nil .nil)
      .nil)

/-- In a loop the call is left to the exit of the loop; behind the condition of a selection that
stands alone it is left to where it goes on. -/
example :
    let c : Expression := .reference (.variableAccess ⟨"c", .bool, .local, none⟩)
    let loop := StatementList.cons (.whileStatement c callDropped) .nil
    let selection := StatementList.cons (.ifStatement c callDropped .nil .nil) .nil
    (loop.checkBody (signatures withoutOutputs) .other).isSome = true ∧
      loop.completes .behind = false ∧ selection.completes .behind = true := by decide

/-- `IF a THEN f(); ELSE x := 1; END_IF;`, where `f` has no outputs. -/
def callFirst : StatementList :=
  .cons (.ifStatement (.reference (.variableAccess ⟨"a", .bool, .local, none⟩))
    (.cons (.invocationStatement ⟨"f", .derivedType "Fb", .local, none⟩ [] []) .nil) .nil
    (.cons (.assignmentStatement (.variableAccess ⟨"x", .int, .local, none⟩) (.integerConstant 1))
      .nil)) .nil

/-- `IF a THEN x := 1; ELSIF b THEN f(); END_IF;`, where `f` has no outputs. -/
def callInLastPart : StatementList :=
  .cons (.ifStatement (.reference (.variableAccess ⟨"a", .bool, .local, none⟩))
    (.cons (.assignmentStatement (.variableAccess ⟨"x", .int, .local, none⟩) (.integerConstant 1))
      .nil)
    (.cons (.condition (.reference (.variableAccess ⟨"b", .bool, .local, none⟩)))
      (.cons (.invocationStatement ⟨"f", .derivedType "Fb", .local, none⟩ [] []) .nil) .nil)
    .nil) .nil

theorem initial_between : PouCompiler.initial.Between where
  label_nonneg := le_rfl
  placeholders := rfl
  notLast := rfl
  instructions := rfl

theorem callFirst_callsCompleted : CallsCompleted withoutOutputs callFirst .initial :=
  (callsCompleted_iff withoutOutputs callFirst initial_between (by decide)).mpr (by decide)

/-- The false target of the second condition is looked up in a goto, but the call is the last. -/
theorem callInLastPart_not_callsCompleted :
    ¬ CallsCompleted withoutOutputs callInLastPart .initial := by
  rintro ⟨M, st', hok, -⟩
  have hcheck := (initial_between.compile_ok_iff withoutOutputs callInLastPart).mp ⟨(M, st'), hok⟩
  revert hcheck
  decide

end Ahorn
