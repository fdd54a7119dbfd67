import Ahorn.EtfaMergeCorrect
import Ahorn.EtfaVersions

set_option autoImplicit false

/-!
# The assertions on names

No step of a reachable state gives a name a second valuation, and no merge meets a name with two.
-/
namespace Ahorn.Etfa

variable {p : Program} {versions versions' : Versions} {k : ℕ} {c c' c₁ c₂ m : Context} {frame : Frame}
  {simplifier : Simplifier String} {solver : Solver String}
  {findApplicableSummaries : Context → Except String (List Summary)}

def assertions : List String := [State.valuationExists, Merger.valuationsDiffer]

/-- The computation does not fail with one of these. -/
def Passes {α : Type} (x : Except String α) : Prop := ∀ message ∈ assertions, x ≠ .error message

namespace Passes

variable {α β : Type}

theorem ok (a : α) : Passes (.ok a) := by
  unfold Passes
  exact fun _ _ h => nomatch h

theorem error {text : String} (h : ∀ message ∈ assertions, text ≠ message) :
    Passes (.error text : Except String α) := by
  unfold Passes
  exact fun message hm h' => h message hm (Except.error.inj h')

theorem bind {x : Except String α} {f : α → Except String β} (hx : Passes x)
    (hf : ∀ a, x = .ok a → Passes (f a)) : Passes (x >>= f) := by
  cases x with
  | error e => exact error fun message hm h => hx message hm (congrArg _ h)
  | ok a => exact hf a rfl

end Passes

section Messages

/-- The messages of the executor with a fixed text, but that of the assertion on names. -/
def messages : List String :=
  ["assertion failed", "map::at", "stoi", "Not implemented yet.", "Sort mismatch",
    "Unsupported elementary type.", "Unsupported data type.",
    "Unexpected binary operator encountered."]

def openings : List String :=
  ["No vertex with label ", "No edge for instruction at label ", "No type representative cfg for "]

theorem messages_ne : ∀ text ∈ messages, ∀ message ∈ assertions, text ≠ message := by
  decide +kernel

theorem openings_ne : ∀ text ∈ openings, ∀ message ∈ assertions,
    text.toList ≠ [] ∧ text.toList.head? ≠ message.toList.head? := by
  decide +kernel

theorem Passes.message {α : Type} {text : String} (h : text ∈ messages) :
    Passes (.error text : Except String α) :=
  .error (messages_ne text h)

theorem Passes.opening {α : Type} {text : String} (inner rest : String) (h : text ∈ openings) :
    Passes (.error (text ++ inner ++ rest) : Except String α) := by
  apply Passes.error
  intro message hmessage heq
  obtain ⟨hne, hhead⟩ := openings_ne text h message hmessage
  apply hhead
  rw [← heq, String.toList_append, String.toList_append, List.append_assoc,
    List.head?_append_of_ne_nil _ hne]

end Messages

section Reads

theorem State.getVersion_passes (st : State) (x : String) :
    Passes (st.getVersion x) := by
  unfold getVersion
  split
  · exact .ok _
  · exact .message (by simp [messages])

theorem State.getSymbolicValuation_passes (st : State) (n : String) :
    Passes (st.getSymbolicValuation n) := by
  unfold getSymbolicValuation
  split
  · exact .ok _
  · exact .message (by simp [messages])

theorem State.setVersion_passes (st : State) (x : String) (v : ℕ) :
    Passes (st.setVersion x v) := by
  unfold setVersion
  split
  · exact .ok _
  · exact .message (by simp [messages])

theorem Executor.getVersion_passes (versions : Versions) (x : String) :
    Passes (Executor.getVersion versions x) := by
  unfold Executor.getVersion
  split
  · exact .ok _
  · exact .message (by simp [messages])

theorem sort_passes (type : DataType) : Passes type.sort := by
  cases type with
  | int | time | enumeratedType _ | bool | safeBool => exact .ok _
  | real => exact .message (by simp [messages])
  | derivedType _ | inconclusiveType | simpleType _ => exact .message (by simp [messages])

theorem makeConstant_passes (n : String) (type : DataType) :
    Passes (makeConstant n type) :=
  (sort_passes type).bind fun _ _ => .ok _

theorem extractVersion_passes (n : String) : Passes (extractVersion n) := by
  unfold extractVersion stoi
  dsimp only
  split_ifs
  · exact .message (by simp [messages])
  · exact .ok _

theorem getVertex_passes (cfg : Cfg) (l : ℤ) : Passes (cfg.getVertex l) := by
  unfold Cfg.getVertex
  split
  · exact .ok _
  · exact .opening _ _ (by simp [openings])

theorem getEdgeOfType_passes (cfg : Cfg) (type : EdgeType) (l : ℤ) :
    Passes (cfg.getEdgeOfType type l) := by
  unfold Cfg.getEdgeOfType
  split
  · exact .ok _
  · exact .opening _ _ (by simp [openings])

theorem getIntraproceduralEdge_passes (cfg : Cfg) (l : ℤ) :
    Passes (cfg.getIntraproceduralEdge l) := by
  unfold Cfg.getIntraproceduralEdge
  split_ifs
  · exact getEdgeOfType_passes _ _ _
  · exact .message (by simp [messages])

theorem getOnlySuccessor_passes (cfg : Cfg) (l : ℤ) :
    Passes (cfg.getOnlySuccessor l) := by
  unfold Cfg.getOnlySuccessor
  split
  · exact getVertex_passes _ _
  · exact .message (by simp [messages])

end Reads

section Encoding

variable {access : VariableReference → Except String (SortedTerm String)}

theorem encodeEquality_passes (l r : SortedTerm String) :
    Passes (Encoder.encodeEquality l r) := by
  obtain ⟨s, l⟩ := l
  obtain ⟨s', r⟩ := r
  cases s <;> cases s' <;> first | exact .ok _ | exact .message (by simp [messages])

theorem encodeBinary_passes (op : BinaryOperator) (l r : SortedTerm String) :
    Passes (Encoder.encodeBinary simplifier op l r) := by
  cases op with
  | equality | inequality => exact (encodeEquality_passes l r).bind fun _ _ => .ok _
  | _ =>
    obtain ⟨s, l⟩ := l
    obtain ⟨s', r⟩ := r
    cases s <;> cases s' <;> first | exact .ok _ | exact .message (by simp [messages])

theorem encodeUnary_passes (op : UnaryOperator) (t : SortedTerm String) :
    Passes (Encoder.encodeUnary simplifier op t) := by
  obtain ⟨s, t⟩ := t
  cases op <;> cases s <;> first | exact .ok _ | exact .message (by simp [messages])

theorem encode_passes (haccess : ∀ r, Passes (access r)) (e : Expression) :
    Passes (Encoder.encode simplifier .rejected access e) := by
  induction e with
  | booleanConstant _ | integerConstant _ | timeConstant _ | enumeratedValue _ => exact .ok _
  | nondeterministicConstant _ | change _ _ _ _ | booleanToInteger _ _ | integerToBoolean _ _ =>
    exact .message (by simp [messages])
  | reference r => exact haccess r
  | unary op e ih => exact ih.bind fun _ _ => encodeUnary_passes op _
  | binary op l r ihl ihr =>
    exact ihl.bind fun _ _ => ihr.bind fun _ _ => encodeBinary_passes op _ _

end Encoding

namespace Executor

variable {ex : Executor} {summary : Summary}

theorem encode_passes (ex : Executor) (frame : Frame) (c : Context) (e : Expression) :
    Passes (ex.encode frame c e) :=
  Etfa.encode_passes (fun _ => (State.getVersion_passes _ _).bind fun _ _ =>
    makeConstant_passes _ _) e

theorem setSymbolicValuation_passes {st : State} {n : String} (h : st.symbolicValuations.find? n = none)
    (e : SortedTerm String) : Passes (st.setSymbolicValuation n e) := by
  unfold State.setSymbolicValuation
  rw [h]
  exact .ok _

theorem visitAssignment_passes {r : VariableReference} {e : Expression}
    (hc : c.Bounded versions k) :
    Passes (ex.visitAssignment frame r e versions c) := by
  apply (encode_passes ex frame c e).bind
  intro t _
  apply (getVersion_passes _ _).bind
  intro w hw
  apply (State.setVersion_passes _ _ _).bind
  intro st hst
  obtain ⟨-, rfl⟩ := State.setVersion_eq hst
  have hw := getVersion_eq hw
  have hfresh := hc.fresh (v := w + 1) fun w' hw' => by
    rw [hw] at hw'
    cases hw'
    exact Nat.lt_succ_self w
  rw [← hc.cycle] at hfresh
  refine Passes.bind (setSymbolicValuation_passes (by exact hfresh) t) ?_
  intro st' _
  exact (getIntraproceduralEdge_passes _ _).bind fun _ _ =>
    (getVertex_passes _ _).bind fun _ _ => .ok _

theorem visitIf_passes (ex : Executor) (frame : Frame) (e : Expression) (c : Context) :
    Passes (ex.visitIf frame e c) := by
  apply (encode_passes ex frame c e).bind
  rintro ⟨s, t⟩ _
  cases s with
  | int => exact .message (by simp [messages])
  | bool =>
    refine (getEdgeOfType_passes _ _ _).bind fun _ _ => (getVertex_passes _ _).bind fun _ _ =>
      (getEdgeOfType_passes _ _ _).bind fun _ _ => (getVertex_passes _ _).bind fun _ _ => ?_
    dsimp only
    split_ifs
    · exact .ok _
    · exact .ok _
    · exact .ok _

theorem reversionWritten_passes {names : List String} {r : Reversioning} {cycle : ℕ} :
    Passes (reversionWritten versions cycle names r) := by
  induction names generalizing r with
  | nil => exact .ok _
  | cons n names ih =>
    exact (extractVersion_passes n).bind fun _ _ => (getVersion_passes _ _).bind fun _ _ => ih

theorem reversionRead_passes {names : List String} {r : Reversioning} {cycle : ℕ} {st : State} :
    Passes (reversionRead st cycle names r) := by
  induction names generalizing r with
  | nil => exact .ok _
  | cons n names ih =>
    exact (extractVersion_passes n).bind fun _ _ => (State.getVersion_passes _ _).bind fun _ _ => ih

theorem substituteAll_passes {used : OrderedMap String String} {ks : List (SmtSort × String)}
    {s : SmtSort} {t : Term String s} : Passes (substituteAll used ks t) := by
  induction ks generalizing t with
  | nil => exact .ok _
  | cons q ks ih =>
    unfold substituteAll
    split
    · exact ih
    · exact .message (by simp [messages])

theorem reversionValuations_passes {used : OrderedMap String String}
    {entries : List (String × SortedTerm String)} {valuations : OrderedMap String (SortedTerm String)} :
    Passes (reversionValuations used entries valuations) := by
  induction entries generalizing valuations with
  | nil => exact .ok _
  | cons entry entries ih =>
    apply substituteAll_passes.bind
    intro t' _
    split
    · exact ih
    · exact .message (by simp [messages])

theorem mapM_passes {α β : Type} {f : α → Except String β} {l : List α}
    (hf : ∀ a, Passes (f a)) : Passes (l.mapM f) := by
  induction l with
  | nil => exact .ok _
  | cons a l ih =>
    rw [List.mapM_cons]
    exact (hf a).bind fun _ _ => ih.bind fun _ _ => .ok _

theorem updateVersions_passes {entries : List (String × ℕ)} {st : State} :
    Passes (updateVersions entries (versions, st)) := by
  induction entries generalizing versions st with
  | nil => exact .ok _
  | cons entry entries ih =>
    exact (getVersion_passes _ _).bind fun _ _ => (State.setVersion_passes _ _ _).bind fun _ _ => ih

theorem setSymbolicValuations_passes {entries : List (String × SortedTerm String)} {st : State}
    (hsorted : entries.Pairwise fun x y => x.1 < y.1)
    (hfresh : ∀ x ∈ entries, st.symbolicValuations.find? x.1 = none) :
    Passes (setSymbolicValuations entries st) := by
  induction entries generalizing st with
  | nil => exact .ok _
  | cons entry entries ih =>
    apply (setSymbolicValuation_passes (hfresh _ List.mem_cons_self) _).bind
    intro st' hst'
    obtain ⟨-, rfl⟩ := State.setSymbolicValuation_eq hst'
    apply ih hsorted.of_cons
    intro x hx
    have hne : x.1 ≠ entry.1 := ne_of_gt (List.rel_of_pairwise_cons hsorted hx)
    dsimp only
    rw [OrderedMap.find?_emplace_ne _ _ hne]
    exact hfresh x (List.mem_cons_of_mem _ hx)

theorem applySummary_passes (hc : c.Bounded versions k) :
    Passes (applySummary summary versions c) := by
  apply reversionWritten_passes.bind
  intro r₁ hwritten
  apply reversionRead_passes.bind
  intro r hread
  apply reversionValuations_passes.bind
  intro valuations hvaluations
  apply (mapM_passes fun t => substituteAll_passes).bind
  intro constraints _
  obtain ⟨hcovers₁, hglobal⟩ := reversionWritten_covers summary c.state
    (by
      intro n hn
      obtain ⟨x, hx, rfl⟩ := List.mem_map.mp hn
      rw [(OrderedMap.find?_eq_some_iff _ _ _).mpr hx]
      rfl) (Reversioning.covers_nil _ _) hwritten
  obtain ⟨hcovers, -⟩ := reversionRead_covers summary versions
    (fun n hn => ((mem_readNames n).mp hn).2) hcovers₁ hread
  have hfresh : ∀ x ∈ valuations.entries, c.state.symbolicValuations.find? x.1 = none := by
    intro x hx
    have hx := (OrderedMap.find?_eq_some_iff _ _ _).mpr hx
    rcases reversionValuations_names hvaluations hx with hx | ⟨y, hy, hyx⟩
    · cases hx
    · rw [hcovers.used] at hyx
      split_ifs at hyx
      have hname := Option.some.inj hyx
      have hn := (OrderedMap.find?_eq_some_iff _ _ _).mpr hy
      obtain ⟨g, hg⟩ := hglobal y.1 (List.mem_map_of_mem hy)
      rw [← hname, hc.cycle]
      apply hc.fresh
      intro w hw
      rw [hg] at hw
      cases hw
      simp only [versionIn, hn, hg, Option.isSome_some, ↓reduceIte, Option.getD_some]
      omega
  apply (setSymbolicValuations_passes valuations.sorted hfresh).bind
  intro st _
  exact updateVersions_passes.bind fun _ _ => .ok _

theorem applySummaries_passes {returnVertex : Vertex} {callStack : List Frame}
    {summaries : List Summary} (hc : c.Bounded versions k) :
    Passes (applySummaries returnVertex callStack c summaries versions) := by
  induction summaries generalizing versions with
  | nil => exact .ok _
  | cons summary summaries ih =>
    apply (applySummary_passes hc).bind
    rintro ⟨versions₁, c₁⟩ h₁
    exact (ih (hc.mono (applySummary_bounded hc h₁).1)).bind fun _ _ => .ok _

theorem visitCall_passes {called : Variable}
    (hfind : ∀ c, Passes (ex.findApplicableSummaries c))
    (hc : c.Bounded versions k) :
    Passes (ex.visitCall frame called versions c) := by
  apply (getEdgeOfType_passes _ _ _).bind
  intro returnEdge _
  apply (getEdgeOfType_passes _ _ _).bind
  intro callEdge _
  split
  · split
    · exact .opening _ _ (by simp [openings])
    · rename_i callee _
      apply (hfind _).bind
      intro summaries _
      split_ifs
      · exact (getVertex_passes _ _).bind fun _ _ => .ok _
      · apply (getVertex_passes _ _).bind
        intro next _
        have hinside : Context.Bounded versions k (inside frame called callee returnEdge.targetLabel c) :=
          hc.of_eq rfl rfl rfl
        apply (applySummaries_passes hinside).bind
        intro r _
        exact .ok _
  · exact .message (by simp [messages])

theorem carriedValuation_passes {cycle : ℕ} {st : State} {x : String} {v : Variable} :
    Passes (ex.carriedValuation cycle st x v) := by
  unfold carriedValuation
  split_ifs
  · exact makeConstant_passes _ _
  · exact (State.getVersion_passes _ _).bind fun _ _ => State.getSymbolicValuation_passes _ _

theorem carryOver_passes {entries : List (String × Variable)} {st : State}
    (hsorted : entries.Pairwise fun x y => x.1 < y.1)
    (hfresh : ∀ x ∈ entries, st.symbolicValuations.find? (contextualized x.1 0 (k + 1)) = none) :
    Passes (ex.carryOver k entries (versions, st)) := by
  induction entries generalizing versions st with
  | nil => exact .ok _
  | cons entry entries ih =>
    apply carriedValuation_passes.bind
    intro e _
    apply (setSymbolicValuation_passes (hfresh _ List.mem_cons_self) e).bind
    intro st' hst'
    obtain ⟨-, rfl⟩ := State.setSymbolicValuation_eq hst'
    apply ih hsorted.of_cons
    intro x hx
    have hne : contextualized x.1 0 (k + 1) ≠ contextualized entry.1 0 (k + 1) := by
      intro h
      exact ne_of_gt (List.rel_of_pairwise_cons hsorted hx) (contextualized_injective h).1
    dsimp only
    rw [OrderedMap.find?_emplace_ne _ _ hne]
    exact hfresh x (List.mem_cons_of_mem _ hx)

theorem resetVersions_passes {entries : List (String × Variable)} {st : State} :
    Passes (resetVersions entries st) := by
  induction entries generalizing st with
  | nil => exact .ok _
  | cons entry entries ih =>
    obtain ⟨x, v⟩ := entry
    apply (State.setVersion_passes st x 0).bind
    intro st' _
    exact ih

theorem handleProgramExitVertex_passes (hc : c.Bounded versions k) :
    Passes (ex.handleProgramExitVertex frame versions c) := by
  unfold handleProgramExitVertex
  split
  · exact .message (by simp [messages])
  · have hfresh : ∀ x ∈ frame.cfg.flattenedInterface.entries,
        c.state.symbolicValuations.find? (contextualized x.1 0 (c.cycle + 1)) = none := by
      intro x _
      cases hd : c.state.symbolicValuations.find? (contextualized x.1 0 (c.cycle + 1)) with
      | none => rfl
      | some e =>
        have hle := (hc.names hd).1
        rw [hc.cycle] at hle
        omega
    dsimp only
    apply (carryOver_passes frame.cfg.flattenedInterface.sorted hfresh).bind
    rintro ⟨versions', st⟩ _
    have hreset : Passes (resetVersions frame.cfg.flattenedInterface.entries st) :=
      resetVersions_passes
    apply hreset.bind
    intro st' _
    exact (getVertex_passes _ _).bind fun _ _ => .ok _

theorem handleFunctionBlockExitVertex_passes :
    Passes (handleFunctionBlockExitVertex frame c) := by
  unfold handleFunctionBlockExitVertex
  split
  · exact (getVertex_passes _ _).bind fun _ _ => .ok _
  · exact .message (by simp [messages])

theorem execute_passes (hfind : ∀ c, Passes (ex.findApplicableSummaries c))
    (hc : c.Bounded versions k) : Passes (ex.execute versions c) := by
  have hframe : Passes c.getFrame := by
    unfold Context.getFrame
    split
    · exact .ok _
    · exact .message (by simp [messages])
  apply hframe.bind
  intro frame _
  split
  · unfold handleEntryVertex
    split
    · exact .message (by simp [messages])
    · exact ((getOnlySuccessor_passes _ _).bind fun _ _ => .ok _).bind fun _ _ => .ok _
  · split
    · exact ((getOnlySuccessor_passes _ _).bind fun _ _ => .ok _).bind fun _ _ => .ok _
    · exact (visitAssignment_passes hc).bind fun _ _ => .ok _
    · exact visitCall_passes hfind hc
    · exact (visitIf_passes _ _ _ _).bind fun _ _ => .ok _
    all_goals exact .message (by simp [messages])
  · split
    · exact (handleProgramExitVertex_passes hc).bind fun _ _ => .ok _
    · exact handleFunctionBlockExitVertex_passes.bind fun _ _ => .ok _
    · exact .message (by simp [messages])

end Executor

namespace Merger

theorem mergeVariable_passes {st₁ st₂ : State} {x : String} {flattened : Variable} {acc : Merging} :
    Passes (mergeVariable simplifier st₁ st₂ k x flattened acc) := by
  apply (State.getVersion_passes _ _).bind
  intro v₁ _
  apply (State.getVersion_passes _ _).bind
  intro v₂ _
  split
  · exact .ok _
  · apply (State.getSymbolicValuation_passes _ _).bind
    intro e₁ _
    apply (State.getSymbolicValuation_passes _ _).bind
    intro e₂ _
    apply (Executor.getVersion_passes _ _).bind
    intro w _
    dsimp only
    split
    · exact .ok _
    · exact (sort_passes _).bind fun _ _ => .ok _

theorem mergeVariables_passes {st₁ st₂ : State} {entries : List (String × Variable)}
    {acc : Merging} : Passes (mergeVariables simplifier st₁ st₂ k entries acc) := by
  induction entries generalizing acc with
  | nil => exact .ok _
  | cons entry entries ih =>
    obtain ⟨x, v⟩ := entry
    apply mergeVariable_passes.bind
    intro acc' _
    exact ih

theorem merge_passes (hagrees : c₁.Agrees c₂) : Passes (merge simplifier versions c₁ c₂) := by
  unfold merge
  split
  · exact .message (by simp [messages])
  · obtain ⟨valuations, hvaluations⟩ := mergeValuations_total c₁.state.symbolicValuations
      c₂.state.symbolicValuations.sorted fun x hx e he =>
        hagrees x.1 e x.2 he ((OrderedMap.find?_eq_some_iff _ _ _).mpr hx)
    dsimp only
    rw [hvaluations]
    apply (Passes.ok valuations).bind
    intro _ _
    have hframe : Passes c₁.getFrame := by
      unfold Context.getFrame
      split
      · exact .ok _
      · exact .message (by simp [messages])
    apply hframe.bind
    intro frame _
    exact mergeVariables_passes.bind fun _ _ => .ok _

theorem mergeAll_passes {cs : List Context} (hc : c.Bounded versions k)
    (hcs : ∀ c' ∈ cs, c'.Bounded versions k) (hagrees : ∀ c' ∈ cs, c'.Agrees c)
    (hpairs : ∀ c' ∈ cs, ∀ c'' ∈ cs, c'.Agrees c'') :
    Passes (mergeAll simplifier versions c cs) := by
  induction cs generalizing versions c with
  | nil => exact .ok _
  | cons c₂ cs ih =>
    apply (merge_passes (hagrees c₂ List.mem_cons_self).symm).bind
    rintro ⟨versions₁, m₁⟩ hm₁
    obtain ⟨hle₁, hb₁, hm⟩ := merge_bounded hc (hcs c₂ List.mem_cons_self) hm₁
    apply ih hb₁
    · exact fun c' hc' => (hcs c' (List.mem_cons_of_mem _ hc')).mono hle₁
    · intro c' hc'
      exact hm c' (hcs c' (List.mem_cons_of_mem _ hc')) (hagrees c' (List.mem_cons_of_mem _ hc'))
        (hpairs c' (List.mem_cons_of_mem _ hc') c₂ List.mem_cons_self)
    · intro c' hc' c'' hc''
      exact hpairs c' (List.mem_cons_of_mem _ hc') c'' (List.mem_cons_of_mem _ hc'')

end Merger

namespace Engine

def live (g : Engine) : List Context := g.explorer ++ g.merger ++ g.succeedingCycle.toList

theorem mem_live {g : Engine} :
    c ∈ g.live ↔ c ∈ g.explorer ++ g.merger ∨ g.succeedingCycle = some c := by
  rw [live, List.mem_append, Option.mem_toList]

/-- In every reachable state contexts of the same cycle agree, no current version is above that of
the executor, and neither the next step nor the next merge fails an assertion on names. -/
theorem Reachable.names_unique {g : Engine} (hp : p.WellFormed)
    (hfind : ∀ c, Passes (findApplicableSummaries c))
    (hg : Reachable p simplifier solver findApplicableSummaries g) :
    (∀ c ∈ g.live, ∀ c' ∈ g.live, c.cycle = c'.cycle → c.Agrees c') ∧
      (∀ c ∈ g.live, ∀ x v, c.state.flattenedNameToVersion.find? x = some v →
        ∃ w, g.versions.find? x = some w ∧ v ≤ w) ∧
      (∀ c ∈ g.explorer,
        Passes ((executor p simplifier solver findApplicableSummaries).execute g.versions c)) ∧
      ∀ point c cs, g.waiting point = c :: cs → Passes (Merger.mergeAll simplifier g.versions c cs) := by
  have hnamed := hg.named hp
  refine ⟨?_, ?_, ?_, ?_⟩
  · intro c hc c' hc' hcycle
    rcases mem_live.mp hc with hc | hc <;> rcases mem_live.mp hc' with hc' | hc'
    · exact hnamed.agrees c hc c' hc'
    · obtain ⟨-, -, hexplorer, hmerger⟩ := hnamed.bounded.succeeding c' hc'
      rw [hexplorer, hmerger] at hc
      cases hc
    · obtain ⟨-, -, hexplorer, hmerger⟩ := hnamed.bounded.succeeding c hc
      rw [hexplorer, hmerger] at hc'
      cases hc'
    · rw [hc] at hc'
      cases hc'
      exact Context.Agrees.refl c
  · intro c hc x v hx
    rcases mem_live.mp hc with hc | hc
    · exact (hnamed.live c hc).locals hx
    · exact (hnamed.bounded.succeeding c hc).1.locals hx
  · intro c hc
    exact Executor.execute_passes hfind (hnamed.live c (List.mem_append_left _ hc))
  · intro point c cs hwaiting
    have hmem : ∀ x ∈ c :: cs, x ∈ g.explorer ++ g.merger := fun x hx =>
      List.mem_append_right _ (mem_waiting hwaiting x hx).1
    apply Merger.mergeAll_passes (hnamed.live c (hmem c List.mem_cons_self))
    · exact fun x hx => hnamed.live x (hmem x (List.mem_cons_of_mem _ hx))
    · exact fun x hx => hnamed.agrees x (hmem x (List.mem_cons_of_mem _ hx)) c
        (hmem c List.mem_cons_self)
    · exact fun x hx y hy => hnamed.agrees x (hmem x (List.mem_cons_of_mem _ hx)) y
        (hmem y (List.mem_cons_of_mem _ hy))

end Engine

open NestedBranch in
/-- Three contexts of one cycle wait at the exit, each with versions of its own. -/
theorem waitingAtExit_names_unique :
    (∀ c ∈ waitingAtExit.live, ∀ c' ∈ waitingAtExit.live, c.cycle = c'.cycle → c.Agrees c') ∧
      (∀ c ∈ waitingAtExit.live, ∀ x v, c.state.flattenedNameToVersion.find? x = some v →
        ∃ w, waitingAtExit.versions.find? x = some w ∧ v ≤ w) ∧
      (∀ c ∈ waitingAtExit.explorer, Passes ((Engine.executor program (.identity _)
        (Solver.classical _) noSummaries).execute waitingAtExit.versions c)) ∧
      ∀ point c cs, waitingAtExit.waiting point = c :: cs →
        Passes (Merger.mergeAll (.identity _) waitingAtExit.versions c cs) :=
  Engine.Reachable.names_unique wellFormed (fun _ => Passes.ok []) reachable

end Ahorn.Etfa
