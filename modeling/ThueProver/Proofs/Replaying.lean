import Mathlib.Data.Multiset.AddSub
import Mathlib.Tactic.Common
import ThueProver.Proofs.Justification
import ThueProver.Proofs.Registry

/-!
# What a replay comes to

A replay can end in three ways: with the whole proof applied, at a step whose pattern
is not found, or with an error at a step whose rule is not in the book. It is compared
here with a relation that only says what it is for steps to apply one after the other.
That relation speaks of the rules that are in the book and of how a side is cut into a
front, the pattern and a back; it neither looks rules up nor searches.

From there it follows that a replay composes. Steps that apply can be replayed first,
and what comes after them is a replay of its own from the sides they lead to.
-/
namespace ThueProver

/-! ## The first run of a pattern -/

/-- The tokens are cut at the first place where the pattern is a run of adjacent tokens. -/
structure FirstAt (pattern tokens front back : List Token) : Prop where
  found : tokens = front ++ pattern ++ back
  first : ∀ front' back', tokens = front' ++ pattern ++ back' → front.length ≤ front'.length

section
variable {pattern replacement tokens rest front front' back back' result : List Token}
  {token : Token}

theorem FirstAt.atStart (h : pattern ++ back = tokens) : FirstAt pattern tokens [] back :=
  ⟨h.symm, fun _ _ _ => Nat.zero_le _⟩

theorem FirstAt.cons (h : FirstAt pattern rest front back) (hskip : ¬ pattern <+: token :: rest) :
    FirstAt pattern (token :: rest) (token :: front) back := by
  refine ⟨by rw [h.found]; rfl, ?_⟩
  intro front' back' hother
  cases front' with
  | nil => exact absurd ⟨back', hother.symm⟩ hskip
  | cons _ front' => exact Nat.succ_le_succ (h.first front' back' (List.cons.inj hother).2)

theorem FirstAt.unique (h : FirstAt pattern tokens front back)
    (h' : FirstAt pattern tokens front' back') : front = front' ∧ back = back' := by
  have hlength : front.length = front'.length :=
    Nat.le_antisymm (h.first front' back' h'.found) (h'.first front back h.found)
  have hcuts : front ++ (pattern ++ back) = front' ++ (pattern ++ back') := by
    rw [← List.append_assoc, ← List.append_assoc, ← h.found, h'.found]
  obtain ⟨hfront, hrest⟩ := List.append_inj hcuts hlength
  exact ⟨hfront, List.append_cancel_left hrest⟩

theorem firstAt_of_replaceFirst? (h : replaceFirst? pattern replacement tokens = some result) :
    pattern ≠ [] ∧
      ∃ front back, FirstAt pattern tokens front back ∧ result = front ++ replacement ++ back := by
  induction tokens generalizing result with
  | nil => cases h
  | cons token rest ih =>
      rw [replaceFirst?] at h
      split_ifs at h with hempty hstarts
      · obtain ⟨back, hback⟩ := List.isPrefixOf_iff_prefix.mp hstarts
        rw [← hback, List.drop_left] at h
        exact ⟨by simpa using hempty, [], back, .atStart hback, (Option.some.inj h).symm⟩
      · obtain ⟨later, hlater, rfl⟩ := Option.map_eq_some_iff.mp h
        obtain ⟨hpattern, front, back, hfirst, rfl⟩ := ih hlater
        rw [List.isPrefixOf_iff_prefix] at hstarts
        exact ⟨hpattern, token :: front, back, hfirst.cons hstarts, rfl⟩

/-- Nothing is replaced exactly if the pattern is empty or nowhere a run of the tokens. -/
theorem replaceFirst?_eq_none_iff :
    replaceFirst? pattern replacement tokens = none ↔ pattern = [] ∨ ¬ pattern <:+: tokens := by
  induction tokens with
  | nil => simp [replaceFirst?, em]
  | cons token rest ih =>
      rw [replaceFirst?, List.infix_cons_iff, not_or, ← List.isPrefixOf_iff_prefix]
      split_ifs with hempty hstarts
      · simpa using Or.inl hempty
      · simpa [hstarts] using hempty
      · simp [ih, hstarts]

/-- What is replaced is the first run of a pattern that is not empty. -/
theorem replaceFirst?_eq_some_iff :
    replaceFirst? pattern replacement tokens = some result ↔
      pattern ≠ [] ∧ ∃ front back, FirstAt pattern tokens front back ∧
        result = front ++ replacement ++ back := by
  refine ⟨firstAt_of_replaceFirst?, ?_⟩
  rintro ⟨hpattern, front, back, hfirst, rfl⟩
  cases hresult : replaceFirst? pattern replacement tokens with
  | none =>
      have hrun : pattern <:+: tokens := ⟨front, back, hfirst.found.symm⟩
      cases replaceFirst?_eq_none_iff.mp hresult with
      | inl hempty => exact absurd hempty hpattern
      | inr hnowhere => exact absurd hrun hnowhere
  | some result =>
      obtain ⟨-, front', back', hfirst', rfl⟩ := firstAt_of_replaceFirst? hresult
      obtain ⟨rfl, rfl⟩ := hfirst.unique hfirst'
      rfl

theorem isSome_replaceFirst?_iff :
    (replaceFirst? pattern replacement tokens).isSome = true ↔
      pattern ≠ [] ∧ ∃ front back, tokens = front ++ pattern ++ back := by
  have hrun : pattern <:+: tokens ↔ ∃ front back, tokens = front ++ pattern ++ back := by
    simp only [List.IsInfix, eq_comm]
  rw [Option.isSome_iff_ne_none, ne_eq, replaceFirst?_eq_none_iff, not_or, not_not, hrun]

theorem FirstAt.length_replaced (h : FirstAt pattern tokens front back)
    (replacement : List Token) :
    (front ++ replacement ++ back).length + pattern.length =
      tokens.length + replacement.length := by
  rw [h.found]
  simp only [List.length_append]
  omega

/-- The tokens around a run are those that are left when its pattern is taken out. -/
theorem FirstAt.coe_around (h : FirstAt pattern tokens front back) :
    (front : Multiset Token) + back = tokens - pattern := by
  have htokens : (tokens : Multiset Token) = front + back + pattern := by
    rw [h.found, ← Multiset.coe_add, ← Multiset.coe_add, add_right_comm]
  rw [htokens, add_tsub_cancel_right]

theorem FirstAt.coe_replaced (h : FirstAt pattern tokens front back) (replacement : List Token) :
    ((front ++ replacement ++ back : List Token) : Multiset Token) =
      tokens - pattern + replacement := by
  rw [← h.coe_around, ← Multiset.coe_add, ← Multiset.coe_add, add_right_comm]

/-- Tokens are replaced exactly if the pattern is not empty and a run of adjacent tokens,
and what is replaced then is its leftmost run: any other run has at least as many tokens
in front of it. The rest stays in its place, so that the length changes by the difference
between pattern and replacement, and so does the multiset of the tokens. -/
theorem replaceFirst?_leftmost (pattern replacement tokens : List Token) :
    ((replaceFirst? pattern replacement tokens).isSome = true ↔
      pattern ≠ [] ∧ ∃ front back, tokens = front ++ pattern ++ back) ∧
    ∀ result, replaceFirst? pattern replacement tokens = some result →
      (∃ front back, tokens = front ++ pattern ++ back ∧
        result = front ++ replacement ++ back ∧
        ∀ front' back', tokens = front' ++ pattern ++ back' → front.length ≤ front'.length) ∧
      result.length + pattern.length = tokens.length + replacement.length ∧
      (result : Multiset Token) = tokens - pattern + replacement := by
  refine ⟨isSome_replaceFirst?_iff, ?_⟩
  intro result hresult
  obtain ⟨-, front, back, hfirst, rfl⟩ := replaceFirst?_eq_some_iff.mp hresult
  exact ⟨⟨front, back, hfirst.found, rfl, hfirst.first⟩, hfirst.length_replaced replacement,
    hfirst.coe_replaced replacement⟩

/-- Of two runs that overlap the first gives way, also to a replacement that starts as the
pattern does. -/
theorem replaceFirst?_leftmost_overlapping :
    let tokens := ["x", "a", "b", "a", "b", "a"]
    let result := ["x", "a", "b", "c", "b", "a"]
    replaceFirst? ["a", "b", "a"] ["a", "b", "c"] tokens = some result ∧
      (∃ front back, tokens = front ++ ["a", "b", "a"] ++ back ∧
        result = front ++ ["a", "b", "c"] ++ back ∧
        ∀ front' back', tokens = front' ++ ["a", "b", "a"] ++ back' →
          front.length ≤ front'.length) ∧
      (result : Multiset Token) = tokens - ["a", "b", "a"] + ["a", "b", "c"] := by
  intro tokens result
  have hresult : replaceFirst? ["a", "b", "a"] ["a", "b", "c"] tokens = some result := by decide
  obtain ⟨hcut, -, hcounts⟩ := (replaceFirst?_leftmost _ _ tokens).2 result hresult
  exact ⟨hresult, hcut, hcounts⟩

end

/-! ## One step -/

/-- Rules are numbered by their places, and no rule has an empty side. -/
structure RuleBook.Regular (book : RuleBook) : Prop where
  numbered : book.Numbered
  filled : ∀ rule ∈ book.rules, ∀ direction, rule.pattern direction ≠ []

theorem Registry.Holds.regular {r : Registry} {axioms : List Equation} (h : r.Holds axioms) :
    r.book.Regular where
  numbered := h.numbered
  filled rule hrule direction := by
    obtain ⟨hleft, hright, -, -⟩ := h.usable rule hrule
    cases direction with
    | reduce => exact hleft
    | expand => exact hright

theorem RuleBook.Regular.get?_eq_some_iff {book : RuleBook} (h : book.Regular) {id : Nat}
    {rule : Rule} : book.get? id = some rule ↔ rule ∈ book.rules ∧ rule.id = id := by
  refine ⟨mem_of_get?, ?_⟩
  rintro ⟨hrule, rfl⟩
  exact h.numbered.get?_of_mem hrule

namespace Step

/-- The book has no rule of the number that the step names. -/
def Unknown (book : RuleBook) (step : Step) : Prop := ∀ rule ∈ book.rules, rule.id ≠ step.rule

/-- The side to change does not hold the pattern of the rule as a run of adjacent tokens. -/
def Misses (book : RuleBook) (step : Step) (tokens : Equation) : Prop :=
  ∃ rule ∈ book.rules, rule.id = step.rule ∧
    ¬ rule.pattern step.opcode.direction <:+: tokens.side step.opcode.side

/-- On the side to change, the first run of the rule's pattern gives way to its replacement. -/
def Applies (book : RuleBook) (step : Step) (before after : Equation) : Prop :=
  ∃ rule ∈ book.rules, rule.id = step.rule ∧
    ∃ front back,
      FirstAt (rule.pattern step.opcode.direction) (before.side step.opcode.side) front back ∧
      after = before.setSide step.opcode.side
        (front ++ rule.replacement step.opcode.direction ++ back)

variable {book : RuleBook} {step : Step} {tokens before after : Equation}

theorem unknown_iff (h : book.Regular) : step.Unknown book ↔ book.get? step.rule = none := by
  simp only [Unknown, Option.eq_none_iff_forall_ne_some, ne_eq, h.get?_eq_some_iff, not_and]

theorem misses_iff (h : book.Regular) :
    step.Misses book tokens ↔
      ∃ rule, book.get? step.rule = some rule ∧ replaceIn? tokens step.opcode rule = none := by
  simp only [Misses, replaceIn?, Option.map_eq_none_iff, replaceFirst?_eq_none_iff,
    h.get?_eq_some_iff, and_assoc]
  refine exists_congr fun rule => and_congr_right fun hrule => and_congr_right fun _ => ?_
  exact (or_iff_right (h.filled rule hrule _)).symm

theorem applies_iff (h : book.Regular) :
    step.Applies book before after ↔
      ∃ rule, book.get? step.rule = some rule ∧
        replaceIn? before step.opcode rule = some after := by
  simp only [Applies, replaceIn?, Option.map_eq_some_iff, replaceFirst?_eq_some_iff,
    h.get?_eq_some_iff, and_assoc]
  refine exists_congr fun rule => and_congr_right fun hrule => and_congr_right fun _ => ?_
  constructor
  · rintro ⟨front, back, hfirst, rfl⟩
    exact ⟨_, h.filled rule hrule _, ⟨front, back, hfirst, rfl⟩, rfl⟩
  · rintro ⟨_, -, ⟨front, back, hfirst, rfl⟩, rfl⟩
    exact ⟨front, back, hfirst, rfl⟩

end Step

/-! ## The steps of a proof -/

/-- The steps apply one after the other. They leave these records and lead to these sides. -/
inductive Applied (book : RuleBook) : Equation → List Step → List StepRecord → Equation → Prop
  | nil (tokens : Equation) : Applied book tokens [] [] tokens
  | cons {tokens changed reached : Equation} {step : Step} {proof : List Step}
      {records : List StepRecord} : step.Applies book tokens changed →
      Applied book changed proof records reached →
      Applied book tokens (step :: proof) (⟨step, step.text, changed⟩ :: records) reached

/-- A replay that goes on from what was applied already. -/
def Replay.resumed (records : List StepRecord) (r : Replay) : Replay :=
  { r with
    trace := records.map (·.description) ++ r.trace
    steps := records ++ r.steps
    failedStep := r.failedStep.map (· + records.length) }

section
variable {book : RuleBook} {tokens reached : Equation} {proof : List Step}
  {records : List StepRecord}

theorem Applied.steps_eq (h : Applied book tokens proof records reached) :
    records.map (·.step) = proof := by
  induction h with
  | nil => rfl
  | cons _ _ ih => rw [List.map_cons, ih]

theorem Applied.described (h : Applied book tokens proof records reached) :
    records.map (·.description) = proof.map Step.text := by
  induction h with
  | nil => rfl
  | cons _ _ ih => rw [List.map_cons, List.map_cons, ih]

theorem Applied.length_eq (h : Applied book tokens proof records reached) :
    records.length = proof.length := by
  rw [← h.steps_eq, List.length_map]

/-- Steps that apply can be replayed first, and what comes after them by itself. -/
theorem Applied.replay_append (hbook : book.Regular)
    (h : Applied book tokens proof records reached) (rest : List Step) :
    replay book tokens (proof ++ rest) = (replay book reached rest).map (.resumed records) := by
  induction h with
  | nil tokens =>
      rw [List.nil_append]
      cases replay book tokens rest with
      | error error => rfl
      | ok r => simp [Except.map, Replay.resumed]
  | cons hstep _ ih =>
      obtain ⟨rule, hrule, hreplace⟩ := (Step.applies_iff hbook).mp hstep
      simp only [List.cons_append, replay, hrule, hreplace, ih]
      cases replay book _ rest with
      | error error => rfl
      | ok r =>
          simp only [Except.map, Replay.resumed, Replay.after, Option.map_map, List.cons_append,
            List.length_cons]
          rfl

/-- A replay applies steps for as long as they find their patterns. Then the proof is at
its end, or the next step misses its pattern or names no rule. -/
theorem exists_ending (hbook : book.Regular) (tokens : Equation) (proof : List Step) :
    ∃ applied records reached, Applied book tokens applied records reached ∧
      (proof = applied ∨
        ∃ step rest, proof = applied ++ step :: rest ∧
          (step.Misses book reached ∨ step.Unknown book)) := by
  induction proof generalizing tokens with
  | nil => exact ⟨[], [], tokens, .nil tokens, .inl rfl⟩
  | cons step rest ih =>
      cases hrule : book.get? step.rule with
      | none =>
          exact ⟨[], [], tokens, .nil tokens,
            .inr ⟨step, rest, rfl, .inr ((Step.unknown_iff hbook).mpr hrule)⟩⟩
      | some rule =>
          cases hreplace : replaceIn? tokens step.opcode rule with
          | none =>
              exact ⟨[], [], tokens, .nil tokens,
                .inr ⟨step, rest, rfl, .inl ((Step.misses_iff hbook).mpr ⟨rule, hrule, hreplace⟩)⟩⟩
          | some changed =>
              have hstep := (Step.applies_iff hbook).mpr ⟨rule, hrule, hreplace⟩
              obtain ⟨applied, records, reached, happlied, hending⟩ := ih changed
              refine ⟨step :: applied, _, reached, .cons hstep happlied, ?_⟩
              rcases hending with rfl | ⟨next, after, rfl, hnext⟩
              · exact .inl rfl
              · exact .inr ⟨next, after, rfl, hnext⟩

theorem Applied.replay_eq (hbook : book.Regular) (h : Applied book tokens proof records reached) :
    replay book tokens proof =
      .ok { tokens := reached, trace := proof.map Step.text, steps := records } := by
  have hreplay := h.replay_append hbook []
  rw [← h.described]
  simpa [replay, Except.map, Replay.resumed] using hreplay

theorem Applied.replay_of_misses (hbook : book.Regular)
    (h : Applied book tokens proof records reached) {step : Step}
    (hstep : step.Misses book reached) (rest : List Step) :
    replay book tokens (proof ++ step :: rest) =
      .ok { tokens := reached, trace := proof.map Step.text, steps := records,
            failedStep := some proof.length } := by
  obtain ⟨rule, hrule, hreplace⟩ := (Step.misses_iff hbook).mp hstep
  rw [h.replay_append hbook, replay, ← h.length_eq, ← h.described]
  simp [hrule, hreplace, Except.map, Replay.resumed]

theorem Applied.replay_of_unknown (hbook : book.Regular)
    (h : Applied book tokens proof records reached) {step : Step} (hstep : step.Unknown book)
    (rest : List Step) :
    replay book tokens (proof ++ step :: rest) = .error (.unknownRule step.rule) := by
  have hrule := (Step.unknown_iff hbook).mp hstep
  rw [h.replay_append hbook, replay]
  simp [hrule, Except.map]

/-- An error is that of a step with no rule, after steps that all apply. -/
theorem replay_eq_error_iff (hbook : book.Regular) {error : ProofError} :
    replay book tokens proof = .error error ↔
      ∃ before step after records reached, proof = before ++ step :: after ∧
        Applied book tokens before records reached ∧ step.Unknown book ∧
        error = .unknownRule step.rule := by
  constructor
  · intro h
    obtain ⟨applied, records, reached, happlied, hending⟩ := exists_ending hbook tokens proof
    rcases hending with rfl | ⟨step, rest, rfl, hmisses | hunknown⟩
    · cases (happlied.replay_eq hbook).symm.trans h
    · cases (happlied.replay_of_misses hbook hmisses rest).symm.trans h
    · cases (happlied.replay_of_unknown hbook hunknown rest).symm.trans h
      exact ⟨applied, step, rest, records, reached, rfl, happlied, hunknown, rfl⟩
  · rintro ⟨before, step, after, records, reached, rfl, happlied, hunknown, rfl⟩
    exact happlied.replay_of_unknown hbook hunknown after

/-- Without an error, either all steps apply or they do up to one that misses. -/
theorem ending_of_replay {r : Replay} (hbook : book.Regular)
    (h : replay book tokens proof = .ok r) :
    (r.failedStep = none ∧ Applied book tokens proof r.steps r.tokens) ∨
      ∃ before step after, proof = before ++ step :: after ∧
        r.failedStep = some before.length ∧ Applied book tokens before r.steps r.tokens ∧
        step.Misses book r.tokens := by
  obtain ⟨applied, records, reached, happlied, hending⟩ := exists_ending hbook tokens proof
  rcases hending with rfl | ⟨step, rest, rfl, hmisses | hunknown⟩
  · cases (happlied.replay_eq hbook).symm.trans h
    exact .inl ⟨rfl, happlied⟩
  · cases (happlied.replay_of_misses hbook hmisses rest).symm.trans h
    exact .inr ⟨applied, step, rest, rfl, rfl, happlied, hmisses⟩
  · cases (happlied.replay_of_unknown hbook hunknown rest).symm.trans h

theorem applied_of_replay {r : Replay} (hbook : book.Regular)
    (h : replay book tokens proof = .ok r) :
    Applied book tokens (proof.take (r.failedStep.getD proof.length)) r.steps r.tokens := by
  rcases ending_of_replay hbook h with ⟨hnone, happlied⟩ | ⟨before, _, _, rfl, hsome, happlied, -⟩
  · rwa [hnone, Option.getD_none, List.take_length]
  · rwa [hsome, Option.getD_some, List.take_left]

theorem length_steps_of_replay {r : Replay} (hbook : book.Regular)
    (h : replay book tokens proof = .ok r) :
    r.steps.length = r.failedStep.getD proof.length := by
  rcases ending_of_replay hbook h with ⟨hnone, happlied⟩ | ⟨before, _, _, -, hsome, happlied, -⟩
  · rw [hnone, happlied.length_eq, Option.getD_none]
  · rw [hsome, happlied.length_eq, Option.getD_some]

/-- The place reported is that of a step that misses after steps that all apply. -/
theorem failedStep_eq_some_iff {r : Replay} (hbook : book.Regular)
    (h : replay book tokens proof = .ok r) {i : Nat} :
    r.failedStep = some i ↔ ∃ step records reached, proof[i]? = some step ∧
      Applied book tokens (proof.take i) records reached ∧ step.Misses book reached := by
  constructor
  · intro hfailed
    rcases ending_of_replay hbook h with
      ⟨hnone, -⟩ | ⟨before, step, after, rfl, hsome, happlied, hmisses⟩
    · cases hnone.symm.trans hfailed
    · cases hsome.symm.trans hfailed
      exact ⟨step, r.steps, r.tokens, by simp, by rwa [List.take_left], hmisses⟩
  · rintro ⟨step, records, reached, hstep, happlied, hmisses⟩
    obtain ⟨hlt, rfl⟩ := List.getElem?_eq_some_iff.mp hstep
    have hreplay := happlied.replay_of_misses hbook hmisses (proof.drop (i + 1))
    rw [← List.drop_eq_getElem_cons hlt, List.take_append_drop, h] at hreplay
    cases hreplay
    rw [List.length_take_of_le (Nat.le_of_lt hlt)]

/-- A replay without a failed step, and then the rest of the proof from where it ends. -/
theorem replay_append_of_replay {r : Replay} (hbook : book.Regular)
    (h : replay book tokens proof = .ok r) (hfailed : r.failedStep = none) (rest : List Step) :
    replay book tokens (proof ++ rest) = (replay book r.tokens rest).map (.resumed r.steps) := by
  rcases ending_of_replay hbook h with ⟨-, happlied⟩ | ⟨_, _, _, -, hsome, -⟩
  · exact happlied.replay_append hbook rest
  · cases hsome.symm.trans hfailed

end

/-- What a replay comes to, over any book that calls can make. An error is that of a
step whose rule is not in the book, after steps that all apply. Otherwise the replay
stops at the first step that misses its pattern or, without one, at the end of the
proof. What it reports is read off the steps before that place, and it is valid exactly
if there is no such step and the sides have become equal. A proof whose first part
applies is replayed as that part and, from where it leads, as the rest. -/
theorem replay_spec (codes : Codebook) (requests : List Registry.Request) (tokens : Equation)
    (proof : List Step) :
    let book := (Registry.performAll { codes } requests).book
    (∀ error, replay book tokens proof = .error error ↔
      ∃ before step after records reached, proof = before ++ step :: after ∧
        Applied book tokens before records reached ∧ step.Unknown book ∧
        error = .unknownRule step.rule) ∧
    (∀ r, replay book tokens proof = .ok r →
      (∀ i, r.failedStep = some i ↔ ∃ step records reached, proof[i]? = some step ∧
        Applied book tokens (proof.take i) records reached ∧ step.Misses book reached) ∧
      (∀ n, n = r.failedStep.getD proof.length →
        r.steps.length = n ∧ r.trace = (proof.take n).map Step.text ∧
          Applied book tokens (proof.take n) r.steps r.tokens) ∧
      (r.valid = true ↔ r.failedStep = none ∧ r.tokens.left = r.tokens.right)) ∧
    ∀ first rest r, proof = first ++ rest → replay book tokens first = .ok r →
      r.failedStep = none →
        replay book tokens proof = (replay book r.tokens rest).map fun later =>
          { tokens := later.tokens
            trace := r.trace ++ later.trace
            steps := r.steps ++ later.steps
            failedStep := later.failedStep.map (· + first.length) } := by
  intro book
  have hbook : book.Regular := ((Registry.holds_empty codes).performAll requests).regular
  refine ⟨fun error => replay_eq_error_iff hbook, ?_, ?_⟩
  · intro r hr
    refine ⟨fun i => failedStep_eq_some_iff hbook hr, ?_, ?_⟩
    · rintro n rfl
      have happlied := applied_of_replay hbook hr
      refine ⟨length_steps_of_replay hbook hr, ?_, happlied⟩
      rw [← (replay_logged hr).described, happlied.described]
    · simp [Replay.valid]
  · rintro first rest r rfl hr hfailed
    have hlength : r.steps.length = first.length := by
      rw [length_steps_of_replay hbook hr, hfailed, Option.getD_none]
    rw [replay_append_of_replay hbook hr hfailed rest]
    unfold Replay.resumed
    rw [hlength, (replay_logged hr).described]

/-- The second step misses before the third one, which has no rule, is looked up. -/
theorem replay_spec_missed :
    let book := (Registry.performAll {} [.setAxioms [⟨["a"], ["b"]⟩]]).book
    let proof : List Step := [⟨⟨.left, .expand⟩, 1⟩, ⟨⟨.left, .expand⟩, 1⟩, ⟨⟨.left, .expand⟩, 2⟩]
    ∃ r, replay book ⟨["a", "c"], ["c"]⟩ proof = .ok r ∧ r.tokens = ⟨["b", "c"], ["c"]⟩ ∧
      r.trace = ["lhs_expand via Axiom_1"] ∧
      ∃ step records reached, proof[1]? = some step ∧
        Applied book ⟨["a", "c"], ["c"]⟩ (proof.take 1) records reached ∧
        step.Misses book reached := by
  intro book proof
  have hrun : ∃ r, replay book ⟨["a", "c"], ["c"]⟩ proof = .ok r ∧
      r.tokens = ⟨["b", "c"], ["c"]⟩ ∧ r.trace = ["lhs_expand via Axiom_1"] ∧
      r.failedStep = some 1 := ⟨_, by rfl, by decide, by decide, by decide⟩
  obtain ⟨r, hr, htokens, htrace, hfailed⟩ := hrun
  have hspec := (replay_spec {} [.setAxioms [⟨["a"], ["b"]⟩]] ⟨["a", "c"], ["c"]⟩ proof).2.1 r hr
  exact ⟨r, hr, htokens, htrace, (hspec.1 1).mp hfailed⟩

end ThueProver
