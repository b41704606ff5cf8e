import ThueProver.Proofs.Steps

/-!
# A search ends

There are three loops, one inside the other: a search steps to its next event, a call
on a session goes from candidate to candidate as long as some of its budget remains,
and a run repeats such calls. None of them has an end that can be seen from what it
recurses on. Each turn of each loop takes up a state, however, and before a state is
taken up the number of states is compared with its budget. So the states that the
budget leaves are turns enough.

No pair of products is taken up twice. Where only finitely many pairs can be reached
the search therefore ends after that many states, although every rule can be undone
and the budget may be as large as one likes.
-/
namespace ThueProver

namespace Search

/-- A call with a budget takes up states only while the budget for all of them lasts,
and unless it stops it takes up one at least. -/
theorem advance_popped (worker : Worker) (s : Search) (budget : Nat) :
    s.stats.popped ≤ (s.advance worker budget).2.1.stats.popped ∧
      (budget ≠ 0 → (∀ reason, (s.advance worker budget).2.2 ≠ some (.stopped reason)) →
        s.stats.popped < (s.advance worker budget).2.1.stats.popped ∧
          (s.advance worker budget).2.1.stats.popped ≤ s.limits.maxStates) := by
  induction budget generalizing worker s with
  | zero => exact ⟨Nat.le_refl _, fun hzero => absurd rfl hzero⟩
  | succ budget ih =>
      have hmoved := step_popped worker s
      have hwent := went worker s
      unfold advance
      split
      next worker' t event heq =>
        rw [heq] at hmoved hwent
        constructor
        · cases hwent with
          | halted reason hreason => exact Nat.le_refl _
          | emptied hgo hpop => exact Nat.le_refl _
          | handled hgo hpop hhandled =>
              have hpopped := hhandled.keeps.popped
              rw [observe_popped] at hpopped
              exact Nat.le_of_succ_le (Nat.le_of_eq hpopped.symm)
        · intro _ hgo
          obtain ⟨hbelow, -, hpopped⟩ := hmoved hgo
          dsimp only at hpopped ⊢
          omega
      next worker' t heq =>
        rw [heq] at hmoved
        obtain ⟨hbelow, hlimits, hpopped⟩ := hmoved (by simp)
        obtain ⟨hle, hmore⟩ := ih worker' t
        dsimp only at hlimits hpopped
        rw [hlimits] at hmore
        refine ⟨by omega, ?_⟩
        intro _ hgo
        by_cases hzero : budget = 0
        · subst hzero
          simp only [advance]
          omega
        · have hnext := hmore hzero hgo
          omega

end Search

/-! ## The loops of a session -/

namespace Session

/-- The loop of a call with a budget, given that it makes `fuel` turns at most: the
search goes on to its next event with what remains of the budget. -/
def rounds (worker : Worker) (s : Session) (remaining : Nat) :
    (fuel : Nat) → Option (Worker × Session × Progress)
  | 0 => none
  | fuel + 1 =>
      match s.search.advance worker remaining with
      | (worker, search, none) => some (worker, { s with search }, .unfinished)
      | (worker, search, some (.stopped reason)) => some (worker, { s with search }.close reason)
      | (worker, search, some (.candidate state)) =>
          match { s with search }.examine state with
          | (t, .unfinished) =>
              let left := remaining - (search.stats.popped - s.search.stats.popped)
              if left = 0 then some (worker, t, .unfinished) else t.rounds worker left fuel
          | done => some (worker, done)

/-- The loop of a run, given that it makes `fuel` turns at most: the same call is made
again as long as nothing came of it. -/
def repeats (budget : Nat) (worker : Worker) (s : Session) :
    (fuel : Nat) → Option (Worker × Session × Except ProofError Report)
  | 0 => none
  | fuel + 1 =>
      match s.advance worker budget with
      | (worker, s, .reported report) => some (worker, s, .ok report)
      | (worker, s, .failed error) => some (worker, s, .error error)
      | (worker, s, .unfinished) => s.repeats budget worker fuel

/-- The steps of a session are those of its search up to the next event, and after a
candidate that was rejected the steps that remain. -/
theorem stepUpTo_eq (worker : Worker) (s : Session) (budget : Nat) :
    s.stepUpTo worker budget =
      match s.search.advance worker budget with
      | (worker, search, none) => (worker, { s with search }, .unfinished)
      | (worker, search, some (.stopped reason)) => (worker, { s with search }.close reason)
      | (worker, search, some (.candidate state)) =>
          match { s with search }.examine state with
          | (t, .unfinished) =>
              t.stepUpTo worker (budget - (search.stats.popped - s.search.stats.popped))
          | done => (worker, done) := by
  induction budget generalizing worker s with
  | zero => rfl
  | succ budget ih =>
      have hmoved := Search.step_popped worker s.search
      rcases hstep : s.search.step worker with ⟨worker', search, event⟩
      rw [hstep] at hmoved
      simp only [stepUpTo, step, Search.advance, hstep]
      cases event with
      | none =>
          obtain ⟨-, -, hpopped⟩ := hmoved (by simp)
          have hle := (Search.advance_popped worker' search budget).1
          simp only [ih]
          rcases hevent : search.advance worker' budget with ⟨worker'', search', event⟩
          rw [hevent] at hle
          dsimp only at hpopped hle
          have hleft : budget + 1 - (search'.stats.popped - s.search.stats.popped) =
              budget - (search'.stats.popped - search.stats.popped) := by omega
          rcases event with _ | state | reason
          · rfl
          · dsimp only
            rw [hleft]
          · rfl
      | some event =>
          cases event with
          | candidate state =>
              obtain ⟨-, -, hpopped⟩ := hmoved (by simp)
              dsimp only at hpopped
              have hleft : budget + 1 - (search.stats.popped - s.search.stats.popped) = budget := by
                omega
              dsimp only
              rw [hleft]
              rcases examine { s with search } state with ⟨t, progress⟩
              cases progress <;> rfl
          | stopped reason =>
              have hsome := close_ne_unfinished { s with search } reason
              dsimp only
              rcases hclose : close { s with search } reason with ⟨t, progress⟩
              rw [hclose] at hsome
              cases progress with
              | unfinished => exact absurd rfl hsome
              | reported report => rfl
              | failed error => rfl

/-- The states that the budget leaves are turns enough for a call. -/
theorem rounds_eq (worker : Worker) (s : Session) (remaining : Nat) {fuel : Nat}
    (h : s.search.limits.maxStates - s.search.stats.popped < fuel) :
    s.rounds worker remaining fuel = some (s.stepUpTo worker remaining) := by
  induction fuel generalizing worker s remaining with
  | zero => omega
  | succ fuel ih =>
      have hpopped := (Search.advance_popped worker s.search remaining).2
      have hlimits := (Search.advance_flags worker s.search remaining).1
      rw [rounds, stepUpTo_eq]
      rcases hadvance : s.search.advance worker remaining with ⟨worker', search, event⟩
      rw [hadvance] at hpopped hlimits
      cases event with
      | none => rfl
      | some event =>
          cases event with
          | stopped reason => rfl
          | candidate state =>
              have hpositive : remaining ≠ 0 := by
                rintro rfl
                cases hadvance
              obtain ⟨hmore, hwithin⟩ := hpopped hpositive (by simp)
              have hsearch := examine_search { s with search } state
              dsimp only at hmore hwithin hlimits ⊢
              rcases hexamine : examine { s with search } state with ⟨t, progress⟩
              rw [hexamine] at hsearch
              dsimp only at hsearch
              cases progress with
              | reported report => rfl
              | failed error => rfl
              | unfinished =>
                  dsimp only
                  split_ifs with hzero
                  · rw [hzero]
                    rfl
                  · apply ih
                    rw [hsearch, hlimits]
                    omega

/-- A run begins with any call. -/
theorem run_eq_advance (worker : Worker) (s : Session) (budget : Nat) :
    s.run worker =
      match s.advance worker budget with
      | (worker, t, .reported report) => (worker, t, .ok report)
      | (worker, t, .failed error) => (worker, t, .error error)
      | (worker, t, .unfinished) => t.run worker := by
  cases hnone : s.outcome with
  | some report =>
      rw [run, advance]
      simp only [hnone]
  | none =>
      simp only [advance, hnone]
      induction budget generalizing worker s with
      | zero => rfl
      | succ budget ih =>
          have houtcome := step_outcome worker s
          rw [run_eq_step hnone]
          unfold stepUpTo
          rcases hstep : s.step worker with ⟨worker', t, progress⟩
          rw [hstep] at houtcome
          cases progress with
          | unfinished => exact ih _ _ (houtcome.trans hnone)
          | reported report => rfl
          | failed error => rfl

/-- A call that nothing came of has spent its budget on states that the limit left. -/
theorem advance_unfinished {worker : Worker} {s : Session} {budget : Nat}
    (h : (s.advance worker budget).2.2 = .unfinished) :
    budget ≤ s.search.limits.maxStates - s.search.stats.popped ∧
      (s.advance worker budget).2.1.search.limits = s.search.limits ∧
      (s.advance worker budget).2.1.search.stats.popped = s.search.stats.popped + budget := by
  cases hnone : s.outcome with
  | some report => simp [advance, hnone] at h
  | none =>
      simp only [advance, hnone] at h ⊢
      clear hnone
      induction budget generalizing worker s with
      | zero => exact ⟨Nat.zero_le _, rfl, rfl⟩
      | succ budget ih =>
          have hmoved := step_popped worker s
          unfold stepUpTo at h ⊢
          rcases hstep : s.step worker with ⟨worker', t, progress⟩
          rw [hstep] at h hmoved
          cases progress with
          | reported report => cases h
          | failed error => cases h
          | unfinished =>
              obtain ⟨hbelow, hlimits, hpopped⟩ := hmoved rfl
              obtain ⟨hleft, hlimits', hpopped'⟩ := ih h
              dsimp only at hlimits hpopped ⊢
              refine ⟨?_, hlimits'.trans hlimits, by omega⟩
              rw [hlimits] at hleft
              omega

/-- A run makes no more calls than it takes to spend the budget for all states. -/
theorem repeats_eq (worker : Worker) (s : Session) {budget fuel : Nat}
    (h : s.search.limits.maxStates - s.search.stats.popped < fuel * budget) :
    s.repeats budget worker fuel = some (s.run worker) := by
  induction fuel generalizing worker s with
  | zero => omega
  | succ fuel ih =>
      have hspent := @advance_unfinished worker s budget
      rw [repeats, run_eq_advance worker s budget]
      rcases hadvance : advance worker s budget with ⟨worker', t, progress⟩
      rw [hadvance] at hspent
      cases progress with
      | reported report => rfl
      | failed error => rfl
      | unfinished =>
          obtain ⟨hleft, hlimits, hpopped⟩ := hspent rfl
          apply ih
          dsimp only at hlimits hpopped
          rw [hlimits, hpopped]
          rw [Nat.succ_mul] at h
          omega

/-- The loops of a session end. They make no more turns than the limit leaves states,
and one more; a run makes no more calls than it takes to spend the limit. -/
structure Ends (worker : Worker) (s : Session) : Prop where
  rounds : ∀ budget fuel, s.outcome = none →
    s.search.limits.maxStates - s.search.stats.popped < fuel →
      s.rounds worker budget fuel = some (s.advance worker budget)
  repeats : ∀ budget fuel,
    s.search.limits.maxStates - s.search.stats.popped < fuel * budget →
      s.repeats budget worker fuel = some (s.run worker)

theorem ends (worker : Worker) (s : Session) : s.Ends worker := by
  constructor
  · intro budget fuel hnone hfuel
    rw [rounds_eq worker s budget hfuel, advance, hnone]
  · intro budget fuel hfuel
    exact repeats_eq worker s hfuel

end Session

/-! ## The life of a search -/

namespace Search

variable {origin s : Search} {taken : List State} {restored : Bool}

theorem Ran.flagged (h : origin.Ran restored taken s) (cancelled : Bool) {elapsedMs : Nat}
    (hlater : s.elapsedMs ≤ elapsedMs) :
    origin.Ran restored taken { s with cancelled, elapsedMs } := by
  obtain ⟨ms, rfl⟩ := Nat.exists_eq_add_of_le hlater
  cases cancelled with
  | false => exact h.renew.wait ms
  | true => exact h.cancel.wait ms

/-- No more states were taken up than pairs can be reached. -/
theorem Budgeted.length_le (h : s.Budgeted taken) {n : ℕ}
    (hn : {k | s.context.Reachable k}.encard ≤ n) : taken.length ≤ n := by
  have hsubset : {k | k ∈ taken.map State.key} ⊆ {k | s.context.Reachable k} := by
    intro k hk
    obtain ⟨t, ht, rfl⟩ := List.mem_map.mp hk
    exact (h.derived t (List.mem_append_left _ ht)).reachable
  have hcard := Set.encard_le_encard hsubset
  rw [encard_members h.nodup_taken, List.length_map] at hcard
  exact_mod_cast hcard.trans hn

/-- Steps stop a search, or each of them takes up one more state. -/
theorem Budgeted.after (h : s.Budgeted taken) (worker : Worker) (n : Nat) :
    (s.after worker n).stopped ≠ none ∨
      ∃ more, more.length = n ∧ (s.after worker n).Budgeted (taken ++ more) := by
  induction n with
  | zero => exact .inr ⟨[], rfl, by rw [List.append_nil]; exact h⟩
  | succ n ih =>
      rw [after_succ]
      have hwent := went worker (s.after worker n)
      rcases ih with hstopped | ⟨more, hlength, hbudgeted⟩
      · left
        rw [hwent.stopped_eq, Ne, Option.or_eq_none_iff]
        exact fun hnone => hstopped hnone.2
      · by_cases hgo : ∀ reason, ((s.after worker n).step worker).2.2 ≠ some (.stopped reason)
        · obtain ⟨state, hnext, -⟩ := hwent.upNext? hgo
          have hstep := hbudgeted.step hwent
          rw [hnext, Option.toList_some, List.append_assoc] at hstep
          exact .inr ⟨more ++ [state], by rw [List.length_append, hlength]; rfl, hstep⟩
        · push Not at hgo
          obtain ⟨reason, hreason⟩ := hgo
          left
          rw [hwent.stopped_eq, hreason]
          simp [SearchEvent.stop?]

/-- What the life of a search is confined to that has taken up these states: to what
its budgets allow, and to the pairs that can be reached. -/
structure Confined (c : Context) (limits : Limits) (taken : List State) (s : Search) : Prop where
  popped : s.stats.popped = taken.length
  states : taken.length ≤ limits.maxStates
  proofs : taken.countP State.isTerminal ≤ limits.maxProofs
  distinct : (taken.map State.key).Nodup
  reachable : ∀ t ∈ taken, c.Reachable t.key
  ends : ∀ n : ℕ, {k | c.Reachable k}.encard ≤ n → taken.length ≤ n ∧
    ∀ worker m, n < taken.length + m → (s.after worker m).stopped ≠ none

theorem Ran.confined {c : Context} {limits : Limits}
    (h : (Search.start c limits).Ran restored taken s) : s.Confined c limits taken := by
  have hbudgeted := h.budgeted
  have hcontext : s.context = c := h.context
  have hlimits : s.limits = limits := h.limits_eq
  refine ⟨hbudgeted.popped, ?_, ?_, hbudgeted.nodup_taken, ?_, ?_⟩
  · rw [← hbudgeted.popped, ← hlimits]
    exact hbudgeted.states
  · rw [← hbudgeted.candidates, ← hlimits]
    exact hbudgeted.proofs
  · intro t ht
    rw [← hcontext]
    exact (hbudgeted.derived t (List.mem_append_left _ ht)).reachable
  · intro n hn
    rw [← hcontext] at hn
    refine ⟨hbudgeted.length_le hn, ?_⟩
    intro worker m hm
    rcases hbudgeted.after worker m with hstopped | ⟨more, hlength, hafter⟩
    · exact hstopped
    · rw [← (after_context worker s m).1] at hn
      have hle := hafter.length_le hn
      rw [List.length_append] at hle
      omega

end Search

namespace Session

/-- What a session that a prover began is made to do, its search does, also when the
session is put away and taken up again. -/
theorem Revived.ran {p : Prover} {axioms : List Equation} {goal : Equation} {origin s : Session}
    {lost : Nat} (h : origin.Revived lost s) (hp : p.Entered axioms)
    (hs : p.start goal = .ok origin) :
    ∃ restored taken, origin.search.Ran restored taken s.search := by
  have hbegun : origin.search.Begun axioms goal := by
    obtain ⟨hlimits, c, hcontext, rfl⟩ := Prover.start_eq_ok.mp hs
    exact Search.begun_start hp hlimits hcontext
  have hran := h.invariant (P := fun _ s => s.search.Begun axioms goal ∧
    ∃ restored taken, origin.search.Ran restored taken s.search)
    ⟨hbegun, false, [], .start⟩ ?_ ?_ ?_
  · exact hran.2
  · intro worker _ s hs _
    obtain ⟨hbegun, restored, taken, hran⟩ := hs
    rw [step_search]
    exact ⟨hbegun.step worker, restored, _, hran.step worker⟩
  · intro _ s cancelled elapsedMs hlater hs
    obtain ⟨hbegun, restored, taken, hran⟩ := hs
    exact ⟨hbegun.flagged cancelled elapsedMs, restored, taken, hran.flagged cancelled hlater⟩
  · intro _ s t hs ht
    obtain ⟨hbegun, restored, taken, hran⟩ := hs
    rw [hbegun.ofSnapshot, Except.ok.injEq] at ht
    subst ht
    exact ⟨hbegun.restored, true, taken, hran.restore⟩

end Session

namespace Search

/-- Every call on a search and on a session ends, in any context and under any limits,
and the number of its turns is bounded by the states that the limit leaves. Over its
whole life, suspensions included, a search is confined to its budgets and takes up no
pair twice; the candidates that it hands out are some of the states it takes up, and
if no more than `n` pairs can be reached it has stopped after `n` states. -/
theorem terminates :
    (∀ (worker : Worker) (s : Search), ∃ n, n ≤ s.limits.maxStates - s.stats.popped ∧
      (s.advance worker n).2.2 = none ∧ s.advance worker (n + 1) =
        ((s.next worker).1, (s.next worker).2.1, some (s.next worker).2.2)) ∧
    (∀ (worker : Worker) (s : Session), s.Ends worker) ∧
    (∀ {p : Prover} {axioms : List Equation} {goal : Equation} {origin s : Session} {lost : Nat},
      p.Entered axioms → p.start goal = .ok origin → origin.Revived lost s →
        ∃ c restored taken, (start c p.limits).Ran restored taken s.search) ∧
    ∀ (c : Context) (limits : Limits),
      (∀ list : List Call, ∃ restored taken,
        (start c limits).Ran restored taken ((start c limits).calls list).1 ∧
          SearchEvent.handedOut ((start c limits).calls list).2 =
            taken.filter State.isTerminal) ∧
      ∀ {restored : Bool} {taken : List State} {s : Search},
        (start c limits).Ran restored taken s → s.Confined c limits taken := by
  refine ⟨next_eq_advance, Session.ends, ?_, fun c limits => ⟨?_, Ran.confined⟩⟩
  · intro p axioms goal origin s lost hp hs h
    have hran := h.ran hp hs
    obtain ⟨-, c, -, rfl⟩ := Prover.start_eq_ok.mp hs
    exact ⟨c, hran⟩
  intro list
  obtain ⟨restored, taken, hran, -, hhanded⟩ := Ran.start.calls list
  exact ⟨restored, taken, hran, hhanded⟩

/-- Four pairs can be reached here, since `a` and `b` can be exchanged on each side for
ever. The search ends after four states, however large its budgets are. -/
theorem terminates_cycle :
    ∃ (p : Prover) (s : Session), p.start ⟨["a", "c"], ["a", "d"]⟩ = .ok s ∧
      {k | s.search.context.Reachable k}.encard = 4 ∧
      s.rounds {} 9 200001 = some (s.advance {} 9) ∧
      s.repeats (wordBound - 1) {} 1 = some (s.run {}) ∧
      (∃ c restored taken, (start c p.limits).Ran restored taken s.search) ∧
      ∀ (limits : Limits) (worker : Worker) (m : Nat), 4 < m →
        ((start s.search.context limits).after worker m).stopped ≠ none := by
  have hrun : ∃ p, Prover.setAxioms {} [⟨["a"], ["b"]⟩] = .ok p ∧ ∃ s,
      p.start ⟨["a", "c"], ["a", "d"]⟩ = .ok s ∧ s.outcome = none ∧
      s.search.limits.maxStates - s.search.stats.popped = 200000 ∧ ∃ t : Search,
      (s.search.advance {} 9).2.1 = t ∧ t.stopped = some .exhausted ∧
      t.stats.rejectedBatches = 0 ∧ t.stats.popped = 4 :=
    ⟨_, by cbv, _, by cbv, by cbv, by cbv, _, rfl, by cbv, by cbv, by cbv⟩
  obtain ⟨p, hp, s, hs, hnone, hleft, t, rfl, hstopped, hadmitted, hpopped⟩ := hrun
  have hentered : p.Entered _ := .setAxioms (.fresh _) hp
  obtain ⟨-, hsessions, hbegun, hlife⟩ := terminates
  obtain ⟨hlimits, c, hcontext, rfl⟩ := Prover.start_eq_ok.mp hs
  have hprepared : c.Prepared :=
    Context.prepared_of_prepare (RuleBook.numbered_of_ofEquations hentered.ofEquations) hcontext
  have hstart : Driven 0 (start c p.limits) [] (start c p.limits) := .start
  have hheld : 0 ≤ Worker.inFlight {} := Nat.zero_le _
  obtain ⟨taken, htaken⟩ := hstart.advance hheld 9
  obtain ⟨hspared, hsame, -⟩ := htaken.spared hprepared
  have hcard := (Exhausted.mk hspared.explored (hspared.explored.exhausted hstopped)
    hadmitted).encard_reachable
  rw [hsame, List.nil_append, ← List.nil_append taken, ← hspared.explored.popped, hpopped] at hcard
  refine ⟨p, _, hs, hcard, ?_, ?_, hbegun hentered hs .start, ?_⟩
  · exact (hsessions {} _).rounds 9 200001 hnone (by rw [hleft]; decide)
  · exact (hsessions {} _).repeats _ 1 (by rw [hleft]; decide)
  · intro limits worker m hm
    exact (((hlife c limits).2 .start).ends 4 hcard.le).2 worker m (by simpa using hm)

end Search

end ThueProver
