import ThueProver.Proofs.Calls
import ThueProver.Proofs.Exhaustion

/-!
# Steps in any context

A search can be made in any context: the numbers of the rules may repeat, and the call
graph may be that of another theorem. What a step does is still known in outline. It
stops, or it takes up the state that is next, counts it and keeps it if it is the best.
What enters the frontier then are children of that state, whichever of them the graph
let through. So the pairs met are pairs that can be reached, and each of them enters
once.

The budgets are looked at before a state is taken up. They are therefore never
exceeded, and the counts they are compared with survive a suspension. A search that has
been called, cancelled, suspended and resumed in any order has taken up the states of
its history, and the terminal ones among them are what it has handed out.
-/
namespace ThueProver

namespace SearchEvent

/-- The reason that an event gives for stopping. -/
def stop? : SearchEvent → Option StopReason
  | candidate _ => none
  | stopped reason => some reason

/-- The candidate that an event hands out. -/
def state? : SearchEvent → Option State
  | candidate state => some state
  | stopped _ => none

/-- The candidates that some calls handed out, in order. -/
def handedOut (events : List (Option SearchEvent)) : List State :=
  events.filterMap fun event => event.bind state?

end SearchEvent

namespace Search

/-- What becomes of a state that was popped and counted. -/
structure Handled (s : Search) (state : State) (t : Search) (event : Option SearchEvent) :
    Prop where
  keeps : s.Keeps t
  entered : ∃ batch, t.frontier = (s.frontier.pushAll batch).2 ∧
    ∀ child ∈ batch, state.isTerminal = false ∧ child ∈ s.context.children state
  candidates : t.stats.candidates = s.stats.candidates + if state.isTerminal then 1 else 0
  event : event = if state.isTerminal then some (.candidate state) else none

/-- What one step can do. -/
inductive Went (s : Search) : Search → Option SearchEvent → Prop
  | halted (reason : StopReason) : s.stopped.or s.spent? = some reason →
      Went s (s.stop reason) (some (.stopped reason))
  | emptied : s.stopped.or s.spent? = none → s.frontier.pop? = none →
      Went s (s.stop .exhausted) (some (.stopped .exhausted))
  | handled {state : State} {frontier : Frontier} {t : Search} {event : Option SearchEvent} :
      s.stopped.or s.spent? = none → s.frontier.pop? = some (state, frontier) →
      Handled ({ s with frontier }.observe state) state t event → Went s t event

variable {s t : Search} {state : State} {event : Option SearchEvent} {taken : List State}

/-- Nothing enters the frontier, and nothing else that counts is touched. -/
theorem Handled.of_idle (hopen : state.isTerminal = false) (hkeeps : s.Keeps t)
    (hfrontier : t.frontier = s.frontier) (hcandidates : t.stats.candidates = s.stats.candidates) :
    s.Handled state t none := by
  refine ⟨hkeeps, ⟨[], hfrontier, by simp⟩, ?_, ?_⟩
  · simp [hcandidates, hopen]
  · simp [hopen]

theorem expand_handled (worker : Worker) (s : Search) (hopen : state.isTerminal = false) :
    s.Handled state (s.expand worker state).2 none := by
  unfold expand
  split
  · exact .of_idle hopen (.refl s) rfl rfl
  next move moves happlicable =>
  unfold request
  split
  · exact .of_idle hopen (keeps_reject ..) rfl rfl
  · have hkeeps := keeps_grow worker s state (move :: moves)
    rw [grow_eq] at hkeeps ⊢
    refine ⟨hkeeps, ⟨state.childrenOf (s.arrange worker (move :: moves)), rfl, ?_⟩, ?_, ?_⟩
    · intro child hchild
      refine ⟨hopen, Context.mem_children_of_rules ?_ hchild⟩
      intro tried htried
      have hasked := (s.arrange_perm worker _).mem_iff.mp htried
      exact mem_applicable (happlicable ▸ hasked)
    · simp [absorb, hopen]
    · simp [hopen]

theorem takeUp_handled (worker : Worker) (s : Search) (state : State) :
    s.Handled state (s.takeUp worker state).2.1 (s.takeUp worker state).2.2 := by
  unfold takeUp
  split_ifs with hterminal
  · refine ⟨⟨rfl, rfl, rfl, rfl, rfl, rfl, rfl⟩, ⟨[], rfl, by simp⟩, ?_, ?_⟩
    · simp [countCandidate, hterminal]
    · simp [hterminal]
  · exact expand_handled worker s (by simpa using hterminal)

/-- One step of any search does one of the things listed. -/
theorem went (worker : Worker) (s : Search) :
    s.Went (s.step worker).2.1 (s.step worker).2.2 := by
  unfold step
  split
  next reason hreason => exact .halted reason hreason
  next hgo =>
  split
  next hpop => exact .emptied hgo hpop
  next state frontier hpop => exact .handled hgo hpop (takeUp_handled worker _ state)

/-- A step that does not stop took up the state that was next. -/
theorem Went.upNext? (h : s.Went t event) (hgo : ∀ reason, event ≠ some (.stopped reason)) :
    ∃ state, s.upNext? = some state ∧
      event = if state.isTerminal then some (.candidate state) else none := by
  cases h with
  | halted reason hreason => exact absurd rfl (hgo reason)
  | emptied hgo' hpop => exact absurd rfl (hgo .exhausted)
  | @handled state frontier _ _ hgo' hpop hhandled =>
      exact ⟨state, upNext?_of_popped hgo' hpop, hhandled.event⟩

/-- Only a step that stops says so. -/
theorem Went.stopped_eq (h : s.Went t event) :
    t.stopped = (event.bind SearchEvent.stop?).or s.stopped := by
  cases h with
  | halted reason hreason => rfl
  | emptied hgo hpop => rfl
  | handled hgo hpop hhandled =>
      rw [hhandled.keeps.stopped, hhandled.event]
      split_ifs <;> rfl

/-- No step changes the limits, the token or the time. -/
theorem Went.flags (h : s.Went t event) :
    t.limits = s.limits ∧ t.cancelled = s.cancelled ∧ t.elapsedMs = s.elapsedMs := by
  cases h with
  | halted reason hreason => exact ⟨rfl, rfl, rfl⟩
  | emptied hgo hpop => exact ⟨rfl, rfl, rfl⟩
  | handled hgo hpop hhandled =>
      exact ⟨hhandled.keeps.limits, hhandled.keeps.cancelled, hhandled.keeps.elapsedMs⟩

theorem advance_flags (worker : Worker) (s : Search) (budget : Nat) :
    (s.advance worker budget).2.1.limits = s.limits ∧
      (s.advance worker budget).2.1.cancelled = s.cancelled ∧
      (s.advance worker budget).2.1.elapsedMs = s.elapsedMs := by
  refine (advance_invariant (P := fun t => t.limits = s.limits ∧ t.cancelled = s.cancelled ∧
    t.elapsedMs = s.elapsedMs) (Q := fun _ => True) ?_ worker ⟨rfl, rfl, rfl⟩ budget).1
  intro worker t ht
  obtain ⟨hlimits, hcancelled, helapsed⟩ := (went worker t).flags
  exact ⟨⟨hlimits.trans ht.1, hcancelled.trans ht.2.1, helapsed.trans ht.2.2⟩, fun _ _ => trivial⟩

/-- A step hands out the state that it took up, if that is a candidate. -/
theorem Went.handedOut (h : s.Went t event) :
    (event.bind SearchEvent.state?).toList = s.upNext?.toList.filter State.isTerminal := by
  cases h with
  | halted reason hreason =>
      rw [upNext?_of_stopped hreason]
      rfl
  | emptied hgo hpop =>
      rw [upNext?_of_empty hgo hpop]
      rfl
  | @handled state frontier _ _ hgo hpop hhandled =>
      rw [upNext?_of_popped hgo hpop, hhandled.event, Option.toList_some, List.filter_singleton]
      cases state.isTerminal <;> rfl

/-- Going on to the next event is a call with a budget that some budget suffices for:
one step more than there are steps without an event. -/
theorem next_eq_advance (worker : Worker) (s : Search) :
    ∃ n, n ≤ s.limits.maxStates - s.stats.popped ∧ (s.advance worker n).2.2 = none ∧
      s.advance worker (n + 1) =
        ((s.next worker).1, (s.next worker).2.1, some (s.next worker).2.2) := by
  fun_induction next worker s with
  | case1 worker s worker' s' event heq =>
      refine ⟨0, Nat.zero_le _, rfl, ?_⟩
      simp only [advance, heq]
  | case2 worker s worker' s' heq ih =>
      obtain ⟨n, hn, hnone, hnext⟩ := ih
      have hmoved := step_popped worker s (by simp [heq])
      rw [heq] at hmoved
      obtain ⟨hbelow, hlimits, hpopped⟩ := hmoved
      refine ⟨n + 1, ?_, ?_, ?_⟩
      · rw [hlimits, hpopped] at hn
        omega
      · simpa only [advance, heq] using hnone
      · rw [advance, heq]
        exact hnext

theorem next_flags (worker : Worker) (s : Search) :
    (s.next worker).2.1.limits = s.limits ∧ (s.next worker).2.1.cancelled = s.cancelled ∧
      (s.next worker).2.1.elapsedMs = s.elapsedMs := by
  obtain ⟨n, -, -, hnext⟩ := next_eq_advance worker s
  have hflags := advance_flags worker s (n + 1)
  rw [hnext] at hflags
  exact hflags

/-! ## Runs -/

section Runs

/-- What steps and other calls make of a search, with the states they took up, in
this order. Each step may be made on another worker. `restored` tells whether the
search was ever put away and went on from its snapshot. -/
inductive Ran (origin : Search) : (restored : Bool) → List State → Search → Prop
  | start : Ran origin false [] origin
  | step {restored : Bool} {taken : List State} {s : Search} (worker : Worker) :
      Ran origin restored taken s →
      Ran origin restored (taken ++ s.upNext?.toList) (s.step worker).2.1
  | cancel {restored : Bool} {taken : List State} {s : Search} :
      Ran origin restored taken s → Ran origin restored taken s.cancel
  | renew {restored : Bool} {taken : List State} {s : Search} :
      Ran origin restored taken s → Ran origin restored taken s.renew
  | wait {restored : Bool} {taken : List State} {s : Search} (ms : Nat) :
      Ran origin restored taken s → Ran origin restored taken (s.wait ms)
  | restore {restored : Bool} {taken : List State} {s : Search} :
      Ran origin restored taken s → Ran origin true taken s.restored

variable {origin : Search} {restored : Bool}

theorem Ran.after (h : origin.Ran restored taken s) (worker : Worker) (n : Nat) :
    ∃ more, origin.Ran restored (taken ++ more) (s.after worker n) := by
  induction n with
  | zero => exact ⟨[], by rw [List.append_nil]; exact h⟩
  | succ n ih =>
      obtain ⟨more, hmore⟩ := ih
      have hnext := hmore.step worker
      rw [← after_succ, List.append_assoc] at hnext
      exact ⟨_, hnext⟩

/-- A call with a budget goes on with the run, and hands out the candidate it met last. -/
theorem Ran.advance (h : origin.Ran restored taken s) (worker : Worker) (budget : Nat) :
    ∃ more, origin.Ran restored (taken ++ more) (s.advance worker budget).2.1 ∧
      ((s.advance worker budget).2.2.bind SearchEvent.state?).toList =
        more.filter State.isTerminal := by
  induction budget generalizing taken s with
  | zero => exact ⟨[], by rw [List.append_nil]; exact h, rfl⟩
  | succ budget ih =>
      have hstep := h.step worker
      have hevent := (went worker s).handedOut
      have hworker := step_worker worker s
      unfold Search.advance
      split
      next heq =>
        rw [heq] at hstep hevent
        exact ⟨_, hstep, hevent⟩
      next worker' s' heq =>
        rw [heq] at hstep hevent hworker
        obtain rfl : worker' = worker := hworker
        obtain ⟨more, hmore, hhanded⟩ := ih hstep
        refine ⟨s.upNext?.toList ++ more, ?_, ?_⟩
        · rw [← List.append_assoc]
          exact hmore
        · rw [List.filter_append, ← hevent]
          exact hhanded

/-- Any calls are such a run, and they hand out its candidates. -/
theorem Ran.calls (h : origin.Ran restored taken s) (list : List Call) :
    ∃ restored' more, origin.Ran restored' (taken ++ more) (s.calls list).1 ∧
      (restored' = true → restored = true ∨ .restore ∈ list) ∧
      SearchEvent.handedOut (s.calls list).2 = more.filter State.isTerminal := by
  induction list generalizing restored taken s with
  | nil => exact ⟨restored, [], by rw [List.append_nil]; exact h, .inl, rfl⟩
  | cons c rest ih =>
      have hcall : ∃ restored' more, origin.Ran restored' (taken ++ more) (s.call c).1 ∧
          (restored' = true → restored = true ∨ c = .restore) ∧
          ((s.call c).2.bind SearchEvent.state?).toList = more.filter State.isTerminal := by
        cases c with
        | next worker =>
            obtain ⟨n, -, -, hn⟩ := next_eq_advance worker s
            obtain ⟨more, hmore, hhanded⟩ := h.advance worker (n + 1)
            rw [hn] at hmore hhanded
            exact ⟨restored, more, hmore, .inl, hhanded⟩
        | advance worker budget =>
            obtain ⟨more, hmore, hhanded⟩ := h.advance worker budget
            exact ⟨restored, more, hmore, .inl, hhanded⟩
        | cancel => exact ⟨restored, [], by rw [List.append_nil]; exact h.cancel, .inl, rfl⟩
        | renew => exact ⟨restored, [], by rw [List.append_nil]; exact h.renew, .inl, rfl⟩
        | wait ms => exact ⟨restored, [], by rw [List.append_nil]; exact h.wait ms, .inl, rfl⟩
        | restore =>
            exact ⟨true, [], by rw [List.append_nil]; exact h.restore, fun _ => .inr rfl, rfl⟩
      obtain ⟨restored', more, hnext, hkind, hone⟩ := hcall
      obtain ⟨restored'', others, hrest, hkind', hothers⟩ := ih hnext
      refine ⟨restored'', more ++ others, by rw [← List.append_assoc]; exact hrest, ?_, ?_⟩
      · intro htrue
        rcases hkind' htrue with hearlier | hin
        · rcases hkind hearlier with hbefore | hnow
          · exact .inl hbefore
          · exact .inr (hnow ▸ List.mem_cons_self)
        · exact .inr (List.mem_cons_of_mem c hin)
      · rw [List.filter_append, ← hone, ← hothers]
        cases hevent : (s.call c).2.bind SearchEvent.state? <;>
          simp [SearchEvent.handedOut, Search.calls, hevent]

theorem Ran.context (h : origin.Ran restored taken s) : s.context = origin.context := by
  induction h with
  | start => rfl
  | step worker _ ih => exact (step_context worker _).trans ih
  | cancel _ ih => exact ih
  | renew _ ih => exact ih
  | wait ms _ ih => exact ih
  | restore _ ih => exact ih

theorem Ran.limits_eq (h : origin.Ran restored taken s) : s.limits = origin.limits := by
  induction h with
  | start => rfl
  | step worker _ ih => exact (step_limits worker _).trans ih
  | cancel _ ih => exact ih
  | renew _ ih => exact ih
  | wait ms _ ih => exact ih
  | restore _ ih => exact ih

end Runs

/-! ## Budgets -/

/-- The states of `taken` were taken up, in this order, and the budgets for them were
kept. -/
structure Budgeted (s : Search) (taken : List State) : Prop
    extends Frontier.Met s.frontier s.context taken where
  order : s.frontier.order = s.limits.frontierOrder
  popped : s.stats.popped = taken.length
  candidates : s.stats.candidates = taken.countP State.isTerminal
  states : s.stats.popped ≤ s.limits.maxStates
  proofs : s.stats.candidates ≤ s.limits.maxProofs

theorem budgeted_start (context : Context) (limits : Limits) :
    (start context limits).Budgeted [] :=
  ⟨met_start context limits, order_start context limits, rfl, rfl, Nat.zero_le _, Nat.zero_le _⟩

theorem Budgeted.flagged (h : s.Budgeted taken) (cancelled : Bool) (elapsedMs : Nat)
    (stopped : Option StopReason) : Budgeted { s with cancelled, elapsedMs, stopped } taken :=
  ⟨h.toMet, h.order, h.popped, h.candidates, h.states, h.proofs⟩

theorem Budgeted.restored (h : s.Budgeted taken) : s.restored.Budgeted taken :=
  ⟨h.toMet.alike (alike_restored_of_met h.toMet h.order), (Frontier.restore_spec ..).2.1, h.popped,
    h.candidates, h.states, h.proofs⟩

theorem Budgeted.step (h : s.Budgeted taken) (hstep : s.Went t event) :
    t.Budgeted (taken ++ s.upNext?.toList) := by
  cases hstep with
  | halted reason hreason =>
      rw [upNext?_of_stopped hreason, Option.toList_none, List.append_nil]
      exact h.flagged s.cancelled s.elapsedMs _
  | emptied hgo hpop =>
      rw [upNext?_of_empty hgo hpop, Option.toList_none, List.append_nil]
      exact h.flagged s.cancelled s.elapsedMs _
  | @handled state frontier _ _ hgo hpop hhandled =>
      obtain ⟨hkeeps, ⟨batch, hfrontier, hbatch⟩, hcandidates, -⟩ := hhandled
      obtain ⟨-, hproofs, hstates, -⟩ := spent?_eq_none.mp (Option.or_eq_none_iff.mp hgo).2
      obtain ⟨hvalid, horder, -⟩ := Frontier.pop?_spec h.valid hpop
      have hderives := h.derives_popped hpop
      have hmet : t.frontier.Met s.context (taken ++ [state]) := by
        rw [hfrontier]
        apply (h.toMet.pop hpop).pushAll
        intro child hchild
        obtain ⟨hopen, hchild⟩ := hbatch child hchild
        exact .child hderives hopen hchild
      have hpopped : t.stats.popped = s.stats.popped + 1 := hkeeps.popped
      have hcounted : t.stats.candidates = s.stats.candidates +
          if state.isTerminal then 1 else 0 := hcandidates
      have hcontext : t.context = s.context := hkeeps.context
      have hlimits : t.limits = s.limits := hkeeps.limits
      rw [upNext?_of_popped hgo hpop]
      refine ⟨hcontext ▸ hmet, ?_, ?_, ?_, ?_, ?_⟩
      · obtain ⟨new, hnew⟩ := Frontier.pushAll_spec hvalid batch
        have hsame : t.frontier.order = frontier.order := hfrontier ▸ hnew.order
        rw [hsame, horder, h.order, hlimits]
      · rw [hpopped, h.popped, Option.toList_some, List.length_append, List.length_singleton]
      · rw [hcounted, h.candidates, Option.toList_some, List.countP_append, List.countP_singleton]
      · rw [hpopped, hlimits]
        exact hstates
      · rw [hcounted, hlimits]
        split_ifs <;> omega

theorem Ran.budgeted {context : Context} {limits : Limits} {restored : Bool}
    (h : (Search.start context limits).Ran restored taken s) : s.Budgeted taken := by
  induction h with
  | start => exact budgeted_start context limits
  | step worker _ ih => exact ih.step (went worker _)
  | cancel _ ih => exact ih.flagged _ _ _
  | renew _ ih => exact ih.flagged _ _ _
  | wait ms _ ih => exact ih.flagged _ _ _
  | restore _ ih => exact ih.restored

end Search

end ThueProver
