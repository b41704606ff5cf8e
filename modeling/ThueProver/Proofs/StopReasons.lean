import ThueProver.Proofs.Steps

/-!
# The reason for stopping

A search is asked for events, and in between tokens are cancelled, another token is
installed, and time passes. A reason for stopping is found in one of two places, where
the budgets are looked at and where there is nothing to take up, and it is then kept.
That it is true is an invariant of the steps: whatever a reason says about the counts,
the pending states and the time, no later call makes it false. Cancellation is the
exception, as a token can be replaced. It is looked at first, and what a search says
about it is true of the token that is installed when it stops.

Nobody but the owner of a search can install a token, while anyone can cancel one and
time passes by itself, also during a call. A call that is disturbed in this way is
written as calls of one step each.
-/
namespace ThueProver

/-- A search with the token that is installed in it, and the tokens that have been
cancelled, whether they were ever installed or not. -/
structure Supervised where
  search : Search
  token : Nat := 0
  revoked : List Nat := []

namespace Supervised

inductive Act where
  | next (worker : Worker)
  | advance (worker : Worker) (budget : Nat)
  | cancel (token : Nat)
  | install (token : Nat)
  | wait (ms : Nat)

namespace Act

/-- The search is asked to make a step. -/
def asks : Act → Bool
  | next _ => true
  | advance _ budget => budget != 0
  | _ => false

/-- The time that passes. -/
def ms : Act → Nat
  | wait ms => ms
  | _ => 0

end Act

/-- A token is installed as it is, cancelled or not. -/
def perform (s : Supervised) : Act → Supervised × Option SearchEvent
  | .next worker => ({ s with search := (s.search.next worker).2.1 }, (s.search.next worker).2.2)
  | .advance worker budget =>
      ({ s with search := (s.search.advance worker budget).2.1 },
        (s.search.advance worker budget).2.2)
  | .cancel token =>
      ({ s with
        revoked := token :: s.revoked
        search := if token = s.token then s.search.cancel else s.search }, none)
  | .install token =>
      ({ s with
        token
        search := if token ∈ s.revoked then s.search.cancel else s.search.renew }, none)
  | .wait ms => ({ s with search := s.search.wait ms }, none)

/-- The search after some acts, and what it answered to each. -/
def run (s : Supervised) : List Act → Supervised × List (Option SearchEvent)
  | [] => (s, [])
  | act :: acts =>
      (((s.perform act).1.run acts).1, (s.perform act).2 :: ((s.perform act).1.run acts).2)

end Supervised

theorem Frontier.isEmpty_of_pop? {f : Frontier} (h : f.pop? = none) : f.isEmpty = true := by
  unfold pop? at h
  split at h
  next hmin =>
    rw [minEntry?_eq_head?, List.head?_eq_none_iff] at hmin
    rw [isEmpty, ← Std.TreeMap.isEmpty_toList, hmin]
    rfl
  · cases h

namespace Search

variable {s t : Search} {reason : StopReason} {event : Option SearchEvent}

theorem stop_of_stopped (h : s.stopped = some reason) : s.stop reason = s := by
  unfold stop
  rw [← h]

theorem step_of_reason (worker : Worker) (h : s.stopped.or s.spent? = some reason) :
    s.step worker = (worker, s.stop reason, some (.stopped reason)) := by
  simp only [step, h]

theorem spent?_of_cancelled (h : s.cancelled = true) : s.spent? = some .cancelled := by
  simp [spent?, h]

theorem cancelled_of_spent? (h : s.spent? = some .cancelled) : s.cancelled = true := by
  unfold spent? at h
  split_ifs at h with hcancelled <;> first | exact hcancelled | cases h

/-- A call with a budget leaves the reason that it reports, or the one there was. -/
theorem advance_stopped_eq (worker : Worker) (s : Search) (budget : Nat) :
    (s.advance worker budget).2.1.stopped =
      ((s.advance worker budget).2.2.bind SearchEvent.stop?).or s.stopped := by
  induction budget generalizing worker s with
  | zero => rfl
  | succ budget ih =>
      have hwent := (went worker s).stopped_eq
      unfold advance
      split
      next heq =>
        rw [heq] at hwent
        exact hwent
      next worker' t heq =>
        rw [heq] at hwent
        rw [ih, hwent]
        rfl

theorem next_stopped_eq (worker : Worker) (s : Search) :
    (s.next worker).2.1.stopped = (s.next worker).2.2.stop?.or s.stopped := by
  obtain ⟨n, -, -, hnext⟩ := next_eq_advance worker s
  have hstopped := advance_stopped_eq worker s (n + 1)
  rw [hnext] at hstopped
  exact hstopped

/-- What the reasons say about the pending states, the counts and the time. -/
structure Bears (s : Search) (reason : StopReason) : Prop where
  exhausted : reason = .exhausted → s.frontier.isEmpty = true
  stateBudget : reason = .stateBudget → s.stats.popped = s.limits.maxStates
  proofBudget : reason = .proofBudget → s.stats.candidates = s.limits.maxProofs
  timeout : reason = .timeout → s.limits.maxSearchTimeMs < s.elapsedMs

/-- The budgets were kept, and the reason for stopping is true, if there is one. -/
structure Upright (s : Search) : Prop where
  budgeted : ∃ taken, s.Budgeted taken
  bears : ∀ reason, s.stopped = some reason → s.Bears reason

theorem upright_start (context : Context) (limits : Limits) : (start context limits).Upright := by
  refine ⟨⟨[], budgeted_start context limits⟩, ?_⟩
  intro reason hstopped
  cases hstopped

/-- A budget that is spent is spent exactly, since it was kept so far. -/
theorem Upright.bears_spent (h : s.Upright) (hspent : s.spent? = some reason) : s.Bears reason := by
  obtain ⟨taken, hbudgeted⟩ := h.budgeted
  unfold spent? at hspent
  split_ifs at hspent with hcancelled hproofs hstates htime
  · cases hspent
    constructor <;> simp
  · cases hspent
    constructor <;> simp [Nat.le_antisymm hbudgeted.proofs hproofs]
  · cases hspent
    constructor <;> simp [Nat.le_antisymm hbudgeted.states hstates]
  · cases hspent
    constructor <;> simp [htime]

theorem Upright.step (h : s.Upright) (hstep : s.Went t event) : t.Upright := by
  obtain ⟨taken, hbudgeted⟩ := h.budgeted
  refine ⟨⟨_, hbudgeted.step hstep⟩, ?_⟩
  intro reason hstopped
  cases hstep with
  | halted reason hreason =>
      cases hstopped
      have hbears : s.Bears reason := by
        rcases Option.or_eq_some_iff.mp hreason with hbefore | ⟨-, hspent⟩
        · exact h.bears reason hbefore
        · exact h.bears_spent hspent
      exact ⟨hbears.exhausted, hbears.stateBudget, hbears.proofBudget, hbears.timeout⟩
  | emptied hgo hpop =>
      cases hstopped
      constructor <;> simp
      exact Frontier.isEmpty_of_pop? hpop
  | handled hgo hpop hhandled =>
      have hsame : t.stopped = s.stopped := hhandled.keeps.stopped
      rw [hsame, (Option.or_eq_none_iff.mp hgo).1] at hstopped
      cases hstopped

/-- Time makes no reason false, and neither does a token. -/
theorem Upright.flagged (h : s.Upright) (cancelled : Bool) {elapsedMs : Nat}
    (hlater : s.elapsedMs ≤ elapsedMs) : Upright { s with cancelled, elapsedMs } := by
  obtain ⟨taken, hbudgeted⟩ := h.budgeted
  refine ⟨⟨taken, hbudgeted.flagged cancelled elapsedMs _⟩, ?_⟩
  intro reason hstopped
  have hbears := h.bears reason hstopped
  refine ⟨hbears.exhausted, hbears.stateBudget, hbears.proofBudget, ?_⟩
  intro htimeout
  exact Nat.lt_of_lt_of_le (hbears.timeout htimeout) hlater

theorem Upright.advance (h : s.Upright) (worker : Worker) (budget : Nat) :
    (s.advance worker budget).2.1.Upright :=
  (advance_invariant (P := Upright) (Q := fun _ => True)
    (fun worker s hs => ⟨hs.step (went worker s), fun _ _ => trivial⟩) worker h budget).1

theorem Upright.next (h : s.Upright) (worker : Worker) : (s.next worker).2.1.Upright := by
  obtain ⟨n, -, -, hnext⟩ := next_eq_advance worker s
  have hadvance := h.advance worker (n + 1)
  rw [hnext] at hadvance
  exact hadvance

theorem Went.cancelled (h : s.Went t (some (.stopped .cancelled))) (hrunning : s.stopped = none) :
    s.cancelled = true := by
  cases h with
  | halted reason hreason =>
      rw [hrunning] at hreason
      exact cancelled_of_spent? hreason
  | handled hgo hpop hhandled =>
      have hevent := hhandled.event
      split_ifs at hevent
      cases hevent

/-- A search that finds itself cancelled was so before the call. -/
theorem advance_cancelled (worker : Worker) (hrunning : s.stopped = none) {budget : Nat}
    (h : (s.advance worker budget).2.2 = some (.stopped .cancelled)) : s.cancelled = true := by
  induction budget generalizing worker s with
  | zero => cases h
  | succ budget ih =>
      have hwent := went worker s
      unfold advance at h
      rcases hstep : s.step worker with ⟨worker', t, event⟩
      rw [hstep] at h hwent
      cases event with
      | some event =>
          cases h
          exact hwent.cancelled hrunning
      | none =>
          obtain ⟨-, hsame, -⟩ := hwent.flags
          rw [← hsame]
          exact ih worker' (hwent.stopped_eq.trans hrunning) h

theorem next_cancelled (worker : Worker) (hrunning : s.stopped = none)
    (h : (s.next worker).2.2 = .stopped .cancelled) : s.cancelled = true := by
  obtain ⟨n, -, -, hnext⟩ := next_eq_advance worker s
  have hadvance : (s.advance worker (n + 1)).2.2 = some (.stopped .cancelled) := by
    rw [hnext, h]
  exact advance_cancelled worker hrunning hadvance

end Search

namespace Supervised

variable {s : Supervised} {reason : StopReason} {past : List Act}
  {answers : List (Option SearchEvent)}

/-- A search with a token that nobody has cancelled. -/
def start (context : Context) (limits : Limits) : Supervised where
  search := .start context limits

/-- An act to which there is a reason for stopping ends with it if it asks, and the
search is as before apart from that. -/
theorem perform_of_reason (h : s.search.stopped.or s.search.spent? = some reason) {act : Act}
    (hasks : act.asks = true) :
    s.perform act = ({ s with search := s.search.stop reason }, some (.stopped reason)) := by
  cases act with
  | next worker =>
      rw [perform, Search.next_of_event (Search.step_of_reason worker h)]
  | advance worker budget =>
      obtain ⟨budget, rfl⟩ := Nat.exists_eq_succ_of_ne_zero (bne_iff_ne.mp hasks)
      simp only [perform, Search.advance, Search.step_of_reason worker h]
  | cancel token => cases hasks
  | install token => cases hasks
  | wait ms => cases hasks

/-- An act leaves the reason that it reports, or the one there was. -/
theorem perform_stopped_eq (s : Supervised) (act : Act) :
    (s.perform act).1.search.stopped =
      ((s.perform act).2.bind SearchEvent.stop?).or s.search.stopped := by
  cases act with
  | next worker => exact Search.next_stopped_eq worker s.search
  | advance worker budget => exact Search.advance_stopped_eq worker s.search budget
  | cancel token =>
      simp only [perform]
      split_ifs <;> rfl
  | install token =>
      simp only [perform]
      split_ifs <;> rfl
  | wait ms => rfl

theorem perform_of_idle {act : Act} (hidle : act.asks = false) :
    (s.perform act).2 = none ∧ ∃ cancelled elapsedMs,
      (s.perform act).1.search = { s.search with cancelled, elapsedMs } := by
  cases act with
  | next worker => cases hidle
  | advance worker budget =>
      obtain rfl : budget = 0 := by simpa [Act.asks] using hidle
      exact ⟨rfl, _, _, rfl⟩
  | cancel token =>
      refine ⟨rfl, ?_⟩
      simp only [perform]
      split_ifs
      · exact ⟨true, _, rfl⟩
      · exact ⟨_, _, rfl⟩
  | install token =>
      refine ⟨rfl, ?_⟩
      simp only [perform]
      split_ifs
      · exact ⟨true, _, rfl⟩
      · exact ⟨false, _, rfl⟩
  | wait ms => exact ⟨rfl, _, _, rfl⟩

/-- Once there is a reason, an act that asks is answered with it, and nothing else
changes than what was cancelled and how much time has passed. -/
theorem perform_of_stopped (h : s.search.stopped = some reason) (act : Act) :
    (s.perform act).2 = (if act.asks then some (.stopped reason) else none) ∧
      ∃ cancelled elapsedMs, (s.perform act).1.search = { s.search with cancelled, elapsedMs } := by
  cases hasks : act.asks with
  | true =>
      rw [perform_of_reason (by rw [h]; rfl) hasks, Search.stop_of_stopped h]
      exact ⟨rfl, _, _, rfl⟩
  | false => exact perform_of_idle hasks

theorem run_of_stopped (h : s.search.stopped = some reason) (acts : List Act) :
    (s.run acts).2 = acts.map (fun act => if act.asks then some (.stopped reason) else none) ∧
      ∃ cancelled elapsedMs, (s.run acts).1.search = { s.search with cancelled, elapsedMs } := by
  induction acts generalizing s with
  | nil => exact ⟨rfl, _, _, rfl⟩
  | cons act acts ih =>
      obtain ⟨hanswer, cancelled, elapsedMs, hsearch⟩ := perform_of_stopped h act
      have hstopped : (s.perform act).1.search.stopped = some reason := by
        rw [hsearch]
        exact h
      obtain ⟨hanswers, cancelled', elapsedMs', hrest⟩ := ih hstopped
      refine ⟨?_, cancelled', elapsedMs', ?_⟩
      · simp only [run, List.map_cons, hanswer, hanswers]
      · rw [run, hrest, hsearch]

/-- A search finds that it is cancelled if it is asked and its token was cancelled, and
not otherwise. -/
theorem perform_cancelled_iff (hrunning : s.search.stopped = none) (act : Act) :
    (s.perform act).2 = some (.stopped .cancelled) ↔
      act.asks = true ∧ s.search.cancelled = true := by
  constructor
  · intro hanswer
    cases act with
    | next worker =>
        exact ⟨rfl, Search.next_cancelled worker hrunning (Option.some.inj hanswer)⟩
    | advance worker budget =>
        refine ⟨?_, Search.advance_cancelled worker hrunning hanswer⟩
        rw [Act.asks, bne_iff_ne]
        rintro rfl
        cases hanswer
    | cancel token => cases hanswer
    | install token => cases hanswer
    | wait ms => cases hanswer
  · rintro ⟨hasks, hcancelled⟩
    have hreason : s.search.stopped.or s.search.spent? = some .cancelled := by
      rw [hrunning, Search.spent?_of_cancelled hcancelled]
      rfl
    rw [perform_of_reason hreason hasks]

/-- What can be said of a search after these acts and their answers. -/
structure Tracked (limits : Limits) (past : List Act) (answers : List (Option SearchEvent))
    (s : Supervised) : Prop where
  upright : s.search.Upright
  limits : s.search.limits = limits
  token : s.search.cancelled = true ↔ s.token ∈ s.revoked
  elapsed : s.search.elapsedMs = (past.map Act.ms).sum
  reported : ∀ reason, some (.stopped reason) ∈ answers ↔ s.search.stopped = some reason

theorem tracked_start (context : Context) (limits : Limits) :
    (start context limits).Tracked limits [] [] := by
  refine ⟨Search.upright_start context limits, rfl, ?_, rfl, ?_⟩
  · simp [start, Search.start]
  · simp [start, Search.start]

variable {limits : Limits}

/-- What is reported is what there is a reason for. -/
theorem Tracked.reported_perform (h : s.Tracked limits past answers) (act : Act)
    (reason : StopReason) : some (.stopped reason) ∈ answers ++ [(s.perform act).2] ↔
      (s.perform act).1.search.stopped = some reason := by
  rw [List.mem_append, List.mem_singleton, h.reported, perform_stopped_eq]
  cases hbefore : s.search.stopped with
  | none =>
      cases hanswer : (s.perform act).2 with
      | none => simp
      | some event => cases event <;> simp [SearchEvent.stop?, eq_comm]
  | some earlier =>
      rw [(perform_of_stopped hbefore act).1]
      cases act.asks <;> simp [SearchEvent.stop?, eq_comm]

theorem Tracked.perform (h : s.Tracked limits past answers) (act : Act) :
    (s.perform act).1.Tracked limits (past ++ [act]) (answers ++ [(s.perform act).2]) := by
  have hreported := h.reported_perform act
  have hsum : ((past ++ [act]).map Act.ms).sum = s.search.elapsedMs + act.ms := by
    rw [List.map_append, List.sum_append, h.elapsed]
    rfl
  cases act with
  | next worker =>
      obtain ⟨hlimits, hcancelled, helapsed⟩ := Search.next_flags worker s.search
      refine ⟨h.upright.next worker, hlimits.trans h.limits, ?_, helapsed.trans hsum.symm,
        hreported⟩
      exact hcancelled ▸ h.token
  | advance worker budget =>
      obtain ⟨hlimits, hcancelled, helapsed⟩ := Search.advance_flags worker s.search budget
      refine ⟨h.upright.advance worker budget, hlimits.trans h.limits, ?_, helapsed.trans hsum.symm,
        hreported⟩
      exact hcancelled ▸ h.token
  | cancel token =>
      simp only [Supervised.perform] at hreported ⊢
      split_ifs at hreported ⊢ with hinstalled
      · refine ⟨h.upright.flagged true (Nat.le_refl _), h.limits, ?_, hsum.symm, hreported⟩
        simp [Search.cancel, hinstalled]
      · refine ⟨h.upright, h.limits, ?_, hsum.symm, hreported⟩
        rw [h.token, List.mem_cons]
        exact (or_iff_right fun heq => hinstalled heq.symm).symm
  | install token =>
      simp only [Supervised.perform] at hreported ⊢
      split_ifs at hreported ⊢ with hrevoked
      · refine ⟨h.upright.flagged true (Nat.le_refl _), h.limits, ?_, hsum.symm, hreported⟩
        simp [Search.cancel, hrevoked]
      · refine ⟨h.upright.flagged false (Nat.le_refl _), h.limits, ?_, hsum.symm, hreported⟩
        simp [Search.renew, hrevoked]
  | wait ms =>
      exact ⟨h.upright.flagged _ (Nat.le_add_right _ ms), h.limits, h.token, hsum.symm, hreported⟩

theorem Tracked.run (h : s.Tracked limits past answers) (acts : List Act) :
    (s.run acts).1.Tracked limits (past ++ acts) (answers ++ (s.run acts).2) := by
  induction acts generalizing s past answers with
  | nil => simpa [Supervised.run] using h
  | cons act acts ih =>
      have hrest := ih (h.perform act)
      rwa [List.append_assoc, List.append_assoc] at hrest

/-- Whatever is done with a search, any reason that it has reported bears out: the
pending states, the counts and the time are as it says, and stay so. As long as it has
reported none, it answers that it is cancelled if and only if it is asked and the
token then installed has been cancelled, whatever other reason there may be. Once it
has reported a reason, it answers with it whenever it is asked, and nothing of it
changes but its token and its time. -/
theorem stop_reasons_bear_out (c : Context) (limits : Limits) (acts : List Act) :
    let done := (start c limits).run acts
    ((∀ reason, some (.stopped reason) ∉ done.2) → ∀ act,
      ((done.1.perform act).2 = some (.stopped .cancelled) ↔
        act.asks = true ∧ done.1.token ∈ done.1.revoked)) ∧
    ∀ reason, some (.stopped reason) ∈ done.2 →
      (reason = .exhausted → done.1.search.frontier.isEmpty = true) ∧
      (reason = .stateBudget → done.1.search.stats.popped = limits.maxStates) ∧
      (reason = .proofBudget → done.1.search.stats.candidates = limits.maxProofs) ∧
      (reason = .timeout → limits.maxSearchTimeMs < (acts.map Act.ms).sum) ∧
      ∀ more,
        (done.1.run more).2 =
          more.map (fun act => if act.asks then some (.stopped reason) else none) ∧
        ∃ cancelled elapsedMs,
          (done.1.run more).1.search = { done.1.search with cancelled, elapsedMs } := by
  intro done
  have htracked := (tracked_start c limits).run acts
  rw [List.nil_append, List.nil_append] at htracked
  constructor
  · intro hnone act
    have hrunning : done.1.search.stopped = none := by
      rw [Option.eq_none_iff_forall_ne_some]
      intro reason hstopped
      exact hnone reason ((htracked.reported reason).mpr hstopped)
    rw [perform_cancelled_iff hrunning, htracked.token]
  · intro reason hreported
    have hstopped := (htracked.reported reason).mp hreported
    have hbears := htracked.upright.bears reason hstopped
    refine ⟨hbears.exhausted, ?_, ?_, ?_, run_of_stopped hstopped⟩
    · rw [← htracked.limits]
      exact hbears.stateBudget
    · rw [← htracked.limits]
      exact hbears.proofBudget
    · rw [← htracked.limits, ← htracked.elapsed]
      exact hbears.timeout

/-- No rule applies to the only state. A token that was cancelled before it is installed
stops the search; a cancellation after the search is exhausted does not show; and time
that has passed before the first call counts. -/
theorem stop_reasons_bear_out_ruleless :
    ∃ c, Context.prepare {} {} ⟨["a"], ["b"]⟩ true = .ok c ∧
      (((start c {}).run [.cancel 3, .install 3]).1.perform (.next {})).2 =
        some (.stopped .cancelled) ∧
      ((start c {}).run [.advance {} 9]).1.search.frontier.isEmpty = true ∧
      (((start c {}).run [.advance {} 9]).1.run [.cancel 0, .advance {} 0, .next {}]).2 =
        [none, none, some (.stopped .exhausted)] ∧
      10000 < ([.wait 10001, .advance {} 9].map Act.ms).sum := by
  have hrun : ∃ c, Context.prepare {} {} ⟨["a"], ["b"]⟩ true = .ok c ∧
      ((start c {}).run [.cancel 3, .install 3]).2 = [none, none] ∧
      ((start c {}).run [.cancel 3, .install 3]).1.token = 3 ∧
      ((start c {}).run [.cancel 3, .install 3]).1.revoked = [3] ∧
      ((start c {}).run [.advance {} 9]).2 = [some (.stopped .exhausted)] ∧
      ((start c {}).run [.wait 10001, .advance {} 9]).2 = [none, some (.stopped .timeout)] :=
    ⟨_, by cbv, by cbv, by cbv, by cbv, by cbv, by cbv⟩
  obtain ⟨c, hcontext, hnone, htoken, hrevoked, hexhausted, htimeout⟩ := hrun
  obtain ⟨hcancelled, -⟩ := stop_reasons_bear_out c {} [.cancel 3, .install 3]
  obtain ⟨-, hended⟩ := stop_reasons_bear_out c {} [.advance {} 9]
  obtain ⟨-, hlate⟩ := stop_reasons_bear_out c {} [.wait 10001, .advance {} 9]
  obtain ⟨hempty, -, -, -, hsettled⟩ := hended .exhausted (by simp [hexhausted])
  obtain ⟨-, -, -, htime, -⟩ := hlate .timeout (by simp [htimeout])
  refine ⟨c, hcontext, ?_, hempty rfl, ?_, htime rfl⟩
  · apply (hcancelled ?_ (.next {})).mpr
    · rw [htoken, hrevoked]
      decide
    · simp [hnone]
  · exact (hsettled [.cancel 0, .advance {} 0, .next {}]).1

end Supervised

end ThueProver
