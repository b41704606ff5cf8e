import ThueProver.Proofs.Coding
import ThueProver.Proofs.Exploration
import ThueProver.Proofs.Rewriting

/-!
# Proof attempts

A session that a prover began keeps the context it was begun with, and its
search is one that has been explored from the root. Both survive a snapshot: the
context is coded again to the same one, and the frontier that is restored has
the same pending states in the same order. Every candidate, and the best state,
can be replayed, so such a session never fails.
-/
namespace ThueProver

namespace Search

/-- The steps of a derived state name rules of the book. -/
theorem Explored.replays {s : Search} {taken : List State} (h : s.Explored taken) {t : State}
    (ht : s.context.Derives t) (tokens : Equation) :
    ∃ r, replay s.context.book tokens t.proof = .ok r := by
  apply replay_ok
  intro step hstep
  obtain ⟨rule, hrule, hid⟩ := ht.known step hstep
  exact ⟨rule, hid ▸ h.prepared.numbered.get?_of_mem hrule⟩

theorem Explored.replays_best {s : Search} {taken : List State} (h : s.Explored taken)
    (tokens : Equation) : ∃ r, replay s.context.book tokens s.bestProof = .ok r := by
  unfold bestProof
  cases hbest : s.best with
  | none => exact ⟨_, rfl⟩
  | some b =>
      have hin : b ∈ taken ++ s.frontier.pending := List.mem_append_left _ (h.best b hbest)
      exact h.replays (h.derived b hin) tokens

/-- A candidate was derived, and is counted. -/
theorem Explored.candidate_step {worker : Worker} {s t : Search} {taken : List State}
    {state : State} (h : s.Explored taken)
    (hstep : s.Stepped worker t (some (.candidate state))) :
    t.stats.candidates = s.stats.candidates + 1 ∧ s.context.Derives state := by
  cases hstep with
  | treated hgo hpop ht =>
      cases ht with
      | candidate hterminal =>
          exact ⟨rfl, h.derives_popped hpop⟩

/-- Nothing else is counted as a candidate. -/
theorem Stepped.candidates {worker : Worker} {s t : Search} {event : Option SearchEvent}
    (hstep : s.Stepped worker t event) (h : ∀ state, event ≠ some (.candidate state)) :
    t.stats.candidates = s.stats.candidates := by
  cases hstep with
  | stopped reason hreason => rfl
  | exhausted hgo hpop => rfl
  | @treated state _ _ _ hgo hpop ht =>
      cases ht with
      | candidate hterminal => exact absurd rfl (h state)
      | stuck hopen hnone => rfl
      | refused hopen hsome hfull => rfl
      | grown hopen hsome hroom => rfl

theorem Stepped.stopped_eq {worker : Worker} {s t : Search} {reason : StopReason}
    (h : s.Stepped worker t (some (.stopped reason))) : t.stopped = some reason := by
  cases h with
  | stopped reason hreason => rfl
  | exhausted hgo hpop => rfl
  | treated hgo hpop ht => cases ht

/-- The search was begun for this theorem and these axioms, with limits that
pass their check. -/
structure Begun (axioms : List Equation) (goal : Equation) (s : Search) : Prop where
  limits : s.limits.check = .ok ()
  context : s.context.Coded axioms goal s.limits.useCallGraph
  explored : ∃ taken, s.Explored taken

variable {axioms : List Equation} {goal : Equation}

theorem Begun.step {s : Search} (h : s.Begun axioms goal) (worker : Worker) :
    (s.step worker).2.1.Begun axioms goal := by
  obtain ⟨taken, hexplored⟩ := h.explored
  refine ⟨?_, ?_, ⟨_, hexplored.step (hexplored.stepped worker)⟩⟩
  · rw [step_limits]
    exact h.limits
  · rw [step_context, step_limits]
    exact h.context

theorem Begun.flagged {s : Search} (h : s.Begun axioms goal) (cancelled : Bool)
    (elapsedMs : Nat) : Begun axioms goal { s with cancelled, elapsedMs } := by
  obtain ⟨taken, hexplored⟩ := h.explored
  exact ⟨h.limits, h.context, taken, hexplored.flagged cancelled elapsedMs⟩

theorem Begun.restored {s : Search} (h : s.Begun axioms goal) :
    s.restored.Begun axioms goal := by
  obtain ⟨taken, hexplored⟩ := h.explored
  exact ⟨h.limits, h.context, taken, hexplored.restored⟩

/-- A snapshot of a session is accepted if its limits pass their check and its
context was coded, after whatever symbols: the context is coded again to the same
one. -/
theorem ofSnapshot_of_codedAfter {s : Session} {symbols : List Token}
    (hlimits : s.search.limits.check = .ok ())
    (hcoded : s.search.context.CodedAfter symbols axioms goal s.search.limits.useCallGraph) :
    Session.ofSnapshot s.snapshot =
      .ok { search := s.search.restored, rejected := s.rejected } := by
  obtain ⟨hbook, hcontext⟩ := hcoded.recode
  exact Session.ofSnapshot_eq_ok.mpr ⟨hlimits, _, _, _, hbook, hcontext,
    (List.length_map _).trans (List.length_map _).symm, rfl⟩

theorem Begun.ofSnapshot {s : Session} (h : s.search.Begun axioms goal) :
    Session.ofSnapshot s.snapshot =
      .ok { search := s.search.restored, rejected := s.rejected } :=
  ofSnapshot_of_codedAfter h.limits h.context.after_nil

theorem begun_start {p : Prover} (hp : p.Entered axioms) {context : Context}
    (hlimits : p.limits.check = .ok ())
    (hcontext : Context.prepare p.codes p.book goal p.limits.useCallGraph = .ok context) :
    (start context p.limits).Begun axioms goal := by
  obtain ⟨-, hc⟩ := Context.prepare_eq_ok.mp hcontext
  have hbook : context.book = p.book := by rw [hc]
  have hprepared : context.Prepared :=
    Context.prepared_of_prepare (RuleBook.numbered_of_ofEquations hp.ofEquations) hcontext
  refine ⟨hlimits, ⟨p.codes, ?_⟩, ⟨[], explored_start hprepared p.limits⟩⟩
  rw [show (start context p.limits).context.book = p.book from hbook]
  exact ⟨hp.ofEquations, hcontext⟩

end Search

namespace Session

/-- The session was begun for this theorem and these axioms, whatever calls were
made since. If it came to the verdict that there is no proof, it had no
candidate and nothing was left to take up. -/
structure Attempt (axioms : List Equation) (goal : Equation) (s : Session) : Prop where
  begun : s.search.Begun axioms goal
  rejected : s.outcome = none → s.rejected = s.search.stats.candidates
  unproved : ∀ r, s.outcome = some r → r.status = .noProof →
    r.stats = s.search.stats ∧ s.search.stats.candidates = 0 ∧ s.search.frontier.pending = []

variable {axioms : List Equation} {goal : Equation}

theorem attempt_start {p : Prover} (hp : p.Entered axioms) {s : Session}
    (h : p.start goal = .ok s) : s.Attempt axioms goal := by
  obtain ⟨hlimits, context, hcontext, rfl⟩ := Prover.start_eq_ok.mp h
  refine ⟨Search.begun_start hp hlimits hcontext, fun _ => rfl, ?_⟩
  intro r hr
  cases hr

theorem step_worker (worker : Worker) (s : Session) : (s.step worker).1 = worker := by
  have hworker := Search.step_worker worker s.search
  unfold step
  split
  next heq => rwa [heq] at hworker
  next heq => rwa [heq] at hworker
  next heq => rwa [heq] at hworker

/-- What one step of a session can do whose proofs name rules of the book. -/
inductive Stepped (worker : Worker) (s : Session) : Session → Progress → Prop
  | searched {t : Search} : s.search.Stepped worker t none →
      Stepped worker s { s with search := t } .unfinished
  | rejected {t : Search} {state : State} :
      s.search.Stepped worker t (some (.candidate state)) →
      Stepped worker s { s with search := t, rejected := s.rejected + 1 } .unfinished
  | proved {t : Search} {state : State} {r : Report} (replayed : Replay) :
      s.search.Stepped worker t (some (.candidate state)) →
      r = report { s with search := t } .proved none state.proof replayed →
      Stepped worker s { s with search := t, outcome := some r } (.reported r)
  | closed {t : Search} {reason : StopReason} {r : Report} (replayed : Replay) :
      s.search.Stepped worker t (some (.stopped reason)) →
      r = report { s with search := t } (.ofStop s.rejected reason) (some reason) t.bestProof
        replayed →
      Stepped worker s { s with search := t, outcome := some r } (.reported r)

/-- One step of a session around an explored search does one of the things
listed; in particular it does not fail. -/
theorem stepped_of_explored {s : Session} {taken : List State} (h : s.search.Explored taken)
    (worker : Worker) : s.Stepped worker (s.step worker).2.1 (s.step worker).2.2 := by
  have hstepped := h.stepped worker
  have hexplored := h.step hstepped
  have hcontext := Search.step_context worker s.search
  unfold step
  split
  next heq =>
    simp only [heq] at hstepped
    exact .searched hstepped
  next worker' search state heq =>
    simp only [heq] at hstepped hexplored hcontext
    obtain ⟨-, hstate⟩ := h.candidate_step hstepped
    obtain ⟨replayed, hreplayed⟩ :=
      hexplored.replays (hcontext ▸ hstate) search.context.goal.tokens
    unfold examine
    rw [show replay { s with search } state.proof = .ok replayed from hreplayed]
    dsimp only
    split_ifs with hvalid
    · exact .proved replayed hstepped rfl
    · exact .rejected hstepped
  next worker' search reason heq =>
    simp only [heq] at hstepped hexplored
    obtain ⟨replayed, hreplayed⟩ := hexplored.replays_best search.context.goal.tokens
    unfold close
    rw [show replay { s with search } search.bestProof = .ok replayed from hreplayed]
    exact .closed replayed hstepped rfl

/-- An attempt goes on as one and does not fail. -/
theorem Attempt.step {s : Session} (h : s.Attempt axioms goal) (hnone : s.outcome = none)
    (worker : Worker) : (s.step worker).2.1.Attempt axioms goal ∧
      ∀ error, (s.step worker).2.2 ≠ .failed error := by
  have hbegun : (s.step worker).2.1.search.Begun axioms goal :=
    step_search worker s ▸ h.begun.step worker
  have hrejected := h.rejected hnone
  have hunreported : ∀ {r : Report}, s.outcome ≠ some r := by simp [hnone]
  obtain ⟨taken, hexplored⟩ := h.begun.explored
  have hstepped := stepped_of_explored hexplored worker
  generalize (s.step worker).2.1 = t at hbegun hstepped ⊢
  generalize (s.step worker).2.2 = progress at hstepped ⊢
  cases hstepped with
  | searched hsearch =>
      refine ⟨⟨hbegun, fun _ => ?_, fun r hr => absurd hr hunreported⟩, by simp⟩
      rw [hrejected, hsearch.candidates (by simp)]
  | rejected hsearch =>
      refine ⟨⟨hbegun, fun _ => ?_, fun r hr => absurd hr hunreported⟩, by simp⟩
      rw [hrejected, (hexplored.candidate_step hsearch).1]
  | proved replayed hsearch hr =>
      refine ⟨⟨hbegun, by simp, ?_⟩, by simp⟩
      rintro _ ⟨⟩ hstatus
      rw [hr] at hstatus
      cases hstatus
  | @closed search reason r replayed hsearch hr =>
      refine ⟨⟨hbegun, by simp, ?_⟩, by simp⟩
      rintro _ ⟨⟩ hstatus
      obtain ⟨_, hdone⟩ := hbegun.explored
      rw [hr] at hstatus
      obtain ⟨rfl, hnone⟩ := Status.ofStop_eq_noProof hstatus
      refine ⟨by rw [hr]; rfl, ?_, hdone.exhausted hsearch.stopped_eq⟩
      rw [hsearch.candidates (by simp), ← hrejected, hnone]

/-- What is made of the snapshot of an attempt is an attempt. -/
theorem Attempt.resume {s t : Session} (h : s.Attempt axioms goal) (hnone : s.outcome = none)
    (ht : Session.ofSnapshot s.snapshot = .ok t) : t.Attempt axioms goal := by
  rw [h.begun.ofSnapshot, Except.ok.injEq] at ht
  subst ht
  refine ⟨h.begun.restored, fun _ => h.rejected hnone, ?_⟩
  intro r hr
  cases hr

theorem Driven.attempt {origin s : Session} (h : origin.Driven s)
    (horigin : origin.Attempt axioms goal) : s.Attempt axioms goal := by
  have hflags : ∀ (s : Session) (cancelled : Bool) (elapsedMs : Nat), s.Attempt axioms goal →
      Attempt axioms goal { s with search := { s.search with cancelled, elapsedMs } } :=
    fun s cancelled elapsedMs hs =>
      ⟨hs.begun.flagged cancelled elapsedMs, hs.rejected, hs.unproved⟩
  refine h.invariant horigin (fun worker s hs hnone => (hs.step hnone worker).1)
    (fun s hs => hflags s _ _ hs) (fun s hs => hflags s _ _ hs) (fun s ms hs => hflags s _ _ hs) ?_
  intro s t hs hnone ht
  exact hs.resume hnone ht

end Session

end ThueProver
