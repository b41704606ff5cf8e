import ThueProver.Proofs.Attempt

/-!
# Searches and sessions that cannot be told apart

Two searches agree if they differ at most in how their frontiers are stored and
in what their own admission control has counted. They take the same steps with
the same events, and sessions around them give the same reports. A session that
was put away and taken up again agrees with the one it was taken of.
-/
namespace ThueProver

namespace Search

/-- Only the frontier and the rejections may differ, and the frontiers are alike. -/
def Agrees (s t : Search) : Prop :=
  ∃ frontier rejections, s.frontier.Alike frontier ∧ t = { s with frontier, rejections }

variable {s t : Search}

theorem Agrees.context (h : s.Agrees t) : t.context = s.context := by
  obtain ⟨frontier, rejections, -, rfl⟩ := h
  rfl

theorem Agrees.alike (h : s.Agrees t) : s.frontier.Alike t.frontier := by
  obtain ⟨frontier, rejections, halike, rfl⟩ := h
  exact halike

theorem Agrees.grow (h : s.Agrees t) (worker : Worker) (state : State)
    (moves : List (Rule × List Opcode)) :
    (s.grow worker state moves).Agrees (t.grow worker state moves) := by
  obtain ⟨frontier, rejections, halike, rfl⟩ := h
  obtain ⟨hcount, hpushed⟩ := halike.pushAll (state.childrenOf (s.arrange worker moves))
  have hsame : Search.arrange worker { s with frontier, rejections } moves =
      s.arrange worker moves := rfl
  simp only [grow_eq, hsame, absorb, hcount]
  exact ⟨_, rejections, hpushed, rfl⟩

theorem Agrees.request (h : s.Agrees t) (worker : Worker) (state : State)
    (moves : List (Rule × List Opcode)) :
    (t.request worker state moves).1 = (s.request worker state moves).1 ∧
      (s.request worker state moves).2.Agrees (t.request worker state moves).2 := by
  have hgrow := h.grow worker state moves
  obtain ⟨frontier, rejections, halike, rfl⟩ := h
  unfold Search.request
  dsimp only
  cases worker.acquire? s.limits.maxFanout (weight moves) with
  | none => exact ⟨rfl, frontier, _, halike, rfl⟩
  | some busy => exact ⟨rfl, hgrow⟩

theorem Agrees.expand (h : s.Agrees t) (worker : Worker) (state : State) :
    (t.expand worker state).1 = (s.expand worker state).1 ∧
      (s.expand worker state).2.Agrees (t.expand worker state).2 := by
  have hrequest := h.request worker state (s.applicable state)
  have happlicable : t.applicable state = s.applicable state := by
    obtain ⟨frontier, rejections, -, rfl⟩ := h
    rfl
  unfold Search.expand
  rw [happlicable]
  cases hmoves : s.applicable state with
  | nil => exact ⟨rfl, h⟩
  | cons move moves =>
      rw [hmoves] at hrequest
      exact hrequest

theorem Agrees.takeUp (h : s.Agrees t) (worker : Worker) (state : State) :
    (t.takeUp worker state).1 = (s.takeUp worker state).1 ∧
      (t.takeUp worker state).2.2 = (s.takeUp worker state).2.2 ∧
      (s.takeUp worker state).2.1.Agrees (t.takeUp worker state).2.1 := by
  have hexpand := h.expand worker state
  unfold Search.takeUp
  split_ifs with hterminal
  · obtain ⟨frontier, rejections, halike, rfl⟩ := h
    exact ⟨rfl, rfl, frontier, rejections, halike, rfl⟩
  · exact ⟨hexpand.1, rfl, hexpand.2⟩

/-- Searches that agree take the same step and agree afterwards. -/
theorem Agrees.step (h : s.Agrees t) (worker : Worker) :
    (t.step worker).1 = (s.step worker).1 ∧ (t.step worker).2.2 = (s.step worker).2.2 ∧
      (s.step worker).2.1.Agrees (t.step worker).2.1 := by
  obtain ⟨frontier, rejections, halike, rfl⟩ := h
  have hspent : spent? { s with frontier, rejections } = s.spent? := rfl
  unfold Search.step
  rw [hspent]
  dsimp only
  cases s.stopped.or s.spent? with
  | some reason => exact ⟨rfl, rfl, frontier, rejections, halike, rfl⟩
  | none =>
      cases hpop : s.frontier.pop? with
      | none =>
          rw [halike.pop?_none hpop]
          exact ⟨rfl, rfl, frontier, rejections, halike, rfl⟩
      | some popped =>
          obtain ⟨frontier', hpop', halike'⟩ := halike.pop?_some hpop
          rw [hpop']
          have hobserved : ({ s with frontier := popped.2 }.observe popped.1).Agrees
              ({ s with frontier := frontier', rejections }.observe popped.1) :=
            ⟨frontier', rejections, halike', rfl⟩
          exact hobserved.takeUp worker popped.1

/-- Nothing has happened to the search that a snapshot does not keep. -/
structure Undisturbed (s : Search) : Prop where
  stopped : s.stopped = none
  cancelled : s.cancelled = false
  elapsedMs : s.elapsedMs = 0

theorem Agrees.undisturbed (h : s.Agrees t) (hs : s.Undisturbed) : t.Undisturbed := by
  obtain ⟨frontier, rejections, -, rfl⟩ := h
  exact ⟨hs.stopped, hs.cancelled, hs.elapsedMs⟩

theorem Undisturbed.step (h : s.Undisturbed) (worker : Worker)
    (hgo : ∀ reason, (s.step worker).2.2 ≠ some (.stopped reason)) :
    (s.step worker).2.1.Undisturbed := by
  revert hgo
  unfold Search.step
  split
  · intro hgo
    exact absurd rfl (hgo _)
  · split
    · intro hgo
      exact absurd rfl (hgo _)
    next state frontier _ =>
      intro _
      have hkept := keeps_takeUp worker ({ s with frontier }.observe state) state
      exact ⟨hkept.stopped.trans h.stopped, hkept.cancelled.trans h.cancelled,
        hkept.elapsedMs.trans h.elapsedMs⟩

end Search

namespace Session

/-- The sessions differ at most in their searches, which agree. -/
def Agrees (s t : Session) : Prop := ∃ search, s.search.Agrees search ∧ t = { s with search }

variable {s t : Session}

theorem Agrees.examine (h : s.Agrees t) (candidate : State) :
    (t.examine candidate).2 = (s.examine candidate).2 ∧
      (s.examine candidate).1.Agrees (t.examine candidate).1 := by
  obtain ⟨search, ⟨frontier, rejections, halike, rfl⟩, rfl⟩ := h
  have hreplay : Session.replay { s with search := { s.search with frontier, rejections } }
      candidate.proof = s.replay candidate.proof := rfl
  unfold Session.examine
  rw [hreplay]
  cases s.replay candidate.proof with
  | error error => exact ⟨rfl, _, ⟨frontier, rejections, halike, rfl⟩, rfl⟩
  | ok replayed =>
      dsimp only
      split_ifs with hvalid
      · exact ⟨rfl, _, ⟨frontier, rejections, halike, rfl⟩, rfl⟩
      · exact ⟨rfl, _, ⟨frontier, rejections, halike, rfl⟩, rfl⟩

theorem Agrees.close (h : s.Agrees t) (reason : StopReason) :
    (t.close reason).2 = (s.close reason).2 ∧
      (s.close reason).1.Agrees (t.close reason).1 := by
  obtain ⟨search, ⟨frontier, rejections, halike, rfl⟩, rfl⟩ := h
  have hreplay : Session.replay { s with search := { s.search with frontier, rejections } }
      s.search.bestProof = s.replay s.search.bestProof := rfl
  have hbest : Search.bestProof { s.search with frontier, rejections } = s.search.bestProof := rfl
  unfold Session.close
  dsimp only
  rw [hbest, hreplay]
  cases s.replay s.search.bestProof with
  | error error => exact ⟨rfl, _, ⟨frontier, rejections, halike, rfl⟩, rfl⟩
  | ok replayed => exact ⟨rfl, _, ⟨frontier, rejections, halike, rfl⟩, rfl⟩

/-- Sessions that agree take the same step and agree afterwards. -/
theorem Agrees.step (h : s.Agrees t) (worker : Worker) :
    (t.step worker).1 = (s.step worker).1 ∧ (t.step worker).2.2 = (s.step worker).2.2 ∧
      (s.step worker).2.1.Agrees (t.step worker).2.1 := by
  obtain ⟨search, hsearch, rfl⟩ := h
  have hstep := hsearch.step worker
  unfold Session.step
  rcases hs : s.search.step worker with ⟨worker₁, search₁, event₁⟩
  rcases ht : search.step worker with ⟨worker₂, search₂, event₂⟩
  rw [hs, ht] at hstep
  obtain ⟨rfl, rfl, hnext⟩ := hstep
  have hagrees : Agrees { s with search := search₁ } { s with search := search₂ } :=
    ⟨search₂, hnext, rfl⟩
  cases event₂ with
  | none => exact ⟨rfl, rfl, hagrees⟩
  | some event =>
      cases event with
      | candidate state => exact ⟨rfl, hagrees.examine state⟩
      | stopped reason => exact ⟨rfl, hagrees.close reason⟩

theorem Agrees.outcome (h : s.Agrees t) : t.outcome = s.outcome := by
  obtain ⟨search, -, rfl⟩ := h
  rfl

theorem Agrees.search (h : s.Agrees t) : s.search.Agrees t.search := by
  obtain ⟨search, hsearch, rfl⟩ := h
  exact hsearch

/-- Sessions that agree run to the same report. -/
theorem Agrees.run (h : s.Agrees t) (worker : Worker) :
    (t.run worker).2.2 = (s.run worker).2.2 := by
  fun_induction Session.run worker s generalizing t with
  | case1 worker s report hreport => exact run_of_outcome (h.outcome.trans hreport) worker
  | case2 worker s hnone worker' s' report heq =>
      obtain ⟨-, hprogress, -⟩ := h.step worker
      rw [run_of_step (h.outcome.trans hnone), hprogress, heq]
  | case3 worker s hnone worker' s' error heq =>
      obtain ⟨-, hprogress, -⟩ := h.step worker
      rw [run_of_step (h.outcome.trans hnone), hprogress, heq]
  | case4 worker s hnone worker' s' heq ih =>
      obtain ⟨hworker, hprogress, hnext⟩ := h.step worker
      rw [run_of_step (h.outcome.trans hnone), hprogress, hworker]
      rw [heq] at hnext ⊢
      exact ih hnext

/-- Sessions that agree have the same snapshot. -/
theorem Agrees.snapshot (h : s.Agrees t) : t.snapshot = s.snapshot := by
  obtain ⟨search, ⟨frontier, rejections, halike, rfl⟩, rfl⟩ := h
  simp only [Session.snapshot, halike.pending, halike.visited]

variable {axioms : List Equation} {goal : Equation}

/-- What is made of the snapshot of an attempt agrees with it, unless a
cancellation, a stop or the time spent was lost. -/
theorem Attempt.agrees_resume (h : s.Attempt axioms goal) (hnone : s.outcome = none)
    (hrunning : s.search.Undisturbed) :
    ∃ t, Session.ofSnapshot s.snapshot = .ok t ∧ s.Agrees t := by
  obtain ⟨taken, hexplored⟩ := h.begun.explored
  refine ⟨_, h.begun.ofSnapshot, _, ⟨_, {}, hexplored.alike_restored, rfl⟩, ?_⟩
  rw [hnone]
  simp only [Search.restored, Search.restore, hrunning.stopped, hrunning.cancelled,
    hrunning.elapsedMs]

end Session

end ThueProver
