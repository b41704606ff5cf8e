import Mathlib
import ThueProver.Proofs.Calls

/-!
# What becomes of the candidates

A candidate is rejected, or it is a proof and is reported. A session keeps its
report, but its snapshot does not; a session that is put away with a proof and
taken up again knows of it only by the count. So the candidates are those that
were rejected, the one whose proof the session keeps, and those whose proofs are
gone.

A verdict that there is no proof therefore says that the candidates were all
proofs that are gone. If none is gone there was no candidate, which is what the
verdict is meant to say. If one is gone the verdict is wrong: it is given on a
theorem that was proved before.
-/
namespace ThueProver

namespace Session

/-- The report is on the search as it stands, and its status is that of a proof
or follows from what stopped the search. -/
structure Settled (s : Session) (r : Report) : Prop where
  stats : r.stats = s.search.stats
  rejected : r.rejected = s.rejected
  verdict : (r.stopReason = none ∧ r.status = .proved) ∨
    ∃ reason, s.search.stopped = some reason ∧ r.stopReason = some reason ∧
      r.status = .ofStop s.rejected reason

/-- The session was begun for this theorem and these axioms, and its candidates
are accounted for; `lost` of them were proofs that it does not keep. -/
structure Tallied (axioms : List Equation) (goal : Equation) (lost : Nat) (s : Session) :
    Prop where
  begun : s.search.Begun axioms goal
  counted : s.search.stats.candidates = s.rejected + lost + s.proofs
  settled : ∀ r, s.outcome = some r → s.Settled r

variable {axioms : List Equation} {goal : Equation} {lost : Nat}

theorem tallied_start {p : Prover} (hp : p.Entered axioms) {s : Session}
    (h : p.start goal = .ok s) : s.Tallied axioms goal 0 := by
  obtain ⟨hlimits, context, hcontext, rfl⟩ := Prover.start_eq_ok.mp h
  refine ⟨Search.begun_start hp hlimits hcontext, rfl, ?_⟩
  intro r hr
  cases hr

theorem Tallied.step {s : Session} (h : s.Tallied axioms goal lost) (hnone : s.outcome = none)
    (worker : Worker) : (s.step worker).2.1.Tallied axioms goal lost := by
  have hbegun : (s.step worker).2.1.search.Begun axioms goal :=
    step_search worker s ▸ h.begun.step worker
  have hcounted := h.counted
  rw [proofs_of_unreported hnone] at hcounted
  have hunreported : ∀ {r : Report}, s.outcome ≠ some r := by simp [hnone]
  obtain ⟨taken, hexplored⟩ := h.begun.explored
  have hstepped := stepped_of_explored hexplored worker
  generalize (s.step worker).2.1 = t at hbegun hstepped ⊢
  generalize (s.step worker).2.2 = progress at hstepped
  cases hstepped with
  | @searched search hsearch =>
      refine ⟨hbegun, ?_, fun r hr => absurd hr hunreported⟩
      have hproofs : proofs { s with search } = 0 := proofs_of_unreported hnone
      rw [hsearch.candidates (by simp), hcounted, hproofs]
  | @rejected search state hsearch =>
      refine ⟨hbegun, ?_, fun r hr => absurd hr hunreported⟩
      have hproofs : proofs { s with search, rejected := s.rejected + 1 } = 0 :=
        proofs_of_unreported hnone
      rw [(hexplored.candidate_step hsearch).1, hcounted, hproofs]
      dsimp only
      omega
  | @proved search state r replayed hsearch hr =>
      refine ⟨hbegun, ?_, ?_⟩
      · have hproved : r.isProved = true := by simp [hr, report, Report.isProved]
        rw [(hexplored.candidate_step hsearch).1, hcounted, proofs_of_outcome rfl, hproved]
        rfl
      · rintro _ ⟨⟩
        exact ⟨by rw [hr]; rfl, by rw [hr]; rfl, .inl (by simp [hr, report])⟩
  | @closed search reason r replayed hsearch hr =>
      refine ⟨hbegun, ?_, ?_⟩
      · have hopen : r.isProved = false := by
          simp [hr, report, Report.isProved, Status.ofStop_ne_proved]
        rw [hsearch.candidates (by simp), hcounted, proofs_of_outcome rfl, hopen]
        rfl
      · rintro _ ⟨⟩
        exact ⟨by rw [hr]; rfl, by rw [hr]; rfl,
          .inr ⟨reason, hsearch.stopped_eq, by rw [hr]; rfl, by rw [hr]; rfl⟩⟩

/-- What is taken up again has no report, and the proof it had is lost. -/
theorem Tallied.resume {s t : Session} (h : s.Tallied axioms goal lost)
    (ht : ofSnapshot s.snapshot = .ok t) : t.Tallied axioms goal (lost + s.proofs) := by
  rw [h.begun.ofSnapshot, Except.ok.injEq] at ht
  subst ht
  refine ⟨h.begun.restored, ?_, ?_⟩
  · have hcounted := h.counted
    change s.search.stats.candidates = s.rejected + (lost + s.proofs) + 0
    omega
  · intro r hr
    cases hr

theorem Revived.tallied {origin s : Session} (h : origin.Revived lost s)
    (horigin : origin.Tallied axioms goal 0) : s.Tallied axioms goal lost := by
  refine h.invariant (P := fun lost s => s.Tallied axioms goal lost) horigin
    (fun worker _ s hs hnone => hs.step hnone worker) ?_ (fun _ s t hs ht => hs.resume ht)
  intro _ s cancelled elapsedMs _ hs
  refine ⟨hs.begun.flagged cancelled elapsedMs, hs.counted, ?_⟩
  intro r hr
  exact ⟨(hs.settled r hr).stats, (hs.settled r hr).rejected, (hs.settled r hr).verdict⟩

/-- What was counted when a report was made. -/
theorem Tallied.counted_report {s : Session} (h : s.Tallied axioms goal lost) {r : Report}
    (hr : s.outcome = some r) :
    r.stats.candidates = r.rejected + lost + if r.isProved then 1 else 0 := by
  obtain ⟨hstats, hrejected, -⟩ := h.settled r hr
  rw [hstats, hrejected, h.counted, proofs_of_outcome hr]

theorem Tallied.rejected_of_noProof {s : Session} (h : s.Tallied axioms goal lost) {r : Report}
    (hr : s.outcome = some r) (hstatus : r.status = .noProof) : r.rejected = 0 := by
  obtain ⟨-, hrejected, ⟨-, hproved⟩ | ⟨reason, -, -, hstop⟩⟩ := h.settled r hr
  · rw [hproved] at hstatus
    cases hstatus
  · rw [hrejected]
    exact (Status.ofStop_eq_noProof (hstop.symm.trans hstatus)).2

/-- However a session that a prover began is driven, put away and taken up again,
its candidates are those it rejected, the one whose proof it keeps, and those
whose proofs are lost. The same holds of the counts in every report. A verdict
that there is no proof is given only when all candidates were proofs that are
lost, so without one there was no candidate; and a report that is kept is the
answer to every further call. -/
theorem candidates_tallied {p : Prover} {origin s : Session} (hp : p.Entered axioms)
    (horigin : p.start goal = .ok origin) (hs : origin.Revived lost s) :
    s.search.stats.candidates = s.rejected + lost + s.proofs ∧
      (∀ r, s.Returns r →
        (r.stats.candidates = r.rejected + lost + if r.isProved then 1 else 0) ∧
          (r.status = .noProof → r.rejected = 0 ∧ r.stats.candidates = lost)) ∧
      ∀ r r', s.outcome = some r → s.Returns r' → r' = r := by
  refine ⟨(hs.tallied (tallied_start hp horigin)).counted, ?_,
    fun r r' houtcome hr' => hr'.eq_of_outcome houtcome⟩
  intro r hr
  obtain ⟨t, ht, houtcome⟩ := hs.returns hr
  have htallied := ht.tallied (tallied_start hp horigin)
  have hcounted := htallied.counted_report houtcome
  refine ⟨hcounted, ?_⟩
  intro hstatus
  have hrejected := htallied.rejected_of_noProof houtcome hstatus
  refine ⟨hrejected, ?_⟩
  simpa [hrejected, Report.isProved, hstatus] using hcounted

/-- Three candidates: two were rejected, and the third was a proof that was
reported before the session was put away and taken up again. -/
theorem candidates_tallied_lost :
    ∃ (p : Prover) (origin s : Session),
      p.Entered [⟨["b", "a"], ["c"]⟩, ⟨["a", "b"], ["d"]⟩, ⟨["d"], ["c"]⟩] ∧
      p.start ⟨["a", "b"], ["c"]⟩ = .ok origin ∧ origin.Revived 1 s ∧
      s.search.stats.candidates = s.rejected + 1 + s.proofs ∧ s.rejected = 2 ∧
      s.proofs = 0 := by
  have hrun : ∃ p, Prover.setAxioms { limits := { frontierOrder := .breadthFirst } }
        [⟨["b", "a"], ["c"]⟩, ⟨["a", "b"], ["d"]⟩, ⟨["d"], ["c"]⟩] = .ok p ∧ ∃ s,
      p.start ⟨["a", "b"], ["c"]⟩ = .ok s ∧ (s.advance {} 9).2.1.proofs = 1 ∧ ∃ t,
      ofSnapshot (s.advance {} 9).2.1.snapshot = .ok t ∧ t.rejected = 2 ∧ t.proofs = 0 :=
    ⟨_, by cbv, _, by cbv, by cbv, _, by cbv, by cbv, by cbv⟩
  obtain ⟨p, hp, s, hs, hproofs, t, ht, hrejected, hnone⟩ := hrun
  have hrevived : s.Revived 1 t := by
    have hresumed : s.Revived (0 + (s.advance {} 9).2.1.proofs) t :=
      .resume (.advance {} 9 .start) ht
    rwa [hproofs] at hresumed
  have hentered := Prover.Entered.setAxioms (.fresh _) hp
  obtain ⟨hcounted, -, -⟩ := candidates_tallied hentered hs hrevived
  exact ⟨p, s, t, hentered, hs, hrevived, hcounted, hrejected, hnone⟩

/-- A theorem that needs no step is proved at once. Put away with its report and
taken up again, the session comes to the verdict that there is no proof, though
it counts a candidate and rejected none. -/
theorem noProof_after_proved :
    ∃ origin s t : Session, ∃ r r' : Report,
      Prover.start {} ⟨["a"], ["a"]⟩ = .ok origin ∧ s = (origin.advance {} 1).2.1 ∧
      s.Returns r ∧ r.status = .proved ∧
      ofSnapshot s.snapshot = .ok t ∧ t.Returns r' ∧ r'.status = .noProof ∧
      r'.stats.candidates = 1 ∧ r'.rejected = 0 := by
  have hrun : ∃ origin, Prover.start {} ⟨["a"], ["a"]⟩ = .ok origin ∧ ∃ r,
      ((origin.advance {} 1).2.1.advance {} 1).2.2 = .reported r ∧ r.status = .proved ∧ ∃ t,
      ofSnapshot (origin.advance {} 1).2.1.snapshot = .ok t ∧ ∃ r',
      (t.advance {} 1).2.2 = .reported r' ∧ r'.status = .noProof ∧ r'.stats.candidates = 1 ∧
      r'.rejected = 0 :=
    ⟨_, by cbv, _, by cbv, by cbv, _, by cbv, _, by cbv, by cbv, by cbv, by cbv⟩
  obtain ⟨origin, horigin, r, hr, hproved, t, ht, r', hr', hstatus, hcounts⟩ := hrun
  exact ⟨origin, _, t, r, r', horigin, rfl, .inl ⟨_, _, hr⟩, hproved, ht, .inl ⟨_, _, hr'⟩,
    hstatus, hcounts⟩

end Session

end ThueProver
