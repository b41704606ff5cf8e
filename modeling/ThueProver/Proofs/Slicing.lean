import Mathlib
import ThueProver.Proofs.Agreement
import ThueProver.Proofs.Calls
import ThueProver.Proofs.SnapshotText

/-!
# Slices and suspensions leave no trace

A session that is advanced in slices, and written out and read in again between
them, comes to the report that one uninterrupted run gives. All that is needed
of a slice is that it is a number of steps, and of a suspension that the session
read in agrees with the one written out.

Texts hold 64-bit words, so the statement is about limits and counts that are
words. The counts of a session never decrease: if those of the report are words,
then so are all counts on the way to it.
-/
namespace ThueProver

namespace Stats

theorem UpTo.bounded {a b : Stats} (h : a.UpTo b) (hb : b.Bounded) : a.Bounded where
  popped := Nat.lt_of_le_of_lt h.popped hb.popped
  expanded := Nat.lt_of_le_of_lt h.expanded hb.expanded
  generated := Nat.lt_of_le_of_lt h.generated hb.generated
  duplicates := Nat.lt_of_le_of_lt h.duplicates hb.duplicates
  rejectedBatches := Nat.lt_of_le_of_lt h.rejectedBatches hb.rejectedBatches
  droppedTransitions := Nat.lt_of_le_of_lt h.droppedTransitions hb.droppedTransitions
  candidates := Nat.lt_of_le_of_lt h.candidates hb.candidates

end Stats

namespace Search

/-- A step takes up one state at most. -/
theorem step_popped_le (worker : Worker) (s : Search) :
    (s.step worker).2.1.stats.popped ≤ s.stats.popped + 1 := by
  unfold step
  split
  · exact Nat.le_succ _
  · split
    · exact Nat.le_succ _
    next state frontier _ =>
      have hkept := keeps_takeUp worker ({ s with frontier }.observe state) state
      exact Nat.le_of_eq hkept.popped

end Search

namespace Session

/-- A session reports the counts it has come to. -/
theorem step_report_stats {worker : Worker} {s : Session} {r : Report}
    (h : (s.step worker).2.2 = .reported r) :
    r.stats = (s.step worker).2.1.search.stats := by
  rw [step_search]
  revert h
  unfold step
  split
  · intro h
    cases h
  next heq =>
    rw [heq]
    unfold examine
    split
    · intro h
      cases h
    · split_ifs
      · intro h
        cases h
        rfl
      · intro h
        cases h
  next heq =>
    rw [heq]
    unfold close
    split
    · intro h
      cases h
    · intro h
      cases h
      rfl

/-- Something comes of a step that stops the search. -/
theorem step_ne_unfinished {worker : Worker} {s : Session} {reason : StopReason}
    (h : (s.search.step worker).2.2 = some (.stopped reason)) :
    (s.step worker).2.2 ≠ .unfinished := by
  unfold step
  split
  next heq =>
    rw [heq] at h
    cases h
  next heq =>
    rw [heq] at h
    cases h
  next => exact close_ne_unfinished _ _

theorem stepUpTo_popped (worker : Worker) (s : Session) (budget : Nat) :
    (s.stepUpTo worker budget).2.1.search.stats.popped ≤ s.search.stats.popped + budget ∧
      ((s.stepUpTo worker budget).2.2 = .unfinished →
        (s.stepUpTo worker budget).2.1.search.stats.popped = s.search.stats.popped + budget) := by
  induction budget generalizing worker s with
  | zero => exact ⟨Nat.le_refl _, fun _ => rfl⟩
  | succ budget ih =>
      have hle := Search.step_popped_le worker s.search
      rw [← step_search] at hle
      have hone := step_popped worker s
      unfold stepUpTo
      split
      next worker' s' heq =>
        rw [heq] at hone
        obtain ⟨-, -, hpopped⟩ := hone rfl
        obtain ⟨hupper, hexact⟩ := ih worker' s'
        dsimp only at hpopped
        rw [hpopped] at hupper hexact
        refine ⟨by omega, ?_⟩
        intro hunfinished
        have hequal := hexact hunfinished
        omega
      next hdone =>
        refine ⟨by omega, ?_⟩
        intro hunfinished
        exact (hdone _ _ (by rw [← hunfinished])).elim

/-- A call takes up its budget at most, and all of it if nothing came of it. -/
theorem advance_popped (worker : Worker) (s : Session) (budget : Nat) :
    (s.advance worker budget).2.1.search.stats.popped ≤ s.search.stats.popped + budget ∧
      ((s.advance worker budget).2.2 = .unfinished →
        (s.advance worker budget).2.1.search.stats.popped = s.search.stats.popped + budget) := by
  unfold advance
  split
  · exact ⟨Nat.le_add_right _ _, fun h => by cases h⟩
  · exact stepUpTo_popped worker s budget

/-- Writes a session out and reads it in again. -/
def transfer (s : Session) : Except ProofError Session := ofText s.snapshot.render

variable {axioms : List Equation} {goal : Equation}

/-- An attempt comes to a report. -/
theorem Attempt.run_ok {s : Session} (h : s.Attempt axioms goal) (worker : Worker) :
    ∃ r, (s.run worker).2.2 = .ok r :=
  (succeeds_of_step (fun worker _ hs hnone => Attempt.step hs hnone worker) h).2 worker

/-- The counts of an attempt are no larger than those of its report. -/
theorem Attempt.stats_upTo {s : Session} (h : s.Attempt axioms goal) (hnone : s.outcome = none)
    {worker : Worker} {r : Report} (hr : (s.run worker).2.2 = .ok r) :
    s.search.stats.UpTo r.stats := by
  have hstep : ∀ {s : Session} (worker : Worker), s.Attempt axioms goal →
      s.search.stats.UpTo (s.step worker).2.1.search.stats := by
    intro s worker h
    obtain ⟨taken, hexplored⟩ := h.begun.explored
    rw [step_search]
    exact (hexplored.stepped worker).upTo
  fun_induction run worker s with
  | case1 worker s report hreport =>
      rw [hnone] at hreport
      cases hreport
  | case2 worker s _ worker' s' report heq =>
      cases hr
      have hreported : (s.step worker).2.2 = .reported r := by rw [heq]
      rw [step_report_stats hreported]
      exact hstep worker h
  | case3 worker s _ worker' s' error heq => cases hr
  | case4 worker s _ worker' s' heq ih =>
      obtain ⟨hnext, -⟩ := h.step hnone worker
      have houtcome := step_outcome worker s
      have hupTo := hstep worker h
      rw [heq] at hnext houtcome hupTo
      exact hupTo.trans (ih hnext (houtcome.trans hnone) hr)

/-- The session was begun for this theorem and these axioms with these limits,
nothing disturbed it, and it will come to this report. -/
structure BoundFor (axioms : List Equation) (goal : Equation) (limits : Limits) (worker : Worker)
    (r : Report) (s : Session) : Prop where
  attempt : s.Attempt axioms goal
  limits_eq : s.search.limits = limits
  undisturbed : s.outcome = none → s.search.Undisturbed
  result : (s.run worker).2.2 = .ok r

variable {limits : Limits} {worker : Worker} {r : Report}

theorem BoundFor.step {s : Session} (h : s.BoundFor axioms goal limits worker r)
    (hnone : s.outcome = none) : (s.step worker).2.1.BoundFor axioms goal limits worker r := by
  obtain ⟨hattempt, hfailed⟩ := h.attempt.step hnone worker
  have hlimits : (s.step worker).2.1.search.limits = limits := by
    rw [step_search, Search.step_limits]
    exact h.limits_eq
  have hresult := h.result
  have houtcome := step_outcome worker s
  rw [run_of_step hnone, step_worker] at hresult
  cases hprogress : (s.step worker).2.2 with
  | unfinished =>
      rw [hprogress] at hresult
      refine ⟨hattempt, hlimits, ?_, hresult⟩
      intro _
      rw [step_search]
      apply (h.undisturbed hnone).step
      intro reason hstopped
      exact step_ne_unfinished hstopped hprogress
  | reported report =>
      rw [hprogress] at hresult houtcome
      cases hresult
      refine ⟨hattempt, hlimits, ?_, run_of_outcome houtcome worker⟩
      intro hunreported
      exact absurd (houtcome.symm.trans hunreported) (by simp [Progress.report?])
  | failed error => exact absurd hprogress (hfailed error)

theorem BoundFor.stepUpTo {s : Session} (h : s.BoundFor axioms goal limits worker r)
    (hnone : s.outcome = none) (budget : Nat) :
    (s.stepUpTo worker budget).2.1.BoundFor axioms goal limits worker r ∧
      ∀ error, (s.stepUpTo worker budget).2.2 ≠ .failed error := by
  induction budget generalizing s with
  | zero => exact ⟨h, by simp [Session.stepUpTo]⟩
  | succ budget ih =>
      have hnext := h.step hnone
      have hworker := step_worker worker s
      have houtcome := step_outcome worker s
      obtain ⟨-, hfailed⟩ := h.attempt.step hnone worker
      unfold Session.stepUpTo
      split
      next worker' s' heq =>
        rw [heq] at hworker hnext houtcome
        dsimp only at hworker
        rw [hworker]
        exact ih hnext (houtcome.trans hnone)
      next => exact ⟨hnext, hfailed⟩

theorem BoundFor.advance {s : Session} (h : s.BoundFor axioms goal limits worker r)
    (budget : Nat) : (s.advance worker budget).2.1.BoundFor axioms goal limits worker r ∧
      ∀ error, (s.advance worker budget).2.2 ≠ .failed error := by
  unfold Session.advance
  split
  · exact ⟨h, by simp⟩
  next hnone => exact h.stepUpTo hnone budget

/-- A call comes to the report the session is bound for, or to nothing. -/
theorem BoundFor.progress {s : Session} (h : s.BoundFor axioms goal limits worker r)
    (budget : Nat) : (s.advance worker budget).2.2 = .reported r ∨
      (s.advance worker budget).2.2 = .unfinished := by
  obtain ⟨hbound, hfailed⟩ := h.advance budget
  have houtcome := advance_outcome worker s budget
  have hresult := hbound.result
  cases hprogress : (s.advance worker budget).2.2 with
  | unfinished => exact .inr rfl
  | reported report =>
      rw [hprogress] at houtcome
      rw [run_of_outcome houtcome] at hresult
      cases hresult
      exact .inl rfl
  | failed error => exact absurd hprogress (hfailed error)

/-- The numbers of rules are no larger than the number of axioms. -/
theorem bounded_of_derives {c : Context} (hcoded : c.Coded axioms goal limits.useCallGraph)
    (hprepared : c.Prepared) (hsize : axioms.length < wordBound) {t : State}
    (ht : c.Derives t) : t.Bounded := by
  intro step hstep
  obtain ⟨rule, hrule, hid⟩ := ht.known step hstep
  have hle := hprepared.numbered.id_le_size hrule
  have hlength := congrArg List.length hcoded.axioms_eq
  rw [List.length_map] at hlength
  rw [RuleBook.size, hid] at hle
  omega

theorem BoundFor.snapshot_bounded {s : Session} (h : s.BoundFor axioms goal limits worker r)
    (hnone : s.outcome = none) (hlimits : limits.Bounded)
    (haxioms : axioms.length ≤ limits.maxAxioms) (hstats : r.stats.Bounded) :
    s.snapshot.Bounded := by
  obtain ⟨taken, hexplored⟩ := h.attempt.begun.explored
  have hcoded := h.attempt.begun.context
  have hcounts := (h.attempt.stats_upTo hnone h.result).bounded hstats
  have hsize : axioms.length < wordBound := Nat.lt_of_le_of_lt haxioms hlimits.maxAxioms
  have hstate : ∀ t ∈ taken ++ s.search.frontier.pending, t.Bounded := fun t ht =>
    bounded_of_derives hcoded hexplored.prepared hsize (hexplored.derived t ht)
  refine ⟨?_, ?_, hcounts, ?_, ?_⟩
  · intro t ht
    exact hstate t (List.mem_append_right _ ht)
  · intro t ht
    exact hstate t (List.mem_append_left _ (hexplored.best t ht))
  · rw [show s.snapshot.rejected = s.search.stats.candidates from h.attempt.rejected hnone]
    exact hcounts.candidates
  · rw [show s.snapshot.limits = limits from h.limits_eq]
    exact hlimits

/-- A session that is read in is bound for the same report, and its snapshot is
the one it was read from. -/
theorem BoundFor.transfer {s : Session} (h : s.BoundFor axioms goal limits worker r)
    (hnone : s.outcome = none) (hlimits : limits.Bounded)
    (haxioms : axioms.length ≤ limits.maxAxioms) (hstats : r.stats.Bounded) :
    ∃ t, s.transfer = .ok t ∧ t.BoundFor axioms goal limits worker r ∧
      t.snapshot = s.snapshot := by
  have hparse := Snapshot.parse_of_bounded (h.snapshot_bounded hnone hlimits haxioms hstats)
  obtain ⟨t, ht, hagrees⟩ := h.attempt.agrees_resume hnone (h.undisturbed hnone)
  refine ⟨t, ?_, ⟨h.attempt.resume hnone ht, ?_, ?_, ?_⟩, hagrees.snapshot⟩
  · rw [Session.transfer, ofText, hparse]
    exact ht
  · exact (congrArg Snapshot.limits hagrees.snapshot).trans h.limits_eq
  · intro _
    exact hagrees.search.undisturbed (h.undisturbed hnone)
  · rw [hagrees.run]
    exact h.result

/-- A stretch of a session: how many states may be taken up, and whether the
session is written out and read in again afterwards. -/
structure Slice where
  budget : Nat
  suspend : Bool

/-- The session after some slices, all made on the same worker. A session that
has its report is not written out any more. -/
def inSlices (worker : Worker) (s : Session) : List Slice → Except ProofError Session
  | [] => .ok s
  | slice :: rest =>
      let s := (s.advance worker slice.budget).2.1
      if slice.suspend && !s.isFinished then do
        let s ← s.transfer
        s.inSlices worker rest
      else s.inSlices worker rest

theorem BoundFor.inSlices {s : Session} (h : s.BoundFor axioms goal limits worker r)
    (hlimits : limits.Bounded) (haxioms : axioms.length ≤ limits.maxAxioms)
    (hstats : r.stats.Bounded) (slices : List Slice) :
    ∃ t, s.inSlices worker slices = .ok t ∧ t.BoundFor axioms goal limits worker r := by
  induction slices generalizing s with
  | nil => exact ⟨s, rfl, h⟩
  | cons slice rest ih =>
      obtain ⟨hadvanced, -⟩ := h.advance slice.budget
      simp only [Session.inSlices]
      split_ifs with hsuspend
      · simp only [isFinished, Bool.and_eq_true, Bool.not_eq_true', Option.isSome_eq_false_iff,
          Option.isNone_iff_eq_none] at hsuspend
        obtain ⟨t, ht, hbound, -⟩ := hadvanced.transfer hsuspend.2 hlimits haxioms hstats
        obtain ⟨u, hu, hresult⟩ := ih hbound
        exact ⟨u, by rw [ht]; exact hu, hresult⟩
      · exact ih hadvanced

end Session

end ThueProver
