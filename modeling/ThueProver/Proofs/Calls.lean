import Mathlib.Tactic.Common
import ThueProver.Proofs.Attempt

/-!
# Calls on searches and on sessions

A search can be asked for its next event, or for a number of steps; it can be
cancelled, and it can be put away and restored. A session can moreover be put
away when it has its report already. The session that is taken up then has no
report, so a history counts the proofs that were left behind in this way.

What one step keeps is kept by all calls. Each of the two inductions is done
once here, as is the one that a session whose steps do not fail does not fail.
-/
namespace ThueProver

namespace Search

/-- What can be asked of a search. -/
inductive Call where
  | next (worker : Worker)
  | advance (worker : Worker) (budget : Nat)
  | cancel
  | renew
  | wait (ms : Nat)
  /-- To be put away and to go on from the snapshot. -/
  | restore

/-- The search after a call, and the event the call came to. -/
def call (s : Search) : Call → Search × Option SearchEvent
  | .next worker => ((s.next worker).2.1, some (s.next worker).2.2)
  | .advance worker budget => (s.advance worker budget).2
  | .cancel => (s.cancel, none)
  | .renew => (s.renew, none)
  | .wait ms => (s.wait ms, none)
  | .restore => (s.restored, none)

/-- The search after some calls, and what each of them came to. -/
def calls (s : Search) : List Call → Search × List (Option SearchEvent)
  | [] => (s, [])
  | c :: rest => (((s.call c).1.calls rest).1, (s.call c).2 :: ((s.call c).1.calls rest).2)

section
variable {P : Search → Prop} {Q : SearchEvent → Prop}

theorem advance_invariant
    (hstep : ∀ worker s, P s → P (s.step worker).2.1 ∧ ∀ e, (s.step worker).2.2 = some e → Q e)
    (worker : Worker) {s : Search} (hs : P s) (budget : Nat) :
    P (s.advance worker budget).2.1 ∧ ∀ e, (s.advance worker budget).2.2 = some e → Q e := by
  induction budget generalizing worker s with
  | zero =>
      refine ⟨hs, ?_⟩
      intro e he
      cases he
  | succ budget ih =>
      have hnext := hstep worker s hs
      unfold advance
      split
      next heq =>
        rw [heq] at hnext
        exact hnext
      next heq =>
        rw [heq] at hnext
        exact ih _ hnext.1

theorem next_invariant
    (hstep : ∀ worker s, P s → P (s.step worker).2.1 ∧ ∀ e, (s.step worker).2.2 = some e → Q e)
    (worker : Worker) {s : Search} (hs : P s) :
    P (s.next worker).2.1 ∧ Q (s.next worker).2.2 := by
  fun_induction next worker s with
  | case1 worker s worker' s' event heq =>
      have hnext := hstep worker s hs
      rw [heq] at hnext
      exact ⟨hnext.1, hnext.2 event rfl⟩
  | case2 worker s worker' s' heq ih =>
      have hnext := hstep worker s hs
      rw [heq] at hnext
      exact ih hnext.1

/-- What every step keeps, and every other call, holds after all calls; and what
holds of the event of every step holds of all events. -/
theorem calls_invariant
    (hstep : ∀ worker s, P s → P (s.step worker).2.1 ∧ ∀ e, (s.step worker).2.2 = some e → Q e)
    (hflagged : ∀ s cancelled elapsedMs, P s → P { s with cancelled, elapsedMs })
    (hrestored : ∀ s, P s → P s.restored) {s : Search} (hs : P s) (list : List Call) :
    P (s.calls list).1 ∧ ∀ e, some e ∈ (s.calls list).2 → Q e := by
  induction list generalizing s with
  | nil => exact ⟨hs, by simp [calls]⟩
  | cons c rest ih =>
      have hcall : P (s.call c).1 ∧ ∀ e, (s.call c).2 = some e → Q e := by
        cases c with
        | next worker =>
            obtain ⟨hnext, hevent⟩ := next_invariant hstep worker hs
            refine ⟨hnext, ?_⟩
            intro e he
            exact Option.some.inj he ▸ hevent
        | advance worker budget => exact advance_invariant hstep worker hs budget
        | cancel => exact ⟨hflagged s true s.elapsedMs hs, by simp [call]⟩
        | renew => exact ⟨hflagged s false s.elapsedMs hs, by simp [call]⟩
        | wait ms => exact ⟨hflagged s s.cancelled (s.elapsedMs + ms) hs, by simp [call]⟩
        | restore => exact ⟨hrestored s hs, by simp [call]⟩
      obtain ⟨hrest, hevents⟩ := ih hcall.1
      refine ⟨hrest, ?_⟩
      intro e he
      rcases List.mem_cons.mp he with he | he
      · exact hcall.2 e he.symm
      · exact hevents e he

end

theorem next_of_event {worker : Worker} {s s' : Search} {event : SearchEvent}
    (h : s.step worker = (worker, s', some event)) : s.next worker = (worker, s', event) := by
  rw [next]
  split
  next heq => cases h.symm.trans heq; rfl
  next heq => cases h.symm.trans heq

theorem next_of_none {worker : Worker} {s s' : Search} (h : s.step worker = (worker, s', none)) :
    s.next worker = s'.next worker := by
  rw [next]
  split
  next heq => cases h.symm.trans heq
  next heq => cases h.symm.trans heq; rfl

/-- The same call on two workers, which are related by `W`. -/
inductive Call.Alike (W : Worker → Worker → Prop) : Call → Call → Prop
  | next {worker worker' : Worker} : W worker worker' → Alike W (.next worker) (.next worker')
  | advance {worker worker' : Worker} : W worker worker' → (budget : Nat) →
      Alike W (.advance worker budget) (.advance worker' budget)
  | cancel : Alike W .cancel .cancel
  | renew : Alike W .renew .renew
  | wait (ms : Nat) : Alike W (.wait ms) (.wait ms)
  | restore : Alike W .restore .restore

section
variable {W : Worker → Worker → Prop} {R : Search → Search → Prop} {ε : Type}
  {view view' : SearchEvent → ε}

theorem advance_related
    (hstep : ∀ worker worker' s t, W worker worker' → R s t →
      R (s.step worker).2.1 (t.step worker').2.1 ∧
        (s.step worker).2.2.map view = (t.step worker').2.2.map view')
    {worker worker' : Worker} (hworkers : W worker worker') {s t : Search} (h : R s t)
    (budget : Nat) :
    R (s.advance worker budget).2.1 (t.advance worker' budget).2.1 ∧
      (s.advance worker budget).2.2.map view = (t.advance worker' budget).2.2.map view' := by
  induction budget generalizing s t with
  | zero => exact ⟨h, rfl⟩
  | succ budget ih =>
      have hnext := hstep worker worker' s t hworkers h
      have hsame := step_worker worker s
      have hsame' := step_worker worker' t
      rcases hs : s.step worker with ⟨w, s', event⟩
      rcases ht : t.step worker' with ⟨w', t', event'⟩
      simp only [hs, ht] at hnext hsame hsame'
      subst hsame
      subst hsame'
      simp only [advance, hs, ht]
      cases event with
      | none =>
          cases event' with
          | none => exact ih hnext.1
          | some event' => cases hnext.2
      | some event =>
          cases event' with
          | none => cases hnext.2
          | some event' => exact hnext

theorem next_related
    (hstep : ∀ worker worker' s t, W worker worker' → R s t →
      R (s.step worker).2.1 (t.step worker').2.1 ∧
        (s.step worker).2.2.map view = (t.step worker').2.2.map view')
    {worker worker' : Worker} (hworkers : W worker worker') {s t : Search} (h : R s t) :
    R (s.next worker).2.1 (t.next worker').2.1 ∧
      view (s.next worker).2.2 = view' (t.next worker').2.2 := by
  fun_induction next worker s generalizing t with
  | case1 worker s worker₁ s' event hs =>
      have hnext := hstep worker worker' s t hworkers h
      have hsame := step_worker worker' t
      rcases ht : t.step worker' with ⟨w, t', event'⟩
      simp only [hs, ht] at hnext hsame
      subst hsame
      cases event' with
      | none => cases hnext.2
      | some event' =>
          rw [next_of_event ht]
          exact ⟨hnext.1, Option.some.inj hnext.2⟩
  | case2 worker s worker₁ s' hs ih =>
      have hnext := hstep worker worker' s t hworkers h
      have hsame := step_worker worker s
      have hsame' := step_worker worker' t
      rcases ht : t.step worker' with ⟨w, t', event'⟩
      simp only [hs, ht] at hnext hsame hsame'
      subst hsame
      subst hsame'
      cases event' with
      | none =>
          rw [next_of_none ht]
          exact ih hworkers hnext.1
      | some event' => cases hnext.2

/-- If two searches stay related by every step on related workers, and by every other
call, then any calls leave them related. If the events of such steps look the same,
then so do all the events that the calls come to. -/
theorem calls_related
    (hstep : ∀ worker worker' s t, W worker worker' → R s t →
      R (s.step worker).2.1 (t.step worker').2.1 ∧
        (s.step worker).2.2.map view = (t.step worker').2.2.map view')
    (hflagged : ∀ s t cancelled, R s t → R { s with cancelled } { t with cancelled })
    (hwait : ∀ s t ms, R s t → R (s.wait ms) (t.wait ms))
    (hrestored : ∀ s t, R s t → R s.restored t.restored) {s t : Search} (h : R s t)
    {list list' : List Call} (hlist : list.Forall₂ (Call.Alike W) list') :
    R (s.calls list).1 (t.calls list').1 ∧
      (s.calls list).2.map (Option.map view) = (t.calls list').2.map (Option.map view') := by
  induction hlist generalizing s t with
  | nil => exact ⟨h, rfl⟩
  | @cons c c' rest rest' hc _ ih =>
      have hcall : R (s.call c).1 (t.call c').1 ∧
          (s.call c).2.map view = (t.call c').2.map view' := by
        cases hc with
        | next hworkers =>
            obtain ⟨hnext, hevent⟩ := next_related hstep hworkers h
            exact ⟨hnext, congrArg some hevent⟩
        | advance hworkers budget => exact advance_related hstep hworkers h budget
        | cancel => exact ⟨hflagged s t true h, rfl⟩
        | renew => exact ⟨hflagged s t false h, rfl⟩
        | wait ms => exact ⟨hwait s t ms h, rfl⟩
        | restore => exact ⟨hrestored s t h, rfl⟩
      obtain ⟨hrest, hevents⟩ := ih hcall.1
      refine ⟨hrest, ?_⟩
      simp only [calls, List.map_cons, hcall.2, hevents]

end

end Search

namespace Session

/-- A call on a session whose steps do not fail does not fail, and a run comes
to a report. -/
theorem succeeds_of_step {P : Session → Prop}
    (hstep : ∀ worker s, P s → s.outcome = none →
      P (s.step worker).2.1 ∧ ∀ error, (s.step worker).2.2 ≠ .failed error)
    {s : Session} (hs : P s) :
    (∀ worker budget error, (s.advance worker budget).2.2 ≠ .failed error) ∧
      ∀ worker, ∃ r, (s.run worker).2.2 = .ok r := by
  constructor
  · intro worker budget
    unfold advance
    split
    · simp
    next hnone =>
      induction budget generalizing worker s with
      | zero => simp [stepUpTo]
      | succ budget ih =>
          obtain ⟨hnext, hfailed⟩ := hstep worker s hs hnone
          have houtcome := step_outcome worker s
          unfold stepUpTo
          split
          next heq =>
            rw [heq] at hnext houtcome
            exact ih hnext _ (houtcome.trans hnone)
          next => exact hfailed
  · intro worker
    fun_induction run worker s with
    | case1 worker s report hreport => exact ⟨report, rfl⟩
    | case2 worker s hnone worker' s' report heq => exact ⟨report, rfl⟩
    | case3 worker s hnone worker' s' error heq =>
        obtain ⟨-, hfailed⟩ := hstep worker s hs hnone
        exact absurd (by rw [heq]) (hfailed error)
    | case4 worker s hnone worker' s' heq ih =>
        obtain ⟨hnext, -⟩ := hstep worker s hs hnone
        rw [heq] at hnext
        exact ih hnext

/-- The number of proofs that the session keeps the report of. -/
def proofs (s : Session) : Nat := if s.outcome.any Report.isProved then 1 else 0

theorem proofs_of_unreported {s : Session} (h : s.outcome = none) : s.proofs = 0 := by
  simp [proofs, h]

theorem proofs_of_outcome {s : Session} {r : Report} (h : s.outcome = some r) :
    s.proofs = if r.isProved then 1 else 0 := by
  simp [proofs, h]

/-- The sessions that calls make of a session. Every call may be made on another
worker. A session may be put away and taken up again at any time, also when it
has its report, which is then gone; `lost` counts the proofs among the reports
that are gone. -/
inductive Revived (origin : Session) : (lost : Nat) → Session → Prop
  | start : Revived origin 0 origin
  | advance {lost : Nat} {s : Session} (worker : Worker) (budget : Nat) :
      Revived origin lost s → Revived origin lost (s.advance worker budget).2.1
  | run {lost : Nat} {s : Session} (worker : Worker) :
      Revived origin lost s → Revived origin lost (s.run worker).2.1
  | cancel {lost : Nat} {s : Session} : Revived origin lost s → Revived origin lost s.cancel
  | renew {lost : Nat} {s : Session} : Revived origin lost s → Revived origin lost s.renew
  | wait {lost : Nat} {s : Session} (ms : Nat) :
      Revived origin lost s → Revived origin lost (s.wait ms)
  | resume {lost : Nat} {s t : Session} : Revived origin lost s →
      ofSnapshot s.snapshot = .ok t → Revived origin (lost + s.proofs) t

theorem Revived.returns {origin s : Session} {lost : Nat} (h : origin.Revived lost s) {r : Report}
    (hr : s.Returns r) : ∃ t, origin.Revived lost t ∧ t.outcome = some r := by
  rcases hr.outcome with ⟨worker, budget, houtcome⟩ | ⟨worker, houtcome⟩
  · exact ⟨_, h.advance worker budget, houtcome⟩
  · exact ⟨_, h.run worker, houtcome⟩

theorem Revived.invariant {P : Nat → Session → Prop} {origin s : Session} {lost : Nat}
    (h : origin.Revived lost s) (horigin : P 0 origin)
    (hstep : ∀ worker lost s, P lost s → s.outcome = none → P lost (s.step worker).2.1)
    (hflagged : ∀ lost s cancelled elapsedMs, s.search.elapsedMs ≤ elapsedMs → P lost s →
      P lost { s with search := { s.search with cancelled, elapsedMs } })
    (hresume : ∀ lost s t, P lost s → ofSnapshot s.snapshot = .ok t → P (lost + s.proofs) t) :
    P lost s := by
  induction h with
  | start => exact horigin
  | @advance lost s worker budget _ ih =>
      cases houtcome : s.outcome with
      | some report => simpa [Session.advance, houtcome] using ih
      | none => simpa [Session.advance, houtcome] using
          stepUpTo_invariant (fun worker s => hstep worker lost s) worker ih houtcome budget
  | @run lost s worker _ ih => exact run_invariant (fun worker s => hstep worker lost s) worker ih
  | cancel _ ih => exact hflagged _ _ _ _ (Nat.le_refl _) ih
  | renew _ ih => exact hflagged _ _ _ _ (Nat.le_refl _) ih
  | wait ms _ ih => exact hflagged _ _ _ _ (Nat.le_add_right _ ms) ih
  | resume _ ht ih => exact hresume _ _ _ ih ht

end Session

end ThueProver
