import Mathlib
import ThueProver.Proofs.Attempt
import ThueProver.Proofs.SnapshotText

/-!
# Sessions on one thread

A prover and its sessions share two things: the worker, on which every expansion
of every session is admitted, and the store of suspended sessions. A call leaves
the worker as it found it, whatever its steps came to. The store hands out a
number once, and what is put away under one number is not touched by what happens
under another.

So a session can be followed through any calls on the thread. What is done with it
are the calls that name it where it is, and their replies are those of the same
session alone, to which nothing else happened. No time passes here, and a session
is cancelled by a call on it only.
-/
namespace ThueProver

/-- The moments at which the batches of each expansion come back. -/
abbrev Arrival := (popped batch : Nat) → Nat

/-- A call on a session. What it expands comes back as it may, for every call anew. -/
inductive Session.Request where
  | advance (budget : Nat) (arrival : Arrival := fun _ _ => 0)
  | run (arrival : Arrival := fun _ _ => 0)
  | snapshot
  | cancel

/-- What a call returns. -/
inductive Reply where
  | progress (progress : Progress)
  | report (result : Except ProofError Report)
  | snapshot (snapshot : Snapshot)
  /-- The number of a session or an axiom. -/
  | number (id : Except ProofError Nat)
  | graph (graph : Except ProofError CallGraph)
  | done (result : Except ProofError Unit)
  | noSession

namespace Session

/-- A call leaves its branches on the worker if it does not release them. -/
def ask (worker : Worker) (s : Session) : Request → Worker × Session × Reply
  | .advance budget arrival =>
      match s.advance { worker with arrival } budget with
      | (after, s, progress) => ({ worker with inFlight := after.inFlight }, s, .progress progress)
  | .run arrival =>
      match s.run { worker with arrival } with
      | (after, s, result) => ({ worker with inFlight := after.inFlight }, s, .report result)
  | .snapshot => (worker, s, .snapshot s.snapshot)
  | .cancel => (worker, s.cancel, .done (.ok ()))

theorem stepUpTo_worker (worker : Worker) (s : Session) (budget : Nat) :
    (s.stepUpTo worker budget).1 = worker := by
  induction budget generalizing worker s with
  | zero => rfl
  | succ budget ih =>
      have hworker := step_worker worker s
      unfold stepUpTo
      split
      next heq =>
        rw [heq] at hworker
        rw [ih]
        exact hworker
      next => exact hworker

theorem advance_worker (worker : Worker) (s : Session) (budget : Nat) :
    (s.advance worker budget).1 = worker := by
  unfold advance
  split
  · rfl
  · exact stepUpTo_worker worker s budget

theorem run_worker (worker : Worker) (s : Session) : (s.run worker).1 = worker := by
  fun_induction run worker s with
  | case1 worker s report hsome => rfl
  | case2 worker s hnone worker' s' report hstep | case3 worker s hnone worker' s' error hstep =>
      have hworker := step_worker worker s
      rwa [hstep] at hworker
  | case4 worker s hnone worker' s' hstep ih =>
      have hworker := step_worker worker s
      rw [hstep] at hworker
      exact ih.trans hworker

/-- Every call on a session leaves the worker as it was. -/
theorem ask_worker (worker : Worker) (s : Session) (request : Request) :
    (s.ask worker request).1 = worker := by
  cases request with
  | advance budget arrival => simp only [ask, advance_worker]
  | run arrival => simp only [ask, run_worker]
  | snapshot => rfl
  | cancel => rfl

end Session

/-! ## A session alone -/

/-- What is done with one session. -/
inductive Deed where
  | ask (request : Session.Request)
  | suspend
  | resume

/-- A session on its own: in use, written out, or lost if it could not go on. -/
inductive Life where
  | used (s : Session)
  | stored (text : String)
  | lost

namespace Life

/-- Only a session in use is asked for a reply. -/
def after (worker : Worker) : Life → Deed → Worker × Life × Option Reply
  | used s, .ask request =>
      match s.ask worker request with
      | (worker, s, reply) => (worker, used s, some reply)
  | used s, .suspend => (worker, stored s.snapshot.render, none)
  | stored text, .resume =>
      match Session.ofText text with
      | .ok s => (worker, used s, none)
      | .error _ => (worker, lost, none)
  | life, _ => (worker, life, none)

/-- The replies to what is asked of a session, one after the other. -/
def replies (worker : Worker) (life : Life) : List Deed → List Reply
  | [] => []
  | deed :: deeds =>
      match life.after worker deed with
      | (worker, life, reply) => reply.toList ++ life.replies worker deeds

theorem after_worker (worker : Worker) (life : Life) (deed : Deed) :
    (life.after worker deed).1 = worker := by
  unfold after
  split
  · exact Session.ask_worker ..
  · rfl
  · split <;> rfl
  · rfl

end Life

/-! ## The store -/

namespace Prover

/-- A text is put away under a number that was handed out. -/
structure Stores (p : Prover) (id : Nat) (text : String) : Prop where
  found : p.suspended.lookup id = some text
  handedOut : id < p.nextSession

variable {p p' : Prover} {id : Nat} {text : String}

theorem lookup_filter_ne {other : Nat} (h : id ≠ other) (list : List (Nat × String)) :
    (list.filter (·.1 != other)).lookup id = list.lookup id := by
  induction list with
  | nil => rfl
  | cons entry rest ih =>
      rw [List.filter_cons]
      -- An entry that is dropped has the other number, so the lookup passes over it anyway.
      split_ifs with hkept
      · rw [List.lookup_cons, List.lookup_cons, ih]
      · have hentry : (id == entry.1) = false := by
          refine beq_false_of_ne fun hid => hkept ?_
          rw [← hid]
          exact bne_iff_ne.mpr h
        rw [List.lookup_cons, hentry, ih]

theorem stores_suspend (p : Prover) (s : Session) :
    (p.suspend s).2.Stores p.nextSession s.snapshot.render :=
  ⟨List.lookup_cons_self, Nat.lt_succ_self _⟩

/-- A new number is no number that was handed out before. -/
theorem Stores.suspend (h : p.Stores id text) (s : Session) :
    (p.suspend s).2.Stores id text := by
  have hne : (id == p.nextSession) = false := beq_false_of_ne (Nat.ne_of_lt h.handedOut)
  refine ⟨?_, Nat.lt_succ_of_lt h.handedOut⟩
  rw [Prover.suspend, List.lookup_cons, hne]
  exact h.found

/-- A number that was asked for is empty, and all others are as before. -/
theorem lookup_resume (p : Prover) (id other : Nat) :
    (p.resume id).2.suspended.lookup other =
      if other = id then none else p.suspended.lookup other := by
  unfold Prover.resume
  split
  next hnone =>
    split_ifs with heq
    · rw [heq, hnone]
    · rfl
  next =>
    split_ifs with heq
    · subst heq
      rw [List.lookup_eq_none_iff]
      intro entry hentry
      have hne := (List.mem_filter.mp hentry).2
      rw [bne_iff_ne] at hne ⊢
      exact hne.symm
    · exact lookup_filter_ne heq p.suspended

@[simp] theorem nextSession_resume (p : Prover) (id : Nat) :
    (p.resume id).2.nextSession = p.nextSession := by
  unfold Prover.resume
  split <;> rfl

theorem Stores.resume (h : p.Stores id text) {other : Nat} (hne : other ≠ id) :
    (p.resume other).2.Stores id text := by
  constructor
  · rw [lookup_resume, if_neg hne.symm]
    exact h.found
  · rw [nextSession_resume]
    exact h.handedOut

theorem Stores.resume_eq (h : p.Stores id text) :
    (p.resume id).1 = Session.ofText text := by
  rw [Prover.resume, h.found]

/-- The axioms are no part of the store. -/
theorem store_setAxioms {axioms : List Equation} (hset : p.setAxioms axioms = .ok p') :
    p'.suspended = p.suspended ∧ p'.nextSession = p.nextSession := by
  unfold Prover.setAxioms at hset
  split_ifs at hset
  cases hbook : RuleBook.ofEquations {} axioms with
  | error error =>
      rw [hbook] at hset
      cases hset
  | ok coded =>
      rw [hbook] at hset
      cases hset
      exact ⟨rfl, rfl⟩

theorem store_addAxiom {e : Equation} {added : Nat × Prover} (hadd : p.addAxiom e = .ok added) :
    added.2.suspended = p.suspended ∧ added.2.nextSession = p.nextSession := by
  unfold Prover.addAxiom at hadd
  split_ifs at hadd
  cases hbook : p.book.add p.codes e with
  | error error =>
      rw [hbook] at hadd
      cases hadd
  | ok coded =>
      rw [hbook] at hadd
      cases hadd
      exact ⟨rfl, rfl⟩

theorem Stores.untouched (h : p.Stores id text) (hstore : p'.suspended = p.suspended)
    (hnext : p'.nextSession = p.nextSession) : p'.Stores id text :=
  ⟨hstore ▸ h.found, hnext ▸ h.handedOut⟩

end Prover

/-! ## A thread -/

/-- A thread with a prover and the sessions that were begun on it, in order. The
place of a session that is suspended is empty from then on. -/
structure Thread where
  worker : Worker := {}
  prover : Prover
  sessions : List (Option Session) := []

namespace Thread

inductive Call where
  | ask (n : Nat) (request : Session.Request)
  | start (goal : Equation)
  | suspend (n : Nat)
  | resume (id : Nat)
  | setAxioms (axioms : List Equation)
  | addAxiom (e : Equation)
  | prove (goal : Equation) (arrival : Arrival := fun _ _ => 0)
  | callGraph (goal : Equation)

def session? (t : Thread) (n : Nat) : Option Session := t.sessions[n]?.join

def setSession (t : Thread) (n : Nat) (s : Option Session) : Thread :=
  { t with sessions := t.sessions.set n s }

/-- Gives a session the next number. -/
def enlist (t : Thread) (s : Session) : Thread × Reply :=
  ({ t with sessions := t.sessions ++ [some s] }, .number (.ok t.sessions.length))

def perform (t : Thread) : Call → Thread × Reply
  | .ask n request =>
      match t.session? n with
      | none => (t, .noSession)
      | some s =>
          match s.ask t.worker request with
          | (worker, s, reply) => ({ t with worker }.setSession n s, reply)
  | .start goal =>
      match t.prover.start goal with
      | .error error => (t, .number (.error error))
      | .ok s => t.enlist s
  | .suspend n =>
      match t.session? n with
      | none => (t, .noSession)
      | some s =>
          match t.prover.suspend s with
          | (id, prover) => ({ t with prover }.setSession n none, .number (.ok id))
  | .resume id =>
      match t.prover.resume id with
      | (.error error, prover) => ({ t with prover }, .number (.error error))
      | (.ok s, prover) => { t with prover }.enlist s
  | .setAxioms axioms =>
      match t.prover.setAxioms axioms with
      | .error error => (t, .done (.error error))
      | .ok prover => ({ t with prover }, .done (.ok ()))
  | .addAxiom e =>
      match t.prover.addAxiom e with
      | .error error => (t, .number (.error error))
      | .ok (id, prover) => ({ t with prover }, .number (.ok id))
  | .prove goal arrival =>
      match t.prover.start goal with
      | .error error => (t, .report (.error error))
      | .ok s =>
          match s.ask t.worker (.run arrival) with
          | (worker, _, reply) => ({ t with worker }, reply)
  | .callGraph goal => (t, .graph (t.prover.callGraph goal))

/-- A proof on a thread is a proof by its prover on its worker. -/
theorem perform_prove (t : Thread) (goal : Equation) (arrival : Arrival) :
    (t.perform (.prove goal arrival)).2 =
      .report (t.prover.prove { t.worker with arrival } goal) := by
  simp only [perform, Prover.prove]
  cases t.prover.start goal <;> rfl

/-- Every call leaves the worker of the thread as it was. -/
theorem perform_worker (t : Thread) (call : Call) : (t.perform call).1.worker = t.worker := by
  cases call with
  | ask n request =>
      simp only [perform]
      split
      · rfl
      · exact Session.ask_worker ..
  | prove goal arrival =>
      simp only [perform]
      split
      · rfl
      · exact Session.ask_worker ..
  | callGraph goal => rfl
  | start goal | suspend n | resume id | setAxioms axioms | addAxiom e =>
      simp only [perform]
      split <;> rfl

/-! ## Following a session -/

/-- Where a session is. -/
inductive Place where
  | atHand (n : Nat)
  | putAway (id : Nat)
  | nowhere
  deriving DecidableEq, Repr

/-- What a call does with the session at a place, and where it is afterwards. -/
def deed? (t : Thread) : Place → Call → Option (Deed × Place)
  | .atHand n, .ask m request => if m = n then some (.ask request, .atHand n) else none
  | .atHand n, .suspend m => if m = n then some (.suspend, .putAway t.prover.nextSession) else none
  | .putAway id, .resume other =>
      if other = id then
        match (t.prover.resume id).1 with
        | .ok _ => some (.resume, .atHand t.sessions.length)
        | .error _ => some (.resume, .nowhere)
      else none
  | _, _ => none

/-- What some calls do with the session at a place, and their replies. -/
def follow (t : Thread) (place : Place) : List Call → List (Deed × Reply)
  | [] => []
  | call :: calls =>
      match t.deed? place call with
      | none => (t.perform call).1.follow place calls
      | some (deed, place) => (deed, (t.perform call).2) :: (t.perform call).1.follow place calls

/-- The reply to a call on the session itself. -/
def answer? : Deed × Reply → Option Reply
  | (.ask _, reply) => some reply
  | _ => none

/-- The session is where it is looked for. -/
inductive Keeps (t : Thread) : Place → Life → Prop
  | used {n : Nat} {s : Session} : t.session? n = some s → Keeps t (.atHand n) (.used s)
  | stored {id : Nat} {text : String} : t.prover.Stores id text →
      Keeps t (.putAway id) (.stored text)
  | lost : Keeps t .nowhere .lost

variable {t : Thread} {n : Nat} {s : Session} {goal : Equation}

theorem lt_length_of_session? (h : t.session? n = some s) : n < t.sessions.length := by
  by_contra hge
  rw [session?, List.getElem?_eq_none (Nat.le_of_not_lt hge)] at h
  cases h

theorem session?_setSession_self (h : t.session? n = some s) (new : Option Session) :
    (t.setSession n new).session? n = new := by
  rw [session?, setSession, List.getElem?_set_self (lt_length_of_session? h), Option.join_some]

theorem session?_setSession_of_ne {m : Nat} (h : m ≠ n) (new : Option Session) :
    (t.setSession m new).session? n = t.session? n := by
  rw [session?, setSession, List.getElem?_set_ne h, session?]

theorem session?_enlist_self (t : Thread) (s : Session) :
    (t.enlist s).1.session? t.sessions.length = some s := by
  simp only [session?, enlist, List.getElem?_concat_length, Option.join_some]

theorem session?_enlist (h : t.session? n = some s) (new : Session) :
    (t.enlist new).1.session? n = some s := by
  rwa [session?, enlist, List.getElem?_append_left (lt_length_of_session? h)]

/-- A session at hand is still the same after a call that does nothing with it. -/
theorem session?_perform {call : Call} (h : t.session? n = some s)
    (hother : t.deed? (.atHand n) call = none) : (t.perform call).1.session? n = some s := by
  cases call with
  | ask m request | suspend m =>
      have hne : m ≠ n := by
        rintro rfl
        simp [deed?] at hother
      simp only [perform]
      split
      · exact h
      · exact (session?_setSession_of_ne hne _).trans h
  | start goal =>
      simp only [perform]
      split
      · exact h
      · exact session?_enlist h _
  | resume id =>
      simp only [perform]
      split
      · exact h
      next prover _ => exact session?_enlist (t := { t with prover }) h _
  | setAxioms axioms | addAxiom e | prove goal arrival =>
      simp only [perform]
      split <;> exact h
  | callGraph goal => exact h

/-- A text is still put away after a call that does nothing with it. -/
theorem stores_perform {id : Nat} {text : String} {call : Call}
    (h : t.prover.Stores id text) (hother : t.deed? (.putAway id) call = none) :
    (t.perform call).1.prover.Stores id text := by
  cases call with
  | suspend m =>
      simp only [perform]
      split
      · exact h
      · exact h.suspend _
  | resume other =>
      have hne : other ≠ id := by
        rintro rfl
        simp only [deed?, ↓reduceIte] at hother
        split at hother <;> cases hother
      have hkept := h.resume hne
      simp only [perform]
      split
      next heq => rwa [heq] at hkept
      next heq => rwa [heq] at hkept
  | setAxioms axioms =>
      simp only [perform]
      split
      · exact h
      next hset =>
        obtain ⟨hstore, hnext⟩ := Prover.store_setAxioms hset
        exact h.untouched hstore hnext
  | addAxiom e =>
      simp only [perform]
      split
      · exact h
      next hadd =>
        obtain ⟨hstore, hnext⟩ := Prover.store_addAxiom hadd
        exact h.untouched hstore hnext
  | ask m request | start goal | prove goal arrival =>
      simp only [perform]
      split <;> exact h
  | callGraph goal => exact h

variable {place place' : Place} {life : Life} {call : Call} {deed : Deed}

theorem Keeps.other (h : t.Keeps place life) (hother : t.deed? place call = none) :
    (t.perform call).1.Keeps place life := by
  cases h with
  | used hs => exact .used (session?_perform hs hother)
  | stored hstores => exact .stored (stores_perform hstores hother)
  | lost => exact .lost

/-- What is done with a session on the thread is done with the session alone, and
a call on the session has the same reply. -/
theorem Keeps.done (h : t.Keeps place life) (hdeed : t.deed? place call = some (deed, place')) :
    (t.perform call).1.Keeps place' (life.after t.worker deed).2.1 ∧
      answer? (deed, (t.perform call).2) = (life.after t.worker deed).2.2 := by
  cases h with
  | @used n s hs =>
      cases call with
      | ask m request =>
          simp only [deed?, Option.ite_none_right_eq_some, Option.some.injEq,
            Prod.mk.injEq] at hdeed
          obtain ⟨rfl, rfl, rfl⟩ := hdeed
          simp only [perform, hs]
          exact ⟨.used (session?_setSession_self hs _), rfl⟩
      | suspend m =>
          simp only [deed?, Option.ite_none_right_eq_some, Option.some.injEq,
            Prod.mk.injEq] at hdeed
          obtain ⟨rfl, rfl, rfl⟩ := hdeed
          simp only [perform, hs]
          exact ⟨.stored (Prover.stores_suspend t.prover s), rfl⟩
      | start goal | resume id | setAxioms axioms | addAxiom e | prove goal arrival
      | callGraph goal =>
          cases hdeed
  | @stored id text hstores =>
      cases call with
      | resume other =>
          have hresume := hstores.resume_eq
          simp only [deed?, Option.ite_none_right_eq_some] at hdeed
          obtain ⟨rfl, hdeed⟩ := hdeed
          rcases hfound : t.prover.resume other with ⟨result, prover⟩
          rw [hfound] at hdeed hresume
          cases result with
          | ok s =>
              cases hdeed
              simp only [perform, hfound, Life.after, ← hresume]
              exact ⟨.used (session?_enlist_self { t with prover } s), rfl⟩
          | error error =>
              cases hdeed
              simp only [perform, hfound, Life.after, ← hresume]
              exact ⟨.lost, rfl⟩
      | ask m request | start goal | suspend m | setAxioms axioms | addAxiom e
      | prove goal arrival | callGraph goal => cases hdeed
  | lost => cases hdeed

/-- The replies to the calls on a session are those of the session alone. -/
theorem Keeps.replies (h : t.Keeps place life) (calls : List Call) :
    (t.follow place calls).filterMap answer? =
      life.replies t.worker ((t.follow place calls).map (·.1)) := by
  -- `Keeps` carries the induction: it relates thread and session before each call.
  induction calls generalizing t place life with
  | nil => rfl
  | cons call calls ih =>
      have hworker := perform_worker t call
      cases hdeed : t.deed? place call with
      | none =>
          simp only [follow, hdeed]
          rw [ih (h.other hdeed), hworker]
      | some found =>
          obtain ⟨deed, place'⟩ := found
          obtain ⟨hnext, hanswer⟩ := h.done hdeed
          have hrest := ih hnext
          rw [hworker] at hrest
          simp only [follow, hdeed, List.map_cons, Life.replies, Life.after_worker]
          rw [← hanswer, ← hrest, List.filterMap_cons]
          cases answer? (deed, (t.perform call).2) <;> rfl

/-- A session that is started on a thread, among any other calls on the thread, is
never disturbed: follow it through suspensions, and what is asked of it is answered
as it would be if the same were done with the session alone. For every step of a
search leaves the worker as it was, whether the search has stopped, a candidate was
found, no rule applied, or the batch was refused or expanded. -/
theorem follow_started (hs : t.prover.start goal = .ok s) (calls : List Call) :
    let started := t.perform (.start goal)
    let followed := started.1.follow (.atHand t.sessions.length) calls
    started.2 = .number (.ok t.sessions.length) ∧
      followed.filterMap answer? = (Life.used s).replies t.worker (followed.map (·.1)) ∧
      ∀ (worker : Worker) (search : Search), (search.step worker).1 = worker := by
  have hstarted : t.perform (.start goal) = t.enlist s := by simp only [perform, hs]
  have hkept : (t.enlist s).1.Keeps (.atHand t.sessions.length) (.used s) :=
    .used (session?_enlist_self t s)
  rw [hstarted]
  exact ⟨rfl, hkept.replies calls, fun worker search => Search.step_worker worker search⟩

/-- Calls on a thread among which the axioms are replaced and a second session is
begun, cancelled, closed and put away. The first is put away too, and found again. -/
def mingled : List Call :=
  [.ask 0 (.advance 1), .start ⟨["2"], ["1"]⟩, .ask 1 .cancel, .suspend 0, .setAxioms [],
    .ask 1 (.advance 9), .suspend 1, .resume 1, .ask 2 (.advance 9)]

theorem follow_started_mingled :
    ∃ (t : Thread) (s : Session) (r : Report),
      t.prover.start ⟨["1", "1", "1"], ["1", "2"]⟩ = .ok s ∧
      let followed :=
        (t.perform (.start ⟨["1", "1", "1"], ["1", "2"]⟩)).1.follow (.atHand 0) mingled
      followed.map (·.1) = [.ask (.advance 1), .suspend, .resume, .ask (.advance 9)] ∧
      followed.filterMap answer? = [.progress .unfinished, .progress (.reported r)] ∧
      (Life.used s).replies t.worker (followed.map (·.1)) =
        [.progress .unfinished, .progress (.reported r)] ∧
      r.status = .proved := by
  have hrun : ∃ p, Prover.setAxioms {} [⟨["1", "1"], ["2"]⟩] = .ok p ∧
      p.suspended = [] ∧ p.nextSession = 1 ∧
      ∃ s, p.start ⟨["1", "1", "1"], ["1", "2"]⟩ = .ok s ∧
      ∃ v, p.start ⟨["2"], ["1"]⟩ = .ok v ∧
      ∃ s', s.advance {} 1 = ({}, s', .unfinished) ∧ s'.snapshot.Bounded ∧
      ∃ u, Session.ofSnapshot s'.snapshot = .ok u ∧
      ∃ u' r, u.advance {} 9 = ({}, u', .reported r) ∧ r.status = .proved :=
    ⟨_, by cbv, by cbv, by cbv, _, by cbv, _, by cbv, _, by cbv, by decide, _, by cbv, _, _,
      by cbv, by cbv⟩
  obtain ⟨p, -, hsuspended, hnext, s, hs, v, hv, s', hslice, hbounded, u, hu, u', r, hclosed,
    hproved⟩ := hrun
  have hread : Session.ofText s'.snapshot.render = .ok u :=
    (Session.ofText_render hbounded).trans hu
  have hreplies : (Life.used s).replies {} [.ask (.advance 1), .suspend, .resume,
      .ask (.advance 9)] = [.progress .unfinished, .progress (.reported r)] := by
    simp [Life.replies, Life.after, Session.ask, hslice, hread, hclosed]
  have hdeeds : ((perform { prover := p } (.start ⟨["1", "1", "1"], ["1", "2"]⟩)).1.follow
      (.atHand 0) mingled).map (·.1) =
        [.ask (.advance 1), .suspend, .resume, .ask (.advance 9)] := by
    have hset : ∀ q : Prover, q.setAxioms [] = .ok { q with book := {}, codes := {} } :=
      fun _ => rfl
    simp [mingled, follow, deed?, perform, session?, setSession, enlist, Session.ask,
      Prover.suspend, Prover.resume, Session.advance_worker, List.lookup_cons, hs, hv, hslice,
      hread, hset, hsuspended, hnext]
  obtain ⟨-, halone, -⟩ := follow_started (t := { prover := p }) hs mingled
  have hplace : Place.atHand (Thread.sessions { prover := p }).length = .atHand 0 := rfl
  rw [hplace, hdeeds] at halone
  exact ⟨{ prover := p }, s, r, hs, hdeeds, halone.trans hreplies, hdeeds ▸ hreplies, hproved⟩

end Thread

end ThueProver
