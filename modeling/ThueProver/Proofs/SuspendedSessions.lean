import ThueProver.Proofs.Interleaving
import ThueProver.Proofs.Slicing

/-!
# Suspended sessions are kept and handed out once

A session is put away as the text of its snapshot, and the number it was given is
crossed out before the text is read and made a session again; were it refused, the
session would be gone. The text can be read if the numbers in it are words. Then the
snapshot is not refused: whatever a session comes from, a theorem that was started or a
snapshot that was taken elsewhere, its limits have passed their check and its context
was coded after some list of symbols, so the symbols it has by now code the context
again. Foreign pending states and pairs play no part in this, as long as every pending
pair is among those met, which restoring sees to.

What is kept under a number is therefore known from the calls alone: it is the
session that was suspended under it and not resumed since.
-/
namespace ThueProver

namespace Search

/-- A search that can be put away and restored: its limits pass their check, its
context can be coded again, and its frontier is tracked. -/
structure Restorable (s : Search) : Prop where
  limits : s.limits.check = .ok ()
  context : ∃ symbols axioms goal,
    s.context.CodedAfter symbols axioms goal s.limits.useCallGraph
  frontier : s.frontier.Tracked s.limits.frontierOrder

variable {s : Search} {state : State}

theorem tracked_expand {order : FrontierOrder} (h : s.frontier.Tracked order) (worker : Worker) :
    (s.expand worker state).2.frontier.Tracked order := by
  unfold expand
  split
  · exact h
  · unfold request
    split
    · exact h
    · rw [grow_eq]
      exact h.pushAll _

theorem tracked_step {order : FrontierOrder} (h : s.frontier.Tracked order) (worker : Worker) :
    (s.step worker).2.1.frontier.Tracked order := by
  unfold step
  split
  · exact h
  split
  · exact h
  next state frontier hpop =>
  have hpopped : ({ s with frontier }.observe state).frontier.Tracked order := h.pop hpop
  unfold takeUp
  split_ifs
  · exact hpopped
  · exact tracked_expand hpopped worker

theorem Restorable.step (h : s.Restorable) (worker : Worker) :
    (s.step worker).2.1.Restorable := by
  constructor
  · rw [step_limits]
    exact h.limits
  · rw [step_context, step_limits]
    exact h.context
  · rw [step_limits]
    exact tracked_step h.frontier worker

theorem Restorable.restored (h : s.Restorable) : s.restored.Restorable :=
  ⟨h.limits, h.context, Frontier.tracked_restore ..⟩

theorem restorable_start {p : Prover} {axioms : List Equation} (hp : p.Entered axioms)
    {goal : Equation} {context : Context} (hlimits : p.limits.check = .ok ())
    (hcontext : Context.prepare p.codes p.book goal p.limits.useCallGraph = .ok context) :
    (start context p.limits).Restorable := by
  refine ⟨hlimits, ⟨[], axioms, goal, ?_⟩, Frontier.tracked_push ..⟩
  exact (begun_start hp hlimits hcontext).context.after_nil

/-- The frontier is restored with the same pending states and the same pairs. -/
theorem Restorable.alike_restored (h : s.Restorable) :
    s.frontier.Alike s.restored.frontier := by
  have halike := Frontier.alike_restore h.frontier.valid h.frontier.met
  rwa [h.frontier.order_eq] at halike

end Search

namespace Session

/-- The session was opened by a prover or made of a snapshot, whatever snapshot
that was. -/
inductive Opened : Session → Prop
  | start {p : Prover} {axioms : List Equation} {goal : Equation} {s : Session} :
      p.Entered axioms → p.start goal = .ok s → Opened s
  | load {snapshot : Snapshot} {s : Session} : ofSnapshot snapshot = .ok s → Opened s

/-- The session comes from one that was opened. -/
def Live (s : Session) : Prop := ∃ origin lost, Opened origin ∧ origin.Revived lost s

variable {s t : Session}

/-- What is made of the snapshot of a restorable session. -/
def restored (s : Session) : Session := { search := s.search.restored, rejected := s.rejected }

theorem restorable_of_ofSnapshot {snapshot : Snapshot} (h : ofSnapshot snapshot = .ok s) :
    s.search.Restorable := by
  obtain ⟨hlimits, context, hcoded, -, rfl⟩ := ofSnapshot_eq_ok_iff_codedAfter.mp h
  exact ⟨hlimits, ⟨_, _, _, hcoded⟩, Frontier.tracked_restore ..⟩

theorem Live.restorable (h : s.Live) : s.search.Restorable := by
  obtain ⟨origin, lost, hopened, hrevived⟩ := h
  refine hrevived.invariant (P := fun _ s => s.search.Restorable) ?_ ?_ ?_ ?_
  · cases hopened with
    | start hp hs =>
        obtain ⟨hlimits, context, hcontext, rfl⟩ := Prover.start_eq_ok.mp hs
        exact Search.restorable_start hp hlimits hcontext
    | load hs => exact restorable_of_ofSnapshot hs
  · intro worker _ s hs _
    rw [step_search]
    exact hs.step worker
  · intro _ s cancelled elapsedMs _ hs
    exact ⟨hs.limits, hs.context, hs.frontier⟩
  · intro _ s t _ ht
    exact restorable_of_ofSnapshot ht

end Session

/-! ## Calls on a prover -/

namespace Prover

inductive Call where
  | setAxioms (axioms : List Equation)
  | addAxiom (e : Equation)
  /-- A proof attempt works on a copy of the axioms and their codebook. -/
  | prove (worker : Worker) (goal : Equation)
  | suspend (s : Session)
  | resume (id : Nat)

/-- What a call had to do with the suspended sessions. -/
inductive Event where
  | suspended (id : Nat) (s : Session)
  /-- The number was asked for, whether there was a session under it or not. -/
  | resumed (id : Nat)

/-- The prover after a call; a refused change of the axioms leaves it as it was. -/
def call (p : Prover) : Call → Prover × Option Event
  | .setAxioms axioms => ((p.setAxioms axioms).toOption.getD p, none)
  | .addAxiom e => (((p.addAxiom e).toOption.map (·.2)).getD p, none)
  | .prove _ _ => (p, none)
  | .suspend s => ((p.suspend s).2, some (.suspended (p.suspend s).1 s))
  | .resume id => ((p.resume id).2, some (.resumed id))

/-- The prover after some calls, and their events in order. -/
def calls (p : Prover) : List Call → Prover × List Event
  | [] => (p, [])
  | c :: rest => (((p.call c).1.calls rest).1, (p.call c).2.toList ++ ((p.call c).1.calls rest).2)

/-- The number that a suspension returned. -/
def Event.number? : Event → Option Nat
  | .suspended id _ => some id
  | .resumed _ => none

/-- The session was suspended under this number, and the number has not been asked
for since. -/
def Awaits (events : List Event) (id : Nat) (s : Session) : Prop :=
  ∃ before after, events = before ++ .suspended id s :: after ∧ .resumed id ∉ after

variable {p p' : Prover} {events : List Event} {id : Nat} {s : Session}

theorem awaits_concat_iff {event : Event} : Awaits (events ++ [event]) id s ↔
    event = .suspended id s ∨ Awaits events id s ∧ event ≠ .resumed id := by
  constructor
  · rintro ⟨before, after, heq, hnot⟩
    rcases List.eq_nil_or_concat' after with rfl | ⟨earlier, last, rfl⟩
    · obtain ⟨-, hevent⟩ := List.append_inj' heq rfl
      exact .inl (List.singleton_inj.mp hevent)
    · rw [← List.cons_append, ← List.append_assoc] at heq
      obtain ⟨rfl, hevent⟩ := List.append_inj' heq rfl
      obtain rfl := List.singleton_inj.mp hevent
      rw [List.mem_append, List.mem_singleton, not_or] at hnot
      exact .inr ⟨⟨before, earlier, rfl, hnot.1⟩, Ne.symm hnot.2⟩
  · rintro (rfl | ⟨⟨before, after, rfl, hnot⟩, hevent⟩)
    · exact ⟨events, [], rfl, by simp⟩
    · refine ⟨before, after ++ [event], by simp, ?_⟩
      rw [List.mem_append, List.mem_singleton, not_or]
      exact ⟨hnot, Ne.symm hevent⟩

theorem Awaits.mem_numbers (h : Awaits events id s) : id ∈ events.filterMap Event.number? := by
  obtain ⟨before, after, rfl, -⟩ := h
  simp [Event.number?]

/-- The store holds what awaits, written out, and nothing else, under numbers that
increase and stay below the next one. -/
structure Records (p : Prover) (events : List Event) : Prop where
  stored : ∀ id text,
    p.suspended.lookup id = some text ↔ ∃ s, Awaits events id s ∧ s.snapshot.render = text
  handedOut : ∀ id ∈ events.filterMap Event.number?, id < p.nextSession
  increasing : (events.filterMap Event.number?).Pairwise (· < ·)

theorem Records.untouched (h : p.Records events) (hstore : p'.suspended = p.suspended)
    (hnext : p'.nextSession = p.nextSession) : p'.Records events :=
  ⟨hstore ▸ h.stored, hnext ▸ h.handedOut, h.increasing⟩

theorem Records.suspend (h : p.Records events) (s : Session) :
    (p.suspend s).2.Records (events ++ [.suspended p.nextSession s]) := by
  constructor
  · intro id text
    simp only [awaits_concat_iff, Event.suspended.injEq, ne_eq, reduceCtorEq, not_false_eq_true,
      and_true]
    by_cases hid : id = p.nextSession
    · subst hid
      have hnone : ∀ t, ¬ Awaits events p.nextSession t := fun t ht =>
        Nat.lt_irrefl _ (h.handedOut _ ht.mem_numbers)
      simp [Prover.suspend, hnone]
    · have hother : (p.suspend s).2.suspended.lookup id = p.suspended.lookup id := by
        rw [Prover.suspend, List.lookup_cons, beq_false_of_ne hid]
      rw [hother, h.stored]
      simp [Ne.symm hid]
  · intro id hid
    simp only [List.filterMap_append, List.mem_append] at hid
    rcases hid with hold | hnew
    · exact Nat.lt_succ_of_lt (h.handedOut id hold)
    · obtain rfl : id = p.nextSession := by simpa [Event.number?] using hnew
      exact Nat.lt_succ_self _
  · rw [List.filterMap_append, List.pairwise_append]
    refine ⟨h.increasing, List.pairwise_singleton _ _, ?_⟩
    intro id hid next hnext
    obtain rfl : next = p.nextSession := by simpa [Event.number?] using hnext
    exact h.handedOut id hid

theorem Records.resume (h : p.Records events) (id : Nat) :
    (p.resume id).2.Records (events ++ [.resumed id]) := by
  have hnumbers : (events ++ [Event.resumed id]).filterMap Event.number? =
      events.filterMap Event.number? := by simp [Event.number?]
  refine ⟨?_, ?_, ?_⟩
  · intro other text
    simp only [awaits_concat_iff, lookup_resume]
    split_ifs with heq
    · simp [heq]
    · rw [h.stored]
      simp [Ne.symm heq]
  · rw [hnumbers, nextSession_resume]
    exact h.handedOut
  · rw [hnumbers]
    exact h.increasing

theorem Records.call (h : p.Records events) (c : Call) :
    (p.call c).1.Records (events ++ (p.call c).2.toList) := by
  cases c with
  | setAxioms axioms =>
      rw [Prover.call]
      cases hset : p.setAxioms axioms with
      | error error => simpa [Except.toOption] using h
      | ok p' =>
          obtain ⟨hstore, hnext⟩ := store_setAxioms hset
          simpa [Except.toOption] using h.untouched hstore hnext
  | addAxiom e =>
      rw [Prover.call]
      cases hadd : p.addAxiom e with
      | error error => simpa [Except.toOption] using h
      | ok added =>
          obtain ⟨hstore, hnext⟩ := store_addAxiom hadd
          simpa [Except.toOption] using h.untouched hstore hnext
  | prove worker goal => simpa [Prover.call] using h
  | suspend s => exact h.suspend s
  | resume id => exact h.resume id

theorem Records.calls (h : p.Records events) (list : List Call) :
    (p.calls list).1.Records (events ++ (p.calls list).2) := by
  induction list generalizing p events with
  | nil => simpa [Prover.calls] using h
  | cons c rest ih =>
      have hrest := ih (h.call c)
      rwa [List.append_assoc] at hrest

end Prover

end ThueProver
