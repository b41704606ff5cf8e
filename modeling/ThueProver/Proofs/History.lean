import Mathlib.Tactic.Common
import ThueProver.Prover

/-!
# Histories of provers and sessions

A prover is known by the axioms it was given, and a session by the one it comes
from. Both histories are relations here, so that a statement about every prover
and every sequence of calls is an induction over one of them. A call on a
session is made of steps, and a property kept by one step is kept by every
call; the induction is done once, in `Driven.invariant`.

Each operation that can fail has one lemma that says what its success means.
Later proofs use these lemmas and do not open the operations.
-/
namespace ThueProver

/-- A sequence of two operations succeeds exactly if both do. -/
theorem bind_eq_ok {ε α β : Type} {x : Except ε α} {f : α → Except ε β} {b : β} :
    (x >>= f) = .ok b ↔ ∃ a, x = .ok a ∧ f a = .ok b := by
  cases x with
  | error error => simp [bind, Except.bind]
  | ok a => simp [bind, Except.bind]

namespace Codebook

@[simp] theorem code_entered (book : Codebook) (e : Equation) :
    (book.code e).1.entered = e := by
  unfold code CodedEquation.canonical
  dsimp only
  split_ifs <;> rfl

end Codebook

namespace Equation

/-- Both sides hold a token, and no token is empty. -/
def Usable (e : Equation) : Prop :=
  e.left ≠ [] ∧ e.right ≠ [] ∧ "" ∉ e.left ∧ "" ∉ e.right

instance (e : Equation) : Decidable e.Usable := inferInstanceAs (Decidable (_ ∧ _ ∧ _ ∧ _))

theorem any_isEmpty_iff (tokens : List Token) :
    tokens.any (·.isEmpty) = true ↔ "" ∈ tokens := by
  simp [List.any_eq_true]

/-- Exactly the usable equations pass their check. -/
theorem check_eq_ok {e : Equation} {subject : Subject} :
    e.check subject = .ok () ↔ e.Usable := by
  unfold check flaw? Usable
  rw [← any_isEmpty_iff, ← any_isEmpty_iff]
  split_ifs with hleft hright hempty hempty' <;> simp_all

end Equation

namespace RuleBook

theorem checkAll_eq_ok {id : Nat} {axioms : List Equation} :
    checkAll id axioms = .ok () ↔ ∀ e ∈ axioms, e.Usable := by
  induction axioms generalizing id with
  | nil => simp [checkAll]
  | cons e rest ih =>
      rw [checkAll, List.forall_mem_cons, ← @ih (id + 1)]
      cases hcheck : e.check (.axiomNumber id) with
      | error error =>
          have hflawed : ¬ e.Usable := fun h => by simp [Equation.check_eq_ok.mpr h] at hcheck
          simp [hflawed]
      | ok _ => simp [Equation.check_eq_ok.mp hcheck]

theorem appendAll_append (book : RuleBook) (codes : Codebook) (xs ys : List Equation) :
    book.appendAll codes (xs ++ ys) =
      (book.appendAll codes xs).1.appendAll (book.appendAll codes xs).2 ys := by
  induction xs generalizing book codes with
  | nil => rfl
  | cons e rest ih =>
      simp only [List.cons_append, appendAll]
      exact ih _ _

theorem rules_appendAll_entered (book : RuleBook) (codes : Codebook) (axioms : List Equation) :
    (book.appendAll codes axioms).1.rules.map (·.entered) =
      book.rules.map (·.entered) ++ axioms := by
  induction axioms generalizing book codes with
  | nil => simp [appendAll]
  | cons e rest ih =>
      simp only [appendAll]
      rw [ih]
      simp [append]

theorem size_appendAll (book : RuleBook) (codes : Codebook) (axioms : List Equation) :
    (book.appendAll codes axioms).1.size = book.size + axioms.length := by
  have h := congrArg List.length (rules_appendAll_entered book codes axioms)
  simpa [size] using h

theorem nextId_appendAll (book : RuleBook) (codes : Codebook) (axioms : List Equation) :
    (book.appendAll codes axioms).1.nextId = book.nextId + axioms.length := by
  induction axioms generalizing book codes with
  | nil => rfl
  | cons e rest ih =>
      simp only [appendAll, ih, append, List.length_cons]
      omega

theorem checkAll_append (id : Nat) (xs ys : List Equation) (h : checkAll id xs = .ok ()) :
    checkAll id (xs ++ ys) = checkAll (id + xs.length) ys := by
  induction xs generalizing id with
  | nil => rfl
  | cons e rest ih =>
      simp only [List.cons_append, checkAll] at h ⊢
      split at h
      · cases h
      next hcheck =>
      rw [ih _ h, List.length_cons]
      congr 1
      omega

/-- A list of axioms is taken exactly if each of them is usable. -/
theorem ofEquations_eq_ok {codes codes' : Codebook} {axioms : List Equation} {book : RuleBook} :
    ofEquations codes axioms = .ok (book, codes') ↔
      checkAll 1 axioms = .ok () ∧ appendAll {} codes axioms = (book, codes') := by
  unfold ofEquations
  cases checkAll 1 axioms <;> simp [Except.map]

theorem entered_of_ofEquations {codes codes' : Codebook} {axioms : List Equation}
    {book : RuleBook} (h : ofEquations codes axioms = .ok (book, codes')) :
    book.rules.map (·.entered) = axioms := by
  obtain ⟨-, hbook⟩ := ofEquations_eq_ok.mp h
  have hentered := rules_appendAll_entered {} codes axioms
  rw [hbook] at hentered
  simpa using hentered

/-- One axiom more is what the list with this axiom at its end gives. -/
theorem ofEquations_concat {codes codes' codes'' : Codebook} {axioms : List Equation}
    {book book' : RuleBook} {e : Equation} (h : ofEquations codes axioms = .ok (book, codes'))
    (hadd : book.add codes' e = .ok (book', codes'')) :
    ofEquations codes (axioms ++ [e]) = .ok (book', codes'') := by
  obtain ⟨hcheck, hbook⟩ := ofEquations_eq_ok.mp h
  have hnext : book.nextId = 1 + axioms.length := by
    have hcounted := nextId_appendAll {} codes axioms
    rwa [hbook] at hcounted
  rw [ofEquations_eq_ok, checkAll_append _ _ _ hcheck, appendAll_append, hbook]
  unfold add at hadd
  rw [hnext] at hadd
  cases hnew : e.check (.axiomNumber (1 + axioms.length)) with
  | error error => simp [hnew, Except.map] at hadd
  | ok _ =>
      simp only [hnew, Except.map, Except.ok.injEq] at hadd
      exact ⟨by simp [checkAll, hnew], by simp [appendAll, hadd]⟩

end RuleBook

namespace Prover

/-- The prover was made with some limits and has been given these axioms, in
this orientation and order. A refused call changes nothing and leaves no trace
here; sessions may have been put away and taken out. -/
inductive Entered : Prover → List Equation → Prop
  | fresh (limits : Limits) : Entered { limits } []
  | setAxioms {p p' : Prover} {old axioms : List Equation} :
      Entered p old → p.setAxioms axioms = .ok p' → Entered p' axioms
  | addAxiom {p p' : Prover} {axioms : List Equation} {e : Equation} {id : Nat} :
      Entered p axioms → p.addAxiom e = .ok (id, p') → Entered p' (axioms ++ [e])
  | suspend {p : Prover} {axioms : List Equation} (s : Session) :
      Entered p axioms → Entered (p.suspend s).2 axioms
  | resume {p : Prover} {axioms : List Equation} (id : Nat) :
      Entered p axioms → Entered (p.resume id).2 axioms

theorem setAxioms_eq_ok {p p' : Prover} {axioms : List Equation}
    (h : p.setAxioms axioms = .ok p') :
    axioms.length ≤ p.limits.maxAxioms ∧ p'.limits = p.limits ∧
      RuleBook.ofEquations {} axioms = .ok (p'.book, p'.codes) := by
  unfold setAxioms at h
  split_ifs at h with hlimit
  cases hbook : RuleBook.ofEquations {} axioms with
  | error error => simp [hbook, Except.map] at h
  | ok result =>
      simp only [hbook, Except.map, Except.ok.injEq] at h
      subst h
      exact ⟨by omega, rfl, rfl⟩

theorem addAxiom_eq_ok {p p' : Prover} {e : Equation} {id : Nat}
    (h : p.addAxiom e = .ok (id, p')) :
    p.book.size < p.limits.maxAxioms ∧ p'.limits = p.limits ∧
      p.book.add p.codes e = .ok (p'.book, p'.codes) := by
  unfold addAxiom at h
  split_ifs at h with hlimit
  cases hbook : p.book.add p.codes e with
  | error error => simp [hbook, Except.map] at h
  | ok result =>
      simp only [hbook, Except.map, Except.ok.injEq, Prod.mk.injEq] at h
      obtain ⟨-, rfl⟩ := h
      exact ⟨by omega, rfl, rfl⟩

@[simp] theorem resume_book (p : Prover) (id : Nat) : (p.resume id).2.book = p.book := by
  unfold resume
  split <;> rfl

@[simp] theorem resume_codes (p : Prover) (id : Nat) : (p.resume id).2.codes = p.codes := by
  unfold resume
  split <;> rfl

@[simp] theorem resume_limits (p : Prover) (id : Nat) : (p.resume id).2.limits = p.limits := by
  unfold resume
  split <;> rfl

/-- Book and codebook depend on the axioms only, not on how they were given. -/
theorem Entered.ofEquations {p : Prover} {axioms : List Equation} (h : p.Entered axioms) :
    RuleBook.ofEquations {} axioms = .ok (p.book, p.codes) := by
  induction h with
  | fresh limits => rfl
  | setAxioms _ hset _ => exact (setAxioms_eq_ok hset).2.2
  | addAxiom _ hadd ih => exact RuleBook.ofEquations_concat ih (addAxiom_eq_ok hadd).2.2
  | suspend s _ ih => exact ih
  | resume id _ ih => simpa using ih

end Prover

namespace Context

/-- The theorem of a prepared context is usable, and the rest is computed from it. -/
theorem prepare_eq_ok {codes : Codebook} {book : RuleBook} {e : Equation} {withGraph : Bool}
    {context : Context} :
    prepare codes book e withGraph = .ok context ↔
      e.check .theoremToProve = .ok () ∧
        context = { codes := (codes.code e).2, book, goal := (codes.code e).1,
                    graph := if withGraph then some (.build (codes.code e).1 book.rules)
                      else none } := by
  unfold prepare Codebook.codeTheorem
  cases e.check .theoremToProve with
  | error error => simp [Except.map]
  | ok _ =>
      simp only [Except.map, Except.ok.injEq, true_and]
      exact eq_comm

end Context

theorem Prover.start_eq_ok {p : Prover} {e : Equation} {s : Session} :
    p.start e = .ok s ↔ p.limits.check = .ok () ∧
      ∃ context, Context.prepare p.codes p.book e p.limits.useCallGraph = .ok context ∧
        s = { search := .start context p.limits } := by
  unfold start
  simp only [bind_eq_ok, pure, Except.pure, Except.ok.injEq]
  constructor
  · rintro ⟨_, hlimits, context, hcontext, rfl⟩
    exact ⟨hlimits, context, hcontext, rfl⟩
  · rintro ⟨hlimits, context, hcontext, rfl⟩
    exact ⟨(), hlimits, context, hcontext, rfl⟩

namespace Status

theorem ofStop_ne_proved (rejected : Nat) (reason : StopReason) :
    ofStop rejected reason ≠ .proved := by
  cases reason <;> simp only [ofStop] <;> (try split_ifs) <;> simp

theorem ofStop_eq_noProof {rejected : Nat} {reason : StopReason}
    (h : ofStop rejected reason = .noProof) : reason = .exhausted ∧ rejected = 0 := by
  cases reason with
  | exhausted =>
      simp only [ofStop] at h
      split_ifs at h with hnone
      exact ⟨rfl, by omega⟩
  | cancelled => cases h
  | stateBudget | timeout =>
      simp only [ofStop] at h
      split_ifs at h
  | proofBudget => cases h

end Status

/-- The report a call came to, if any. -/
def Progress.report? : Progress → Option Report
  | reported report => some report
  | _ => none

namespace Session

theorem ofSnapshot_eq_ok {snapshot : Snapshot} {s : Session} :
    ofSnapshot snapshot = .ok s ↔ snapshot.limits.check = .ok () ∧
      ∃ book codes context,
        RuleBook.ofEquations (.ofSymbols snapshot.symbols) snapshot.axioms = .ok (book, codes) ∧
        Context.prepare codes book snapshot.goal snapshot.limits.useCallGraph = .ok context ∧
        context.codes.symbols.length = snapshot.symbols.length ∧
        s = { search := .restore context snapshot.limits snapshot.pending snapshot.visited
                snapshot.stats snapshot.best
              rejected := snapshot.rejected } := by
  unfold ofSnapshot
  simp only [bind_eq_ok, pure, Except.pure]
  constructor
  · rintro ⟨_, hlimits, ⟨book, codes⟩, hbook, context, hcontext, hs⟩
    split_ifs at hs with hne
    · exact absurd hs (by simp [bind, Except.bind, throw, throwThe, MonadExceptOf.throw])
    · exact ⟨hlimits, book, codes, context, hbook, hcontext, not_not.mp hne,
        (Except.ok.inj hs).symm⟩
  · rintro ⟨hlimits, book, codes, context, hbook, hcontext, hlength, rfl⟩
    exact ⟨(), hlimits, (book, codes), hbook, context, hcontext, by simp [hlength]⟩

@[simp] theorem examine_outcome (s : Session) (candidate : State) :
    (s.examine candidate).1.outcome = (s.examine candidate).2.report?.or s.outcome := by
  unfold examine
  split
  · rfl
  · split <;> rfl

@[simp] theorem close_outcome (s : Session) (reason : StopReason) :
    (s.close reason).1.outcome = (s.close reason).2.report?.or s.outcome := by
  unfold close
  split <;> rfl

/-- A session keeps a report exactly when it gives one. -/
theorem step_outcome (worker : Worker) (s : Session) :
    (s.step worker).2.1.outcome = (s.step worker).2.2.report?.or s.outcome := by
  unfold step
  split
  · rfl
  · simp
  · simp

@[simp] theorem close_search (s : Session) (reason : StopReason) :
    (s.close reason).1.search = s.search := by
  unfold close
  split <;> rfl

/-- The search of a session makes the same steps as one on its own. -/
theorem step_search (worker : Worker) (s : Session) :
    (s.step worker).2.1.search = (s.search.step worker).2.1 := by
  unfold step
  split
  next heq => rw [heq]
  next heq => rw [heq, examine_search]
  next heq => rw [heq, close_search]

theorem stepUpTo_outcome (worker : Worker) (s : Session) (budget : Nat) :
    (s.stepUpTo worker budget).2.1.outcome =
      (s.stepUpTo worker budget).2.2.report?.or s.outcome := by
  induction budget generalizing worker s with
  | zero => rfl
  | succ budget ih =>
      have hstep := step_outcome worker s
      unfold stepUpTo
      split
      next heq =>
        rw [heq] at hstep
        rw [ih]
        exact congrArg _ hstep
      next => exact hstep

theorem advance_outcome (worker : Worker) (s : Session) (budget : Nat) :
    (s.advance worker budget).2.1.outcome =
      (s.advance worker budget).2.2.report?.or s.outcome := by
  unfold advance
  split
  next heq => simpa [Progress.report?] using heq
  next => exact stepUpTo_outcome worker s budget

theorem run_of_outcome {s : Session} {r : Report} (h : s.outcome = some r) (worker : Worker) :
    (s.run worker).2.2 = .ok r := by
  rw [run]
  split
  next report hreport =>
    rw [h] at hreport
    cases hreport
    rfl
  next hnone =>
    rw [h] at hnone
    cases hnone

/-- A run without a report yet is one step and, if nothing came of it, a run. -/
theorem run_eq_step {s : Session} (h : s.outcome = none) (worker : Worker) :
    s.run worker =
      match s.step worker with
      | (worker, t, .reported report) => (worker, t, .ok report)
      | (worker, t, .failed error) => (worker, t, .error error)
      | (worker, t, .unfinished) => t.run worker := by
  rw [run]
  split
  next report hreport =>
    rw [h] at hreport
    cases hreport
  next =>
    split
    next heq => rw [heq]
    next heq => rw [heq]
    next heq => rw [heq]

theorem run_of_step {s : Session} (h : s.outcome = none) (worker : Worker) :
    (s.run worker).2.2 =
      match (s.step worker).2.2 with
      | .reported report => .ok report
      | .failed error => .error error
      | .unfinished => ((s.step worker).2.1.run (s.step worker).1).2.2 := by
  rw [run_eq_step h]
  rcases s.step worker with ⟨worker', t, progress⟩
  cases progress <;> rfl

/-- A run comes to the report that a call with a budget came to. -/
theorem run_of_advance {worker : Worker} {s : Session} {budget : Nat} {r : Report}
    (h : (s.advance worker budget).2.2 = .reported r) : (s.run worker).2.2 = .ok r := by
  cases hnone : s.outcome with
  | some report =>
      simp only [advance, hnone, Progress.reported.injEq] at h
      rw [run_of_outcome hnone worker, h]
  | none =>
      simp only [advance, hnone] at h
      induction budget generalizing worker s with
      | zero => cases h
      | succ budget ih =>
          have houtcome := step_outcome worker s
          rw [run_of_step hnone worker]
          unfold stepUpTo at h
          split at h
          next heq =>
            rw [heq] at houtcome ⊢
            exact ih (houtcome.trans hnone) h
          next => rw [h]

theorem run_outcome {worker : Worker} {s : Session} {r : Report}
    (h : (s.run worker).2.2 = .ok r) : (s.run worker).2.1.outcome = some r := by
  fun_induction run worker s with
  | case1 worker s report hreport =>
      cases h
      exact hreport
  | case2 worker s hnone worker' s' report heq =>
      cases h
      have hstep := step_outcome worker s
      rwa [heq] at hstep
  | case3 worker s hnone worker' s' error heq => cases h
  | case4 worker s hnone worker' s' heq ih => exact ih h

/-- What a property that every step keeps says about a call. -/
theorem stepUpTo_invariant {P : Session → Prop}
    (hstep : ∀ worker s, P s → s.outcome = none → P (s.step worker).2.1)
    (worker : Worker) {s : Session} (hs : P s) (hnone : s.outcome = none) (budget : Nat) :
    P (s.stepUpTo worker budget).2.1 := by
  induction budget generalizing worker s with
  | zero => exact hs
  | succ budget ih =>
      have hnext := hstep worker s hs hnone
      have houtcome := step_outcome worker s
      unfold stepUpTo
      split
      next heq =>
        rw [heq] at hnext houtcome
        exact ih _ hnext (houtcome.trans hnone)
      next => exact hnext

theorem run_invariant {P : Session → Prop}
    (hstep : ∀ worker s, P s → s.outcome = none → P (s.step worker).2.1)
    (worker : Worker) {s : Session} (hs : P s) : P (s.run worker).2.1 := by
  fun_induction run worker s with
  | case1 worker s report hreport => exact hs
  | case2 worker s hnone worker' s' report heq =>
      have hnext := hstep worker s hs hnone
      rwa [heq] at hnext
  | case3 worker s hnone worker' s' error heq =>
      have hnext := hstep worker s hs hnone
      rwa [heq] at hnext
  | case4 worker s hnone worker' s' heq ih =>
      have hnext := hstep worker s hs hnone
      rw [heq] at hnext
      exact ih hnext

/-- The sessions that calls make of a session. Every call may be made on another
worker. A session without a report may be put away and taken up again. -/
inductive Driven (origin : Session) : Session → Prop
  | start : Driven origin origin
  | advance {s : Session} (worker : Worker) (budget : Nat) :
      Driven origin s → Driven origin (s.advance worker budget).2.1
  | run {s : Session} (worker : Worker) : Driven origin s → Driven origin (s.run worker).2.1
  | cancel {s : Session} : Driven origin s → Driven origin s.cancel
  | renew {s : Session} : Driven origin s → Driven origin s.renew
  | wait {s : Session} (ms : Nat) : Driven origin s → Driven origin (s.wait ms)
  | resume {s t : Session} : Driven origin s → s.outcome = none →
      ofSnapshot s.snapshot = .ok t → Driven origin t

/-- The session answers some call with this report. -/
def Returns (s : Session) (r : Report) : Prop :=
  (∃ worker budget, (s.advance worker budget).2.2 = .reported r) ∨
    ∃ worker, (s.run worker).2.2 = .ok r

/-- A report that is returned is kept. -/
theorem Returns.outcome {s : Session} {r : Report} (h : s.Returns r) :
    (∃ worker budget, (s.advance worker budget).2.1.outcome = some r) ∨
      ∃ worker, (s.run worker).2.1.outcome = some r := by
  rcases h with ⟨worker, budget, hr⟩ | ⟨worker, hr⟩
  · refine .inl ⟨worker, budget, ?_⟩
    rw [advance_outcome, hr]
    rfl
  · exact .inr ⟨worker, run_outcome hr⟩

theorem Driven.returns {origin s : Session} (h : origin.Driven s) {r : Report}
    (hr : s.Returns r) : ∃ t, origin.Driven t ∧ t.outcome = some r := by
  rcases hr.outcome with ⟨worker, budget, houtcome⟩ | ⟨worker, houtcome⟩
  · exact ⟨_, h.advance worker budget, houtcome⟩
  · exact ⟨_, h.run worker, houtcome⟩

/-- A report that is kept is the answer to every call. -/
theorem Returns.eq_of_outcome {s : Session} {r r' : Report} (h : s.Returns r')
    (houtcome : s.outcome = some r) : r' = r := by
  rcases h with ⟨worker, budget, hr⟩ | ⟨worker, hr⟩
  · simp only [advance, houtcome, Progress.reported.injEq] at hr
    exact hr.symm
  · rw [run_of_outcome houtcome worker, Except.ok.injEq] at hr
    exact hr.symm

/-- What every step keeps, and every other call, holds of all sessions that come
from one where it holds. -/
theorem Driven.invariant {P : Session → Prop} {origin s : Session} (h : origin.Driven s)
    (horigin : P origin)
    (hstep : ∀ worker s, P s → s.outcome = none → P (s.step worker).2.1)
    (hcancel : ∀ s, P s → P s.cancel) (hrenew : ∀ s, P s → P s.renew)
    (hwait : ∀ s ms, P s → P (s.wait ms))
    (hresume : ∀ s t, P s → s.outcome = none → ofSnapshot s.snapshot = .ok t → P t) : P s := by
  induction h with
  | start => exact horigin
  | @advance s worker budget _ ih =>
      cases houtcome : s.outcome with
      | some report => simpa [Session.advance, houtcome] using ih
      | none => simpa [Session.advance, houtcome] using
          stepUpTo_invariant hstep worker ih houtcome budget
  | run worker _ ih => exact run_invariant hstep worker ih
  | cancel _ ih => exact hcancel _ ih
  | renew _ ih => exact hrenew _ ih
  | wait ms _ ih => exact hwait _ ms ih
  | resume _ hnone ht ih => exact hresume _ _ ih hnone ht

end Session

namespace Prover

theorem prove_eq_ok {p : Prover} {worker : Worker} {goal : Equation} {r : Report} :
    p.prove worker goal = .ok r ↔ ∃ s, p.start goal = .ok s ∧ (s.run worker).2.2 = .ok r := by
  unfold prove
  cases p.start goal <;> simp

theorem prove_of_advance {p : Prover} {s : Session} {goal : Equation} (hs : p.start goal = .ok s)
    {worker : Worker} {budget : Nat} {r : Report}
    (hr : (s.advance worker budget).2.2 = .reported r) : p.prove worker goal = .ok r :=
  prove_eq_ok.mpr ⟨s, hs, Session.run_of_advance hr⟩

end Prover

end ThueProver
