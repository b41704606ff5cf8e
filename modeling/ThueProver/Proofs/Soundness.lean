import Mathlib
import ThueProver.Proofs.History
import ThueProver.Proofs.Rewriting

/-!
# A proof that is reported is a proof

A session reports a proof only after it has replayed the steps on the tokens of
its theorem. What it reports is therefore a chain of rewrites by the axioms as
they were entered, from the canonical theorem to two equal sides. Where the
steps come from does not matter: a session that was made from a snapshot with
invented pending states, pairs, counts or best state reports nothing else.
-/
namespace ThueProver

namespace CodedEquation

theorem tokens_eq (e : CodedEquation) :
    e.tokens = if e.swapped then e.entered.exchange else e.entered := by
  unfold entered
  split_ifs <;> rfl

end CodedEquation

namespace Report

/-- The entered theorem as the search stores it: its sides are exchanged if the
report says so. -/
def canonical (goal : Equation) (r : Report) : Equation :=
  if r.swapped then goal.exchange else goal

/-- The report is a proof of the theorem from the axioms. Both are given as they
were entered. -/
structure Certifies (axioms : List Equation) (goal : Equation) (r : Report) : Prop where
  connected : Thue axioms goal.left goal.right
  proof_length : r.proof.length = r.steps.length
  log_length : r.commitLog.length = r.steps.length
  logged : StepRecord.Logged r.steps r.commitLog
  named : r.steps.map (·.step) = r.proof
  chain : StepRecord.Chain axioms (r.canonical goal) r.steps
  closed : r.final.left = r.final.right
  final_eq : r.final = StepRecord.last (r.canonical goal) r.steps

/-- Exchanged or not, the canonical sides are connected if the entered ones are. -/
theorem thue_of_canonical {axioms : List Equation} {goal : Equation} {r : Report}
    (h : Thue axioms (r.canonical goal).left (r.canonical goal).right) :
    Thue axioms goal.left goal.right := by
  unfold canonical at h
  split_ifs at h
  · exact h.symm
  · exact h

end Report

/-- A chain whose ends meet connects the sides it starts from. -/
theorem StepRecord.Chain.closes {axioms : List Equation} {start : Equation}
    {records : List StepRecord} (h : Chain axioms start records)
    (hmeet : (last start records).left = (last start records).right) :
    Thue axioms start.left start.right := by
  have hleft := h.thue .left
  have hright := h.thue .right
  simp only [Equation.side, hmeet] at hleft hright
  exact hleft.trans hright.symm

namespace Session

/-- The session is about this theorem and these axioms, what it has reported has a log
of its steps, and a proof it has reported is one. -/
structure Sound (axioms : List Equation) (goal : Equation) (s : Session) : Prop where
  axioms_eq : s.search.context.book.rules.map (·.entered) = axioms
  goal_eq : s.search.context.goal.entered = goal
  logged : ∀ r, s.outcome = some r → StepRecord.Logged r.steps r.commitLog
  certified : ∀ r, s.outcome = some r → r.status = .proved → r.Certifies axioms goal

theorem replay_certifies {axioms : List Equation} {goal : Equation} {s : Session}
    (haxioms : s.search.context.book.rules.map (·.entered) = axioms)
    (hgoal : s.search.context.goal.entered = goal) {proof : List Step} {replayed : Replay}
    (h : s.replay proof = .ok replayed) (hvalid : replayed.valid = true) :
    (s.report .proved none proof replayed).Certifies axioms goal := by
  obtain ⟨hchain, hlast, hsteps⟩ := replay_chain h
  simp only [Replay.valid, Bool.and_eq_true, Option.isNone_iff_eq_none, beq_iff_eq] at hvalid
  obtain ⟨happlied, hequal⟩ := hvalid
  have hstart : s.search.context.goal.tokens =
      (s.report .proved none proof replayed).canonical goal := by
    rw [CodedEquation.tokens_eq, hgoal]
    rfl
  rw [haxioms, hstart] at hchain
  rw [hstart] at hlast
  have hlogged := replay_logged h
  refine ⟨?_, ?_, hlogged.length_eq, hlogged, hsteps happlied, hchain, hequal, hlast⟩
  · apply Report.thue_of_canonical
    apply hchain.closes
    rw [← hlast]
    exact hequal
  · rw [← hsteps happlied]
    exact List.length_map _

theorem sound_examine {axioms : List Equation} {goal : Equation} {s : Session}
    (h : s.Sound axioms goal) (candidate : State) : (s.examine candidate).1.Sound axioms goal := by
  unfold examine
  split
  · exact h
  next replayed hreplayed =>
  split_ifs with hvalid
  · refine ⟨h.axioms_eq, h.goal_eq, ?_, ?_⟩
    · intro r hr
      cases hr
      exact replay_logged hreplayed
    · intro r hr _
      cases hr
      exact replay_certifies h.axioms_eq h.goal_eq hreplayed hvalid
  · exact ⟨h.axioms_eq, h.goal_eq, h.logged, h.certified⟩

theorem sound_close {axioms : List Equation} {goal : Equation} {s : Session}
    (h : s.Sound axioms goal) (reason : StopReason) : (s.close reason).1.Sound axioms goal := by
  unfold close
  split
  · exact h
  next replayed hreplayed =>
  refine ⟨h.axioms_eq, h.goal_eq, ?_, ?_⟩
  · intro r hr
    cases hr
    exact replay_logged hreplayed
  · intro r hr hproved
    cases hr
    exact absurd hproved (Status.ofStop_ne_proved s.rejected reason)

theorem sound_step {axioms : List Equation} {goal : Equation} (worker : Worker) {s : Session}
    (h : s.Sound axioms goal) : (s.step worker).2.1.Sound axioms goal := by
  have hcontext := Search.step_context worker s.search
  have hnext : ∀ search, search.context = s.search.context →
      Sound axioms goal { s with search } := by
    intro search hsearch
    exact ⟨by rw [hsearch]; exact h.axioms_eq, by rw [hsearch]; exact h.goal_eq, h.logged,
      h.certified⟩
  unfold step
  split
  next heq =>
    rw [heq] at hcontext
    exact hnext _ hcontext
  next heq =>
    rw [heq] at hcontext
    exact sound_examine (hnext _ hcontext) _
  next heq =>
    rw [heq] at hcontext
    exact sound_close (hnext _ hcontext) _

/-- Whatever a snapshot holds, a session made of it is about its theorem and its
axioms. -/
theorem sound_ofSnapshot {snapshot : Snapshot} {s : Session} (h : ofSnapshot snapshot = .ok s) :
    s.Sound snapshot.axioms snapshot.goal := by
  obtain ⟨-, book, codes, context, hbook, hcontext, -, rfl⟩ := ofSnapshot_eq_ok.mp h
  obtain ⟨-, rfl⟩ := Context.prepare_eq_ok.mp hcontext
  exact ⟨RuleBook.entered_of_ofEquations hbook, Codebook.code_entered codes _,
    nofun, nofun⟩

theorem sound_start {p : Prover} {axioms : List Equation} (hp : p.Entered axioms)
    {goal : Equation} {s : Session} (h : p.start goal = .ok s) : s.Sound axioms goal := by
  obtain ⟨-, context, hcontext, rfl⟩ := Prover.start_eq_ok.mp h
  obtain ⟨-, rfl⟩ := Context.prepare_eq_ok.mp hcontext
  exact ⟨RuleBook.entered_of_ofEquations hp.ofEquations, Codebook.code_entered p.codes goal,
    nofun, nofun⟩

/-- Where a session comes from, with its axioms and its theorem as they were
entered: a prover that was given them, or any snapshot that is accepted. -/
inductive Origin (axioms : List Equation) (goal : Equation) (s : Session) : Prop
  | started {p : Prover} : p.Entered axioms → p.start goal = .ok s → Origin axioms goal s
  | loaded {snapshot : Snapshot} : snapshot.axioms = axioms → snapshot.goal = goal →
      ofSnapshot snapshot = .ok s → Origin axioms goal s

theorem Origin.sound {axioms : List Equation} {goal : Equation} {s : Session}
    (h : s.Origin axioms goal) : s.Sound axioms goal := by
  cases h with
  | started hp hs => exact sound_start hp hs
  | loaded haxioms hgoal hs =>
      subst haxioms hgoal
      exact sound_ofSnapshot hs

theorem Driven.sound {axioms : List Equation} {goal : Equation} {origin s : Session}
    (h : origin.Driven s) (horigin : origin.Sound axioms goal) : s.Sound axioms goal := by
  refine h.invariant horigin (fun worker s hs _ => sound_step worker hs)
    (fun s hs => ⟨hs.axioms_eq, hs.goal_eq, hs.logged, hs.certified⟩)
    (fun s hs => ⟨hs.axioms_eq, hs.goal_eq, hs.logged, hs.certified⟩)
    (fun s ms hs => ⟨hs.axioms_eq, hs.goal_eq, hs.logged, hs.certified⟩) ?_
  intro s t hs _ ht
  have hsound := sound_ofSnapshot ht
  rwa [show s.snapshot.axioms = axioms from hs.axioms_eq,
    show s.snapshot.goal = goal from hs.goal_eq] at hsound

/-- The log of every report is that of its steps, also if there is no proof. -/
theorem Driven.report_logged {axioms : List Equation} {goal : Equation} {origin s : Session}
    (horigin : origin.Origin axioms goal) (hs : origin.Driven s) {r : Report}
    (hr : s.Returns r) : StepRecord.Logged r.steps r.commitLog := by
  obtain ⟨t, ht, houtcome⟩ := hs.returns hr
  exact (ht.sound horigin.sound).logged r houtcome

/-- A report of a proof certifies the theorem, for sessions of every origin and
after every sequence of calls. -/
theorem proved_certifies {axioms : List Equation} {goal : Equation} {origin s : Session}
    (horigin : origin.Origin axioms goal) (hs : origin.Driven s) {r : Report}
    (hr : s.Returns r) (hproved : r.status = .proved) : r.Certifies axioms goal := by
  obtain ⟨t, ht, houtcome⟩ := hs.returns hr
  exact (ht.sound horigin.sound).certified r houtcome hproved

/-- Here the theorem is stored with its sides exchanged, and so is the axiom. -/
theorem proved_certifies_exchanged :
    ∃ (origin s : Session) (r : Report),
      origin.Origin [⟨["a", "b"], ["b", "a", "c"]⟩] ⟨["a", "b", "c"], ["b", "a", "c", "c"]⟩ ∧
      origin.Driven s ∧ s.Returns r ∧ r.status = .proved ∧ r.swapped = true ∧
      r.Certifies [⟨["a", "b"], ["b", "a", "c"]⟩] ⟨["a", "b", "c"], ["b", "a", "c", "c"]⟩ := by
  have hrun : ∃ p, Prover.setAxioms { limits := { frontierOrder := .breadthFirst } }
      [⟨["a", "b"], ["b", "a", "c"]⟩] = .ok p ∧ ∃ s,
      p.start ⟨["a", "b", "c"], ["b", "a", "c", "c"]⟩ = .ok s ∧ ∃ r,
      (s.advance {} 9).2.2 = .reported r ∧ r.status = .proved ∧ r.swapped = true :=
    ⟨_, by cbv, _, by cbv, _, by cbv, by cbv, by cbv⟩
  obtain ⟨p, hp, s, hs, r, hr, hproved, hswapped⟩ := hrun
  have horigin := Origin.started (.setAxioms (.fresh _) hp) hs
  have hreturns : s.Returns r := .inl ⟨_, _, hr⟩
  exact ⟨s, s, r, horigin, .start, hreturns, hproved, hswapped,
    proved_certifies horigin .start hreturns hproved⟩

end Session

end ThueProver
