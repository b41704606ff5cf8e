import Mathlib
import ThueProver.Proofs.BatchOrder
import ThueProver.Proofs.Exhaustion
import ThueProver.Proofs.Slicing
import ThueProver.Proofs.Verdicts

/-!
# More room changes no answer that was reached without it

Limits are looked at in three places: before a state is taken up, where counts are
compared with two budgets, and when moves are asked for, where the fan-out has to
stay below a ceiling. A step that no budget forbids and that is refused nothing is
the same step under larger limits. An attempt that ends with a proof, or with
nothing left to take up, is made of such steps if no batch was refused on the way,
so it comes to the same report.

Limits also decide from how many rules on batches enter the frontier in the order in
which they come back. That order is no budget. It has to be the same under both limits,
as it is over fewer rules than either of them names; an example shows that a proof
can be lost with it. Nothing here depends on what the prover was given. It may hold any
rules.

A verdict that there is no proof is not lost in this way. Its search has met all pairs
that can be reached, and any search that has room for them meets them in some order.
-/
namespace ThueProver

namespace Limits

/-- The budgets and the ceiling of `b` are no smaller, states are taken up in the
same order, and the call graph is used under both or under neither. -/
structure Raised (a b : Limits) : Prop where
  frontierOrder : b.frontierOrder = a.frontierOrder
  useCallGraph : b.useCallGraph = a.useCallGraph
  maxFanout : a.maxFanout ≤ b.maxFanout
  maxProofs : a.maxProofs ≤ b.maxProofs
  maxStates : a.maxStates ≤ b.maxStates

theorem check_eq_ok {limits : Limits} : limits.check = .ok () ↔
    0 < limits.maxFanout ∧ 0 < limits.maxProofs ∧ 0 < limits.maxStates := by
  unfold check
  split_ifs with hfanout hproofs hstates
  · simp [hfanout]
  · simp [hproofs]
  · simp [hstates]
  · simp only [true_iff]
    omega

theorem Raised.check {a b : Limits} (h : a.Raised b) (ha : a.check = .ok ()) :
    b.check = .ok () := by
  have hfanout := h.maxFanout
  have hproofs := h.maxProofs
  have hstates := h.maxStates
  rw [check_eq_ok] at ha ⊢
  omega

end Limits

namespace Search

variable {s : Search} {limits : Limits} {worker worker' : Worker}

end Search

namespace Report

end Report

namespace Session

variable {s : Session} {limits : Limits} {worker worker' : Worker} {r : Report}

/-- The session under other limits. -/
def relimit (s : Session) (limits : Limits) : Session :=
  { s with search := s.search.relimit limits }

end Session

namespace Prover

/-- With raised limits an attempt is begun as before, but for the limits. -/
theorem start_raised {p : Prover} {limits limits' : Limits} (h : limits.Raised limits')
    {goal : Equation} {s : Session} (hs : start { p with limits } goal = .ok s) :
    start { p with limits := limits' } goal = .ok (s.relimit limits') := by
  obtain ⟨hcheck, context, hcontext, rfl⟩ := start_eq_ok.mp hs
  refine start_eq_ok.mpr ⟨h.check hcheck, context, ?_, ?_⟩
  · rw [h.useCallGraph]
    exact hcontext
  · simp only [Session.relimit, Search.relimit, Search.start, h.frontierOrder]

/-- Raised limits under which two rules are enough to share out: the rule of the
proof leads to the same pair as the other one, whose batch comes back first and
fails on the tokens. -/
theorem proved_depends_on_arrival :
    ∃ (p : Prover) (r r' : Report),
      Limits.Raised {} { parallelThreshold := 2 } ∧
      prove { p with limits := {} } {} ⟨["a", "b"], ["c"]⟩ = .ok r ∧
      prove { p with limits := { parallelThreshold := 2 } }
        { arrival := fun _ batch => 1 - batch } ⟨["a", "b"], ["c"]⟩ = .ok r' ∧
      r.status = .proved ∧ r.stats.rejectedBatches = 0 ∧ r'.status = .verificationFailed := by
  have hrun : ∃ p, setAxioms {} [⟨["a", "b"], ["c"]⟩, ⟨["b", "a"], ["c"]⟩] = .ok p ∧
      (∃ s, start { p with limits := {} } ⟨["a", "b"], ["c"]⟩ = .ok s ∧ ∃ r,
        (s.advance {} 9).2.2 = .reported r ∧ r.status = .proved ∧ r.stats.rejectedBatches = 0) ∧
      ∃ s, start { p with limits := { parallelThreshold := 2 } } ⟨["a", "b"], ["c"]⟩ = .ok s ∧
        ∃ r, (s.advance { arrival := fun _ batch => 1 - batch } 9).2.2 = .reported r ∧
          r.status = .verificationFailed :=
    ⟨_, by cbv, ⟨_, by cbv, _, by cbv, by cbv, by cbv⟩, _, by cbv, _, by cbv, by cbv⟩
  obtain ⟨p, -, ⟨s, hs, r, hr, hproved, hadmitted⟩, s', hs', r', hr', hfailed⟩ := hrun
  have hraised : Limits.Raised {} { parallelThreshold := 2 } := by constructor <;> decide
  exact ⟨p, r, r', hraised, prove_of_advance hs hr, prove_of_advance hs' hr', hproved, hadmitted,
    hfailed⟩

end Prover

/-! ## What no order of batches changes -/

variable {axioms : List Equation} {goal : Equation}

namespace Session

/-- A run takes its search through a number of steps. -/
theorem run_search_eq_after (worker : Worker) (s : Session) :
    ∃ n, (s.run worker).2.1.search = s.search.after worker n := by
  fun_induction run worker s with
  | case1 worker s r hreport => exact ⟨0, rfl⟩
  | case2 worker s hnone worker₁ s' r hstep | case3 worker s hnone worker₁ s' error hstep =>
      have hsearch := step_search worker s
      rw [hstep] at hsearch
      exact ⟨1, hsearch⟩
  | case4 worker s hnone worker₁ s' hstep ih =>
      have hsame := step_worker worker s
      have hsearch := step_search worker s
      rw [hstep] at hsame hsearch
      obtain rfl : worker₁ = worker := hsame
      obtain ⟨n, hn⟩ := ih
      refine ⟨n + 1, ?_⟩
      rw [hn, show s'.search = (s.search.step worker₁).2.1 from hsearch]
      rfl

theorem run_search_context (worker : Worker) (s : Session) :
    (s.run worker).2.1.search.context = s.search.context := by
  obtain ⟨n, hsearch⟩ := run_search_eq_after worker s
  rw [hsearch]
  exact (Search.after_context worker s.search n).1

/-- A run that comes to no proof and was refused nothing has taken up states that stand
for all reachable pairs, and its limits left room for them. -/
theorem spans_of_noProof {p : Prover} (hp : p.Entered axioms) {s : Session}
    (hs : p.start goal = .ok s) {worker : Worker} {r : Report} (hr : (s.run worker).2.2 = .ok r)
    (hstatus : r.status = .noProof) (hadmitted : r.stats.rejectedBatches = 0) :
    r.stopReason = some .exhausted ∧ ∃ taken,
      (s.run worker).2.1.search.Exhausted taken ∧ r.stats = (s.run worker).2.1.search.stats ∧
      r.stats.candidates = 0 ∧ s.search.context.Spans p.limits worker.inFlight taken := by
  have htallied : (s.run worker).2.1.Tallied axioms goal 0 :=
    (Revived.run worker .start).tallied (tallied_start hp hs)
  obtain ⟨hstats, -, hverdict⟩ := htallied.settled r (run_outcome hr)
  obtain ⟨n, hsearch⟩ := run_search_eq_after worker s
  obtain ⟨-, context, hcontext, rfl⟩ := Prover.start_eq_ok.mp hs
  have hprepared : context.Prepared :=
    Context.prepared_of_prepare (RuleBook.numbered_of_ofEquations hp.ofEquations) hcontext
  have hstart : Search.Driven worker.inFlight (.start context p.limits) []
      (.start context p.limits) := .start
  obtain ⟨taken, hdriven⟩ := hstart.after (Nat.le_refl worker.inFlight) n
  rw [← hsearch, List.nil_append] at hdriven
  obtain ⟨hspared, hsame, hlimits⟩ := hdriven.spared hprepared
  obtain ⟨-, hproved⟩ | ⟨reason, hstopped, hreason, hstop⟩ := hverdict
  · rw [hproved] at hstatus
    cases hstatus
  obtain ⟨rfl, -⟩ := Status.ofStop_eq_noProof (hstop.symm.trans hstatus)
  have hcounted := htallied.counted_report (run_outcome hr)
  have hrejected := htallied.rejected_of_noProof (run_outcome hr) hstatus
  have hcandidates : r.stats.candidates = 0 := by
    simpa [hrejected, Report.isProved, hstatus] using hcounted
  rw [hstats] at hadmitted
  have hdone : (run worker { search := .start context p.limits }).2.1.search.Exhausted taken :=
    ⟨hspared.explored, hspared.explored.exhausted hstopped, hadmitted⟩
  have hspans := hspared.spans hstopped hadmitted
  rw [hsame, hlimits] at hspans
  exact ⟨hreason, taken, hdone, hstats, hcandidates, hspans⟩

/-- Limits that leave room for all reachable pairs, none of equal products, let a run find
that there is no proof, whatever its worker does. -/
theorem noProof_of_spans {p : Prover} (hp : p.Entered axioms) {s : Session}
    (hs : p.start goal = .ok s) {held : Nat} {all : List State}
    (hspans : s.search.context.Spans p.limits held all)
    (hopen : ∀ k, s.search.context.Reachable k → k.1 ≠ k.2) {worker : Worker}
    (hheld : worker.inFlight ≤ held) :
    ∃ r taken, (s.run worker).2.2 = .ok r ∧ r.status = .noProof ∧
      r.stopReason = some .exhausted ∧ (s.run worker).2.1.search.Exhausted taken ∧
      r.stats = (s.run worker).2.1.search.stats := by
  obtain ⟨r, hr⟩ := (attempt_start hp hs).run_ok worker
  have htallied : (s.run worker).2.1.Tallied axioms goal 0 :=
    (Revived.run worker .start).tallied (tallied_start hp hs)
  obtain ⟨hstats, hrejected, hverdict⟩ := htallied.settled r (run_outcome hr)
  obtain ⟨n, hsearch⟩ := run_search_eq_after worker s
  obtain ⟨-, context, hcontext, rfl⟩ := Prover.start_eq_ok.mp hs
  have hprepared : context.Prepared :=
    Context.prepared_of_prepare (RuleBook.numbered_of_ofEquations hp.ofEquations) hcontext
  obtain ⟨taken, hfree⟩ := Search.unhindered_after hprepared hspans hheld n
  obtain ⟨hsame, -⟩ := Search.after_context worker (.start context p.limits) n
  rw [← hsearch] at hfree hsame
  have hnone := hfree.explored.candidates_eq_zero (hsame ▸ hopen)
  have hcounted := htallied.counted_report (run_outcome hr)
  rw [hstats, hnone] at hcounted
  obtain ⟨-, hproved⟩ | ⟨reason, hstopped, hreason, hstop⟩ := hverdict
  · simp [Report.isProved, hproved] at hcounted
  have hexhausted : reason = .exhausted := by
    rcases hfree.progress with hend | ⟨hrunning, -⟩
    · exact Option.some.inj (hstopped.symm.trans hend)
    · rw [hrunning] at hstopped
      cases hstopped
  have hzero : (run worker { search := .start context p.limits }).2.1.rejected = 0 := by
    omega
  rw [hexhausted] at hstopped hreason hstop
  rw [hzero] at hstop
  exact ⟨r, taken, hr, hstop, hreason,
    ⟨hfree.explored, hfree.explored.exhausted hstopped, hfree.admitted⟩, hstats⟩

end Session

namespace Prover

/-- Two provers with the same axioms, of which the second has no less room. If the first finds
that there is no proof, and was refused nothing, then so does the second, and it counts the
same. Here it does not matter in which order batches come back. -/
theorem noProof_of_raised {p q : Prover} (hp : p.Entered axioms) (hq : q.Entered axioms)
    (hraised : p.limits.Raised q.limits) {worker worker' : Worker}
    (hheld : worker'.inFlight ≤ worker.inFlight) {r : Report} (hr : p.prove worker goal = .ok r)
    (hstatus : r.status = .noProof) (hadmitted : r.stats.rejectedBatches = 0) :
    ∃ r', q.prove worker' goal = .ok r' ∧ r'.status = .noProof ∧
      r'.stopReason = r.stopReason ∧ r'.stats = r.stats := by
  obtain ⟨s, hs, hrun⟩ := prove_eq_ok.mp hr
  have hsame : (q.book, q.codes) = (p.book, p.codes) :=
    Except.ok.inj (hq.ofEquations.symm.trans hp.ofEquations)
  obtain ⟨hbook, hcodes⟩ := Prod.mk.inj hsame
  have hagain := start_raised hraised (p := p) hs
  have hs' : q.start goal = .ok (s.relimit q.limits) := by
    rw [← hagain]
    simp only [start, hbook, hcodes]
  obtain ⟨hreason, taken, hdone, hstats, hnone, hspans⟩ :=
    Session.spans_of_noProof hp hs hrun hstatus hadmitted
  have hcontext := Session.run_search_context worker s
  have hopen := hdone.ne_of_reachable (hstats ▸ hnone)
  rw [hcontext] at hopen
  have hroom : (s.relimit q.limits).search.context.Spans q.limits worker.inFlight taken :=
    hspans.mono hraised.maxProofs hraised.maxStates hraised.maxFanout
  obtain ⟨r', others, hr', hstatus', hreason', hdone', hstats'⟩ :=
    Session.noProof_of_spans hq hs' hroom hopen hheld
  have hcontext' := Session.run_search_context worker' (s.relimit q.limits)
  refine ⟨r', prove_eq_ok.mpr ⟨_, hs', hr'⟩, hstatus', hreason'.trans hreason.symm, ?_⟩
  rw [hstats', hstats]
  exact hdone.stats_eq hdone' (hcontext'.trans hcontext.symm)

end Prover

end ThueProver
