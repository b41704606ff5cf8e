import Mathlib
import ThueProver.Proofs.Calls
import ThueProver.Proofs.Exhaustion

/-!
# The call graph is an optimisation and nothing else

Taking the call graph away from a search commutes with every call on it: the
same events come out, and the search that is left is the same but for the graph.
This is so because a state that a search holds and that has no step on its proof
is the root, and for the root the graph of a numbered book lists the opcodes
whose divisibility holds, in their order. Which states a search holds is known
from what it has explored, so the one invariant needed is that the search with
the graph was explored from the root.
-/
namespace ThueProver

namespace Search

/-- The search with another call graph, or with none. -/
def regraph (s : Search) (graph : Option CallGraph) : Search :=
  { s with context := { s.context with graph } }

/-- The search was explored from the root, and its graph and the other one are
those of its theorem and its book, if there are any. -/
structure Graphed (s : Search) (graph : Option CallGraph) : Prop where
  explored : ∃ taken, s.Explored taken
  other : (s.regraph graph).context.Prepared

variable {s : Search} {graph : Option CallGraph}

theorem Graphed.step (h : s.Graphed graph) (worker : Worker) :
    (s.step worker).2.1.Graphed graph := by
  obtain ⟨taken, hexplored⟩ := h.explored
  refine ⟨⟨_, hexplored.step (hexplored.stepped worker)⟩, ?_⟩
  have hother := h.other
  unfold regraph at hother ⊢
  rwa [step_context]

theorem Graphed.flagged (h : s.Graphed graph) (cancelled : Bool) (elapsedMs : Nat) :
    Graphed { s with cancelled, elapsedMs } graph := by
  obtain ⟨taken, hexplored⟩ := h.explored
  exact ⟨⟨taken, hexplored.flagged cancelled elapsedMs⟩, h.other⟩

theorem Graphed.restored (h : s.Graphed graph) : s.restored.Graphed graph := by
  obtain ⟨taken, hexplored⟩ := h.explored
  exact ⟨⟨taken, hexplored.restored⟩, h.other⟩

/-- The moves that are tried are those of the state, with either graph. -/
theorem applicable_regraph (hs : s.context.Prepared) (hother : (s.regraph graph).context.Prepared)
    {state : State} (hstate : s.context.Derives state) :
    (s.regraph graph).applicable state = s.applicable state := by
  have hderives : (s.regraph graph).context.Derives state := by
    induction hstate with
    | root => exact .root
    | child _ hopen ht ih => exact .child ih hopen ht
  rw [applicable_eq hs hstate, applicable_eq hother hderives]
  rfl

theorem request_regraph (worker : Worker) (s : Search) (graph : Option CallGraph) (state : State)
    (moves : List (Rule × List Opcode)) :
    (s.regraph graph).request worker state moves =
      ((s.request worker state moves).1, (s.request worker state moves).2.regraph graph) := by
  unfold request
  rw [show (s.regraph graph).limits = s.limits from rfl]
  cases worker.acquire? s.limits.maxFanout (weight moves) with
  | none => rfl
  | some busy =>
      simp only [grow_eq]
      rfl

theorem takeUp_regraph (worker : Worker) (hs : s.context.Prepared)
    (hother : (s.regraph graph).context.Prepared) {state : State}
    (hstate : s.context.Derives state) :
    (s.regraph graph).takeUp worker state =
      ((s.takeUp worker state).1, (s.takeUp worker state).2.1.regraph graph,
        (s.takeUp worker state).2.2) := by
  unfold takeUp
  split_ifs
  · rfl
  unfold expand
  rw [applicable_regraph hs hother hstate]
  cases s.applicable state with
  | nil => rfl
  | cons move moves =>
      dsimp only
      rw [request_regraph]

/-- A step commutes with taking the graph away or putting another in its place. -/
theorem Graphed.step_regraph (h : s.Graphed graph) (worker : Worker) :
    (s.regraph graph).step worker =
      ((s.step worker).1, (s.step worker).2.1.regraph graph, (s.step worker).2.2) := by
  obtain ⟨taken, hexplored⟩ := h.explored
  unfold Search.step
  rw [show (s.regraph graph).stopped.or (s.regraph graph).spent? = s.stopped.or s.spent? from rfl,
    show (s.regraph graph).frontier = s.frontier from rfl]
  cases s.stopped.or s.spent? with
  | some reason => rfl
  | none =>
      cases hpop : s.frontier.pop? with
      | none => rfl
      | some popped =>
          exact takeUp_regraph (s := { s with frontier := popped.2 }.observe popped.1) worker
            hexplored.prepared h.other (hexplored.derives_popped hpop)

theorem Graphed.advance_regraph (h : s.Graphed graph) (worker : Worker) (budget : Nat) :
    (s.regraph graph).advance worker budget = ((s.advance worker budget).1,
      (s.advance worker budget).2.1.regraph graph, (s.advance worker budget).2.2) := by
  induction budget generalizing worker s with
  | zero => rfl
  | succ budget ih =>
      have hnext := h.step worker
      have hsame := h.step_regraph worker
      rcases hstep : s.step worker with ⟨worker', t, event⟩
      rw [hstep] at hnext hsame
      simp only [Search.advance, hstep, hsame]
      cases event with
      | none => exact ih hnext worker'
      | some event => rfl

theorem Graphed.next_regraph (h : s.Graphed graph) (worker : Worker) :
    (s.regraph graph).next worker =
      ((s.next worker).1, (s.next worker).2.1.regraph graph, (s.next worker).2.2) := by
  fun_induction Search.next worker s with
  | case1 worker s worker' t event hstep =>
      have hsame := h.step_regraph worker
      rw [hstep] at hsame
      rw [Search.next]
      split
      next heq =>
        cases hsame.symm.trans heq
        rfl
      next heq => cases hsame.symm.trans heq
  | case2 worker s worker' t hstep ih =>
      have hnext := h.step worker
      have hsame := h.step_regraph worker
      rw [hstep] at hnext hsame
      rw [Search.next]
      split
      next heq => cases hsame.symm.trans heq
      next heq =>
        cases hsame.symm.trans heq
        exact ih hnext

theorem Graphed.call (h : s.Graphed graph) (c : Call) :
    (s.call c).1.Graphed graph ∧
      (s.regraph graph).call c = ((s.call c).1.regraph graph, (s.call c).2) := by
  have hkept := calls_invariant (P := fun t => t.Graphed graph) (Q := fun _ => True)
    (fun worker t ht => ⟨ht.step worker, fun _ _ => trivial⟩)
    (fun t cancelled elapsedMs ht => ht.flagged cancelled elapsedMs)
    (fun t ht => ht.restored) h [c]
  refine ⟨hkept.1, ?_⟩
  cases c with
  | next worker => simp only [Search.call, h.next_regraph worker]
  | advance worker budget => simp only [Search.call, h.advance_regraph worker budget]
  | cancel => rfl
  | renew => rfl
  | wait ms => rfl
  | restore => rfl

/-- Calls commute with taking the graph away, and come to the same events. -/
theorem Graphed.calls (h : s.Graphed graph) (list : List Call) :
    (s.regraph graph).calls list = ((s.calls list).1.regraph graph, (s.calls list).2) := by
  induction list generalizing s with
  | nil => rfl
  | cons c rest ih =>
      obtain ⟨hnext, hsame⟩ := h.call c
      simp only [Search.calls, hsame, ih hnext]

end Search

end ThueProver
