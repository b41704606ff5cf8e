import Mathlib.Data.List.Nodup
import Mathlib.Tactic.Common
import ThueProver.Proofs.Attempt

/-!
# The order in which batches come back

Over many rules the children of a state are made in batches that enter the frontier
as they come back, and of the states with one pair only the first is kept. So this
order decides which steps stand for a pair, and with them whether a candidate passes
its replay. Nothing is known of the order, and there is a worker for each.

A search reads two things of its worker: how many branches are admitted on it, and
this order. Workers that agree in both serve a search alike, step by step, and a
prover gives the same report on either. Over few rules the order is not read at all.
-/
namespace ThueProver

namespace Worker

theorem order_sorted (worker : Worker) (popped batches : Nat) :
    (worker.order popped batches).Pairwise
      fun a b => worker.arrival popped a ≤ worker.arrival popped b := by
  let earlier : Nat → Nat → Bool := fun a b => worker.arrival popped a ≤ worker.arrival popped b
  have hsorted : (worker.order popped batches).Pairwise fun a b => earlier a b = true := by
    apply List.pairwise_mergeSort
    · intro a b c hab hbc
      exact decide_eq_true (Nat.le_trans (of_decide_eq_true hab) (of_decide_eq_true hbc))
    · intro a b
      simpa [earlier] using Nat.le_total (worker.arrival popped a) (worker.arrival popped b)
  exact hsorted.imp of_decide_eq_true

/-- Whatever orders the batches of expansions come back in, there is a worker with
these orders. -/
theorem exists_order (orders : Nat → List Nat)
    (h : ∀ popped, (orders popped).Perm (List.range (orders popped).length)) :
    ∃ worker : Worker, ∀ popped, worker.order popped (orders popped).length = orders popped := by
  refine ⟨{ arrival := fun popped batch => (orders popped).idxOf batch }, ?_⟩
  intro popped
  have hnodup : (orders popped).Nodup := (h popped).nodup_iff.mpr List.nodup_range
  have hown : (orders popped).Pairwise
      fun a b => (orders popped).idxOf a ≤ (orders popped).idxOf b := by
    rw [List.pairwise_iff_getElem]
    intro i j hi hj hij
    rw [hnodup.idxOf_getElem i hi, hnodup.idxOf_getElem j hj]
    exact Nat.le_of_lt hij
  refine List.Perm.eq_of_pairwise ?_ (order_sorted _ popped _) hown
    ((order_perm _ popped _).trans (h popped).symm)
  intro a b _ hb hab hba
  exact ((List.idxOf_inj hb).mp (Nat.le_antisymm hba hab)).symm

/-- As many branches are admitted on one worker as on the other. Their batches may
come back in different orders. -/
def SameLoad (worker worker' : Worker) : Prop := worker.inFlight = worker'.inFlight

/-- What is granted on one worker is granted under a higher ceiling on another, and
released there. -/
theorem SameLoad.acquire? {worker worker' busy : Worker} (h : worker.SameLoad worker')
    {ceiling ceiling' weight : Nat} (hgranted : worker.acquire? ceiling weight = some busy)
    (hle : ceiling ≤ ceiling') :
    ∃ busy', worker'.acquire? ceiling' weight = some busy' ∧ busy'.release weight = worker' := by
  obtain ⟨hroom, -⟩ := release_of_acquire? hgranted
  rw [show worker.inFlight = worker'.inFlight from h] at hroom
  refine ⟨_, if_pos (Nat.lt_of_lt_of_le hroom hle), ?_⟩
  simp [release]

end Worker

/-- Over so many rules, a search under `a` reads nothing of its worker that a search
under `b` does not read of the other. -/
structure Limits.ServedAlike (rules : Nat) (a : Limits) (worker : Worker) (b : Limits)
    (worker' : Worker) : Prop where
  load : worker.SameLoad worker'
  order : ∀ popped batches,
    b.batchOrder rules worker' popped batches = a.batchOrder rules worker popped batches

namespace Limits

/-- Over few rules any two workers with the same load serve alike. -/
theorem ServedAlike.of_few {rules : Nat} {a b : Limits} {worker worker' : Worker}
    (h : worker.SameLoad worker') (ha : rules < a.parallelThreshold)
    (hb : rules < b.parallelThreshold) : ServedAlike rules a worker b worker' where
  load := h
  order popped batches := by rw [batchOrder_of_lt ha, batchOrder_of_lt hb]

end Limits

namespace Search

variable {s : Search} {limits : Limits} {worker worker' : Worker}

/-- The search under other limits. -/
def relimit (s : Search) (limits : Limits) : Search := { s with limits }

/-- Under limits that serve alike, moves enter in the same order. -/
theorem arrange_relimit
    (h : Limits.ServedAlike s.context.book.size s.limits worker limits worker')
    (moves : List (Rule × List Opcode)) :
    (s.relimit limits).arrange worker' moves = s.arrange worker moves := by
  simp only [arrange, relimit, h.order]

theorem request_served
    (h : Limits.ServedAlike s.context.book.size s.limits worker s.limits worker')
    (state : State) (moves : List (Rule × List Opcode)) :
    s.request worker' state moves = (worker', (s.request worker state moves).2) := by
  have harrange : s.arrange worker' moves = s.arrange worker moves := arrange_relimit h moves
  unfold request
  cases hroom : worker.acquire? s.limits.maxFanout (weight moves) with
  | none =>
      have hfull := Worker.acquire?_eq_none hroom
      rw [show worker.inFlight = worker'.inFlight from h.load] at hfull
      rw [show worker'.acquire? s.limits.maxFanout (weight moves) = none from if_neg hfull]
  | some busy =>
      obtain ⟨busy', hroom', hrelease⟩ := h.load.acquire? hroom (Nat.le_refl _)
      simp only [hroom', hrelease, grow_eq, harrange]

theorem takeUp_served
    (h : Limits.ServedAlike s.context.book.size s.limits worker s.limits worker')
    (state : State) : s.takeUp worker' state = (worker', (s.takeUp worker state).2) := by
  unfold takeUp
  split_ifs
  · rfl
  unfold expand
  cases s.applicable state with
  | nil => rfl
  | cons move moves => simp only [request_served h]

/-- Workers that serve a search alike come to the same step. -/
theorem step_served
    (h : Limits.ServedAlike s.context.book.size s.limits worker s.limits worker') :
    s.step worker' = (worker', (s.step worker).2) := by
  unfold step
  cases s.stopped.or s.spent? with
  | some reason => rfl
  | none =>
      cases s.frontier.pop? with
      | none => rfl
      | some popped =>
          exact takeUp_served (s := { s with frontier := popped.2 }.observe popped.1) h popped.1

end Search

namespace Session

variable {s : Session} {worker worker' : Worker}

theorem step_served (h : Limits.ServedAlike s.search.context.book.size s.search.limits worker
    s.search.limits worker') : s.step worker' = (worker', (s.step worker).2) := by
  unfold step
  rw [Search.step_served h]
  rcases s.search.step worker with ⟨worker₁, search, event⟩
  cases event with
  | none => rfl
  | some event => cases event <;> rfl

theorem run_served (h : Limits.ServedAlike s.search.context.book.size s.search.limits worker
    s.search.limits worker') : (s.run worker').2.2 = (s.run worker).2.2 := by
  fun_induction run worker s with
  | case1 worker s r hreport => exact run_of_outcome hreport worker'
  | case2 worker s hnone worker₁ s' r hstep | case3 worker s hnone worker₁ s' error hstep =>
      rw [run_of_step hnone, step_served h, hstep]
  | case4 worker s hnone worker₁ s' hstep ih =>
      have hsame := step_worker worker s
      have hsearch := step_search worker s
      rw [hstep] at hsame hsearch
      subst hsame
      rw [run_of_step hnone, step_served h, hstep]
      apply ih
      dsimp only at hsearch
      rw [hsearch, Search.step_context, Search.step_limits]
      exact h

end Session

namespace Prover

variable {p : Prover} {worker worker' : Worker}

/-- A prover gives the same report on workers that serve it alike. -/
theorem prove_served (h : Limits.ServedAlike p.book.size p.limits worker p.limits worker')
    (goal : Equation) : p.prove worker' goal = p.prove worker goal := by
  unfold prove
  cases hs : p.start goal with
  | error error => rfl
  | ok s =>
      obtain ⟨-, context, hcontext, rfl⟩ := start_eq_ok.mp hs
      obtain ⟨-, rfl⟩ := Context.prepare_eq_ok.mp hcontext
      exact Session.run_served h

/-- Over few rules a report depends on how many branches were admitted before, and on
no other circumstance of the worker. -/
theorem prove_of_few (hfew : p.book.size < p.limits.parallelThreshold)
    (hload : worker.SameLoad worker') (goal : Equation) :
    p.prove worker' goal = p.prove worker goal :=
  prove_served (.of_few hload hfew hfew) goal

end Prover

end ThueProver
