import ThueProver.Proofs.Pending

/-!
# Each pair enters a frontier once, and a frontier is restored from its lists

Of the states that are pushed, those enter that carry their pair for the first time,
and the books balance at any time: the states taken out and those still pending are
together the states that entered. Which of the pending states is handed out is known
from their list, the largest pair or the earliest arrival. The list of pending states
and the pairs met are therefore all that later answers depend on, so that a frontier
and the one restored from them cannot be told apart by any calls. This holds of the
frontiers that were themselves restored, from lists with the same pair in several
places as well.
-/
namespace ThueProver

namespace Frontier

/-- A call on a frontier. -/
inductive Call where
  | push (batch : List State)
  | pop
  | size
  | snapshot
  deriving DecidableEq, Repr

inductive Answer where
  | pushed (count : PushCount)
  | popped (state : Option State)
  | size (n : Nat)
  | snapshot (pending : List State) (visited : List (Nat × Nat))
  deriving DecidableEq, Repr

/-- The answer to a call, and the frontier after it. -/
def ask (f : Frontier) : Call → Answer × Frontier
  | .push batch => (.pushed (f.pushAll batch).1, (f.pushAll batch).2)
  | .pop =>
      match f.pop? with
      | none => (.popped none, f)
      | some (state, g) => (.popped (some state), g)
  | .size => (.size f.size, f)
  | .snapshot => (.snapshot f.pending f.visited, f)

/-- The answers to some calls, and the frontier after them. -/
def askAll (f : Frontier) : List Call → List Answer × Frontier
  | [] => ([], f)
  | call :: calls =>
      ((f.ask call).1 :: ((f.ask call).2.askAll calls).1, ((f.ask call).2.askAll calls).2)

/-- The states that a call offers. -/
def Call.batch : Call → List State
  | .push batch => batch
  | _ => []

/-- The state that an answer hands out. -/
def Answer.state? : Answer → Option State
  | .popped state => state
  | _ => none

/-- The states that carry their pair first, in order. -/
def firsts : List State → List State
  | [] => []
  | s :: rest => s :: (firsts rest).filter (·.key ≠ s.key)

theorem nodup_keys_firsts (states : List State) : ((firsts states).map State.key).Nodup := by
  induction states with
  | nil => exact List.nodup_nil
  | cons s rest ih =>
      rw [firsts, List.map_cons, List.nodup_cons]
      refine ⟨?_, ih.sublist (List.filter_sublist.map _)⟩
      intro hkey
      obtain ⟨t, ht, heq⟩ := List.mem_map.mp hkey
      simpa [heq] using (List.mem_filter.mp ht).2

theorem firsts_concat (states : List State) (s : State) :
    firsts (states ++ [s]) =
      firsts states ++ if s.key ∈ states.map State.key then [] else [s] := by
  induction states with
  | nil => simp [firsts]
  | cons t rest ih =>
      rw [List.cons_append, firsts, ih, List.filter_append, firsts, List.cons_append,
        List.map_cons]
      by_cases heq : s.key = t.key
      · by_cases hmem : s.key ∈ rest.map State.key <;> simp [heq]
      · by_cases hmem : s.key ∈ rest.map State.key <;> simp_all

/-- The books of a frontier that was empty: the states offered, in order, and those
handed out. -/
structure Ledger (order : FrontierOrder) (offered taken : List State) (f : Frontier) : Prop
    extends Tracked order f where
  seen : ∀ k, k ∈ f.seen ↔ k ∈ offered.map State.key
  balance : (taken ++ f.pending).Perm (firsts offered)
  sublist : f.pending.Sublist (firsts offered)

variable {order : FrontierOrder} {offered taken : List State} {f g : Frontier} {s : State}

theorem ledger_empty (order : FrontierOrder) : Ledger order [] [] { order } where
  toTracked := tracked_empty order
  seen := by simp
  balance := by rw [pending_empty]; exact .refl _
  sublist := by rw [pending_empty]; exact .slnil

theorem Ledger.push (h : Ledger order offered taken f) (s : State) :
    Ledger order (offered ++ [s]) taken (f.push s).2 := by
  by_cases hseen : s.key ∈ f.seen
  · have hmet := (h.seen _).mp hseen
    have hfirsts : firsts (offered ++ [s]) = firsts offered := by
      rw [firsts_concat, if_pos hmet, List.append_nil]
    rw [push_of_seen hseen]
    refine ⟨h.toTracked, fun k => ?_, hfirsts ▸ h.balance, hfirsts ▸ h.sublist⟩
    rw [h.seen, List.map_append, List.mem_append, List.map_singleton, List.mem_singleton,
      or_iff_left_of_imp]
    rintro rfl
    exact hmet
  · have hfirsts : firsts (offered ++ [s]) = firsts offered ++ [s] := by
      rw [firsts_concat, if_neg fun hmet => hseen ((h.seen _).mpr hmet)]
    rw [push_of_unseen hseen]
    refine ⟨h.toTracked.enter s, fun k => ?_, ?_, ?_⟩
    · rw [mem_seen_enter, h.seen, List.map_append, List.mem_append, List.map_singleton,
        List.mem_singleton, or_comm, eq_comm]
    · rw [pending_enter h.valid, hfirsts, ← List.append_assoc]
      exact h.balance.append_right [s]
    · rw [pending_enter h.valid, hfirsts]
      exact h.sublist.append_right [s]

theorem pushAll_cons_frontier (f : Frontier) (s : State) (rest : List State) :
    (f.pushAll (s :: rest)).2 = ((f.push s).2.pushAll rest).2 := by
  by_cases hseen : s.key ∈ f.seen
  · rw [pushAll_cons_of_seen hseen, push_of_seen hseen]
  · rw [pushAll_cons_of_unseen hseen, push_of_unseen hseen]

theorem Ledger.pushAll (h : Ledger order offered taken f) (batch : List State) :
    Ledger order (offered ++ batch) taken (f.pushAll batch).2 := by
  induction batch generalizing f offered with
  | nil => simpa [Frontier.pushAll] using h
  | cons s rest ih =>
      rw [pushAll_cons_frontier]
      simpa using ih (h.push s)

theorem Ledger.pop (h : Ledger order offered taken f) (hpop : f.pop? = some (s, g)) :
    Ledger order offered (taken ++ [s]) g := by
  obtain ⟨-, -, hseen, before, after, hpending, hrest, -⟩ := pop?_spec h.valid hpop
  refine ⟨h.toTracked.pop hpop, fun k => hseen ▸ h.seen k, ?_, ?_⟩
  · have hmoved : (taken ++ [s] ++ g.pending).Perm (taken ++ f.pending) := by
      rw [hrest, hpending, List.append_assoc, List.singleton_append]
      exact List.perm_middle.symm.append_left taken
    exact hmoved.trans h.balance
  · have hless : g.pending.Sublist f.pending := by
      rw [hrest, hpending]
      exact (List.sublist_cons_self ..).append_left before
    exact hless.trans h.sublist

theorem Ledger.ask (h : Ledger order offered taken f) (call : Call) :
    Ledger order (offered ++ call.batch) (taken ++ (f.ask call).1.state?.toList)
      (f.ask call).2 := by
  cases call with
  | push batch => simpa [Frontier.ask, Call.batch, Answer.state?] using h.pushAll batch
  | pop =>
      cases hpop : f.pop? with
      | none => simpa [Frontier.ask, Call.batch, Answer.state?, hpop] using h
      | some popped => simpa [Frontier.ask, Call.batch, Answer.state?, hpop] using h.pop hpop
  | size | snapshot => simpa [Frontier.ask, Call.batch, Answer.state?] using h

theorem Ledger.askAll (h : Ledger order offered taken f) (calls : List Call) :
    Ledger order (offered ++ calls.flatMap Call.batch)
      (taken ++ (f.askAll calls).1.filterMap Answer.state?) (f.askAll calls).2 := by
  induction calls generalizing f offered taken with
  | nil => simpa [Frontier.askAll] using h
  | cons call calls ih =>
      have hrest := ih (h.ask call)
      have htoList : ((f.ask call).1 :: ((f.ask call).2.askAll calls).1).filterMap Answer.state? =
          (f.ask call).1.state?.toList ++
            ((f.ask call).2.askAll calls).1.filterMap Answer.state? := by
        cases hstate : (f.ask call).1.state? <;> simp [hstate]
      rw [List.append_assoc, List.append_assoc] at hrest
      rwa [Frontier.askAll, List.flatMap_cons, htoList]

/-- A batch is counted state by state, and as many states enter as carry their pair
first. -/
theorem Ledger.counts (h : Ledger order offered taken f) (batch : List State) :
    (f.pushAll batch).1.pushed + (f.pushAll batch).1.duplicates = batch.length ∧
      (firsts offered).length + (f.pushAll batch).1.pushed =
        (firsts (offered ++ batch)).length := by
  obtain ⟨new, hnew⟩ := pushAll_spec h.valid batch
  have hbefore := h.balance.length_eq
  have hafter := (h.pushAll batch).balance.length_eq
  rw [hnew.pending] at hafter
  simp only [List.length_append] at hbefore hafter
  refine ⟨hnew.total, ?_⟩
  rw [hnew.pushed]
  omega

/-! ## Frontiers that cannot be told apart -/

/-- The frontier was empty or restored from any lists, and then called. -/
inductive Reached (order : FrontierOrder) : Frontier → Prop
  | empty : Reached order { order }
  | restored (pending : List State) (visited : List (Nat × Nat)) :
      Reached order (restore order pending visited)
  | asked {f : Frontier} (call : Call) : Reached order f → Reached order (f.ask call).2

theorem Tracked.ask (h : f.Tracked order) (call : Call) : (f.ask call).2.Tracked order := by
  cases call with
  | push batch => simpa only [Frontier.ask] using h.pushAll batch
  | pop =>
      cases hpop : f.pop? with
      | none => simpa only [Frontier.ask, hpop] using h
      | some popped => simpa only [Frontier.ask, hpop] using h.pop hpop
  | size | snapshot => exact h

theorem Reached.tracked (h : Reached order f) : f.Tracked order := by
  induction h with
  | empty => exact tracked_empty order
  | restored pending visited => exact tracked_restore order pending visited
  | asked call _ ih => exact ih.ask call

/-- Frontiers that are alike give the same answer and are alike again. -/
theorem Alike.ask (h : Alike f g) (call : Call) :
    (f.ask call).1 = (g.ask call).1 ∧ Alike (f.ask call).2 (g.ask call).2 := by
  cases call with
  | push batch =>
      obtain ⟨hcount, halike⟩ := h.pushAll batch
      exact ⟨congrArg Answer.pushed hcount, halike⟩
  | pop =>
      cases hpop : f.pop? with
      | none =>
          simp only [Frontier.ask, hpop, h.pop?_none hpop, true_and]
          exact h
      | some popped =>
          obtain ⟨g', hpop', halike⟩ := h.pop?_some hpop
          simp only [Frontier.ask, hpop, hpop', true_and]
          exact halike
  | size =>
      have hsize : f.size = g.size := by
        rw [← length_pending h.valid_left, ← length_pending h.valid_right, h.pending]
      exact ⟨congrArg Answer.size hsize, h⟩
  | snapshot => exact ⟨congrArg₂ Answer.snapshot h.pending h.visited, h⟩

theorem Alike.askAll (h : Alike f g) (calls : List Call) :
    (f.askAll calls).1 = (g.askAll calls).1 := by
  induction calls generalizing f g with
  | nil => rfl
  | cons call calls ih =>
      obtain ⟨hanswer, halike⟩ := h.ask call
      rw [Frontier.askAll, Frontier.askAll, hanswer, ih halike]

theorem pop?_eq_none_iff (h : f.Valid) : f.pop? = none ↔ f.pending = [] := by
  refine ⟨pop?_eq_none h, fun hempty => ?_⟩
  cases hpop : f.pop? with
  | none => rfl
  | some popped =>
      obtain ⟨-, -, -, before, after, hpending, -⟩ := pop?_spec h hpop
      simp [hempty] at hpending

/-- From the empty frontier, whatever is called, the states handed out and those
pending are the states that carried their pair first, each once; those pending are in
the order in which they were pushed; and every batch is counted. Any frontier that
calls lead to, from the empty one or from one restored from any lists, hands out the
pending state that leads, and answers all further calls as the frontier does that is
restored from its pending states and the pairs it has met, in whatever order the
pairs are listed. A restored frontier has the pending states of its list. -/
theorem answers_of_restored (order : FrontierOrder) :
    (∀ calls batch,
      let f := (askAll { order } calls).2
      let taken := (askAll { order } calls).1.filterMap Answer.state?
      let offered := calls.flatMap Call.batch
      ((taken ++ f.pending).map State.key).Nodup ∧
        (taken ++ f.pending).Perm (firsts offered) ∧ f.pending.Sublist (firsts offered) ∧
        (f.pushAll batch).1.pushed + (f.pushAll batch).1.duplicates = batch.length ∧
        (firsts offered).length + (f.pushAll batch).1.pushed =
          (firsts (offered ++ batch)).length) ∧
    (∀ f, Reached order f →
      (f.pop? = none ↔ f.pending = []) ∧
      (∀ s g, f.pop? = some (s, g) → ∃ before after, f.pending = before ++ s :: after ∧
        g.pending = before ++ after ∧ Leads order before s after) ∧
      ∀ visited calls, (∀ k, k ∈ visited ↔ k ∈ f.visited) →
        ((restore order f.pending visited).askAll calls).1 = (f.askAll calls).1) ∧
    ∀ pending visited, (restore order pending visited).pending = pending ∧
      ∀ k, k ∈ (restore order pending visited).visited ↔
        k ∈ pending.map State.key ∨ k ∈ visited := by
  refine ⟨?_, ?_, ?_⟩
  · intro calls batch f taken offered
    have hledger : Ledger order offered taken f := (ledger_empty order).askAll calls
    have hnodup := (hledger.balance.map State.key).nodup_iff.mpr (nodup_keys_firsts offered)
    exact ⟨hnodup, hledger.balance, hledger.sublist, hledger.counts batch⟩
  · intro f hf
    have htracked := hf.tracked
    obtain rfl := htracked.order_eq
    refine ⟨pop?_eq_none_iff htracked.valid, ?_, ?_⟩
    · intro s g hpop
      exact (pop?_spec htracked.valid hpop).2.2.2
    · intro visited calls hvisited
      have halike := alike_restore_of_mem_iff htracked.valid htracked.met
        fun k => (hvisited k).trans mem_visited
      exact (halike.askAll calls).symm
  · intro pending visited
    obtain ⟨-, -, hpending, hseen⟩ := restore_spec order pending visited
    refine ⟨hpending, fun k => ?_⟩
    rw [mem_visited, hseen, List.mem_map]

/-- A pair that a list holds twice is handed out twice, and does not enter again. -/
example (first second : List Step) :
    let f := restore .largestFirst [⟨2, 3, first⟩, ⟨5, 2, []⟩, ⟨2, 3, second⟩] []
    (f.askAll [.push [⟨2, 3, []⟩], .pop, .pop, .pop, .pop]).1 =
      [.pushed ⟨0, 1⟩, .popped (some ⟨5, 2, []⟩), .popped (some ⟨2, 3, first⟩),
        .popped (some ⟨2, 3, second⟩), .popped none] := by
  cbv

end Frontier

end ThueProver
