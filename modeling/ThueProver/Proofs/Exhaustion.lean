import Mathlib
import ThueProver.Proofs.Exploration

/-!
# What an exhausted search has seen

A search that ran out of states and was refused nothing has met exactly the
pairs that can be reached from the root, and has taken up each of them once. The
order in which they were taken up does not matter: the counts are sums over the
pairs, so any other order comes to the same counts. It also comes to the same
end, since a search on the same pairs never has more candidates or more states
than the first one had at its end, and asks for no batch that the first one was
not granted.
-/
namespace ThueProver

attribute [ext] Stats

namespace RuleBook

/-- A book that came about by adding axioms and by replacing them all, coded with
whatever codebooks. -/
inductive Built : RuleBook → Prop
  | empty : Built {}
  | add {book book' : RuleBook} {codes codes' : Codebook} {e : Equation} :
      Built book → book.add codes e = .ok (book', codes') → Built book'
  | replace {book : RuleBook} {codes codes' : Codebook} {axioms : List Equation} :
      ofEquations codes axioms = .ok (book, codes') → Built book

theorem Built.numbered {book : RuleBook} (h : book.Built) : book.Numbered := by
  induction h with
  | empty => exact numbered_empty
  | @add book book' codes codes' e _ hadd ih =>
      unfold RuleBook.add at hadd
      cases hcheck : e.check (.axiomNumber book.nextId) with
      | error error => simp [hcheck, Except.map] at hadd
      | ok _ =>
          simp only [hcheck, Except.map, Except.ok.injEq] at hadd
          have hnext := numbered_append ih codes e
          rwa [hadd] at hnext
  | replace hbook => exact numbered_of_ofEquations hbook

end RuleBook

namespace Context

/-- The pairs that steps with the rules of the book lead to from the root, none
of them from a pair of equal products. -/
inductive Reachable (c : Context) : Nat × Nat → Prop
  | root : c.Reachable (State.root c.goal).key
  | step {s t : State} {op : Opcode} {rule : Rule} : c.Reachable s.key → s.isTerminal = false →
      rule ∈ c.book.rules → s.move? op rule = some t → c.Reachable t.key

theorem Derives.reachable {c : Context} {s : State} (h : c.Derives s) : c.Reachable s.key := by
  induction h with
  | root => exact .root
  | child _ hopen ht ih =>
      obtain ⟨rule, hrule, op, hmove⟩ := mem_children.mp ht
      exact .step ih hopen hrule hmove

end Context

namespace Search

variable {s t : Search} {taken others : List State}

/-- The pairs taken up are those that can be reached. -/
theorem Exhausted.mem_taken (h : s.Exhausted taken) (k : Nat × Nat) :
    k ∈ taken.map State.key ↔ s.context.Reachable k := by
  constructor
  · intro hk
    obtain ⟨u, hu, rfl⟩ := List.mem_map.mp hk
    exact (h.explored.derived u (List.mem_append_left _ hu)).reachable
  · intro hk
    induction hk with
    | root => exact (h.mem_seen _).mp h.explored.root
    | @step u v op rule _ hopen hrule hmove ih =>
        -- The pair was met with some state of its own, which has a child for the same move.
        obtain ⟨u', hu', hkey⟩ := List.mem_map.mp ih
        obtain ⟨v', hmove', hkey'⟩ := State.move?_congr hkey.symm hmove
        have hopen' : u'.isTerminal = false := (State.isTerminal_congr hkey).trans hopen
        rw [← hkey', ← h.mem_seen]
        exact h.explored.closed h.admitted u' hu' hopen' v'
          (Context.mem_children.mpr ⟨rule, hrule, op, hmove'⟩)

/-- The candidates are the reachable pairs of equal products. -/
theorem Exhausted.encard_candidates (h : s.Exhausted taken) :
    {k | s.context.Reachable k ∧ k.1 = k.2}.encard = s.stats.candidates := by
  have hkeys : {k | s.context.Reachable k ∧ k.1 = k.2} =
      {k | k ∈ (taken.filter State.isTerminal).map State.key} := by
    ext k
    simp only [Set.mem_ofPred_eq, ← h.mem_taken, List.mem_map, List.mem_filter]
    constructor
    · rintro ⟨⟨u, hu, rfl⟩, hequal⟩
      exact ⟨u, ⟨hu, by simpa [State.isTerminal, State.key] using hequal⟩, rfl⟩
    · rintro ⟨u, ⟨hu, hterminal⟩, rfl⟩
      exact ⟨⟨u, hu, rfl⟩, by simpa [State.isTerminal, State.key] using hterminal⟩
  have hnodup : ((taken.filter State.isTerminal).map State.key).Nodup :=
    h.explored.nodup_taken.sublist ((List.filter_sublist).map _)
  rw [hkeys, encard_members hnodup, List.length_map, ← List.countP_eq_length_filter,
    h.explored.candidates]

/-- Without a candidate no reachable pair has equal products. -/
theorem Exhausted.ne_of_reachable (h : s.Exhausted taken) (hnone : s.stats.candidates = 0)
    (k : Nat × Nat) (hk : s.context.Reachable k) : k.1 ≠ k.2 := by
  intro hequal
  have hempty := h.encard_candidates
  rw [hnone, Nat.cast_zero, Set.encard_eq_zero] at hempty
  have hmember : k ∈ {k | s.context.Reachable k ∧ k.1 = k.2} := ⟨hk, hequal⟩
  rw [hempty] at hmember
  exact hmember

theorem Explored.candidates_eq_zero (h : s.Explored taken)
    (hopen : ∀ k, s.context.Reachable k → k.1 ≠ k.2) : s.stats.candidates = 0 := by
  rw [h.candidates, List.countP_eq_zero]
  intro u hu hterminal
  have hderived := h.derived u (List.mem_append_left _ hu)
  exact hopen u.key hderived.reachable (by simpa [State.isTerminal, State.key] using hterminal)

/-- The states taken up are as many as the reachable pairs. -/
theorem Exhausted.encard_reachable (h : s.Exhausted taken) :
    {k | s.context.Reachable k}.encard = taken.length := by
  have hkeys : {k | s.context.Reachable k} = {k | k ∈ taken.map State.key} :=
    Set.ext fun k => (h.mem_taken k).symm
  rw [hkeys, encard_members h.explored.nodup_taken, List.length_map]

/-- The fan-out of a state depends on its pair only. -/
theorem sum_fanOut_of_perm {c : Context} (h : (taken.map State.key).Perm (others.map State.key)) :
    (taken.map c.fanOut).sum = (others.map c.fanOut).sum ∧
      taken.countP (fun u => c.fanOut u != 0) = others.countP fun u => c.fanOut u != 0 := by
  have hpair : ∀ u : State, c.fanOut ⟨u.key.1, u.key.2, []⟩ = c.fanOut u :=
    fun u => Context.fanOut_congr rfl
  have hsum := (h.map fun k => c.fanOut ⟨k.1, k.2, []⟩).sum_eq
  have hcount := h.countP_eq fun k => c.fanOut ⟨k.1, k.2, []⟩ != 0
  simp only [List.map_map, Function.comp_def, List.countP_map, hpair] at hsum hcount
  exact ⟨hsum, hcount⟩

/-- Searches that took up the same pairs have the same counts. -/
theorem Exhausted.stats_eq (hs : s.Exhausted taken) (ht : t.Exhausted others)
    (hcontext : t.context = s.context) : t.stats = s.stats := by
  have hperm : (others.map State.key).Perm (taken.map State.key) := by
    refine (List.perm_ext_iff_of_nodup ht.explored.nodup_taken hs.explored.nodup_taken).mpr ?_
    intro k
    rw [ht.mem_taken, hs.mem_taken, hcontext]
  obtain ⟨hsum, hcount⟩ := sum_fanOut_of_perm (c := s.context) hperm
  have hlength : others.length = taken.length := by simpa using hperm.length_eq
  have hterminal : others.countP State.isTerminal = taken.countP State.isTerminal := by
    have hcandidates := hperm.countP_eq fun k => k.1 == k.2
    rw [List.countP_map, List.countP_map] at hcandidates
    exact hcandidates
  have hbalance := hs.explored.balance
  have hbalance' := ht.explored.balance
  have hrequests := hs.explored.requests
  have hrequests' := ht.explored.requests
  have htransitions := hs.explored.transitions
  have htransitions' := ht.explored.transitions
  have hdropped := hs.explored.dropped hs.admitted
  have hdropped' := ht.explored.dropped ht.admitted
  rw [hs.pending, List.append_nil] at hbalance
  rw [ht.pending, List.append_nil] at hbalance'
  rw [hcontext, hcount] at hrequests'
  rw [hcontext, hsum] at htransitions'
  rw [hs.admitted] at hrequests
  rw [ht.admitted] at hrequests'
  ext
  · rw [ht.explored.popped, hs.explored.popped, hlength]
  · omega
  · omega
  · omega
  · rw [ht.admitted, hs.admitted]
  · omega
  · rw [ht.explored.candidates, hs.explored.candidates, hterminal]

/-! ## Histories of a search -/

/-- What steps make of a search, with the states they took up. Each step may be
made on another worker, which holds `held` branches at least. Between steps the
search may be cancelled, the cancellation withdrawn, and time may pass. -/
inductive Driven (held : Nat) (origin : Search) : List State → Search → Prop
  | start : Driven held origin [] origin
  | step {taken : List State} {s : Search} (worker : Worker) : Driven held origin taken s →
      held ≤ worker.inFlight →
      Driven held origin (taken ++ s.upNext?.toList) (s.step worker).2.1
  | cancel {taken : List State} {s : Search} :
      Driven held origin taken s → Driven held origin taken s.cancel
  | renew {taken : List State} {s : Search} :
      Driven held origin taken s → Driven held origin taken s.renew
  | wait {taken : List State} {s : Search} (ms : Nat) :
      Driven held origin taken s → Driven held origin taken (s.wait ms)

/-- The search after a number of steps. -/
def after (worker : Worker) (s : Search) (n : Nat) : Search :=
  (fun s => (s.step worker).2.1)^[n] s

theorem after_succ (worker : Worker) (s : Search) (n : Nat) :
    s.after worker (n + 1) = ((s.after worker n).step worker).2.1 :=
  Function.iterate_succ_apply' _ n s

/-- A call with a budget is some number of steps. -/
theorem advance_eq_after (worker : Worker) (s : Search) (budget : Nat) :
    ∃ n, n ≤ budget ∧ (s.advance worker budget).2.1 = s.after worker n := by
  induction budget generalizing s with
  | zero => exact ⟨0, Nat.le_refl 0, rfl⟩
  | succ budget ih =>
      have hworker := step_worker worker s
      unfold advance
      split
      next heq =>
        refine ⟨1, by omega, ?_⟩
        rw [after, Function.iterate_one, heq]
      next worker' s' heq =>
        rw [heq] at hworker
        obtain rfl : worker' = worker := hworker
        obtain ⟨n, hn, hafter⟩ := ih s'
        refine ⟨n + 1, by omega, ?_⟩
        rw [hafter, after, after, Function.iterate_succ_apply, heq]

/-- A call that goes on to the next event is some number of steps. -/
theorem next_eq_after (worker : Worker) (s : Search) :
    ∃ n, (s.next worker).2.1 = s.after worker n := by
  fun_induction next worker s with
  | case1 worker s worker' s' event heq =>
      refine ⟨1, ?_⟩
      rw [after, Function.iterate_one, heq]
  | case2 worker s worker' s' heq ih =>
      have hworker := step_worker worker s
      rw [heq] at hworker
      obtain rfl : worker' = worker := hworker
      obtain ⟨n, hafter⟩ := ih
      refine ⟨n + 1, ?_⟩
      rw [hafter, after, after, Function.iterate_succ_apply, heq]

theorem Driven.after {held : Nat} {origin : Search} (h : Driven held origin taken s)
    {worker : Worker} (hheld : held ≤ worker.inFlight) (n : Nat) :
    ∃ more, Driven held origin (taken ++ more) (s.after worker n) := by
  induction n with
  | zero => exact ⟨[], by rw [List.append_nil]; exact h⟩
  | succ n ih =>
      obtain ⟨more, hmore⟩ := ih
      have hnext := hmore.step worker hheld
      rw [← after_succ, List.append_assoc] at hnext
      exact ⟨_, hnext⟩

/-- A call of `advance` is a stretch of the history, whatever its budget. -/
theorem Driven.advance {held : Nat} {origin : Search} (h : Driven held origin taken s)
    {worker : Worker} (hheld : held ≤ worker.inFlight) (budget : Nat) :
    ∃ more, Driven held origin (taken ++ more) (s.advance worker budget).2.1 := by
  obtain ⟨n, -, hafter⟩ := advance_eq_after worker s budget
  rw [hafter]
  exact h.after hheld n

theorem Driven.next {held : Nat} {origin : Search} (h : Driven held origin taken s)
    {worker : Worker} (hheld : held ≤ worker.inFlight) :
    ∃ more, Driven held origin (taken ++ more) (s.next worker).2.1 := by
  obtain ⟨n, hafter⟩ := next_eq_after worker s
  rw [hafter]
  exact h.after hheld n

/-- What a search that ends exhausted shows about its limits: they left room for
every candidate, for every state, and for every request beside what was held. -/
structure Spared (held : Nat) (s : Search) (taken : List State) : Prop where
  explored : s.Explored taken
  granted : s.stats.rejectedBatches = 0 → ∀ u ∈ taken, 0 < s.context.fanOut u →
    held + s.context.fanOut u < s.limits.maxFanout
  within : s.stopped = some .exhausted →
    s.stats.candidates < s.limits.maxProofs ∧ s.stats.popped < s.limits.maxStates

/-- A request that does not fit is refused, and no other one is. -/
theorem Treated.granted {worker : Worker} {state : State} {event : Option SearchEvent}
    (h : Treated worker s state t event) : t.stats.rejectedBatches = s.stats.rejectedBatches ↔
      (0 < s.context.fanOut state →
        worker.inFlight + s.context.fanOut state < s.limits.maxFanout) := by
  cases h with
  | candidate hterminal =>
      rw [Context.fanOut_of_terminal hterminal]
      simp [countCandidate]
  | stuck hopen hchildless =>
      rw [Context.fanOut_of_open hopen, hchildless]
      simp
  | refused hopen hsome hfull =>
      rw [Context.fanOut_of_open hopen]
      have hpositive := List.length_pos_of_ne_nil hsome
      simp [reject, hpositive, hfull]
  | grown hopen hsome hroom =>
      rw [Context.fanOut_of_open hopen]
      simp [absorb, hroom]

theorem Spared.step {held : Nat} (h : s.Spared held taken) {worker : Worker}
    (hheld : held ≤ worker.inFlight) {event : Option SearchEvent}
    (hstep : s.Stepped worker t event) : t.Spared held (taken ++ s.upNext?.toList) := by
  have hexplored := h.explored.step hstep
  refine ⟨hexplored, ?_, ?_⟩
  · cases hstep with
    | stopped reason hreason =>
        rw [upNext?_of_stopped hreason, Option.toList_none, List.append_nil]
        exact h.granted
    | exhausted hgo hpop =>
        rw [upNext?_of_empty hgo hpop, Option.toList_none, List.append_nil]
        exact h.granted
    | @treated state frontier _ _ hgo hpop ht =>
        rw [upNext?_of_popped hgo hpop]
        intro hnone u hu hfan
        have hbefore : s.stats.rejectedBatches = 0 := by
          have hle := (Stepped.treated hgo hpop ht).upTo.rejectedBatches
          omega
        have hcontext : t.context = s.context := by cases ht <;> rfl
        have hlimits : t.limits = s.limits := by cases ht <;> rfl
        rw [hcontext] at hfan ⊢
        rw [hlimits]
        rcases List.mem_append.mp hu with hu | hu
        · exact h.granted hbefore u hu hfan
        · rw [List.mem_singleton.mp hu] at hfan ⊢
          have hroom := ht.granted.mp (hnone.trans hbefore.symm) hfan
          exact Nat.lt_of_le_of_lt (Nat.add_le_add_right hheld _) hroom
  · intro hstopped
    cases hstep with
    | stopped reason hreason =>
        cases hstopped
        rcases Option.or_eq_some_iff.mp hreason with hstopped | ⟨-, hspent⟩
        · exact h.within hstopped
        · exact absurd hspent (spent?_ne_exhausted s)
    | exhausted hgo hpop =>
        obtain ⟨-, hproofs, hstates, -⟩ := spent?_eq_none.mp (Option.or_eq_none_iff.mp hgo).2
        exact ⟨hproofs, hstates⟩
    | treated hgo hpop ht =>
        have hrunning : s.stopped = none := (Option.or_eq_none_iff.mp hgo).1
        have hsame : t.stopped = s.stopped := by cases ht <;> rfl
        rw [hsame, hrunning] at hstopped
        cases hstopped

theorem Driven.spared {held : Nat} {context : Context} (hcontext : context.Prepared)
    {limits : Limits} (h : Driven held (Search.start context limits) taken s) :
    s.Spared held taken ∧ s.context = context ∧ s.limits = limits := by
  have hflags : ∀ {s : Search} {taken : List State} (cancelled : Bool) (elapsedMs : Nat),
      s.Spared held taken → Spared held { s with cancelled, elapsedMs } taken := by
    intro s taken cancelled elapsedMs hs
    exact ⟨hs.explored.flagged cancelled elapsedMs, hs.granted, hs.within⟩
  induction h with
  | start =>
      refine ⟨⟨explored_start hcontext limits, ?_, ?_⟩, rfl, rfl⟩
      · intro _ u hu
        cases hu
      · intro hstopped
        cases hstopped
  | @step taken s worker _ hheld ih =>
      obtain ⟨hspared, hcontext', hlimits⟩ := ih
      refine ⟨hspared.step hheld (hspared.explored.stepped worker), ?_, ?_⟩
      · rw [step_context, hcontext']
      · rw [step_limits, hlimits]
  | cancel _ ih => exact ⟨hflags _ _ ih.1, ih.2⟩
  | renew _ ih => exact ⟨hflags _ _ ih.1, ih.2⟩
  | wait ms _ ih => exact ⟨hflags _ _ ih.1, ih.2⟩

end Search

/-! ## Another order -/

/-- The states of the list stand for all reachable pairs, each once, and the
limits leave room for them on a worker that holds `held` branches. -/
structure Context.Spans (c : Context) (limits : Limits) (held : Nat) (all : List State) :
    Prop where
  nodup : (all.map State.key).Nodup
  reachable : ∀ k, k ∈ all.map State.key ↔ c.Reachable k
  proofs : all.countP State.isTerminal < limits.maxProofs
  states : all.length < limits.maxStates
  granted : ∀ u ∈ all, 0 < c.fanOut u → held + c.fanOut u < limits.maxFanout

/-- Larger limits leave room too. -/
theorem Context.Spans.mono {c : Context} {limits limits' : Limits} {held : Nat} {all : List State}
    (h : c.Spans limits held all) (hproofs : limits.maxProofs ≤ limits'.maxProofs)
    (hstates : limits.maxStates ≤ limits'.maxStates)
    (hfanout : limits.maxFanout ≤ limits'.maxFanout) : c.Spans limits' held all where
  nodup := h.nodup
  reachable := h.reachable
  proofs := Nat.lt_of_lt_of_le h.proofs hproofs
  states := Nat.lt_of_lt_of_le h.states hstates
  granted u hu hfan := Nat.lt_of_lt_of_le (h.granted u hu hfan) hfanout

namespace Search

variable {s t : Search} {taken all : List State} {held : Nat} {c : Context} {limits : Limits}

/-- A search that ended exhausted, and was refused nothing, had room for all reachable
pairs. -/
theorem Spared.spans (h : s.Spared held taken) (hstopped : s.stopped = some .exhausted)
    (hadmitted : s.stats.rejectedBatches = 0) : s.context.Spans s.limits held taken := by
  have hdone : s.Exhausted taken := ⟨h.explored, h.explored.exhausted hstopped, hadmitted⟩
  obtain ⟨hproofs, hstates⟩ := h.within hstopped
  refine ⟨h.explored.nodup_taken, hdone.mem_taken, ?_, ?_, h.granted hadmitted⟩
  · rw [← h.explored.candidates]
    exact hproofs
  · rw [← h.explored.popped]
    exact hstates

/-- What was explored is a part of what spans the reachable pairs, so no budget
is spent on it. -/
theorem Explored.within (h : s.Explored taken) (hspans : s.context.Spans s.limits held all) :
    taken.length ≤ all.length ∧ s.stats.candidates < s.limits.maxProofs ∧
      s.stats.popped < s.limits.maxStates := by
  have hsubset : taken.map State.key ⊆ all.map State.key := by
    intro k hk
    obtain ⟨u, hu, rfl⟩ := List.mem_map.mp hk
    exact (hspans.reachable _).mpr (h.derived u (List.mem_append_left _ hu)).reachable
  have hsubperm := List.subperm_of_subset h.nodup_taken hsubset
  have hlength : taken.length ≤ all.length := by simpa using hsubperm.length_le
  have hterminal : taken.countP State.isTerminal ≤ all.countP State.isTerminal := by
    have hcount := hsubperm.countP_le fun k => k.1 == k.2
    rw [List.countP_map, List.countP_map] at hcount
    exact hcount
  refine ⟨hlength, ?_, ?_⟩
  · rw [h.candidates]
    exact Nat.lt_of_le_of_lt hterminal hspans.proofs
  · rw [h.popped]
    exact Nat.lt_of_le_of_lt hlength hspans.states

/-- The search was refused nothing, nothing disturbed it, and it has taken up one
state in each of `n` steps unless it is exhausted. -/
structure Unhindered (s : Search) (n : Nat) (taken : List State) : Prop where
  explored : s.Explored taken
  admitted : s.stats.rejectedBatches = 0
  cancelled : s.cancelled = false
  elapsedMs : s.elapsedMs = 0
  progress : s.stopped = some .exhausted ∨ s.stopped = none ∧ taken.length = n

theorem Unhindered.step {n : Nat} (h : s.Unhindered n taken)
    (hspans : s.context.Spans s.limits held all) {worker : Worker}
    (hheld : worker.inFlight ≤ held) {event : Option SearchEvent}
    (hstep : s.Stepped worker t event) :
    t.Unhindered (n + 1) (taken ++ s.upNext?.toList) := by
  have hexplored := h.explored.step hstep
  obtain ⟨-, hproofs, hstates⟩ := h.explored.within hspans
  have hspent : s.spent? = none :=
    spent?_eq_none.mpr ⟨h.cancelled, hproofs, hstates, by rw [h.elapsedMs]; exact Nat.zero_le _⟩
  cases hstep with
  | stopped reason hreason =>
      rw [hspent, Option.or_none] at hreason
      refine ⟨hexplored, h.admitted, h.cancelled, h.elapsedMs, .inl ?_⟩
      rcases h.progress with hstopped | ⟨hrunning, -⟩
      · exact hreason.symm.trans hstopped
      · rw [hrunning] at hreason
        cases hreason
  | exhausted hgo hpop => exact ⟨hexplored, h.admitted, h.cancelled, h.elapsedMs, .inl rfl⟩
  | @treated state frontier _ _ hgo hpop ht =>
      have hrunning : s.stopped = none := (Option.or_eq_none_iff.mp hgo).1
      have hstate := h.explored.derives_popped hpop
      have hroom : 0 < s.context.fanOut state →
          worker.inFlight + s.context.fanOut state < s.limits.maxFanout := by
        obtain ⟨u, hu, hkey⟩ := List.mem_map.mp ((hspans.reachable _).mpr hstate.reachable)
        have hgranted := hspans.granted u hu
        rw [Context.fanOut_congr hkey] at hgranted
        intro hfan
        have hbelow := hgranted hfan
        omega
      have hsame : t.cancelled = s.cancelled ∧ t.elapsedMs = s.elapsedMs ∧
          t.stopped = s.stopped := by cases ht <;> exact ⟨rfl, rfl, rfl⟩
      obtain ⟨hcancelled, helapsed, hstopped⟩ := hsame
      refine ⟨hexplored, (ht.granted.mpr hroom).trans h.admitted, hcancelled.trans h.cancelled,
        helapsed.trans h.elapsedMs, .inr ⟨hstopped.trans hrunning, ?_⟩⟩
      rcases h.progress with hexhausted | ⟨-, hlength⟩
      · rw [hrunning] at hexhausted
        cases hexhausted
      · rw [upNext?_of_popped hgo hpop, List.length_append, hlength]
        rfl

theorem after_context (worker : Worker) (s : Search) (n : Nat) :
    (s.after worker n).context = s.context ∧ (s.after worker n).limits = s.limits := by
  induction n with
  | zero => exact ⟨rfl, rfl⟩
  | succ n ih =>
      rw [after_succ, step_context, step_limits]
      exact ih

theorem spans_after (h : c.Spans limits held all) (worker : Worker) (n : Nat) :
    ((start c limits).after worker n).context.Spans ((start c limits).after worker n).limits
      held all := by
  obtain ⟨hcontext, hlimits⟩ := after_context worker (start c limits) n
  rw [hcontext, hlimits]
  exact h

theorem unhindered_after (hcontext : c.Prepared) (hspans : c.Spans limits held all)
    {worker : Worker} (hheld : worker.inFlight ≤ held) (n : Nat) :
    ∃ taken, ((start c limits).after worker n).Unhindered n taken := by
  induction n with
  | zero => exact ⟨[], explored_start hcontext limits, rfl, rfl, rfl, .inr ⟨rfl, rfl⟩⟩
  | succ n ih =>
      obtain ⟨taken, hn⟩ := ih
      rw [after_succ]
      exact ⟨_, hn.step (spans_after hspans worker n) hheld (hn.explored.stepped worker)⟩

/-- A search that has room for all reachable pairs exhausts them, after one step
for each and one more. -/
theorem exhausted_after (hcontext : c.Prepared) (hspans : c.Spans limits held all)
    {worker : Worker} (hheld : worker.inFlight ≤ held) {m : Nat} (hm : all.length < m) :
    ((start c limits).after worker m).stopped = some .exhausted ∧
      ∃ taken, ((start c limits).after worker m).Exhausted taken := by
  obtain ⟨taken, hn⟩ := unhindered_after hcontext hspans hheld m
  obtain ⟨hlength, -⟩ := hn.explored.within (spans_after hspans worker m)
  have hstopped : ((start c limits).after worker m).stopped = some .exhausted := by
    rcases hn.progress with hstopped | ⟨-, hcount⟩
    · exact hstopped
    · omega
  exact ⟨hstopped, taken, hn.explored, hn.explored.exhausted hstopped, hn.admitted⟩

/-- A search that ends exhausted and was refused nothing has met, and taken up,
exactly the reachable pairs, and its candidates are those with equal products.
In any order, and on any worker that holds no more than those of the first
search held, the search ends exhausted with the same pairs and the same counts. -/
theorem exhausted_exact {book : RuleBook} (hbook : book.Built) {codes : Codebook}
    {goal : Equation} {withGraph : Bool}
    (hcontext : Context.prepare codes book goal withGraph = .ok c)
    (hs : Driven held (start c limits) taken s) (hstopped : s.stopped = some .exhausted)
    (hadmitted : s.stats.rejectedBatches = 0) :
    (∀ k, k ∈ s.frontier.seen ↔ c.Reachable k) ∧
      (∀ k, k ∈ taken.map State.key ↔ c.Reachable k) ∧
      {k | c.Reachable k ∧ k.1 = k.2}.encard = s.stats.candidates ∧
      ∀ (order : FrontierOrder) (worker : Worker), worker.inFlight ≤ held → ∃ n, ∀ m, n ≤ m →
        let t := (start c { limits with frontierOrder := order }).after worker m
        t.stopped = some .exhausted ∧ (∀ k, k ∈ t.frontier.seen ↔ k ∈ s.frontier.seen) ∧
          t.stats = s.stats := by
  have hprepared := Context.prepared_of_prepare hbook.numbered hcontext
  obtain ⟨hspared, rfl, rfl⟩ := hs.spared hprepared
  have hdone : s.Exhausted taken :=
    ⟨hspared.explored, hspared.explored.exhausted hstopped, hadmitted⟩
  have hseen : ∀ k, k ∈ s.frontier.seen ↔ s.context.Reachable k :=
    fun k => (hdone.mem_seen k).trans (hdone.mem_taken k)
  refine ⟨hseen, hdone.mem_taken, hdone.encard_candidates, ?_⟩
  intro order worker hheld
  have hspans : s.context.Spans { s.limits with frontierOrder := order } held taken :=
    (hspared.spans hstopped hadmitted).mono (Nat.le_refl _) (Nat.le_refl _) (Nat.le_refl _)
  refine ⟨taken.length + 1, ?_⟩
  intro m hm t
  obtain ⟨hend, others, hothers⟩ := exhausted_after hprepared hspans hheld hm
  have hsame : t.context = s.context := (after_context ..).1
  refine ⟨hend, ?_, hdone.stats_eq hothers hsame⟩
  intro k
  rw [hothers.mem_seen, hothers.mem_taken, hseen]
  rw [show Search.context _ = _ from hsame]

/-- One axiom and its own sides: the root leads to two pairs of equal products,
and the third call finds nothing more. -/
theorem exhausted_exact_sides :
    ∃ c, {k | Context.Reachable c k ∧ k.1 = k.2}.encard = 2 ∧ ∃ n, ∀ m, n ≤ m →
      ((start c { frontierOrder := .breadthFirst }).after {} m).stopped = some .exhausted := by
  have hrun : ∃ book codes, RuleBook.ofEquations {} [⟨["a"], ["b"]⟩] = .ok (book, codes) ∧ ∃ c,
      Context.prepare codes book ⟨["a"], ["b"]⟩ true = .ok c ∧ ∃ s t u : Search,
      ((start c {}).advance {} 2).2.1 = s ∧ (s.advance {} 2).2.1 = t ∧ (t.advance {} 2).2.1 = u ∧
      u.stopped = some .exhausted ∧ u.stats.rejectedBatches = 0 ∧ u.stats.candidates = 2 :=
    ⟨_, _, by cbv, _, by cbv, _, _, _, rfl, rfl, rfl, by cbv, by cbv, by cbv⟩
  obtain ⟨book, codes, hbook, c, hcontext, s, t, u, rfl, rfl, rfl, hstopped, hadmitted,
    hcandidates⟩ := hrun
  have hstart : Driven 0 (start c {}) [] (start c {}) := .start
  have hheld : 0 ≤ Worker.inFlight {} := Nat.zero_le _
  obtain ⟨first, hfirst⟩ := hstart.advance hheld 2
  obtain ⟨second, hsecond⟩ := hfirst.advance hheld 2
  obtain ⟨third, hthird⟩ := hsecond.advance hheld 2
  obtain ⟨-, -, hcard, hother⟩ :=
    exhausted_exact (.replace hbook) hcontext hthird hstopped hadmitted
  obtain ⟨n, hn⟩ := hother .breadthFirst {} (Nat.le_refl 0)
  refine ⟨c, ?_, n, fun m hm => (hn m hm).1⟩
  rw [hcard, hcandidates]
  rfl

end Search

end ThueProver
