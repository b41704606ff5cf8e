import Mathlib.Algebra.BigOperators.Group.List.Basic
import Mathlib.Algebra.Ring.Nat
import ThueProver.Proofs.Moves

/-!
# What a search has explored

A search is described by the list of the states it has taken up. Together with
the pending states they are all the states whose pairs have been met, each pair
once; every one of them is derived from the root; and the counts of the search
are sums over the list. Unless a request was refused, all children of a state
that was taken up have been met. One lemma says what a step can do, and the
invariant is derived from it.
-/
namespace ThueProver
open Std

namespace Worker

/-- What is admitted for one expansion is released after it. -/
theorem release_of_acquire? {worker busy : Worker} {ceiling weight : Nat}
    (h : worker.acquire? ceiling weight = some busy) :
    worker.inFlight + weight < ceiling ∧ busy.release weight = worker := by
  unfold acquire? at h
  split_ifs at h with hroom
  cases h
  exact ⟨hroom, by simp [release]⟩

theorem acquire?_eq_none {worker : Worker} {ceiling weight : Nat}
    (h : worker.acquire? ceiling weight = none) : ¬ worker.inFlight + weight < ceiling := by
  unfold acquire? at h
  split_ifs at h with hroom
  exact hroom

end Worker

namespace Stats

/-- No count is larger than in `b`. -/
structure UpTo (a b : Stats) : Prop where
  popped : a.popped ≤ b.popped
  expanded : a.expanded ≤ b.expanded
  generated : a.generated ≤ b.generated
  duplicates : a.duplicates ≤ b.duplicates
  rejectedBatches : a.rejectedBatches ≤ b.rejectedBatches
  droppedTransitions : a.droppedTransitions ≤ b.droppedTransitions
  candidates : a.candidates ≤ b.candidates

theorem UpTo.refl (a : Stats) : a.UpTo a := by
  constructor <;> exact Nat.le_refl _

theorem UpTo.trans {a b c : Stats} (hab : a.UpTo b) (hbc : b.UpTo c) : a.UpTo c where
  popped := Nat.le_trans hab.popped hbc.popped
  expanded := Nat.le_trans hab.expanded hbc.expanded
  generated := Nat.le_trans hab.generated hbc.generated
  duplicates := Nat.le_trans hab.duplicates hbc.duplicates
  rejectedBatches := Nat.le_trans hab.rejectedBatches hbc.rejectedBatches
  droppedTransitions := Nat.le_trans hab.droppedTransitions hbc.droppedTransitions
  candidates := Nat.le_trans hab.candidates hbc.candidates

end Stats

namespace Frontier

/-- The states of `taken`, popped before, and the pending ones are all that were
met: each pair once, the root among them, and all derived from it. -/
structure Met (f : Frontier) (c : Context) (taken : List State) : Prop where
  valid : f.Valid
  derived : ∀ t ∈ taken ++ f.pending, c.Derives t
  nodup : ((taken ++ f.pending).map State.key).Nodup
  seen : ∀ k, k ∈ f.seen ↔ ∃ t ∈ taken ++ f.pending, t.key = k
  root : (State.root c.goal).key ∈ f.seen

theorem met_root (order : FrontierOrder) (c : Context) :
    (Frontier.enter { order } (.root c.goal)).Met c [] := by
  have hvalid := valid_empty order
  have hpending : (Frontier.enter { order } (.root c.goal)).pending = [.root c.goal] := by
    rw [pending_enter hvalid, pending_empty, List.nil_append]
  refine ⟨hvalid.enter _, ?_, by simp [hpending], ?_, by simp [mem_seen_enter]⟩
  · rw [hpending]
    intro t ht
    rw [List.nil_append, List.mem_singleton] at ht
    rw [ht]
    exact .root
  · intro k
    rw [hpending, mem_seen_enter]
    simp

theorem Met.alike {f g : Frontier} {c : Context} {taken : List State} (h : f.Met c taken)
    (hfrontier : f.Alike g) : g.Met c taken where
  valid := hfrontier.valid_right
  derived := hfrontier.pending ▸ h.derived
  nodup := hfrontier.pending ▸ h.nodup
  seen k := by rw [← hfrontier.seen, h.seen, hfrontier.pending]
  root := (hfrontier.seen _).mp h.root

section

variable {f g : Frontier} {c : Context} {taken : List State} {state : State}

/-- A state that is popped moves from the pending states to those taken up. -/
theorem Met.popped_perm (h : f.Met c taken) (hpop : f.pop? = some (state, g)) :
    (taken ++ f.pending).Perm (taken ++ [state] ++ g.pending) := by
  obtain ⟨-, -, -, before, after, hpending, hrest, -⟩ := pop?_spec h.valid hpop
  rw [hpending, hrest, List.append_assoc]
  exact List.Perm.append_left taken List.perm_middle

theorem Met.derives_popped (h : f.Met c taken) (hpop : f.pop? = some (state, g)) :
    c.Derives state := by
  apply h.derived
  rw [(h.popped_perm hpop).mem_iff]
  simp

theorem Met.nodup_taken (h : f.Met c taken) : (taken.map State.key).Nodup := by
  have hnodup := h.nodup
  rw [List.map_append] at hnodup
  exact hnodup.of_append_left

theorem Met.pop (h : f.Met c taken) (hpop : f.pop? = some (state, g)) :
    g.Met c (taken ++ [state]) := by
  obtain ⟨hvalid, -, hseen, -⟩ := pop?_spec h.valid hpop
  have hperm := h.popped_perm hpop
  refine ⟨hvalid, ?_, (hperm.map _).nodup_iff.mp h.nodup, ?_, hseen ▸ h.root⟩
  · intro t ht
    exact h.derived t (hperm.mem_iff.mpr ht)
  · intro k
    rw [hseen, h.seen]
    simp only [hperm.mem_iff]

/-- Derived states that are not met yet come after the pending states. -/
theorem Met.pushAll (h : f.Met c taken) {batch : List State}
    (hbatch : ∀ t ∈ batch, c.Derives t) : (f.pushAll batch).2.Met c taken := by
  obtain ⟨new, hnew⟩ := pushAll_spec h.valid batch
  have hpending : taken ++ (f.pushAll batch).2.pending = taken ++ f.pending ++ new := by
    rw [hnew.pending, List.append_assoc]
  refine ⟨hnew.valid, ?_, ?_, ?_, (hnew.seen _).mpr (.inl h.root)⟩
  · rw [hpending]
    intro t ht
    rcases List.mem_append.mp ht with ht | ht
    · exact h.derived t ht
    · exact hbatch t (hnew.sublist.subset ht)
  · rw [hpending, List.map_append, List.nodup_append]
    refine ⟨h.nodup, hnew.nodup, ?_⟩
    intro k hk k' hk' heq
    obtain ⟨t, ht, rfl⟩ := List.mem_map.mp hk
    obtain ⟨u, hu, rfl⟩ := List.mem_map.mp hk'
    exact hnew.unseen u hu ((h.seen _).mpr ⟨t, ht, heq⟩)
  · intro k
    rw [hpending, hnew.seen, h.seen]
    simp only [List.mem_append (t := new), or_and_right, exists_or]

end

end Frontier

namespace Search

theorem request_worker (worker : Worker) (s : Search) (state : State)
    (moves : List (Rule × List Opcode)) : (s.request worker state moves).1 = worker := by
  unfold request
  split
  · rfl
  next hadmitted => exact (Worker.release_of_acquire? hadmitted).2

/-- On every path a step leaves the worker as it was. -/
@[simp] theorem step_worker (worker : Worker) (s : Search) : (s.step worker).1 = worker := by
  unfold step
  split
  · rfl
  · split
    · rfl
    · unfold takeUp expand
      split_ifs
      · rfl
      · dsimp only
        split
        · rfl
        · exact request_worker ..

/-- What becomes of a search that has popped and counted a state. -/
inductive Treated (worker : Worker) (s : Search) (state : State) :
    Search → Option SearchEvent → Prop
  | candidate : state.isTerminal = true →
      Treated worker s state s.countCandidate (some (.candidate state))
  | stuck : state.isTerminal = false → s.context.children state = [] →
      Treated worker s state s none
  | refused : state.isTerminal = false → s.context.children state ≠ [] →
      ¬ worker.inFlight + (s.context.children state).length < s.limits.maxFanout →
      Treated worker s state (s.reject (s.context.children state).length) none
  | grown : state.isTerminal = false → s.context.children state ≠ [] →
      worker.inFlight + (s.context.children state).length < s.limits.maxFanout →
      Treated worker s state
        (absorb { s with stats := { s.stats with expanded := s.stats.expanded + 1 } }
          (s.childrenIn worker state)) none

theorem takeUp_treated (worker : Worker) {s : Search} (h : s.context.Prepared) {state : State}
    (hstate : s.context.Derives state) :
    Treated worker s state (s.takeUp worker state).2.1 (s.takeUp worker state).2.2 := by
  unfold takeUp
  split_ifs with hterminal
  · exact .candidate hterminal
  have hopen : state.isTerminal = false := by simpa using hterminal
  unfold expand
  rw [applicable_eq h hstate]
  have hweight := Context.weight_moves s.context state
  cases hmoves : s.context.moves state with
  | nil =>
      have hnone : s.context.children state = [] := by
        rw [Context.children, hmoves]
        rfl
      exact .stuck hopen hnone
  | cons move rest =>
      have hsome : s.context.children state ≠ [] := by
        obtain ⟨-, hops, hadmits⟩ := Context.mem_moves.mp (hmoves ▸ List.mem_cons_self)
        have hlength := List.length_pos_of_ne_nil hops
        have hpositive : 0 < Search.weight (s.context.moves state) := by
          rw [hmoves, Search.weight]
          omega
        rw [hweight] at hpositive
        exact List.ne_nil_of_length_pos hpositive
      simp only [request, ← hmoves, hweight]
      cases hadmitted : worker.acquire? s.limits.maxFanout (s.context.children state).length with
      | none => exact .refused hopen hsome (Worker.acquire?_eq_none hadmitted)
      | some busy =>
          simp only [grow_eq]
          exact .grown hopen hsome (Worker.release_of_acquire? hadmitted).1

/-- What one step can do. -/
inductive Stepped (worker : Worker) (s : Search) : Search → Option SearchEvent → Prop
  | stopped (reason : StopReason) : s.stopped.or s.spent? = some reason →
      Stepped worker s (s.stop reason) (some (.stopped reason))
  | exhausted : s.stopped.or s.spent? = none → s.frontier.pop? = none →
      Stepped worker s (s.stop .exhausted) (some (.stopped .exhausted))
  | treated {state : State} {frontier : Frontier} {t : Search} {event : Option SearchEvent} :
      s.stopped.or s.spent? = none → s.frontier.pop? = some (state, frontier) →
      Treated worker ({ s with frontier }.observe state) state t event →
      Stepped worker s t event

/-- A step lowers no count. -/
theorem Stepped.upTo {worker : Worker} {s t : Search} {event : Option SearchEvent}
    (h : s.Stepped worker t event) : s.stats.UpTo t.stats := by
  cases h with
  | stopped reason hreason => exact .refl _
  | exhausted hgo hpop => exact .refl _
  | treated hgo hpop ht =>
      cases ht <;> constructor <;>
        simp only [countCandidate, reject, absorb, observe, Nat.le_refl, Nat.le_add_right]

/-- The states of `taken` were taken up, in this order, and nothing else. -/
structure Explored (s : Search) (taken : List State) : Prop
    extends Frontier.Met s.frontier s.context taken where
  prepared : s.context.Prepared
  order : s.frontier.order = s.limits.frontierOrder
  best : ∀ b, s.best = some b → b ∈ taken
  popped : s.stats.popped = taken.length
  candidates : s.stats.candidates = taken.countP State.isTerminal
  balance : 1 + s.stats.generated = s.stats.duplicates + (taken ++ s.frontier.pending).length
  requests : s.stats.expanded + s.stats.rejectedBatches =
    taken.countP fun t => s.context.fanOut t != 0
  transitions : s.stats.generated + s.stats.droppedTransitions =
    (taken.map s.context.fanOut).sum
  dropped : s.stats.rejectedBatches = 0 → s.stats.droppedTransitions = 0
  closed : s.stats.rejectedBatches = 0 → ∀ t ∈ taken, t.isTerminal = false →
    ∀ c ∈ s.context.children t, c.key ∈ s.frontier.seen
  exhausted : s.stopped = some .exhausted → s.frontier.pending = []

/-- Only the pending list and the pairs met of a frontier matter. -/
theorem Explored.alike {s t : Search} {taken : List State} (h : s.Explored taken)
    (hcontext : t.context = s.context) (hlimits : t.limits = s.limits) (hbest : t.best = s.best)
    (hstats : t.stats = s.stats) (hfrontier : s.frontier.Alike t.frontier)
    (hstopped : t.stopped = some .exhausted → s.frontier.pending = []) : t.Explored taken where
  toMet := hcontext ▸ h.toMet.alike hfrontier
  prepared := hcontext ▸ h.prepared
  order := by rw [← hfrontier.order, h.order, hlimits]
  best := hbest ▸ h.best
  popped := hstats ▸ h.popped
  candidates := hstats ▸ h.candidates
  balance := by
    rw [hstats, ← hfrontier.pending]
    exact h.balance
  requests := by
    rw [hstats, hcontext]
    exact h.requests
  transitions := by
    rw [hstats, hcontext]
    exact h.transitions
  dropped := hstats ▸ h.dropped
  closed := by
    rw [hstats, hcontext]
    intro hnone u hu hopen c hc
    exact (hfrontier.seen _).mp (h.closed hnone u hu hopen c hc)
  exhausted := hfrontier.pending ▸ hstopped

theorem frontier_start (context : Context) (limits : Limits) :
    (start context limits).frontier =
      Frontier.enter { order := limits.frontierOrder } (.root context.goal) := by
  rw [start, Frontier.push_of_unseen (by simp)]

theorem pending_start (context : Context) (limits : Limits) :
    (start context limits).frontier.pending = [.root context.goal] := by
  rw [frontier_start, Frontier.pending_enter (Frontier.valid_empty _), Frontier.pending_empty,
    List.nil_append]

theorem met_start (context : Context) (limits : Limits) :
    (start context limits).frontier.Met context [] := by
  rw [frontier_start]
  exact Frontier.met_root limits.frontierOrder context

theorem order_start (context : Context) (limits : Limits) :
    (start context limits).frontier.order = limits.frontierOrder := by
  rw [frontier_start]
  rfl

theorem explored_start {context : Context} (h : context.Prepared) (limits : Limits) :
    (start context limits).Explored [] := by
  constructor
  case toMet => exact met_start context limits
  case prepared => exact h
  case order => exact order_start context limits
  case best => simp [start]
  case popped => rfl
  case candidates => rfl
  case balance =>
    rw [pending_start]
    rfl
  case requests => rfl
  case transitions => rfl
  case dropped => exact fun _ => rfl
  case closed => simp
  case exhausted =>
    intro hstopped
    cases hstopped

/-- Neither a cancellation nor the time spent touches what was explored. -/
theorem Explored.flagged {s : Search} {taken : List State} (h : s.Explored taken)
    (cancelled : Bool) (elapsedMs : Nat) :
    Explored { s with cancelled, elapsedMs } taken :=
  h.alike rfl rfl rfl rfl (.refl h.valid) h.exhausted

/-- The search that goes on from what a snapshot keeps of this one. -/
def restored (s : Search) : Search :=
  restore s.context s.limits s.frontier.pending s.frontier.visited s.stats s.best

theorem alike_restored_of_met {s : Search} {taken : List State}
    (h : s.frontier.Met s.context taken) (horder : s.frontier.order = s.limits.frontierOrder) :
    s.frontier.Alike s.restored.frontier := by
  have halike := Frontier.alike_restore h.valid fun t ht =>
    (h.seen _).mpr ⟨t, List.mem_append_right _ ht, rfl⟩
  rwa [horder] at halike

theorem Explored.alike_restored {s : Search} {taken : List State} (h : s.Explored taken) :
    s.frontier.Alike s.restored.frontier := alike_restored_of_met h.toMet h.order

theorem Explored.restored {s : Search} {taken : List State} (h : s.Explored taken) :
    s.restored.Explored taken := by
  refine h.alike rfl rfl rfl rfl h.alike_restored ?_
  intro hstopped
  cases hstopped

/-- The best state is the one observed, or the best one before. -/
theorem best_observe {s : Search} {state b : State} (h : (s.observe state).best = some b) :
    b = state ∨ s.best = some b := by
  simp only [observe] at h
  cases hold : s.best with
  | none =>
      simp only [hold, Option.some.injEq] at h
      exact .inl h.symm
  | some old =>
      simp only [hold] at h
      split_ifs at h <;> cases h <;> simp

/-- Whatever becomes of a state that was popped, the invariant holds with it
among the states taken up. -/
theorem Explored.treated {worker : Worker} {s t : Search} {taken : List State} {state : State}
    {frontier : Frontier} {event : Option SearchEvent} (h : s.Explored taken)
    (hgo : s.stopped = none)
    (hpop : s.frontier.pop? = some (state, frontier))
    (ht : Treated worker ({ s with frontier }.observe state) state t event) :
    t.Explored (taken ++ [state]) := by
  obtain ⟨hvalid, horder, hseen, -⟩ := Frontier.pop?_spec h.valid hpop
  have hstate := h.derives_popped hpop
  have hmet := h.toMet.pop hpop
  have hbest : ∀ b, ({ s with frontier }.observe state).best = some b → b ∈ taken ++ [state] := by
    intro b hb
    rcases best_observe hb with rfl | hold
    · simp
    · exact List.mem_append_left _ (h.best b hold)
  have hidle : ∀ {pending : List State}, s.stopped = some .exhausted → pending = [] := by
    intro pending hstopped
    rw [hgo] at hstopped
    cases hstopped
  have hpopped := h.popped
  have hbalance := h.balance
  have hcandidates := h.candidates
  have hrequests := h.requests
  have htransitions := h.transitions
  rw [(h.popped_perm hpop).length_eq] at hbalance
  have hgone : s.stats.rejectedBatches = 0 → state.isTerminal = true ∨
      s.context.children state = [] → ∀ u ∈ taken ++ [state], u.isTerminal = false →
        ∀ c ∈ s.context.children u, c.key ∈ frontier.seen := by
    intro hnone hstate u hu hopen c hc
    rw [hseen]
    rcases List.mem_append.mp hu with hu | hu
    · exact h.closed hnone u hu hopen c hc
    · rw [List.mem_singleton.mp hu] at hopen hc
      rcases hstate with hterminal | hchildless
      · exact absurd (hterminal.symm.trans hopen) (by simp)
      · simp [hchildless] at hc
  cases ht with
  | candidate hterminal =>
      have hfan : s.context.fanOut state = 0 := Context.fanOut_of_terminal hterminal
      refine ⟨hmet, h.prepared, horder.trans h.order, hbest, ?_, ?_, hbalance, ?_, ?_, h.dropped,
        fun hnone => hgone hnone (.inl hterminal), hidle⟩
      · simp [countCandidate, hpopped]
      · simp [countCandidate, observe, hcandidates, hterminal]
      · simpa [countCandidate, observe, hfan] using hrequests
      · simpa [countCandidate, observe, hfan] using htransitions
  | stuck hopen hchildless =>
      have hfan : s.context.fanOut state = 0 := by
        rw [Context.fanOut_of_open hopen, show s.context.children state = [] from hchildless]
        rfl
      refine ⟨hmet, h.prepared, horder.trans h.order, hbest, ?_, ?_, hbalance, ?_, ?_, h.dropped,
        fun hnone => hgone hnone (.inr hchildless), hidle⟩
      · simp [hpopped]
      · simp [observe, hcandidates, hopen]
      · simpa [observe, hfan] using hrequests
      · simpa [observe, hfan] using htransitions
  | refused hopen hsome hfull =>
      have hfan : s.context.fanOut state = (s.context.children state).length :=
        Context.fanOut_of_open hopen
      have hpositive : (s.context.children state).length ≠ 0 := by
        rw [Ne, List.length_eq_zero_iff]
        exact hsome
      refine ⟨hmet, h.prepared, horder.trans h.order, hbest, ?_, ?_, hbalance, ?_, ?_, ?_, ?_,
        hidle⟩
      · simp [reject, hpopped]
      · simp [reject, observe, hcandidates, hopen]
      · simp only [reject, observe, List.countP_append, List.countP_singleton, hfan]
        simp [← hrequests, hpositive]
        omega
      · simp only [reject, observe, List.map_append, List.sum_append, List.map_singleton,
          List.sum_singleton, hfan, ← htransitions]
        omega
      · simp [reject]
      · simp [reject]
  | grown hopen hsome hroom =>
      have hfan : s.context.fanOut state = (s.context.children state).length :=
        Context.fanOut_of_open hopen
      have hpositive : (s.context.children state).length ≠ 0 := by
        rw [Ne, List.length_eq_zero_iff]
        exact hsome
      have hperm := childrenIn_perm worker ({ s with frontier }.observe state) state
      generalize childrenIn worker ({ s with frontier }.observe state) state = entering at hperm ⊢
      obtain ⟨new, hnew⟩ := Frontier.pushAll_spec hvalid entering
      have hlength : entering.length = (s.context.children state).length := hperm.length_eq
      have htotal := hnew.total
      have hmore := hnew.pushed
      refine ⟨hmet.pushAll fun child hchild => .child hstate hopen (hperm.mem_iff.mp hchild),
        h.prepared, ?_, hbest, ?_, ?_, ?_, ?_, ?_, h.dropped, ?_, hidle⟩
      · simp only [absorb, observe]
        rw [hnew.order, horder, h.order]
      · simp [absorb, hpopped]
      · simp [absorb, observe, hcandidates, hopen]
      · simp only [absorb, observe]
        rw [hnew.pending]
        simp only [List.length_append] at hbalance ⊢
        omega
      · simp only [absorb, observe, List.countP_append, List.countP_singleton, hfan]
        simp [← hrequests, hpositive]
        omega
      · simp only [absorb, observe, List.map_append, List.sum_append, List.map_singleton,
          List.sum_singleton, hfan, ← htransitions]
        omega
      · intro hnone u hu hu' c hc
        rcases List.mem_append.mp hu with hu | hu
        · exact (hnew.seen _).mpr (.inl (hseen ▸ h.closed hnone u hu hu' c hc))
        · rw [List.mem_singleton.mp hu] at hc
          exact hnew.met c (hperm.mem_iff.mpr hc)

theorem spent?_ne_exhausted (s : Search) : s.spent? ≠ some .exhausted := by
  unfold spent?
  split_ifs <;> simp

theorem spent?_eq_none {s : Search} : s.spent? = none ↔ s.cancelled = false ∧
    s.stats.candidates < s.limits.maxProofs ∧ s.stats.popped < s.limits.maxStates ∧
      s.elapsedMs ≤ s.limits.maxSearchTimeMs := by
  unfold spent?
  split_ifs with hcancelled hproofs hstates htime
  · simp [hcancelled]
  · simp [Nat.not_lt_of_le hproofs]
  · simp [Nat.not_lt_of_le hstates]
  · simp [Nat.not_le_of_lt htime]
  · simp only [true_iff]
    exact ⟨by simpa using hcancelled, by omega, by omega, by omega⟩

/-- One step of an explored search does one of the things listed. -/
theorem Explored.stepped (worker : Worker) {s : Search} {taken : List State}
    (h : s.Explored taken) : s.Stepped worker (s.step worker).2.1 (s.step worker).2.2 := by
  unfold step
  split
  next reason hreason => exact .stopped reason hreason
  next hgo =>
  split
  next hpop => exact .exhausted hgo hpop
  next state frontier hpop =>
  exact .treated hgo hpop (takeUp_treated worker (s := { s with frontier }.observe state)
    h.prepared (h.derives_popped hpop))

/-- The state that the next step takes up, unless it stops. -/
def upNext? (s : Search) : Option State :=
  match s.stopped.or s.spent? with
  | some _ => none
  | none => s.frontier.pop?.map (·.1)

theorem upNext?_of_stopped {s : Search} {reason : StopReason}
    (h : s.stopped.or s.spent? = some reason) : s.upNext? = none := by
  simp only [upNext?, h]

theorem upNext?_of_empty {s : Search} (hgo : s.stopped.or s.spent? = none)
    (hpop : s.frontier.pop? = none) : s.upNext? = none := by
  simp only [upNext?, hgo, hpop, Option.map_none]

theorem upNext?_of_popped {s : Search} {state : State} {frontier : Frontier}
    (hgo : s.stopped.or s.spent? = none) (hpop : s.frontier.pop? = some (state, frontier)) :
    s.upNext? = some state := by
  simp only [upNext?, hgo, hpop, Option.map_some]

/-- A step that stops takes nothing up, any other step takes up one state. -/
theorem Explored.step {worker : Worker} {s t : Search} {taken : List State}
    {event : Option SearchEvent} (h : s.Explored taken) (hstep : s.Stepped worker t event) :
    t.Explored (taken ++ s.upNext?.toList) := by
  cases hstep with
  | stopped reason hreason =>
      rw [upNext?_of_stopped hreason, Option.toList_none, List.append_nil]
      refine h.alike rfl rfl rfl rfl (.refl h.valid) ?_
      intro hstopped
      cases hstopped
      rcases Option.or_eq_some_iff.mp hreason with hstopped | ⟨-, hspent⟩
      · exact h.exhausted hstopped
      · exact absurd hspent (spent?_ne_exhausted s)
  | exhausted hgo hpop =>
      rw [upNext?_of_empty hgo hpop, Option.toList_none, List.append_nil]
      exact h.alike rfl rfl rfl rfl (.refl h.valid) fun _ => Frontier.pop?_eq_none h.valid hpop
  | treated hgo hpop ht =>
      rw [upNext?_of_popped hgo hpop]
      exact h.treated (Option.or_eq_none_iff.mp hgo).1 hpop ht

/-- Nothing is left to take up, and no request was refused. -/
structure Exhausted (s : Search) (taken : List State) : Prop where
  explored : s.Explored taken
  pending : s.frontier.pending = []
  admitted : s.stats.rejectedBatches = 0

theorem Exhausted.mem_seen {s : Search} {taken : List State} (h : s.Exhausted taken)
    (k : Nat × Nat) :
    k ∈ s.frontier.seen ↔ k ∈ taken.map State.key := by
  rw [h.explored.seen, h.pending, List.append_nil, List.mem_map]

end Search

end ThueProver
