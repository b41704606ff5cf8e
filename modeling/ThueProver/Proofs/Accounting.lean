import Mathlib
import ThueProver.Proofs.Steps

/-!
# No state is lost and none is counted twice

Every child that was generated is a duplicate, was taken up, or is still pending,
and so is the root. The pairs met are those of the states taken up and of the
pending ones, each once. A state that was taken up is a candidate, was expanded,
was refused, or is open and no rule applies to it. All this is read off from what
a search has explored, so it holds after a suspension as well.

The tally of refusals is not part of a snapshot. It agrees with the counts of a
search that was never restored.
-/
namespace ThueProver

namespace Frontier

variable {f : Frontier} {c : Context} {taken : List State}

/-- The pairs met are as many as the states that were taken up and those that wait. -/
theorem Met.size_seen (h : f.Met c taken) : f.seen.size = taken.length + f.size := by
  have hnodup : f.seen.toList.Nodup := by
    refine Std.TreeSet.distinct_toList.imp ?_
    intro k k' hne heq
    rw [heq] at hne
    exact hne Std.ReflCmp.compare_self
  have hperm : f.seen.toList.Perm ((taken ++ f.pending).map State.key) := by
    refine (List.perm_ext_iff_of_nodup hnodup h.nodup).mpr ?_
    intro k
    rw [Std.TreeSet.mem_toList, h.seen, List.mem_map]
  have hlength := hperm.length_eq
  rw [Std.TreeSet.length_toList, List.length_map, List.length_append,
    length_pending h.valid] at hlength
  exact hlength

end Frontier

namespace Context

/-- The rules and opcodes that apply to a state. -/
def transitions (c : Context) (s : State) : List (Rule × Opcode) :=
  c.book.rules.flatMap fun rule => (Opcode.all.filter (s.admits · rule)).map (rule, ·)

/-- Every transition has a child of its own. -/
theorem length_transitions (c : Context) (s : State) :
    (c.transitions s).length = (c.children s).length := by
  rw [← weight_moves]
  unfold transitions moves
  induction c.book.rules with
  | nil => rfl
  | cons rule rest ih =>
      rw [List.flatMap_cons, List.length_append, ih, List.length_map, List.filterMap_cons]
      cases Opcode.all.filter (s.admits · rule) with
      | nil => simp only [List.length_nil, List.isEmpty_nil, if_true, Nat.zero_add]
      | cons op ops => simp [Search.weight]

theorem transitions_isEmpty (c : Context) (s : State) :
    (c.transitions s).isEmpty = ((c.children s).length == 0) := by
  rw [← length_transitions, Bool.eq_iff_iff, List.isEmpty_iff, beq_iff_eq, List.length_eq_zero_iff]

end Context

/-- The tally that would have come to these counts. -/
def Stats.refusals (stats : Stats) : Rejections where
  batches := stats.rejectedBatches
  transitions := stats.droppedTransitions % wordBound

namespace Search

variable {origin s t : Search} {restored : Bool} {taken : List State}

theorem Ran.explored {context : Context} (hcontext : context.Prepared) {limits : Limits}
    (h : (Search.start context limits).Ran restored taken s) : s.Explored taken := by
  induction h with
  | start => exact explored_start hcontext limits
  | step worker _ ih => exact ih.step (ih.stepped worker)
  | cancel _ ih => exact ih.flagged _ _
  | renew _ ih => exact ih.flagged _ _
  | wait ms _ ih => exact ih.flagged _ _
  | restore _ ih => exact ih.restored

/-- A step that enters a refusal in the tally enters it in the counts. -/
theorem Stepped.rejections {worker : Worker} {event : Option SearchEvent}
    (h : s.Stepped worker t event) (hs : s.rejections = s.stats.refusals) :
    t.rejections = t.stats.refusals := by
  cases h with
  | stopped reason hreason => exact hs
  | exhausted hgo hpop => exact hs
  | treated hgo hpop ht =>
      cases ht with
      | candidate hterminal => exact hs
      | stuck hopen hchildless => exact hs
      | refused hopen hsome hfull =>
          simp only [reject, observe, hs, Stats.refusals, Rejections.record, Nat.mod_add_mod]
      | grown hopen hsome hroom => exact hs

theorem Ran.rejections {context : Context} (hcontext : context.Prepared) {limits : Limits}
    (h : (Search.start context limits).Ran restored taken s) (hnever : restored = false) :
    s.rejections = s.stats.refusals := by
  induction h with
  | start => rfl
  | step worker hran ih => exact ((hran.explored hcontext).stepped worker).rejections (ih hnever)
  | cancel _ ih => exact ih hnever
  | renew _ ih => exact ih hnever
  | wait ms _ ih => exact ih hnever
  | restore _ _ => cases hnever

/-- The books of a search that has taken up these states. -/
structure Accounted (s : Search) (restored : Bool) (taken : List State) : Prop where
  popped : s.stats.popped = taken.length
  /-- The root and the children, where they are now. -/
  balance : 1 + s.stats.generated = s.stats.duplicates + s.stats.popped + s.frontier.size
  seen_size : s.frontier.seen.size = s.stats.popped + s.frontier.size
  pending_size : s.frontier.pending.length = s.frontier.size
  pending_seen : ∀ t ∈ s.frontier.pending, t.key ∈ s.frontier.seen
  pending_distinct : (s.frontier.pending.map State.key).Nodup
  /-- Whatever was taken up and is not counted here is open, and no rule applies to it. -/
  treated : s.stats.candidates + s.stats.expanded + s.stats.rejectedBatches +
    taken.countP (fun t => !t.isTerminal && (s.context.transitions t).isEmpty) = s.stats.popped
  tally : restored = false → s.rejections = s.stats.refusals

/-- A state is a candidate, or open with children, or open without. -/
theorem countP_kinds (c : Context) (taken : List State) :
    taken.countP State.isTerminal + (taken.countP fun t => c.fanOut t != 0) +
      taken.countP (fun t => !t.isTerminal && (c.transitions t).isEmpty) = taken.length := by
  induction taken with
  | nil => rfl
  | cons t rest ih =>
      have hone : (if t.isTerminal then 1 else 0) + (if (c.fanOut t != 0) then 1 else 0) +
          (if (!t.isTerminal && (c.transitions t).isEmpty) then 1 else 0) = 1 := by
        rw [Context.transitions_isEmpty]
        cases hterminal : t.isTerminal with
        | true => simp [Context.fanOut_of_terminal hterminal]
        | false =>
            rw [Context.fanOut_of_open hterminal]
            by_cases hnone : (c.children t).length = 0 <;> simp [hnone]
      simp only [List.countP_cons, List.length_cons]
      omega

theorem Explored.accounted (h : s.Explored taken)
    (htally : restored = false → s.rejections = s.stats.refusals) :
    s.Accounted restored taken := by
  have hsize := Frontier.length_pending h.valid
  have hbalance := h.balance
  have hrequests := h.requests
  have hkinds := countP_kinds s.context taken
  have hnodup := h.nodup
  rw [List.length_append, hsize] at hbalance
  rw [List.map_append] at hnodup
  refine ⟨h.popped, ?_, ?_, hsize, ?_, hnodup.of_append_right, ?_, htally⟩
  · rw [h.popped, hbalance, Nat.add_assoc]
  · rw [h.popped, h.size_seen]
  · intro t ht
    exact (h.seen _).mpr ⟨t, List.mem_append_right _ ht, rfl⟩
  · rw [h.candidates, h.popped]
    omega

/-- From `s` to `t`, all transitions of the open state that is next to be taken up
are counted as children, or all of them as dropped. Nothing else adds to the counts
of either: a candidate does not, nor does a step that takes nothing up. -/
structure Undivided (s t : Search) : Prop where
  opened : ∀ state, s.upNext? = some state → state.isTerminal = false →
    (t.stats.generated = s.stats.generated + (s.context.transitions state).length ∧
        t.stats.droppedTransitions = s.stats.droppedTransitions) ∨
      (t.stats.generated = s.stats.generated ∧
        t.stats.droppedTransitions =
          s.stats.droppedTransitions + (s.context.transitions state).length)
  idle : (∀ state, s.upNext? = some state → state.isTerminal = true) →
    t.stats.generated = s.stats.generated ∧
      t.stats.droppedTransitions = s.stats.droppedTransitions

theorem Stepped.undivided {worker : Worker} {event : Option SearchEvent}
    (h : s.Stepped worker t event) : s.Undivided t := by
  cases h with
  | stopped reason hreason =>
      refine ⟨?_, fun _ => ⟨rfl, rfl⟩⟩
      intro state hnext
      rw [upNext?_of_stopped hreason] at hnext
      cases hnext
  | exhausted hgo hpop =>
      refine ⟨?_, fun _ => ⟨rfl, rfl⟩⟩
      intro state hnext
      rw [upNext?_of_empty hgo hpop] at hnext
      cases hnext
  | @treated state frontier _ _ hgo hpop ht =>
      have hone : s.upNext? = some state := upNext?_of_popped hgo hpop
      have hnext : ∀ other, s.upNext? = some other → other = state := by
        intro other hother
        rw [hone] at hother
        exact (Option.some.inj hother).symm
      cases ht with
      | candidate hterminal =>
          refine ⟨?_, fun _ => ⟨rfl, rfl⟩⟩
          intro other hother hopen
          rw [hnext other hother, hterminal] at hopen
          cases hopen
      | stuck hopen hchildless =>
          refine ⟨?_, fun _ => ⟨rfl, rfl⟩⟩
          intro other hother _
          rw [hnext other hother, Context.length_transitions,
            show s.context.children state = [] from hchildless]
          exact .inl ⟨rfl, rfl⟩
      | refused hopen hsome hfull =>
          refine ⟨?_, fun hidle => absurd (hidle state hone) (by simp [hopen])⟩
          intro other hother _
          rw [hnext other hother, Context.length_transitions]
          exact .inr ⟨rfl, rfl⟩
      | grown hopen hsome hroom =>
          refine ⟨?_, fun hidle => absurd (hidle state hone) (by simp [hopen])⟩
          intro other hother _
          have hlength :=
            (childrenIn_perm worker ({ s with frontier }.observe state) state).length_eq
          rw [hnext other hother, Context.length_transitions]
          exact .inl ⟨congrArg (s.stats.generated + ·) hlength, rfl⟩

/-- Any calls on the search of a theorem, suspensions among them, make a run of it.
In every run the books balance, and each step of it counts the transitions of a state
as a whole. -/
theorem run_accounted {book : RuleBook} (hbook : book.Built) {codes : Codebook} {goal : Equation}
    {withGraph : Bool} {c : Context} (hc : Context.prepare codes book goal withGraph = .ok c)
    (limits : Limits) :
    (∀ list : List Call, ∃ restored taken,
        (start c limits).Ran restored taken ((start c limits).calls list).1 ∧
          (restored = true → .restore ∈ list)) ∧
      ∀ restored taken s, (start c limits).Ran restored taken s →
        s.context = c ∧ s.Accounted restored taken ∧
          ∀ worker, s.Undivided (s.step worker).2.1 := by
  have hprepared := Context.prepared_of_prepare hbook.numbered hc
  constructor
  · intro list
    obtain ⟨restored, taken, hran, hrestored, -⟩ := Ran.start.calls list
    refine ⟨restored, taken, hran, ?_⟩
    intro htrue
    exact (hrestored htrue).resolve_left (by simp)
  · intro restored taken s hran
    have hexplored := hran.explored hprepared
    refine ⟨hran.context, hexplored.accounted (hran.rejections hprepared), ?_⟩
    intro worker
    exact (hexplored.stepped worker).undivided

/-- Two steps, a suspension, and a third step: three of the nine children are
duplicates, and four of the states met are pending. -/
theorem run_accounted_restored :
    ∃ (book : RuleBook) (codes : Codebook) (c : Context) (restored : Bool) (taken : List State)
      (s : Search), book.Built ∧ Context.prepare codes book ⟨["a", "c"], ["b"]⟩ true = .ok c ∧
      (start c {}).Ran restored taken s ∧ s.stats = ⟨3, 3, 9, 3, 0, 0, 0⟩ ∧
      s.Accounted restored taken ∧ s.frontier.size = 4 ∧ s.frontier.seen.size = 7 := by
  have hrun : ∃ book codes,
      RuleBook.ofEquations {} [⟨["a"], ["b"]⟩, ⟨["c"], ["d"]⟩] = .ok (book, codes) ∧
      ∃ c, Context.prepare codes book ⟨["a", "c"], ["b"]⟩ true = .ok c ∧ ∃ s,
      ((start c {}).calls [.advance {} 2, .restore, .advance {} 1]).1 = s ∧
      s.stats = ⟨3, 3, 9, 3, 0, 0, 0⟩ :=
    ⟨_, _, by cbv, _, by cbv, _, rfl, by cbv⟩
  obtain ⟨book, codes, hbook, c, hc, s, hs, hstats⟩ := hrun
  obtain ⟨hcalls, hran⟩ := run_accounted (.replace hbook) hc {}
  obtain ⟨restored, taken, hdone, -⟩ := hcalls [.advance {} 2, .restore, .advance {} 1]
  rw [hs] at hdone
  obtain ⟨-, hbooks, -⟩ := hran _ _ _ hdone
  have hsize : s.frontier.size = 4 := by
    have hbalance := hbooks.balance
    rw [hstats] at hbalance
    simp only at hbalance
    omega
  refine ⟨book, codes, c, restored, taken, s, .replace hbook, hc, hdone, hstats, hbooks, hsize, ?_⟩
  rw [hbooks.seen_size, hstats, hsize]

end Search

end ThueProver
