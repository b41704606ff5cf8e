import Mathlib.Data.List.Basic
import Mathlib.Tactic.Common
import ThueProver.Proofs.CallGraphs
import ThueProver.Proofs.Pending
import ThueProver.Search

/-!
# The moves of a state

The children of a state are what the rules of the book make of it in one step.
They depend on the pair of products only, up to the recorded proof. A search
asks for the same moves whether it has a call graph or not: the graph is used
for the root alone, whose relations it lists, and every other state that a
search derives has a step on its proof.
-/
namespace ThueProver
open Std

namespace RuleBook

/-- The rules are numbered from 1 in the order of the book, and the next number is the
one after these. -/
structure Numbered (book : RuleBook) : Prop where
  id_eq : ∀ index rule, book.rules[index]? = some rule → rule.id = index + 1
  nextId_eq : book.nextId = book.size + 1

theorem numbered_empty : Numbered {} where
  id_eq index rule hrule := by simp at hrule
  nextId_eq := rfl

theorem numbered_append {book : RuleBook} (h : book.Numbered) (codes : Codebook) (e : Equation) :
    (book.append codes e).1.Numbered where
  id_eq index rule hrule := by
    simp only [append] at hrule
    rcases Nat.lt_trichotomy index book.rules.length with hlt | heq | hgt
    · rw [List.getElem?_append_left hlt] at hrule
      exact h.id_eq index rule hrule
    · subst heq
      rw [List.getElem?_append_right (Nat.le_refl _), Nat.sub_self] at hrule
      cases hrule
      exact h.nextId_eq
    · rw [List.getElem?_eq_none (by simp; omega)] at hrule
      cases hrule
  nextId_eq := by simp [append, size, h.nextId_eq]

theorem numbered_appendAll {book : RuleBook} (h : book.Numbered) (codes : Codebook)
    (axioms : List Equation) : (book.appendAll codes axioms).1.Numbered := by
  induction axioms generalizing book codes with
  | nil => exact h
  | cons e rest ih => exact ih (numbered_append h codes e) _

theorem numbered_of_ofEquations {codes codes' : Codebook} {axioms : List Equation}
    {book : RuleBook} (h : ofEquations codes axioms = .ok (book, codes')) : book.Numbered := by
  unfold ofEquations at h
  cases hcheck : checkAll 1 axioms with
  | error error => simp [hcheck, Except.map] at h
  | ok _ =>
      simp only [hcheck, Except.map, Except.ok.injEq] at h
      have hbook := numbered_appendAll numbered_empty codes axioms
      rwa [h] at hbook

/-- A rule of the book is found under its number. -/
theorem Numbered.get?_of_mem {book : RuleBook} (h : book.Numbered) {rule : Rule}
    (hrule : rule ∈ book.rules) : book.get? rule.id = some rule := by
  obtain ⟨index, hindex⟩ := List.getElem?_of_mem hrule
  rw [h.id_eq index rule hindex, get?, hindex]
  simp [h.id_eq index rule hindex]

theorem Numbered.map_id {book : RuleBook} (h : book.Numbered) :
    book.rules.map (·.id) = List.range' 1 book.size := by
  apply List.ext_getElem
  · simp [size]
  · intro index hindex _
    rw [List.length_map] at hindex
    rw [List.getElem_map, List.getElem_range', h.id_eq index _ (List.getElem?_eq_getElem hindex)]
    omega

/-- The rule of a number is the one at its place. -/
theorem Numbered.get?_eq {book : RuleBook} (h : book.Numbered) {id : Nat} (hpos : 1 ≤ id) :
    book.get? id = book.rules[id - 1]? := by
  obtain ⟨index, rfl⟩ : ∃ index, id = index + 1 := ⟨id - 1, by omega⟩
  rw [get?, Nat.add_sub_cancel]
  cases hrule : book.rules[index]? with
  | none => rfl
  | some rule => simp [h.id_eq index rule hrule]

theorem Numbered.id_pos {book : RuleBook} (h : book.Numbered) {rule : Rule}
    (hrule : rule ∈ book.rules) : rule.id ≠ 0 := by
  obtain ⟨index, hindex⟩ := List.getElem?_of_mem hrule
  rw [h.id_eq index rule hindex]
  exact Nat.succ_ne_zero index

theorem Numbered.id_le_size {book : RuleBook} (h : book.Numbered) {rule : Rule}
    (hrule : rule ∈ book.rules) : rule.id ≤ book.size := by
  obtain ⟨index, hindex⟩ := List.getElem?_of_mem hrule
  rw [h.id_eq index rule hindex]
  exact (List.getElem?_eq_some_iff.mp hindex).choose

theorem Numbered.eq_of_id_eq {book : RuleBook} (h : book.Numbered) {rule rule' : Rule}
    (hrule : rule ∈ book.rules) (hrule' : rule' ∈ book.rules) (hid : rule.id = rule'.id) :
    rule = rule' := by
  have hget := h.get?_of_mem hrule
  rw [hid, h.get?_of_mem hrule'] at hget
  exact (Option.some.inj hget).symm

/-- In a numbered book the theorem alone has number 0. -/
theorem Numbered.eq_goal_of_hasNumber {book : RuleBook} (h : book.Numbered)
    {goal source : CodedEquation} (hsource : HasNumber goal book.rules theoremId source) :
    source = goal := by
  generalize hid : theoremId = id at hsource
  cases hsource with
  | goal => rfl
  | rule hrule => exact absurd hid.symm (h.id_pos hrule)

end RuleBook

namespace CallGraph

/-- What the graph of a numbered book lists from the theorem to a rule are the
opcodes whose divisibility holds. -/
theorem relations_build {goal : CodedEquation} {book : RuleBook} (h : book.Numbered) {rule : Rule}
    (hrule : rule ∈ book.rules) :
    (build goal book.rules).relations theoremId rule.id =
      Opcode.all.filter (relates goal · rule) := by
  refine eq_of_increasing (relations_ofEdges_increasing _ _) (Opcode.all_increasing.filter _) ?_
  intro op
  rw [mem_relations_build, List.mem_filter, relates_iff]
  constructor
  · rintro ⟨-, -, source, hsource, target, htarget, hid, hrelated⟩
    obtain rfl := h.eq_of_id_eq htarget hrule hid
    obtain rfl := h.eq_goal_of_hasNumber hsource
    exact ⟨Opcode.mem_all op, hrelated⟩
  · rintro ⟨-, hrelated⟩
    exact ⟨h.id_pos hrule, h.id_pos hrule, goal, .goal, rule, hrule, rfl, hrelated⟩

end CallGraph

namespace State

theorem admits_congr {s t : State} (h : s.key = t.key) (op : Opcode) (rule : Rule) :
    s.admits op rule = t.admits op rule := by
  obtain ⟨hleft, hright⟩ := Prod.mk.inj h
  obtain ⟨side, direction⟩ := op
  cases side <;> simp [admits, side, hleft, hright]

theorem move?_eq_some {s t : State} {op : Opcode} {rule : Rule} :
    s.move? op rule = some t ↔ s.admits op rule = true ∧
      t = { s.setSide op.side (s.side op.side / rule.removed op.direction *
              rule.inserted op.direction) with proof := s.proof ++ [⟨op, rule.id⟩] } := by
  unfold move?
  split_ifs with hadmits
  · simp [hadmits, eq_comm]
  · simp [hadmits]

theorem move?_isSome (s : State) (op : Opcode) (rule : Rule) :
    (s.move? op rule).isSome = s.admits op rule := by
  unfold move?
  split_ifs with hadmits <;> simp [hadmits]

/-- States with the same pair move to states with the same pair. -/
theorem move?_congr {s t s' : State} (h : s.key = t.key) {op : Opcode} {rule : Rule}
    (hmove : s.move? op rule = some s') :
    ∃ t', t.move? op rule = some t' ∧ t'.key = s'.key := by
  obtain ⟨hadmits, rfl⟩ := move?_eq_some.mp hmove
  rw [admits_congr h] at hadmits
  refine ⟨_, move?_eq_some.mpr ⟨hadmits, rfl⟩, ?_⟩
  obtain ⟨hleft, hright⟩ := Prod.mk.inj h
  obtain ⟨side, direction⟩ := op
  cases side <;> simp [key, setSide, side, hleft, hright]

theorem isTerminal_congr {s t : State} (h : s.key = t.key) : s.isTerminal = t.isTerminal := by
  obtain ⟨hleft, hright⟩ := Prod.mk.inj h
  simp [isTerminal, hleft, hright]

/-- What some moves make of a state. -/
def childrenOf (s : State) (moves : List (Rule × List Opcode)) : List State :=
  moves.flatMap fun move => move.2.filterMap (s.move? · move.1)

/-- The same children, if the moves are made in another order. -/
theorem childrenOf_perm (s : State) {moves others : List (Rule × List Opcode)}
    (h : moves.Perm others) : (s.childrenOf moves).Perm (s.childrenOf others) :=
  h.flatMap_right _

/-- Every opcode that applies has a child. -/
theorem length_childrenOf {s : State} {moves : List (Rule × List Opcode)}
    (h : ∀ move ∈ moves, ∀ op ∈ move.2, s.admits op move.1 = true) :
    (s.childrenOf moves).length = Search.weight moves := by
  induction moves with
  | nil => rfl
  | cons move rest ih =>
      have hmove : (move.2.filterMap (s.move? · move.1)).length = move.2.length := by
        rw [List.length_filterMap_eq_countP, List.countP_eq_length]
        intro op hop
        rw [move?_isSome]
        exact h move List.mem_cons_self op hop
      have hrest := ih fun other hother => h other (List.mem_cons_of_mem _ hother)
      unfold childrenOf at hrest ⊢
      rw [List.flatMap_cons, List.length_append, hmove, hrest, Search.weight]

end State

namespace Context

/-- The rules that apply to a state, each with the opcodes that divide. -/
def moves (c : Context) (s : State) : List (Rule × List Opcode) :=
  c.book.rules.filterMap fun rule =>
    let ops := Opcode.all.filter (s.admits · rule)
    if ops.isEmpty then none else some (rule, ops)

/-- The states one step away. -/
def children (c : Context) (s : State) : List State := s.childrenOf (c.moves s)

/-- The number of children that a search asks for: none for a candidate. -/
def fanOut (c : Context) (s : State) : Nat :=
  if s.isTerminal then 0 else (c.children s).length

theorem fanOut_of_terminal {c : Context} {s : State} (h : s.isTerminal = true) :
    c.fanOut s = 0 := if_pos h

theorem fanOut_of_open {c : Context} {s : State} (h : s.isTerminal = false) :
    c.fanOut s = (c.children s).length := by
  rw [fanOut, h]
  rfl

theorem mem_moves {c : Context} {s : State} {move : Rule × List Opcode} :
    move ∈ c.moves s ↔ move.1 ∈ c.book.rules ∧ move.2 ≠ [] ∧
      move.2 = Opcode.all.filter (s.admits · move.1) := by
  obtain ⟨rule, ops⟩ := move
  unfold moves
  rw [List.mem_filterMap]
  constructor
  · rintro ⟨rule', hrule, hmove⟩
    simp only [List.isEmpty_iff] at hmove
    split_ifs at hmove with hnone
    cases hmove
    exact ⟨hrule, hnone, rfl⟩
  · rintro ⟨hrule, hnone, hops⟩
    simp only at hrule hnone hops
    subst hops
    exact ⟨rule, hrule, by simp only [List.isEmpty_iff, if_neg hnone]⟩

theorem mem_children {c : Context} {s t : State} :
    t ∈ c.children s ↔ ∃ rule ∈ c.book.rules, ∃ op, s.move? op rule = some t := by
  unfold children State.childrenOf
  rw [List.mem_flatMap]
  constructor
  · rintro ⟨move, hmove, ht⟩
    obtain ⟨op, -, ht⟩ := List.mem_filterMap.mp ht
    exact ⟨move.1, (mem_moves.mp hmove).1, op, ht⟩
  · rintro ⟨rule, hrule, op, ht⟩
    have hop : op ∈ Opcode.all.filter (s.admits · rule) :=
      List.mem_filter.mpr ⟨op.mem_all, (State.move?_eq_some.mp ht).1⟩
    exact ⟨(rule, _), mem_moves.mpr ⟨hrule, List.ne_nil_of_mem hop, rfl⟩,
      List.mem_filterMap.mpr ⟨op, hop, ht⟩⟩

/-- Whatever is tried with rules of the book makes children. -/
theorem mem_children_of_rules {c : Context} {s t : State} {moves : List (Rule × List Opcode)}
    (hrules : ∀ move ∈ moves, move.1 ∈ c.book.rules) (h : t ∈ s.childrenOf moves) :
    t ∈ c.children s := by
  obtain ⟨move, hmove, ht⟩ := List.mem_flatMap.mp h
  obtain ⟨op, -, ht⟩ := List.mem_filterMap.mp ht
  exact mem_children.mpr ⟨move.1, hrules move hmove, op, ht⟩

theorem moves_congr {c : Context} {s t : State} (h : s.key = t.key) : c.moves s = c.moves t := by
  unfold moves
  simp only [State.admits_congr h]

theorem weight_moves (c : Context) (s : State) :
    Search.weight (c.moves s) = (c.children s).length := by
  refine (State.length_childrenOf ?_).symm
  intro move hmove op hop
  rw [(mem_moves.mp hmove).2.2] at hop
  exact (List.mem_filter.mp hop).2

theorem length_children_congr {c : Context} {s t : State} (h : s.key = t.key) :
    (c.children s).length = (c.children t).length := by
  rw [← weight_moves, ← weight_moves, moves_congr h]

theorem fanOut_congr {c : Context} {s t : State} (h : s.key = t.key) : c.fanOut s = c.fanOut t := by
  unfold fanOut
  rw [State.isTerminal_congr h, length_children_congr h]

/-- The states a search can derive: the root, and the children of derived states
that are no candidates. -/
inductive Derives (c : Context) : State → Prop
  | root : c.Derives (.root c.goal)
  | child {s t : State} : c.Derives s → s.isTerminal = false → t ∈ c.children s → c.Derives t

theorem Derives.eq_root {c : Context} {s : State} (h : c.Derives s) (hproof : s.proof = []) :
    s = .root c.goal := by
  cases h with
  | root => rfl
  | child _ _ ht =>
      obtain ⟨rule, -, op, hmove⟩ := mem_children.mp ht
      obtain ⟨-, rfl⟩ := State.move?_eq_some.mp hmove
      simp at hproof

/-- The steps of a derived state name rules of the book. -/
theorem Derives.known {c : Context} {s : State} (h : c.Derives s) :
    ∀ step ∈ s.proof, ∃ rule ∈ c.book.rules, rule.id = step.rule := by
  induction h with
  | root =>
      intro step hstep
      cases hstep
  | child _ _ ht ih =>
      obtain ⟨rule, hrule, op, hmove⟩ := mem_children.mp ht
      obtain ⟨-, rfl⟩ := State.move?_eq_some.mp hmove
      intro step hstep
      rcases List.mem_append.mp hstep with hold | hnew
      · exact ih step hold
      · rw [List.mem_singleton.mp hnew]
        exact ⟨rule, hrule, rfl⟩

/-- The book is numbered, and a call graph is that of the theorem and the book. -/
structure Prepared (c : Context) : Prop where
  numbered : c.book.Numbered
  graph : ∀ graph, c.graph = some graph → graph = .build c.goal c.book.rules

theorem prepared_of_prepare {codes : Codebook} {book : RuleBook} {goal : Equation}
    {withGraph : Bool} {c : Context} (hbook : book.Numbered)
    (h : prepare codes book goal withGraph = .ok c) : c.Prepared := by
  unfold prepare Codebook.codeTheorem at h
  cases hcheck : goal.check .theoremToProve with
  | error error => simp [hcheck, Except.map] at h
  | ok _ =>
      simp only [hcheck, Except.map, Except.ok.injEq] at h
      subst h
      refine ⟨hbook, ?_⟩
      intro graph hgraph
      simp only at hgraph
      split_ifs at hgraph
      exact (Option.some.inj hgraph).symm

end Context

theorem Worker.order_perm (worker : Worker) (popped batches : Nat) :
    (worker.order popped batches).Perm (List.range batches) := List.mergeSort_perm _ _

namespace Limits

theorem batchOrder_perm (limits : Limits) (rules : Nat) (worker : Worker) (popped batches : Nat) :
    (limits.batchOrder rules worker popped batches).Perm (List.range batches) := by
  unfold batchOrder
  split_ifs
  · exact worker.order_perm _ _
  · exact .refl _

/-- Over few rules nothing is shared out, and no worker decides the order. -/
theorem batchOrder_of_lt {limits : Limits} {rules : Nat} (h : rules < limits.parallelThreshold)
    (worker : Worker) (popped batches : Nat) :
    limits.batchOrder rules worker popped batches = List.range batches :=
  if_neg (Nat.not_le_of_lt h)

end Limits

theorem filterMap_getElem?_range {α : Type} (l : List α) :
    (List.range l.length).filterMap (l[·]?) = l := by
  induction l with
  | nil => rfl
  | cons a l ih =>
      rw [List.length_cons, List.range_succ_eq_map, List.filterMap_cons_some (b := a) (by simp),
        List.filterMap_map]
      simpa [Function.comp_def] using ih

namespace Search

/-- The call graph changes nothing: a search asks for the moves of the state. -/
theorem applicable_eq {s : Search} (h : s.context.Prepared) {state : State}
    (hstate : s.context.Derives state) : s.applicable state = s.context.moves state := by
  unfold applicable Context.moves
  apply List.filterMap_congr
  intro rule hrule
  have hops : s.opcodes state rule = Opcode.all.filter (state.admits · rule) := by
    unfold opcodes
    split
    next graph hgraph =>
      split_ifs with hempty
      · rw [h.graph graph hgraph, CallGraph.relations_build h.numbered hrule,
          hstate.eq_root (List.isEmpty_iff.mp hempty)]
        apply List.filter_congr
        intro op _
        obtain ⟨side, direction⟩ := op
        cases side <;> rfl
      · rfl
    next => rfl
  simp only [hops]

/-- Only rules of the book are tried. -/
theorem mem_applicable {s : Search} {state : State} {move : Rule × List Opcode}
    (h : move ∈ s.applicable state) : move.1 ∈ s.context.book.rules := by
  obtain ⟨rule, hrule, hmove⟩ := List.mem_filterMap.mp h
  simp only at hmove
  split_ifs at hmove
  cases hmove
  exact hrule

/-- Children enter the frontier and are counted. -/
def absorb (s : Search) (children : List State) : Search :=
  { s with
    frontier := (s.frontier.pushAll children).2
    stats := { s.stats with
      generated := s.stats.generated + children.length
      duplicates := s.stats.duplicates + (s.frontier.pushAll children).1.duplicates } }

/-- Rule by rule or all at once, the same children enter. -/
theorem foldl_pushChildren_eq (s : Search) (state : State) (moves : List (Rule × List Opcode)) :
    moves.foldl (·.pushChildren state ·) s = s.absorb (state.childrenOf moves) := by
  induction moves generalizing s with
  | nil => simp [absorb, State.childrenOf, Frontier.pushAll]
  | cons move rest ih =>
      rw [List.foldl_cons, ih]
      simp only [pushChildren, absorb, State.childrenOf, List.flatMap_cons, List.length_append,
        Frontier.pushAll_append, Nat.add_assoc]

/-! ## The order of the batches -/

/-- Every batch enters once. -/
theorem arrange_perm (worker : Worker) (s : Search) (moves : List (Rule × List Opcode)) :
    (s.arrange worker moves).Perm moves := by
  have hperm := (s.limits.batchOrder_perm s.context.book.size worker s.stats.popped
    moves.length).filterMap (moves[·]?)
  rwa [filterMap_getElem?_range] at hperm

/-- The order depends on the number of moves, not on what they are. -/
theorem arrange_map {s t : Search} {worker worker' : Worker}
    (h : ∀ batches, t.limits.batchOrder t.context.book.size worker' t.stats.popped batches =
      s.limits.batchOrder s.context.book.size worker s.stats.popped batches)
    (f : Rule × List Opcode → Rule × List Opcode) (moves : List (Rule × List Opcode)) :
    t.arrange worker' (moves.map f) = (s.arrange worker moves).map f := by
  unfold arrange
  rw [List.length_map, h, List.map_filterMap]
  simp only [List.getElem?_map]

/-- The children of a state in the order in which they enter. -/
def childrenIn (worker : Worker) (s : Search) (state : State) : List State :=
  state.childrenOf (s.arrange worker (s.context.moves state))

theorem childrenIn_perm (worker : Worker) (s : Search) (state : State) :
    (s.childrenIn worker state).Perm (s.context.children state) :=
  state.childrenOf_perm (s.arrange_perm worker _)

/-- The children of a state enter in the order of their batches. -/
theorem grow_eq (worker : Worker) (s : Search) (state : State)
    (moves : List (Rule × List Opcode)) :
    s.grow worker state moves =
      absorb { s with stats := { s.stats with expanded := s.stats.expanded + 1 } }
        (state.childrenOf (s.arrange worker moves)) :=
  foldl_pushChildren_eq _ state _

end Search

end ThueProver
