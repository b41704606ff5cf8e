import Mathlib.Data.List.Basic
import Mathlib.Data.Set.Card
import Mathlib.Tactic.Common
import ThueProver.CallGraph

/-!
# What a call graph says

The graph keeps its edges twice: as an ordered set, and as a table of the opcodes that
lead from one number to another. The table is filled in one pass over the set, so it
lists under a pair of numbers what a filter of the set does, and in the same order.

What the edges are is said here without the graph. The theorem has number 0 and every
record its own number, which may be anything, also 0 or that of another record. An edge
holds if some equation with the number of its source and some record with that of its
target are related as it says. All queries answer for this one relation.
-/
namespace ThueProver
open Std

/-- A list without repetition is as long as it has members. -/
theorem encard_members {α : Type} {l : List α} (h : l.Nodup) : {a | a ∈ l}.encard = l.length := by
  classical
  rw [← List.coe_toFinset, Set.encard_coe_eq_coe_finsetCard, List.toFinset_card_of_nodup h]

namespace Opcode

theorem mem_all (op : Opcode) : op ∈ all := by
  obtain ⟨side, direction⟩ := op
  cases side <;> cases direction <;> decide

theorem rank_injective {a b : Opcode} (h : a.rank = b.rank) : a = b := by
  obtain ⟨aside, adirection⟩ := a
  obtain ⟨bside, bdirection⟩ := b
  cases aside <;> cases adirection <;> cases bside <;> cases bdirection <;>
    first | rfl | exact absurd h (by decide)

theorem all_increasing : all.Pairwise fun a b => a.rank < b.rank := by decide

end Opcode

namespace Edge

/-- The edge with the smaller source comes first, then that with the earlier opcode, then
that with the smaller target. -/
def Before (a b : Edge) : Prop :=
  a.source < b.source ∨ a.source = b.source ∧
    (a.relation.rank < b.relation.rank ∨ a.relation = b.relation ∧ a.target < b.target)

instance : LawfulEqCmp Edge.order where
  eq_of_compare {a b} h := by
    simp only [compareLex, compareOn, Ordering.then_eq_eq, Nat.compare_eq_eq] at h
    obtain ⟨hsource, hrank, htarget⟩ := h
    obtain ⟨source, relation, target⟩ := a
    obtain ⟨source', relation', target'⟩ := b
    have hrelation : relation = relation' := Opcode.rank_injective hrank
    simp only at hsource htarget
    rw [hsource, htarget, hrelation]

theorem order_eq_lt_iff {a b : Edge} : order a b = .lt ↔ a.Before b := by
  have hrelation : a.relation.rank = b.relation.rank ↔ a.relation = b.relation :=
    ⟨Opcode.rank_injective, congrArg Opcode.rank⟩
  simp only [order, compareLex, compareOn, Ordering.then_eq_lt, Nat.compare_eq_lt,
    Nat.compare_eq_eq, hrelation, Before]

theorem Before.ne {a b : Edge} (h : a.Before b) : a ≠ b := by
  rintro rfl
  rcases h with hsource | ⟨-, hrank | ⟨-, htarget⟩⟩
  · exact Nat.lt_irrefl _ hsource
  · exact Nat.lt_irrefl _ hrank
  · exact Nat.lt_irrefl _ htarget

end Edge

/-- The equations with a number: the theorem has number 0 and a record its own. -/
inductive HasNumber (goal : CodedEquation) (rules : List Rule) : Nat → CodedEquation → Prop
  | goal : HasNumber goal rules theoremId goal
  | rule {rule : Rule} : rule ∈ rules → HasNumber goal rules rule.id rule.toCodedEquation

/-- A step with `target` could change the side of `source` that the opcode names: what it
takes away is not zero and divides that side. -/
def CodedEquation.RelatedTo (source : CodedEquation) (op : Opcode) (target : Rule) : Prop :=
  target.removed op.direction ≠ 0 ∧ target.removed op.direction ∣ source.side op.side

/-- Some equation with the number of the source is related to some record with that of the
target. The theorem is no target, and nothing is a target of its own number. -/
def Edge.Holds (goal : CodedEquation) (rules : List Rule) (edge : Edge) : Prop :=
  edge.target ≠ edge.source ∧ edge.target ≠ theoremId ∧
    ∃ source, HasNumber goal rules edge.source source ∧
      ∃ target ∈ rules, target.id = edge.target ∧ source.RelatedTo edge.relation target

namespace CallGraph

variable {goal : CodedEquation} {rules : List Rule} {edge : Edge} {edges : List Edge}

/-! ## Which edges are found -/

theorem relates_iff {source : CodedEquation} {op : Opcode} {target : Rule} :
    relates source op target = true ↔ source.RelatedTo op target := by
  simp [relates, CodedEquation.RelatedTo, Nat.dvd_iff_mod_eq_zero]

theorem mem_edgesFrom {id : Nat} {source : CodedEquation} :
    edge ∈ edgesFrom rules id source ↔
      edge.source = id ∧ ∃ target ∈ rules, target.id = edge.target ∧ target.id ≠ id ∧
        target.id ≠ theoremId ∧ relates source edge.relation target = true := by
  unfold edgesFrom edgesBetween
  rw [List.mem_flatMap]
  constructor
  · rintro ⟨target, htarget, hedge⟩
    split_ifs at hedge with hskip
    · cases hedge
    · obtain ⟨op, hop, rfl⟩ := List.mem_map.mp hedge
      simp only [Bool.or_eq_true, beq_iff_eq, not_or] at hskip
      exact ⟨rfl, target, htarget, rfl, hskip.1, hskip.2, (List.mem_filter.mp hop).2⟩
  · rintro ⟨rfl, target, htarget, hid, hne, hne', hrelates⟩
    refine ⟨target, htarget, ?_⟩
    rw [if_neg (by simp [hne, hne'])]
    refine List.mem_map.mpr ⟨edge.relation, List.mem_filter.mpr ⟨Opcode.mem_all _, hrelates⟩, ?_⟩
    rw [hid]

theorem exists_hasNumber_iff {P : Nat → CodedEquation → Prop} :
    (∃ id source, HasNumber goal rules id source ∧ P id source) ↔
      P theoremId goal ∨ ∃ rule ∈ rules, P rule.id rule.toCodedEquation := by
  constructor
  · rintro ⟨_, _, hsource, h⟩
    cases hsource with
    | goal => exact .inl h
    | rule hrule => exact .inr ⟨_, hrule, h⟩
  · rintro (h | ⟨rule, hrule, h⟩)
    · exact ⟨_, _, .goal, h⟩
    · exact ⟨_, _, .rule hrule, h⟩

/-- The edges that are collected from all pairs are those that hold. -/
theorem mem_edges_iff :
    (edge ∈ edgesFrom rules theoremId goal ++
        rules.flatMap fun rule => edgesFrom rules rule.id rule.toCodedEquation) ↔
      edge.Holds goal rules := by
  rw [List.mem_append, List.mem_flatMap,
    ← exists_hasNumber_iff (P := fun id source => edge ∈ edgesFrom rules id source)]
  simp only [mem_edgesFrom, relates_iff]
  constructor
  · rintro ⟨_, source, hsource, rfl, target, htarget, hid, hne, hne', hrelated⟩
    rw [hid] at hne hne'
    exact ⟨hne, hne', source, hsource, target, htarget, hid, hrelated⟩
  · rintro ⟨hne, hne', source, hsource, target, htarget, hid, hrelated⟩
    rw [← hid] at hne hne'
    exact ⟨_, source, hsource, rfl, target, htarget, hid, hne, hne', hrelated⟩

/-! ## The set and the table -/

theorem toList_increasing (graph : CallGraph) : graph.toList.Pairwise Edge.Before :=
  TreeSet.ordered_toList.imp Edge.order_eq_lt_iff.mp

theorem nodup_toList (graph : CallGraph) : graph.toList.Nodup :=
  graph.toList_increasing.imp Edge.Before.ne

theorem contains_iff_mem (graph : CallGraph) :
    graph.contains edge = true ↔ edge ∈ graph.toList := by
  rw [contains, toList, TreeSet.mem_toList, TreeSet.mem_iff_contains]

theorem mem_toList_ofEdges : edge ∈ (ofEdges edges).toList ↔ edge ∈ edges := by
  simp only [ofEdges, toList, TreeSet.mem_toList, TreeSet.mem_ofList, List.contains_iff_mem]

theorem mem_toList_build : edge ∈ (build goal rules).toList ↔ edge.Holds goal rules := by
  rw [build, mem_toList_ofEdges, mem_edges_iff]

/-- The table grows under every pair by the opcodes of the edges between the two. -/
theorem getD_foldl_enter
    (table : TreeMap (Nat × Nat) (List Opcode) lexOrd.compare) (source target : Nat) :
    (edges.foldl enter table).getD (source, target) [] = table.getD (source, target) [] ++
      (edges.filter fun e => (e.source, e.target) = (source, target)).map (·.relation) := by
  induction edges generalizing table with
  | nil => simp
  | cons e rest ih =>
      rw [List.foldl_cons, ih, enter, TreeMap.getD_insert, List.filter_cons]
      simp only [LawfulEqCmp.compare_eq_iff_eq]
      by_cases hends : (e.source, e.target) = (source, target)
      · simp [hends]
      · simp [hends]

/-- Under a pair of numbers the table lists what a filter of the set does. -/
theorem relations_ofEdges (source target : Nat) :
    (ofEdges edges).relations source target =
      ((ofEdges edges).toList.filter fun e => (e.source, e.target) = (source, target)).map
        (·.relation) := by
  rw [relations, ofEdges, getD_foldl_enter, TreeMap.getD_emptyc, List.nil_append]
  rfl

theorem mem_relations_ofEdges {source target : Nat} {op : Opcode} :
    op ∈ (ofEdges edges).relations source target ↔ ⟨source, op, target⟩ ∈ (ofEdges edges).toList := by
  rw [relations_ofEdges, List.mem_map]
  constructor
  · rintro ⟨⟨_, _, _⟩, he, rfl⟩
    simp only [List.mem_filter, Prod.mk.injEq, decide_eq_true_eq] at he
    obtain ⟨hmem, rfl, rfl⟩ := he
    exact hmem
  · intro hmem
    exact ⟨_, List.mem_filter.mpr ⟨hmem, by simp⟩, rfl⟩

/-- Edges between the same numbers differ by their opcodes only. -/
theorem relations_ofEdges_increasing (source target : Nat) :
    ((ofEdges edges).relations source target).Pairwise fun a b => a.rank < b.rank := by
  rw [relations_ofEdges, List.pairwise_map]
  refine ((toList_increasing _).filter _).imp_of_mem ?_
  intro a b ha hb hbefore
  simp only [List.mem_filter, Prod.mk.injEq, decide_eq_true_eq] at ha hb
  obtain ⟨-, hasource, hatarget⟩ := ha
  obtain ⟨-, hbsource, hbtarget⟩ := hb
  rcases hbefore with hsource | ⟨-, hrank | ⟨-, htarget⟩⟩
  · omega
  · exact hrank
  · omega

theorem targets_increasing (graph : CallGraph) (source : Nat) :
    (graph.targets source).Pairwise (· < ·) :=
  TreeSet.ordered_toList.imp Nat.compare_eq_lt.mp

theorem mem_targets_iff {graph : CallGraph} {source target : Nat} :
    target ∈ graph.targets source ↔ ∃ op, ⟨source, op, target⟩ ∈ graph.toList := by
  simp only [targets, TreeSet.mem_toList, TreeSet.mem_ofList, List.contains_iff_mem,
    List.mem_map, List.mem_filter, beq_iff_eq]
  constructor
  · rintro ⟨⟨_, op, _⟩, ⟨hmem, rfl⟩, rfl⟩
    exact ⟨op, hmem⟩
  · rintro ⟨op, hmem⟩
    exact ⟨_, ⟨hmem, rfl⟩, rfl⟩

theorem mem_relations_build {source target : Nat} {op : Opcode} :
    op ∈ (build goal rules).relations source target ↔
      Edge.Holds goal rules ⟨source, op, target⟩ := by
  rw [build, mem_relations_ofEdges, mem_toList_ofEdges, mem_edges_iff]

theorem encard_holds (goal : CodedEquation) (rules : List Rule) :
    {edge | Edge.Holds goal rules edge}.encard = (build goal rules).size := by
  have hedges : {edge | Edge.Holds goal rules edge} = {edge | edge ∈ (build goal rules).toList} :=
    Set.ext fun _ => mem_toList_build.symm
  rw [hedges, encard_members (nodup_toList _), toList, TreeSet.length_toList, size]

/-- The graph of any theorem and any records, and all its queries, say which edges hold.
The list has them in strictly increasing order, and so each once. -/
theorem build_exact (goal : CodedEquation) (rules : List Rule) :
    let graph := build goal rules
    graph.toList.Pairwise Edge.Before ∧ graph.toList.Nodup ∧
      (∀ edge, edge ∈ graph.toList ↔ edge.Holds goal rules) ∧
      (∀ edge, graph.contains edge = true ↔ edge.Holds goal rules) ∧
      (∀ source target,
        (graph.relations source target).Pairwise (fun a b => a.rank < b.rank) ∧
          ∀ op, op ∈ graph.relations source target ↔
            Edge.Holds goal rules ⟨source, op, target⟩) ∧
      (∀ source, (graph.targets source).Pairwise (· < ·) ∧
        ∀ target, target ∈ graph.targets source ↔
          ∃ op, Edge.Holds goal rules ⟨source, op, target⟩) ∧
      {edge | Edge.Holds goal rules edge}.encard = graph.size ∧
      (graph.isEmpty = true ↔ ∀ edge, ¬ Edge.Holds goal rules edge) := by
  intro graph
  have hmem : ∀ edge, edge ∈ graph.toList ↔ edge.Holds goal rules := fun _ => mem_toList_build
  have hempty : graph.isEmpty = true ↔ graph.toList = [] := by
    rw [isEmpty, ← TreeSet.isEmpty_toList, List.isEmpty_iff, toList]
  refine ⟨graph.toList_increasing, graph.nodup_toList, hmem, ?_, ?_, ?_, encard_holds goal rules,
    ?_⟩
  · intro edge
    rw [contains_iff_mem, hmem]
  · intro source target
    exact ⟨relations_ofEdges_increasing source target, fun op => mem_relations_build⟩
  · intro source
    refine ⟨graph.targets_increasing source, fun target => ?_⟩
    simp only [mem_targets_iff, hmem]
  · rw [hempty, List.eq_nil_iff_forall_not_mem]
    simp only [hmem]

/-- A record of number 0 lends its sides to the theorem as a source, and two records of one
number lend each other theirs, as sources and as targets. -/
example :
    let e (left right : Nat) : CodedEquation := { left, right, tokens := ⟨[], []⟩ }
    let graph := build (e 5 7) [⟨e 6 0, 0⟩, ⟨e 6 5, 3⟩, ⟨e 2 0, 3⟩]
    graph.toList = [⟨0, ⟨.left, .reduce⟩, 3⟩, ⟨0, ⟨.left, .expand⟩, 3⟩, ⟨0, ⟨.right, .reduce⟩, 3⟩,
        ⟨0, ⟨.right, .expand⟩, 3⟩] ∧
      graph.relations 0 3 = Opcode.all ∧ graph.targets 0 = [3] ∧ graph.size = 4 := by
  decide

end CallGraph

end ThueProver
