import Mathlib.Logic.Relation
import Mathlib.Tactic.Common
import ThueProver.Report

/-!
# Rewriting by axioms and the replay of proofs

An axiom rewrites a word by replacing one run of adjacent tokens that is one of
its sides by the other side. The words connected by such rewrites are the
classes of the Thue congruence of the axioms. The replay of a proof is compared
with it here: every record of a replay is one rewrite, on the side its opcode
names and by the axiom its number names.

Nothing below depends on how a proof was found. In particular no product of
primes occurs, so the same statements serve proofs that were read from a
snapshot.
-/
namespace ThueProver

namespace Equation

/-- One run of tokens equal to a side is replaced by the other side. -/
inductive Rewrites (e : Equation) : List Token → List Token → Prop
  | forward (before after : List Token) :
      e.Rewrites (before ++ e.left ++ after) (before ++ e.right ++ after)
  | backward (before after : List Token) :
      e.Rewrites (before ++ e.right ++ after) (before ++ e.left ++ after)

theorem Rewrites.symm {e : Equation} {u v : List Token} (h : e.Rewrites u v) :
    e.Rewrites v u := by
  cases h with
  | forward before after => exact .backward before after
  | backward before after => exact .forward before after

theorem Rewrites.exchange {e : Equation} {u v : List Token} (h : e.Rewrites u v) :
    e.exchange.Rewrites u v := by
  cases h with
  | forward before after => exact .backward (e := e.exchange) before after
  | backward before after => exact .forward (e := e.exchange) before after

end Equation

/-- A rewrite by one of the axioms. -/
def RewritesBy (axioms : List Equation) (u v : List Token) : Prop :=
  ∃ e ∈ axioms, e.Rewrites u v

/-- The words are connected by a finite chain of rewrites. -/
def Thue (axioms : List Equation) : List Token → List Token → Prop :=
  Relation.ReflTransGen (RewritesBy axioms)

namespace Thue
variable {axioms : List Equation} {u v w : List Token}

theorem refl (axioms : List Equation) (u : List Token) : Thue axioms u u :=
  Relation.ReflTransGen.refl

theorem trans (huv : Thue axioms u v) (hvw : Thue axioms v w) : Thue axioms u w :=
  Relation.ReflTransGen.trans huv hvw

theorem single {e : Equation} (he : e ∈ axioms) (h : e.Rewrites u v) : Thue axioms u v :=
  Relation.ReflTransGen.single ⟨e, he, h⟩

theorem symm (h : Thue axioms u v) : Thue axioms v u := by
  induction h with
  | refl => exact refl axioms u
  | tail _ hstep ih =>
      obtain ⟨e, he, hrewrite⟩ := hstep
      exact (single he hrewrite.symm).trans ih

end Thue

/-- The first run found is one decomposition of the word. -/
theorem replaceFirst?_eq_some {pattern replacement tokens result : List Token}
    (h : replaceFirst? pattern replacement tokens = some result) :
    ∃ before after, tokens = before ++ pattern ++ after ∧
      result = before ++ replacement ++ after := by
  induction tokens generalizing result with
  | nil => simp [replaceFirst?] at h
  | cons token rest ih =>
      rw [replaceFirst?] at h
      split_ifs at h with hempty hfound
      · obtain ⟨after, hafter⟩ := List.isPrefixOf_iff_prefix.mp hfound
        refine ⟨[], after, hafter.symm, ?_⟩
        rw [← hafter, List.drop_left] at h
        exact (Option.some.inj h).symm
      · obtain ⟨result', hresult, rfl⟩ := Option.map_eq_some_iff.mp h
        obtain ⟨before, after, rfl, rfl⟩ := ih hresult
        exact ⟨token :: before, after, rfl, rfl⟩

namespace CodedEquation

/-- Whatever the stored orientation, a step replaces a side of the axiom as it
was entered by its other side. -/
theorem entered_rewrites (e : CodedEquation) (d : Direction) (before after : List Token) :
    e.entered.Rewrites (before ++ e.pattern d ++ after) (before ++ e.replacement d ++ after) := by
  have stored : e.tokens.Rewrites (before ++ e.pattern d ++ after)
      (before ++ e.replacement d ++ after) := by
    cases d with
    | reduce => exact .forward before after
    | expand => exact .backward before after
  unfold entered
  split_ifs
  · exact stored.exchange
  · exact stored

end CodedEquation

namespace Equation

theorem side_setSide (e : Equation) (side : Side) (tokens : List Token) :
    (e.setSide side tokens).side side = tokens := by
  cases side <;> rfl

theorem side_setSide_of_ne (e : Equation) {side other : Side} (h : other ≠ side)
    (tokens : List Token) : (e.setSide side tokens).side other = e.side other := by
  cases side <;> cases other <;> first | rfl | exact absurd rfl h

end Equation

/-- One step applied to the stored sides is one rewrite of the side it names;
the other side is as it was. -/
theorem replaceIn?_eq_some {tokens result : Equation} {op : Opcode} {rule : Rule}
    (h : replaceIn? tokens op rule = some result) :
    rule.entered.Rewrites (tokens.side op.side) (result.side op.side) ∧
      ∀ other, other ≠ op.side → result.side other = tokens.side other := by
  obtain ⟨changed, hchanged, rfl⟩ := Option.map_eq_some_iff.mp h
  obtain ⟨before, after, hside, rfl⟩ := replaceFirst?_eq_some hchanged
  rw [Equation.side_setSide, hside]
  refine ⟨rule.entered_rewrites op.direction before after, ?_⟩
  intro other hother
  exact Equation.side_setSide_of_ne tokens hother _

namespace StepRecord

/-- The record differs from the sides before it only on the side its opcode
names, and there by one rewrite with the axiom its number names. Numbers start
at 1. -/
structure Follows (axioms : List Equation) (before : Equation) (r : StepRecord) : Prop where
  rewrite : ∃ index e, r.step.rule = index + 1 ∧ axioms[index]? = some e ∧
    e.Rewrites (before.side r.step.opcode.side) (r.tokens.side r.step.opcode.side)
  unchanged : ∀ other, other ≠ r.step.opcode.side →
    r.tokens.side other = before.side other

/-- Each record follows from the one before it, the first from given sides. -/
def Chain (axioms : List Equation) : Equation → List StepRecord → Prop
  | _, [] => True
  | before, r :: rest => r.Follows axioms before ∧ Chain axioms r.tokens rest

/-- The log has one entry for each record: the text of its step, which is also how the
record describes it. -/
structure Logged (records : List StepRecord) (log : List String) : Prop where
  log_eq : log = records.map (·.step.text)
  described : records.map (·.description) = log

/-- The sides at the end of a chain. -/
def last (start : Equation) : List StepRecord → Equation
  | [] => start
  | r :: rest => last r.tokens rest

theorem Logged.length_eq {records : List StepRecord} {log : List String}
    (h : Logged records log) : log.length = records.length := by
  rw [h.log_eq, List.length_map]

theorem Follows.thue {axioms : List Equation} {before : Equation} {r : StepRecord}
    (h : r.Follows axioms before) (side : Side) :
    Thue axioms (before.side side) (r.tokens.side side) := by
  by_cases hside : side = r.step.opcode.side
  · obtain ⟨index, e, -, he, hrewrite⟩ := h.rewrite
    subst hside
    exact .single (List.mem_of_getElem? he) hrewrite
  · rw [h.unchanged side hside]
    exact .refl axioms _

theorem Chain.thue {axioms : List Equation} {start : Equation} {records : List StepRecord}
    (h : Chain axioms start records) (side : Side) :
    Thue axioms (start.side side) ((last start records).side side) := by
  induction records generalizing start with
  | nil => exact .refl axioms _
  | cons r rest ih => exact (h.1.thue side).trans (ih h.2)

end StepRecord

namespace RuleBook

theorem get?_eq_some {book : RuleBook} {id : Nat} {rule : Rule} (h : book.get? id = some rule) :
    ∃ index, id = index + 1 ∧ book.rules[index]? = some rule := by
  cases id with
  | zero => simp [get?] at h
  | succ index => exact ⟨index, rfl, (Option.filter_eq_some_iff.mp h).1⟩

end RuleBook

section
variable {book : RuleBook} {tokens : Equation} {proof : List Step} {r : Replay}

/-- A replay of a first step and a rest either ends at the step, because its tokens
are not found, or goes on with the rest. -/
theorem replay_cons_eq_ok {step : Step} (h : replay book tokens (step :: proof) = .ok r) :
    ∃ rule, book.get? step.rule = some rule ∧
      (replaceIn? tokens step.opcode rule = none ∧ r = { tokens, failedStep := some 0 } ∨
        ∃ changed later, replaceIn? tokens step.opcode rule = some changed ∧
          replay book changed proof = .ok later ∧ r = later.after step changed) := by
  rw [replay] at h
  split at h
  · cases h
  next rule hrule =>
  refine ⟨rule, hrule, ?_⟩
  split at h
  next hnone =>
    cases h
    exact .inl ⟨hnone, rfl⟩
  next changed hchanged =>
    cases hlater : replay book changed proof with
    | error error => simp [hlater, Except.map] at h
    | ok later =>
        simp only [hlater, Except.map, Except.ok.injEq] at h
        exact .inr ⟨changed, later, hchanged, hlater, h.symm⟩

/-- A replay is a chain of rewrites that ends in the sides it reports. Unless it
failed, its steps are those of the proof. -/
theorem replay_chain (h : replay book tokens proof = .ok r) :
    StepRecord.Chain (book.rules.map (·.entered)) tokens r.steps ∧
      r.tokens = StepRecord.last tokens r.steps ∧
      (r.failedStep = none → r.steps.map (·.step) = proof) := by
  induction proof generalizing tokens r with
  | nil =>
      cases h
      exact ⟨trivial, rfl, fun _ => rfl⟩
  | cons step rest ih =>
      obtain ⟨rule, hrule, hcases⟩ := replay_cons_eq_ok h
      cases hcases with
      | inl hfailed =>
          obtain ⟨-, rfl⟩ := hfailed
          exact ⟨trivial, rfl, fun hnone => by cases hnone⟩
      | inr hgoes =>
          obtain ⟨changed, later, hchanged, hlater, rfl⟩ := hgoes
          obtain ⟨hchain, hlast, hsteps⟩ := ih hlater
          obtain ⟨hrewrite, hother⟩ := replaceIn?_eq_some hchanged
          obtain ⟨index, hid, hget⟩ := RuleBook.get?_eq_some hrule
          have haxiom : (book.rules.map (·.entered))[index]? = some rule.entered := by
            rw [List.getElem?_map, hget, Option.map_some]
          refine ⟨⟨⟨⟨index, rule.entered, hid, haxiom, hrewrite⟩, hother⟩, hchain⟩, hlast, ?_⟩
          intro hnone
          have hlaterNone : later.failedStep = none := Option.map_eq_none_iff.mp hnone
          exact congrArg (step :: ·) (hsteps hlaterNone)

/-- The trace and the records of a replay grow together. -/
theorem replay_logged (h : replay book tokens proof = .ok r) :
    StepRecord.Logged r.steps r.trace := by
  induction proof generalizing tokens r with
  | nil =>
      cases h
      exact ⟨rfl, rfl⟩
  | cons step rest ih =>
      obtain ⟨rule, -, hcases⟩ := replay_cons_eq_ok h
      cases hcases with
      | inl hfailed =>
          obtain ⟨-, rfl⟩ := hfailed
          exact ⟨rfl, rfl⟩
      | inr hgoes =>
          obtain ⟨changed, later, -, hlater, rfl⟩ := hgoes
          obtain ⟨hlog, hdescribed⟩ := ih hlater
          exact ⟨congrArg (step.text :: ·) hlog, congrArg (step.text :: ·) hdescribed⟩

end

/-- A proof whose steps name rules of the book can be replayed as far as the
tokens allow. -/
theorem replay_ok {book : RuleBook} {proof : List Step}
    (h : ∀ step ∈ proof, ∃ rule, book.get? step.rule = some rule) (tokens : Equation) :
    ∃ r, replay book tokens proof = .ok r := by
  induction proof generalizing tokens with
  | nil => exact ⟨_, rfl⟩
  | cons step rest ih =>
      obtain ⟨rule, hrule⟩ := h step List.mem_cons_self
      simp only [replay, hrule]
      cases replaceIn? tokens step.opcode rule with
      | none => exact ⟨_, rfl⟩
      | some changed =>
          obtain ⟨r, hr⟩ := ih (fun other hother => h other (List.mem_cons_of_mem _ hother)) changed
          simp only [hr]
          exact ⟨_, rfl⟩

end ThueProver
