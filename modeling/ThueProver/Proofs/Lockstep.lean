import Mathlib.Tactic.Common
import ThueProver.Proofs.Justification
import ThueProver.Proofs.Multisets

/-!
# Replays on tokens and on products

The same steps can be applied to the tokens of a theorem and to its products.
Wherever a replay finds the tokens of a rule, their product divides, and the
quotient times the product of the other side is the product of the new word. So
the products keep pace with a replay for as long as it goes on, and a valid replay
ends with equal products.

Rules and theorem are coded with one codebook. They may be coded in any order and
in between the codebook may serve other calls: codes that were given stay.
-/
namespace ThueProver

/-- A rule book, and the theorems that were coded so far, over one codebook. -/
inductive Authored : Codebook → RuleBook → List CodedEquation → Prop
  | blank : Authored {} {} []
  | call {codes codes' : Codebook} {book : RuleBook} {goals : List CodedEquation} :
      Authored codes book goals → codes.Called codes' → Authored codes' book goals
  | addAxiom {codes codes' : Codebook} {book book' : RuleBook} {goals : List CodedEquation}
      {e : Equation} : Authored codes book goals → book.add codes e = .ok (book', codes') →
      Authored codes' book' goals
  | setAxioms {codes codes' : Codebook} {book book' : RuleBook} {goals : List CodedEquation}
      {axioms : List Equation} : Authored codes book goals →
      RuleBook.ofEquations codes axioms = .ok (book', codes') → Authored codes' book' goals
  | setTheorem {codes codes' : Codebook} {book : RuleBook} {goals : List CodedEquation}
      {e : Equation} {goal : CodedEquation} : Authored codes book goals →
      codes.codeTheorem e = .ok (goal, codes') → Authored codes' book (goal :: goals)

namespace RuleBook

theorem add_eq_ok {book book' : RuleBook} {codes codes' : Codebook} {e : Equation} :
    book.add codes e = .ok (book', codes') ↔
      e.check (.axiomNumber book.nextId) = .ok () ∧
        book.appendAll codes [e] = (book', codes') := by
  unfold add
  cases e.check (.axiomNumber book.nextId) <;> simp [Except.map, appendAll]

end RuleBook

theorem Codebook.codeTheorem_eq_ok {codes codes' : Codebook} {e : Equation}
    {goal : CodedEquation} : codes.codeTheorem e = .ok (goal, codes') ↔
      e.check .theoremToProve = .ok () ∧ codes.code e = (goal, codes') := by
  unfold codeTheorem
  cases e.check .theoremToProve <;> simp [Except.map]

/-- All that was coded still has the codes of the codebook. -/
structure Codebook.Serves (codes : Codebook) (book : RuleBook) (goals : List CodedEquation) :
    Prop where
  faithful : codes.Faithful
  rules : ∀ rule ∈ book.rules, rule.CodedBy codes
  goals : ∀ goal ∈ goals, goal.CodedBy codes

namespace Authored
open Codebook
variable {codes : Codebook} {book : RuleBook} {goals : List CodedEquation}

theorem serves_of_grows {later : Codebook} (h : codes.Serves book goals)
    (hgrows : codes.Grows later) (hfaithful : later.Faithful) : later.Serves book goals where
  faithful := hfaithful
  rules rule hrule := (h.rules rule hrule).grows hgrows
  goals goal hgoal := (h.goals goal hgoal).grows hgrows

/-- Any axioms may be appended. -/
theorem serves_appendAll {start : RuleBook} (h : codes.Serves start goals)
    (axioms : List Equation) :
    (start.appendAll codes axioms).2.Serves (start.appendAll codes axioms).1 goals := by
  constructor
  · exact appendAll_induction (fun _ token hbook => hbook.intern token) h.faithful start axioms
  · exact start.appendAll_codedBy codes axioms h.rules
  · intro goal hgoal
    exact (h.goals goal hgoal).grows (start.appendAll_grows codes axioms)

theorem serves (h : Authored codes book goals) : codes.Serves book goals := by
  induction h with
  | blank => exact ⟨faithful_empty, by simp, by simp⟩
  | call _ hcall ih =>
      obtain ⟨hgrows, hfaithful⟩ := hcall.kept
      exact serves_of_grows ih hgrows (hfaithful ih.faithful)
  | @addAxiom _ _ _ _ _ e _ hadd ih =>
      have happended := serves_appendAll ih [e]
      rwa [(RuleBook.add_eq_ok.mp hadd).2] at happended
  | @setAxioms codes _ _ _ goals axioms _ hset ih =>
      have hblank : codes.Serves {} goals := ⟨ih.faithful, by simp, ih.goals⟩
      have happended := serves_appendAll hblank axioms
      rwa [(RuleBook.ofEquations_eq_ok.mp hset).2] at happended
  | @setTheorem codes _ _ _ e goal _ hcode ih =>
      obtain ⟨hgrows, hgoal⟩ := codes.code_spec e
      have hfaithful : (codes.code e).2.Faithful :=
        code_induction (fun _ token hbook => hbook.intern token) ih.faithful e
      rw [(codeTheorem_eq_ok.mp hcode).2] at hgrows hgoal hfaithful
      have hbefore := serves_of_grows ih hgrows hfaithful
      refine { hbefore with goals := ?_ }
      intro other hother
      cases List.mem_cons.mp hother with
      | inl hself => rwa [hself]
      | inr hold => exact hbefore.goals other hold

end Authored

/-- Encoding a word neither draws a prime nor yields anything but its product
exactly if all its tokens have primes. -/
theorem Codebook.encode_eq_iff {book : Codebook} {tokens : List Token} {n : Nat} :
    book.encode tokens = (n, book) ↔ book.Covers tokens ∧ n = book.product tokens := by
  constructor
  · intro h
    obtain ⟨-, hcovers, hproduct⟩ := encode_spec book tokens
    rw [h] at hcovers hproduct
    exact ⟨hcovers, hproduct⟩
  · intro h
    rw [encode_of_covers h.1, h.2]

namespace State
variable {codes : Codebook} {tokens changed : Equation} {s : State}

/-- Encoding the sides of the equation yields those of the state, and every token
has its prime already. -/
def Encodes (codes : Codebook) (tokens : Equation) (s : State) : Prop :=
  ∀ side, codes.encode (tokens.side side) = (s.side side, codes)

theorem encodes_root {goal : CodedEquation} (h : goal.CodedBy codes) :
    (root goal).Encodes codes goal.tokens := by
  intro side
  apply Codebook.encode_eq_iff.mpr
  cases side with
  | left => exact ⟨h.left_covered, h.left_eq⟩
  | right => exact ⟨h.right_covered, h.right_eq⟩

/-- Equal words have equal products. -/
theorem Encodes.isTerminal (h : s.Encodes codes tokens) (heq : tokens.left = tokens.right) :
    s.isTerminal = true := by
  have hleft : codes.encode tokens.left = (s.left, codes) := h .left
  have hright : codes.encode tokens.right = (s.right, codes) := h .right
  rw [heq, hright] at hleft
  simp [State.isTerminal, (Prod.mk.inj hleft).1]

/-- A step that finds its tokens applies to the products, and both come to the same
words. -/
theorem Encodes.replaced (h : s.Encodes codes tokens) (hcodes : codes.Positive) {op : Opcode}
    {rule : Rule} (hrule : rule.CodedBy codes)
    (hreplace : replaceIn? tokens op rule = some changed) :
    ∃ t, s.move? op rule = some t ∧ t.Encodes codes changed := by
  obtain ⟨word, hword, rfl⟩ := Option.map_eq_some_iff.mp hreplace
  obtain ⟨before, after, hside, rfl⟩ := replaceFirst?_eq_some hword
  obtain ⟨hcovers, hproduct⟩ := Codebook.encode_eq_iff.mp (h op.side)
  rw [hside] at hcovers hproduct
  obtain ⟨hdivides, hquotient⟩ := product_replace hcodes before (rule.pattern op.direction)
    (rule.replacement op.direction) after
  rw [← hrule.removed_eq, ← hproduct] at hdivides
  rw [← hrule.removed_eq, ← hrule.inserted_eq, ← hproduct] at hquotient
  have hpositive : 0 < rule.removed op.direction := by
    rw [hrule.removed_eq]
    exact hcodes.product_pos _
  have happlies := (move?_isSome_iff_dvd hpositive).mpr (Nat.dvd_of_mod_eq_zero hdivides)
  obtain ⟨t, ht⟩ := Option.isSome_iff_exists.mp happlies
  obtain ⟨hchanged, hothers⟩ := side_of_move? ht
  refine ⟨t, ht, ?_⟩
  intro side
  by_cases hsame : side = op.side
  · subst hsame
    rw [Equation.side_setSide]
    apply Codebook.encode_eq_iff.mpr
    constructor
    · have hword : ∀ token ∈ before ++ rule.replacement op.direction ++ after,
          token ∈ rule.replacement op.direction ∨
            token ∈ before ++ rule.pattern op.direction ++ after := by
        simp only [List.mem_append]
        tauto
      intro token htoken
      cases hword token htoken with
      | inl hnew => exact hrule.replacement_covered op.direction token hnew
      | inr hold => exact hcovers token hold
    · rw [hchanged, hquotient]
  · rw [Equation.side_setSide_of_ne tokens hsame, hothers side hsame]
    exact h side

end State

section
variable {codes : Codebook} {book : RuleBook} {tokens : Equation} {s : State} {proof : List Step}
  {r : Replay}

/-- As far as a replay goes, the steps apply to the products, and after each step
the state encodes the recorded words. -/
theorem replay_encodes (hcodes : codes.Positive) (hbook : ∀ rule ∈ book.rules, rule.CodedBy codes)
    (hs : s.Encodes codes tokens) (h : replay book tokens proof = .ok r) :
    (∀ i < r.steps.length, ∃ record t, r.steps[i]? = some record ∧
      book.follow? s (proof.take (i + 1)) = some t ∧ t.Encodes codes record.tokens) ∧
      ∃ t, book.follow? s (proof.take r.steps.length) = some t ∧ t.Encodes codes r.tokens := by
  induction proof generalizing tokens s r with
  | nil =>
      cases h
      exact ⟨by simp, s, rfl, hs⟩
  | cons step rest ih =>
      obtain ⟨rule, hrule, hcases⟩ := replay_cons_eq_ok h
      cases hcases with
      | inl hfailed =>
          obtain ⟨-, rfl⟩ := hfailed
          exact ⟨by simp, s, rfl, hs⟩
      | inr hgoes =>
          obtain ⟨changed, later, hchanged, hlater, rfl⟩ := hgoes
          obtain ⟨t, ht, hencodes⟩ :=
            hs.replaced hcodes (hbook rule (RuleBook.mem_of_get? hrule).1) hchanged
          have hfirst : ∀ steps, book.follow? s (step :: steps) = book.follow? t steps := by
            intro steps
            simp only [RuleBook.follow?, hrule, ht]
          obtain ⟨hsteps, hlast⟩ := ih hencodes hlater
          simp only [Replay.after, List.length_cons, List.take_succ_cons, hfirst]
          refine ⟨?_, hlast⟩
          intro i hi
          cases i with
          | zero => exact ⟨⟨step, step.text, changed⟩, t, rfl, rfl, hencodes⟩
          | succ i => exact hsteps i (by omega)

theorem length_steps_le (h : replay book tokens proof = .ok r) :
    r.steps.length ≤ proof.length := by
  induction proof generalizing tokens r with
  | nil =>
      cases h
      exact Nat.le_refl 0
  | cons step rest ih =>
      obtain ⟨rule, -, hcases⟩ := replay_cons_eq_ok h
      cases hcases with
      | inl hfailed =>
          obtain ⟨-, rfl⟩ := hfailed
          exact Nat.zero_le _
      | inr hgoes =>
          obtain ⟨changed, later, -, hlater, rfl⟩ := hgoes
          exact Nat.succ_le_succ (ih hlater)

end

/-- A replay of any proof is matched on products. If it went through `k` steps, the
first `k` steps apply to the products one after the other, and after each of them
the sides of the state are the products of the words that the replay recorded. If
the replay is valid, the whole proof leads to a state of equal products. -/
theorem replay_matched {codes : Codebook} {book : RuleBook} {goals : List CodedEquation}
    (h : Authored codes book goals) {goal : CodedEquation} (hgoal : goal ∈ goals)
    {proof : List Step} {r : Replay} (hr : replay book goal.tokens proof = .ok r) :
    r.trace.length ≤ proof.length ∧
      (∃ t, book.follow? (.root goal) (proof.take r.trace.length) = some t) ∧
      (∀ i < r.trace.length, ∃ record t, r.steps[i]? = some record ∧
        book.follow? (.root goal) (proof.take (i + 1)) = some t ∧
        codes.encode record.tokens.left = (t.left, codes) ∧
        codes.encode record.tokens.right = (t.right, codes)) ∧
      (r.valid = true →
        ∃ t, book.follow? (.root goal) proof = some t ∧ t.isTerminal = true) := by
  have hserves := h.serves
  obtain ⟨hsteps, t, ht, hlast⟩ := replay_encodes hserves.faithful.positive hserves.rules
    (State.encodes_root (hserves.goals goal hgoal)) hr
  obtain ⟨-, -, hfull⟩ := replay_chain hr
  rw [(replay_logged hr).length_eq]
  refine ⟨length_steps_le hr, ⟨t, ht⟩, ?_, ?_⟩
  · intro i hi
    obtain ⟨record, u, hrecord, hu, hencodes⟩ := hsteps i hi
    exact ⟨record, u, hrecord, hu, hencodes .left, hencodes .right⟩
  · intro hvalid
    simp only [Replay.valid, Bool.and_eq_true, Option.isNone_iff_eq_none, beq_iff_eq] at hvalid
    have hlength : r.steps.length = proof.length := by
      rw [← hfull hvalid.1, List.length_map]
    rw [hlength, List.take_length] at ht
    exact ⟨t, ht, hlast.isTerminal hvalid.2⟩

/-- The theorem is coded first, then a prime is drawn, and the axiom comes last and is
stored with its sides exchanged. -/
theorem replay_matched_exchanged :
    ∃ (codes : Codebook) (book : RuleBook) (goal : CodedEquation) (r : Replay),
      Authored codes book [goal] ∧ replay book goal.tokens [⟨⟨.left, .reduce⟩, 1⟩] = .ok r ∧
      r.trace.length = 1 ∧ r.valid = true ∧
      ∃ t, book.follow? (.root goal) [⟨⟨.left, .reduce⟩, 1⟩] = some t ∧ t.isTerminal = true := by
  have hrun : ∃ goal codes, Codebook.codeTheorem {} ⟨["a", "b"], ["c"]⟩ = .ok (goal, codes) ∧
      ∃ book codes', RuleBook.add {} codes.draw.2 ⟨["c"], ["a", "b"]⟩ = .ok (book, codes') ∧
      ∃ r, replay book goal.tokens [⟨⟨.left, .reduce⟩, 1⟩] = .ok r ∧
      r.trace.length = 1 ∧ r.valid = true :=
    ⟨_, _, by cbv, _, _, by cbv, _, by cbv, by cbv, by cbv⟩
  obtain ⟨goal, codes, hgoal, book, codes', hbook, r, hr, htrace, hvalid⟩ := hrun
  have hauthored := Authored.addAxiom (.call (.setTheorem .blank hgoal) .draw) hbook
  obtain ⟨-, -, -, hterminal⟩ := replay_matched hauthored List.mem_cons_self hr
  exact ⟨codes', book, goal, r, hauthored, hr, htrace, hvalid, hterminal hvalid⟩

end ThueProver
