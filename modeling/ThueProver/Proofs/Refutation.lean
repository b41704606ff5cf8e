import Mathlib
import ThueProver.Proofs.Attempt

/-!
# A search that ends without a candidate refutes the theorem

A rewrite of tokens, at whatever place, is a move on products: the product of
the run that is replaced divides the product of the word. A search that has
taken up every state it met, and was refused nothing, has therefore met the
products of all words that rewriting can make of the two sides. If no two of
them were equal, no chain of rewrites connects the sides.

The converse fails, since products forget the order of tokens. What is used of
the primes is only that they are not zero.
-/
namespace ThueProver

namespace CodedEquation

/-- A rewrite by the entered equation replaces the pattern of one direction. -/
theorem rewrites_entered {e : CodedEquation} {u v : List Token} (h : e.entered.Rewrites u v) :
    ∃ d before after, u = before ++ e.pattern d ++ after ∧
      v = before ++ e.replacement d ++ after := by
  have stored : e.tokens.Rewrites u v := by
    unfold entered at h
    split_ifs at h
    · exact h.exchange
    · exact h
  cases stored with
  | forward before after => exact ⟨.reduce, before, after, rfl, rfl⟩
  | backward before after => exact ⟨.expand, before, after, rfl, rfl⟩

end CodedEquation

namespace State

/-- The sides of the state are the products of the sides of the equation. -/
def Holds (codes : Codebook) (tokens : Equation) (s : State) : Prop :=
  ∀ side, s.side side = codes.product (tokens.side side)

theorem Holds.congr {codes : Codebook} {tokens : Equation} {s t : State}
    (h : s.Holds codes tokens) (hkey : t.key = s.key) : t.Holds codes tokens := by
  obtain ⟨hleft, hright⟩ := Prod.mk.inj hkey
  intro side
  rw [← h side]
  cases side with
  | left => exact hleft
  | right => exact hright

/-- Taking one product away and putting another in its place is what replacing a
run of tokens does to the product of a word. -/
theorem product_replace {codes : Codebook} (h : codes.Positive)
    (before pattern replacement after : List Token) :
    codes.product (before ++ pattern ++ after) % codes.product pattern = 0 ∧
      codes.product (before ++ pattern ++ after) / codes.product pattern *
          codes.product replacement = codes.product (before ++ replacement ++ after) := by
  have hword : codes.product (before ++ pattern ++ after) =
      codes.product pattern * (codes.product before * codes.product after) := by
    rw [Codebook.product_append, Codebook.product_append]
    ac_rfl
  constructor
  · rw [hword]
    exact Nat.mul_mod_right _ _
  · rw [hword, Nat.mul_div_cancel_left _ (h.product_pos pattern), Codebook.product_append,
      Codebook.product_append]
    ac_rfl

/-- A rewrite on one side is a move. -/
theorem Holds.move {codes : Codebook} {tokens : Equation} {s : State} (h : s.Holds codes tokens)
    (hcodes : codes.Positive) {rule : Rule} (hrule : rule.CodedBy codes) {side : Side}
    {v : List Token} (hv : rule.entered.Rewrites (tokens.side side) v) :
    ∃ op t, s.move? op rule = some t ∧ t.Holds codes (tokens.setSide side v) := by
  obtain ⟨d, before, after, hu, rfl⟩ := CodedEquation.rewrites_entered hv
  obtain ⟨hdivides, hquotient⟩ :=
    product_replace hcodes before (rule.pattern d) (rule.replacement d) after
  have hside : s.side side = codes.product (before ++ rule.pattern d ++ after) := by
    rw [h side, hu]
  have hadmits : s.admits ⟨side, d⟩ rule = true := by
    have hpositive := hcodes.product_pos (rule.pattern d)
    simp only [admits, hrule.removed_eq, hside, hdivides]
    simp
    omega
  refine ⟨⟨side, d⟩, _, move?_eq_some.mpr ⟨hadmits, rfl⟩, ?_⟩
  simp only [hrule.removed_eq, hrule.inserted_eq, hside, hquotient]
  intro other
  have hother := h other
  cases side <;> cases other <;> first | rfl | exact hother

end State

/-- The root holds the theorem. -/
theorem Context.Coded.holds_root {axioms : List Equation} {goal : Equation} {withGraph : Bool}
    {c : Context} (h : c.Coded axioms goal withGraph) :
    (State.root c.goal).Holds c.codes c.goal.tokens := by
  intro side
  cases side with
  | left => exact h.goal_codedBy.left_eq
  | right => exact h.goal_codedBy.right_eq

namespace Search

/-- Everything that was met has been taken up, no request was refused, and there
was no candidate. -/
structure Barren (s : Search) (taken : List State) : Prop extends s.Exhausted taken where
  candidates : s.stats.candidates = 0

variable {s : Search} {taken : List State}

theorem Barren.not_terminal (h : s.Barren taken) {t : State} (ht : t ∈ taken) :
    t.isTerminal = false := by
  have hnone := h.explored.candidates
  rw [h.candidates, eq_comm, List.countP_eq_zero] at hnone
  simpa using hnone t ht

/-- The words that were met are closed under rewriting one side once. -/
theorem Barren.rewrite (h : s.Barren taken) {axioms : List Equation} {goal : Equation}
    {withGraph : Bool} (hcoded : s.context.Coded axioms goal withGraph) {tokens : Equation}
    (hmet : ∃ t ∈ taken, t.Holds s.context.codes tokens) (side : Side) {v : List Token}
    (hv : RewritesBy axioms (tokens.side side) v) :
    ∃ t ∈ taken, t.Holds s.context.codes (tokens.setSide side v) := by
  obtain ⟨t, ht, hholds⟩ := hmet
  obtain ⟨e, he, hrewrites⟩ := hv
  rw [← hcoded.axioms_eq] at he
  obtain ⟨rule, hrule, rfl⟩ := List.mem_map.mp he
  obtain ⟨op, child, hmove, hchild⟩ :=
    hholds.move hcoded.positive (hcoded.rules_codedBy rule hrule) hrewrites
  have hseen := h.explored.closed h.admitted t ht (h.not_terminal ht) child
    (Context.mem_children.mpr ⟨rule, hrule, op, hmove⟩)
  obtain ⟨t', ht', hkey⟩ := List.mem_map.mp ((h.mem_seen _).mp hseen)
  exact ⟨t', ht', hchild.congr hkey⟩

theorem Barren.thue (h : s.Barren taken) {axioms : List Equation} {goal : Equation}
    {withGraph : Bool} (hcoded : s.context.Coded axioms goal withGraph) {tokens : Equation}
    (hmet : ∃ t ∈ taken, t.Holds s.context.codes tokens) (side : Side) {v : List Token}
    (hv : Thue axioms (tokens.side side) v) :
    ∃ t ∈ taken, t.Holds s.context.codes (tokens.setSide side v) := by
  induction hv with
  | refl =>
      have hsame : tokens.setSide side (tokens.side side) = tokens := by cases side <;> rfl
      rw [hsame]
      exact hmet
  | @tail u v _ hstep ih =>
      have hside : (tokens.setSide side u).side side = u := Equation.side_setSide tokens side u
      have hnext := h.rewrite hcoded ih side (hside.symm ▸ hstep)
      have hset : (tokens.setSide side u).setSide side v = tokens.setSide side v := by
        cases side <;> rfl
      rwa [hset] at hnext

theorem Barren.root (h : s.Barren taken) {axioms : List Equation} {goal : Equation}
    {withGraph : Bool} (hcoded : s.context.Coded axioms goal withGraph) :
    ∃ t ∈ taken, t.Holds s.context.codes s.context.goal.tokens := by
  obtain ⟨t, ht, hkey⟩ := List.mem_map.mp ((h.mem_seen _).mp h.explored.root)
  exact ⟨t, ht, hcoded.holds_root.congr hkey⟩

/-- The sides of the stored theorem cannot be rewritten to one word. -/
theorem Barren.refutes (h : s.Barren taken) {axioms : List Equation} {goal : Equation}
    {withGraph : Bool} (hcoded : s.context.Coded axioms goal withGraph) {w : List Token}
    (hleft : Thue axioms s.context.goal.tokens.left w)
    (hright : Thue axioms s.context.goal.tokens.right w) : False := by
  have hmet := h.thue hcoded (h.root hcoded) .left hleft
  obtain ⟨t, ht, hholds⟩ := h.thue hcoded hmet .right hright
  have hequal : t.left = t.right := (hholds .left).trans (hholds .right).symm
  have hopen := h.not_terminal ht
  simp [State.isTerminal, hequal] at hopen

end Search

namespace Session

/-- If a session that a prover began reports that there is no proof, and no
request was refused, then rewriting either side of the theorem by the axioms, at
any place and any number of times, never leads to a common word. -/
theorem noProof_refutes {p : Prover} {axioms : List Equation} {goal : Equation}
    {origin s : Session} (hp : p.Entered axioms) (horigin : p.start goal = .ok origin)
    (hs : origin.Driven s) {r : Report} (hr : s.Returns r) (hstatus : r.status = .noProof)
    (hadmitted : r.stats.rejectedBatches = 0) :
    ¬ ∃ w, Thue axioms goal.left w ∧ Thue axioms goal.right w := by
  rintro ⟨w, hleft, hright⟩
  obtain ⟨t, ht, houtcome⟩ := hs.returns hr
  have hattempt := ht.attempt (attempt_start hp horigin)
  obtain ⟨hstats, hcandidates, hpending⟩ := hattempt.unproved r houtcome hstatus
  obtain ⟨taken, hexplored⟩ := hattempt.begun.explored
  have hbarren : t.search.Barren taken :=
    ⟨⟨hexplored, hpending, hstats ▸ hadmitted⟩, hcandidates⟩
  have hcoded := hattempt.begun.context
  have hgoal := hcoded.goal_eq
  unfold CodedEquation.entered at hgoal
  split_ifs at hgoal
  · rw [← hgoal] at hleft hright
    exact hbarren.refutes hcoded hright hleft
  · rw [← hgoal] at hleft hright
    exact hbarren.refutes hcoded hleft hright

/-- Three ones are not four, if two ones are a two; the session was put away
after its first state. -/
theorem noProof_refutes_ones :
    ¬ ∃ w, Thue [⟨["1", "1"], ["2"]⟩] ["1", "1", "1"] w ∧
      Thue [⟨["1", "1"], ["2"]⟩] ["1", "1", "1", "1"] w := by
  have hrun : ∃ p, Prover.setAxioms {} [⟨["1", "1"], ["2"]⟩] = .ok p ∧ ∃ s,
      p.start ⟨["1", "1", "1"], ["1", "1", "1", "1"]⟩ = .ok s ∧ ∃ t,
      (s.advance {} 1).2.1.outcome = none ∧
      ofSnapshot (s.advance {} 1).2.1.snapshot = .ok t ∧ ∃ r,
      (t.advance {} 99).2.2 = .reported r ∧ r.status = .noProof ∧
        r.stats.rejectedBatches = 0 :=
    ⟨_, by cbv, _, by cbv, _, by cbv, by cbv, _, by cbv, by cbv, by cbv⟩
  obtain ⟨p, hp, s, hs, t, hnone, ht, r, hr, hstatus, hadmitted⟩ := hrun
  exact noProof_refutes (.setAxioms (.fresh _) hp) hs
    (.resume (.advance {} 1 .start) hnone ht) (.inl ⟨_, _, hr⟩) hstatus hadmitted

end Session

end ThueProver
