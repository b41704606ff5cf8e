import Mathlib
import ThueProver.Proofs.Exhaustion
import ThueProver.Proofs.PrimeCodes
import ThueProver.Proofs.Refutation
import ThueProver.Proofs.Verdicts

/-!
# The order of the axioms

Products forget the order of tokens. What a search can derive is therefore what
rewriting derives if tokens may be rearranged in between, and a search that is
neither cut short nor refused anything comes upon a candidate exactly if the
sides of its theorem are connected in this way. The order of the axioms does not
matter for that, so it does not matter for the verdict that there is no proof.

It does matter for the other two verdicts. A pair of products is met once, with
the steps that led to it first, and only these are checked on the tokens. Which
steps come first depends on the order of the axioms: with one order they are a
proof, with the other they fail on the tokens and the pair is not met again.
-/
namespace ThueProver

/-- The words are connected by rewrites and rearrangements. -/
def Abelian (axioms : List Equation) : List Token → List Token → Prop :=
  Relation.ReflTransGen fun u v => u.Perm v ∨ RewritesBy axioms u v

namespace Abelian
variable {axioms axioms' : List Equation} {u v w : List Token}

theorem refl (axioms : List Equation) (u : List Token) : Abelian axioms u u :=
  Relation.ReflTransGen.refl

theorem trans (huv : Abelian axioms u v) (hvw : Abelian axioms v w) : Abelian axioms u w :=
  Relation.ReflTransGen.trans huv hvw

theorem perm (h : u.Perm v) : Abelian axioms u v := Relation.ReflTransGen.single (.inl h)

theorem rewrite {e : Equation} (he : e ∈ axioms) (h : e.Rewrites u v) : Abelian axioms u v :=
  Relation.ReflTransGen.single (.inr ⟨e, he, h⟩)

theorem symm (h : Abelian axioms u v) : Abelian axioms v u := by
  induction h with
  | refl => exact refl axioms u
  | tail _ hstep ih =>
      rcases hstep with hperm | ⟨e, he, hrewrite⟩
      · exact (perm hperm.symm).trans ih
      · exact (rewrite he hrewrite.symm).trans ih

/-- Only the set of the axioms matters. -/
theorem of_subset (haxioms : axioms ⊆ axioms') (h : Abelian axioms u v) : Abelian axioms' u v := by
  refine Relation.ReflTransGen.mono ?_ _ _ h
  rintro u v (hperm | ⟨e, he, hrewrite⟩)
  · exact .inl hperm
  · exact .inr ⟨e, haxioms he, hrewrite⟩

theorem iff_of_perm (haxioms : axioms.Perm axioms') : Abelian axioms u v ↔ Abelian axioms' u v :=
  ⟨of_subset haxioms.subset, of_subset haxioms.symm.subset⟩

/-- The sides of the stored equation are connected if those entered are. -/
theorem iff_entered (e : CodedEquation) : Abelian axioms e.tokens.left e.tokens.right ↔
    Abelian axioms e.entered.left e.entered.right := by
  unfold CodedEquation.entered
  split_ifs
  · exact ⟨symm, symm⟩
  · exact Iff.rfl

end Abelian

namespace Context
variable {c : Context} {axioms : List Equation} {goal : Equation} {withGraph : Bool}

/-- The sides of the state are the products of words that are connected with the
sides of the theorem. -/
def Spells (c : Context) (axioms : List Equation) (s : State) : Prop :=
  ∃ tokens : Equation, s.Holds c.codes tokens ∧ ∀ side,
    c.codes.Covers (tokens.side side) ∧
      Abelian axioms (c.goal.tokens.side side) (tokens.side side)

theorem Coded.spells_root (h : c.Coded axioms goal withGraph) :
    c.Spells axioms (.root c.goal) := by
  refine ⟨c.goal.tokens, h.holds_root, ?_⟩
  intro side
  cases side with
  | left => exact ⟨h.goal_codedBy.left_covered, .refl axioms _⟩
  | right => exact ⟨h.goal_codedBy.right_covered, .refl axioms _⟩

/-- A move takes the tokens of one side of a rule out of a word, wherever they
stand, and puts those of the other side in their place. -/
theorem Coded.spells_move (h : c.Coded axioms goal withGraph) {s t : State}
    (hs : c.Spells axioms s) {rule : Rule} (hrule : rule ∈ c.book.rules) {op : Opcode}
    (hmove : s.move? op rule = some t) : c.Spells axioms t := by
  obtain ⟨tokens, hholds, hwords⟩ := hs
  obtain ⟨hadmits, rfl⟩ := State.move?_eq_some.mp hmove
  obtain ⟨side, d⟩ := op
  obtain ⟨hcovers, hconnected⟩ := hwords side
  have hcoded := h.rules_codedBy rule hrule
  have haxiom : rule.entered ∈ axioms := h.axioms_eq ▸ List.mem_map_of_mem hrule
  have hdivides : c.codes.product (rule.pattern d) ∣ c.codes.product (tokens.side side) := by
    simp only [State.admits, hcoded.removed_eq, hholds side, Bool.and_eq_true, beq_iff_eq]
      at hadmits
    exact Nat.dvd_of_mod_eq_zero hadmits.2
  obtain ⟨rest, hrest⟩ :=
    (h.faithful.product_dvd_iff (hcoded.pattern_covered d) hcovers).mp hdivides
  have hquotient : c.codes.product (tokens.side side) / c.codes.product (rule.pattern d) *
      c.codes.product (rule.replacement d) = c.codes.product (rule.replacement d ++ rest) := by
    rw [Codebook.product_of_perm hrest]
    exact (State.product_replace h.positive [] (rule.pattern d) (rule.replacement d) rest).2
  have hnext : Abelian axioms (tokens.side side) (rule.replacement d ++ rest) :=
    (Abelian.perm hrest).trans (.rewrite haxiom (rule.entered_rewrites d [] rest))
  refine ⟨tokens.setSide side (rule.replacement d ++ rest), ?_, ?_⟩
  · simp only [hcoded.removed_eq, hcoded.inserted_eq, hholds side, hquotient]
    intro other
    have hother := hholds other
    cases side <;> cases other <;> first | rfl | exact hother
  · intro other
    by_cases hsame : other = side
    · subst hsame
      rw [Equation.side_setSide]
      exact ⟨(hcoded.replacement_covered d).append (hcovers.of_perm hrest).of_append_right,
        hconnected.trans hnext⟩
    · rw [Equation.side_setSide_of_ne tokens hsame]
      exact hwords other

theorem Coded.spells (h : c.Coded axioms goal withGraph) {s : State} (hs : c.Derives s) :
    c.Spells axioms s := by
  induction hs with
  | root => exact h.spells_root
  | child _ _ ht ih =>
      obtain ⟨rule, hrule, op, hmove⟩ := mem_children.mp ht
      exact h.spells_move ih hrule hmove

/-- Rewriting and rearranging the left side leads past derived states, until one
of them is a candidate. -/
theorem Coded.derives_word (h : c.Coded axioms goal withGraph) {w : List Token}
    (hw : Abelian axioms c.goal.tokens.left w) :
    (∃ t, c.Derives t ∧ t.isTerminal = true) ∨
      ∃ t, c.Derives t ∧ t.Holds c.codes ⟨w, c.goal.tokens.right⟩ := by
  induction hw with
  | refl => exact .inr ⟨_, .root, h.holds_root⟩
  | @tail u v _ hstep ih =>
      obtain hdone | ⟨t, ht, hholds⟩ := ih
      · exact .inl hdone
      rcases hstep with hperm | ⟨e, he, hrewrite⟩
      · refine .inr ⟨t, ht, ?_⟩
        intro side
        cases side with
        | left => exact (hholds .left).trans (Codebook.product_of_perm hperm)
        | right => exact hholds .right
      · cases hopen : t.isTerminal with
        | true => exact .inl ⟨t, ht, hopen⟩
        | false =>
            rw [← h.axioms_eq] at he
            obtain ⟨rule, hrule, rfl⟩ := List.mem_map.mp he
            have hside : rule.entered.Rewrites
                (Equation.side ⟨u, c.goal.tokens.right⟩ .left) v := hrewrite
            obtain ⟨op, t', hmove, hholds'⟩ :=
              hholds.move h.positive (h.rules_codedBy rule hrule) hside
            exact .inr ⟨t', .child ht hopen (mem_children.mpr ⟨rule, hrule, op, hmove⟩), hholds'⟩

/-- There is a candidate to derive exactly if the sides of the theorem are
connected by rewrites and rearrangements. -/
theorem Coded.exists_terminal_iff (h : c.Coded axioms goal withGraph) :
    (∃ t, c.Derives t ∧ t.isTerminal = true) ↔ Abelian axioms goal.left goal.right := by
  rw [← h.goal_eq, ← Abelian.iff_entered]
  constructor
  · rintro ⟨t, ht, hterminal⟩
    obtain ⟨tokens, hholds, hwords⟩ := h.spells ht
    obtain ⟨hleft, hleft'⟩ := hwords .left
    obtain ⟨hright, hright'⟩ := hwords .right
    have hequal : t.left = t.right := by simpa [State.isTerminal] using hterminal
    have hperm : tokens.left.Perm tokens.right :=
      (h.faithful.product_eq_iff hleft hright).mp
        (((hholds .left).symm.trans hequal).trans (hholds .right))
    exact (hleft'.trans (.perm hperm)).trans hright'.symm
  · intro hconnected
    obtain hdone | ⟨t, ht, hholds⟩ := h.derives_word hconnected
    · exact hdone
    · have hequal : t.left = t.right := (hholds .left).trans (hholds .right).symm
      exact ⟨t, ht, by simpa [State.isTerminal] using hequal⟩

end Context

namespace Search
variable {s : Search} {taken : List State}

theorem Explored.exists_terminal (h : s.Explored taken) (hcandidates : s.stats.candidates ≠ 0) :
    ∃ t, s.context.Derives t ∧ t.isTerminal = true := by
  rw [h.candidates, ← Nat.pos_iff_ne_zero, List.countP_pos_iff] at hcandidates
  obtain ⟨t, ht, hterminal⟩ := hcandidates
  exact ⟨t, h.derived t (List.mem_append_left _ ht), hterminal⟩

/-- An exhausted search has taken up every candidate that can be derived. -/
theorem Exhausted.candidates_eq_zero_iff (h : s.Exhausted taken) :
    s.stats.candidates = 0 ↔ ¬ ∃ t, s.context.Derives t ∧ t.isTerminal = true := by
  constructor
  · rintro hnone ⟨t, ht, hterminal⟩
    obtain ⟨u, hu, hkey⟩ := List.mem_map.mp ((h.mem_taken _).mpr ht.reachable)
    rw [h.explored.candidates, List.countP_eq_zero] at hnone
    exact hnone u hu ((State.isTerminal_congr hkey).trans hterminal)
  · intro hnone
    by_contra hcandidates
    exact hnone (h.explored.exists_terminal hcandidates)

end Search

namespace Report

/-- The attempt had a proof, or it went on until nothing was left; and no request
was refused. -/
structure Complete (r : Report) : Prop where
  ended : r.stopReason = none ∨ r.stopReason = some .exhausted
  admitted : r.stats.rejectedBatches = 0

end Report

namespace Session
variable {axioms : List Equation} {goal : Equation}

/-- The three verdicts of a complete attempt, and what each says about its
candidates. -/
inductive Verdict (s : Session) (r : Report) : Prop
  | proved : r.status = .proved → s.search.stats.candidates ≠ 0 → Verdict s r
  | failed : r.status = .verificationFailed → 0 < r.rejected →
      s.search.stats.candidates ≠ 0 → Verdict s r
  | noProof : r.status = .noProof → s.search.stopped = some .exhausted →
      s.search.stats.candidates = 0 → Verdict s r

theorem Tallied.verdict {s : Session} (h : s.Tallied axioms goal 0) {r : Report}
    (hr : s.outcome = some r) (hended : r.stopReason = none ∨ r.stopReason = some .exhausted) :
    s.Verdict r := by
  obtain ⟨-, hrejected, hverdict⟩ := h.settled r hr
  have hcounted := h.counted
  rw [proofs_of_outcome hr] at hcounted
  rcases hverdict with ⟨-, hproved⟩ | ⟨reason, hstopped, hreason, hstatus⟩
  · refine .proved hproved ?_
    rw [hcounted, Report.isProved, hproved]
    simp
  · have hexhausted : reason = .exhausted := by
      rcases hended with hended | hended <;> simp_all
    subst hexhausted
    simp only [Status.ofStop] at hstatus
    split_ifs at hstatus with hsome
    · exact .failed hstatus (by omega) (by omega)
    · refine .noProof hstatus hstopped ?_
      rw [hcounted, Report.isProved, hstatus]
      simp
      omega

end Session

namespace Prover
variable {axioms axioms' : List Equation} {goal : Equation}

/-- A complete attempt comes to the verdict that there is no proof exactly if
the sides are not connected even if tokens may be rearranged. Otherwise it is
proved, or it rejected a candidate. -/
theorem prove_complete {p : Prover} (hp : p.Entered axioms) {worker : Worker} {r : Report}
    (hr : p.prove worker goal = .ok r) (hcomplete : r.Complete) :
    (r.status = .noProof ↔ ¬ Abelian axioms goal.left goal.right) ∧
      (r.status = .noProof ∨ r.status = .proved ∨
        r.status = .verificationFailed ∧ 0 < r.rejected) := by
  obtain ⟨origin, horigin, hrun⟩ := prove_eq_ok.mp hr
  obtain ⟨s, hs, houtcome⟩ := Session.Revived.start.returns (.inr ⟨worker, hrun⟩)
  have htallied := hs.tallied (Session.tallied_start hp horigin)
  obtain ⟨taken, hexplored⟩ := htallied.begun.explored
  rw [← htallied.begun.context.exists_terminal_iff]
  cases htallied.verdict houtcome hcomplete.ended with
  | proved hproved hcandidates =>
      refine ⟨?_, .inr (.inl hproved)⟩
      simp [hproved, hexplored.exists_terminal hcandidates]
  | failed hfailed hrejected hcandidates =>
      refine ⟨?_, .inr (.inr ⟨hfailed, hrejected⟩)⟩
      simp [hfailed, hexplored.exists_terminal hcandidates]
  | noProof hnone hstopped hcandidates =>
      refine ⟨iff_of_true hnone ?_, .inl hnone⟩
      have hadmitted : s.search.stats.rejectedBatches = 0 := by
        rw [← (htallied.settled r houtcome).stats]
        exact hcomplete.admitted
      have hdone : s.search.Exhausted taken :=
        ⟨hexplored, hexplored.exhausted hstopped, hadmitted⟩
      exact hdone.candidates_eq_zero_iff.mp hcandidates

/-- Two provers with the same axioms in different orders come to the verdict that
there is no proof on the same theorems, if neither attempt is cut short nor
refused anything. So if one comes to a proof the other does as well, unless it
rejected a candidate. -/
theorem noProof_iff_of_perm {p p' : Prover} (hp : p.Entered axioms) (hp' : p'.Entered axioms')
    (hperm : axioms.Perm axioms') {worker worker' : Worker} {r r' : Report}
    (hr : p.prove worker goal = .ok r) (hr' : p'.prove worker' goal = .ok r')
    (hcomplete : r.Complete) (hcomplete' : r'.Complete) :
    (r.status = .noProof ↔ r'.status = .noProof) ∧
      (r.status = .proved →
        r'.status = .proved ∨ r'.status = .verificationFailed ∧ 0 < r'.rejected) ∧
      (r'.status = .proved →
        r.status = .proved ∨ r.status = .verificationFailed ∧ 0 < r.rejected) ∧
      (r.rejected = 0 → r'.rejected = 0 → (r.status = .proved ↔ r'.status = .proved)) := by
  obtain ⟨hnone, hverdict⟩ := prove_complete hp hr hcomplete
  obtain ⟨hnone', hverdict'⟩ := prove_complete hp' hr' hcomplete'
  have hsame : r.status = .noProof ↔ r'.status = .noProof := by
    rw [hnone, hnone', Abelian.iff_of_perm hperm]
  have hforward : r.status = .proved →
      r'.status = .proved ∨ r'.status = .verificationFailed ∧ 0 < r'.rejected := by
    intro hproved
    exact hverdict'.resolve_left fun h => by simp [hsame.mpr h] at hproved
  have hbackward : r'.status = .proved →
      r.status = .proved ∨ r.status = .verificationFailed ∧ 0 < r.rejected := by
    intro hproved
    exact hverdict.resolve_left fun h => by simp [hsame.mp h] at hproved
  refine ⟨hsame, hforward, hbackward, ?_⟩
  intro hclean hclean'
  constructor
  · intro hproved
    exact (hforward hproved).resolve_right fun h => by omega
  · intro hproved
    exact (hbackward hproved).resolve_right fun h => by omega

/-- A proof of two steps, whichever of the two axioms comes first. -/
theorem noProof_iff_of_perm_chain :
    ∃ (p p' : Prover) (r r' : Report),
      p.Entered [⟨["a", "a"], ["b"]⟩, ⟨["b"], ["c"]⟩] ∧
      p'.Entered [⟨["b"], ["c"]⟩, ⟨["a", "a"], ["b"]⟩] ∧
      p.prove {} ⟨["a", "a"], ["c"]⟩ = .ok r ∧
      p'.prove {} ⟨["a", "a"], ["c"]⟩ = .ok r' ∧
      r.Complete ∧ r'.Complete ∧ r.status = .proved ∧ r'.status = .proved := by
  have hrun : ∃ p, setAxioms {} [⟨["a", "a"], ["b"]⟩, ⟨["b"], ["c"]⟩] = .ok p ∧ ∃ s,
      p.start ⟨["a", "a"], ["c"]⟩ = .ok s ∧ ∃ r,
      (s.advance {} 9).2.2 = .reported r ∧ r.stopReason = none ∧ r.stats.rejectedBatches = 0 ∧
      r.rejected = 0 ∧ r.status = .proved :=
    ⟨_, by cbv, _, by cbv, _, by cbv, by cbv, by cbv, by cbv, by cbv⟩
  have hrun' : ∃ p, setAxioms {} [⟨["b"], ["c"]⟩, ⟨["a", "a"], ["b"]⟩] = .ok p ∧ ∃ s,
      p.start ⟨["a", "a"], ["c"]⟩ = .ok s ∧ ∃ r,
      (s.advance {} 9).2.2 = .reported r ∧ r.stopReason = none ∧ r.stats.rejectedBatches = 0 ∧
      r.rejected = 0 :=
    ⟨_, by cbv, _, by cbv, _, by cbv, by cbv, by cbv, by cbv⟩
  obtain ⟨p, hp, s, hs, r, hr, hended, hadmitted, hclean, hproved⟩ := hrun
  obtain ⟨p', hp', s', hs', r', hr', hended', hadmitted', hclean'⟩ := hrun'
  have hentered := Entered.setAxioms (.fresh {}) hp
  have hentered' := Entered.setAxioms (.fresh {}) hp'
  have hprove := prove_of_advance hs hr
  have hprove' := prove_of_advance hs' hr'
  have hcomplete : r.Complete := ⟨.inl hended, hadmitted⟩
  have hcomplete' : r'.Complete := ⟨.inl hended', hadmitted'⟩
  obtain ⟨-, -, -, hsame⟩ := noProof_iff_of_perm hentered hentered' (.swap _ _ []) hprove hprove'
    hcomplete hcomplete'
  exact ⟨p, p', r, r', hentered, hentered', hprove, hprove', hcomplete, hcomplete', hproved,
    (hsame hclean hclean').mp hproved⟩

/-- The axioms replace words that are rearrangements of each other by the same
word. The pair this leads to is met by the first of them, and only one of the
two applies to the tokens of the theorem. -/
theorem proved_depends_on_order :
    ∃ (p p' : Prover) (r r' : Report),
      setAxioms {} [⟨["a", "b"], ["c"]⟩, ⟨["b", "a"], ["c"]⟩] = .ok p ∧
      setAxioms {} [⟨["b", "a"], ["c"]⟩, ⟨["a", "b"], ["c"]⟩] = .ok p' ∧
      p.prove {} ⟨["a", "b"], ["c"]⟩ = .ok r ∧ p'.prove {} ⟨["a", "b"], ["c"]⟩ = .ok r' ∧
      r.Complete ∧ r'.Complete ∧ r.status = .proved ∧ r'.status = .verificationFailed := by
  have hrun : ∃ p, setAxioms {} [⟨["a", "b"], ["c"]⟩, ⟨["b", "a"], ["c"]⟩] = .ok p ∧ ∃ s,
      p.start ⟨["a", "b"], ["c"]⟩ = .ok s ∧ ∃ r, (s.advance {} 9).2.2 = .reported r ∧
      r.stopReason = none ∧ r.stats.rejectedBatches = 0 ∧ r.status = .proved :=
    ⟨_, by cbv, _, by cbv, _, by cbv, by cbv, by cbv, by cbv⟩
  have hrun' : ∃ p, setAxioms {} [⟨["b", "a"], ["c"]⟩, ⟨["a", "b"], ["c"]⟩] = .ok p ∧ ∃ s,
      p.start ⟨["a", "b"], ["c"]⟩ = .ok s ∧ ∃ r, (s.advance {} 9).2.2 = .reported r ∧
      r.stopReason = some .exhausted ∧ r.stats.rejectedBatches = 0 ∧
      r.status = .verificationFailed :=
    ⟨_, by cbv, _, by cbv, _, by cbv, by cbv, by cbv, by cbv⟩
  obtain ⟨p, hp, s, hs, r, hr, hended, hadmitted, hproved⟩ := hrun
  obtain ⟨p', hp', s', hs', r', hr', hended', hadmitted', hfailed⟩ := hrun'
  exact ⟨p, p', r, r', hp, hp', prove_of_advance hs hr, prove_of_advance hs' hr',
    ⟨.inl hended, hadmitted⟩, ⟨.inr hended', hadmitted'⟩, hproved, hfailed⟩

end Prover

end ThueProver
