import Mathlib.Data.Multiset.AddSub
import ThueProver.Proofs.Moves
import ThueProver.Proofs.PrimeCodes
import ThueProver.Proofs.Refutation

/-!
# Arithmetic on products is rewriting of multisets

A codebook may be asked for a prime, for the prime of a token and for the product
of a word, in any order. Whatever else it was asked for in between, the products
it handed out can be compared: one divides another exactly if the multiset of its
word is included in that of the other word, and a move on products takes one
multiset out and puts another in its place.
-/
namespace ThueProver

namespace Codebook

/-- One call: a prime is drawn, or a token or a word is given its code. -/
inductive Called (a : Codebook) : Codebook → Prop
  | draw : Called a a.draw.2
  | intern (token : Token) : Called a (a.intern token).2
  | encode (tokens : List Token) : Called a (a.encode tokens).2

/-- Calls lead from one codebook to the other. -/
def LeadsTo : Codebook → Codebook → Prop := Relation.ReflTransGen Called

/-- A call on the codebook, made when it was as now or smaller, encoded the word as
this product. -/
def Encoded (book : Codebook) (tokens : List Token) (product : Nat) : Prop :=
  ∃ a, LeadsTo {} a ∧ (a.encode tokens).1 = product ∧ (a.encode tokens).2.LeadsTo book

theorem Faithful.draw {book : Codebook} (h : book.Faithful) : book.draw.2.Faithful := by
  obtain ⟨bound, hbelow⟩ := h.drawn
  obtain ⟨hprime, hnext⟩ := hbelow.next
  constructor
  · exact ⟨_, hnext.concat hprime⟩
  · exact h.owned.trans (List.sublist_append_left _ _)

/-- A call takes no prime away, and the primes drawn stay the first ones. -/
theorem Called.kept {a b : Codebook} (h : a.Called b) : a.Grows b ∧ (a.Faithful → b.Faithful) := by
  cases h with
  | draw => exact ⟨.refl a, Faithful.draw⟩
  | intern token => exact ⟨grows_intern a token, fun ha => ha.intern token⟩
  | encode tokens =>
      constructor
      · exact (encode_spec a tokens).1
      · intro ha
        exact encode_induction (fun _ token hbook => hbook.intern token) ha tokens

theorem LeadsTo.kept {a b : Codebook} (h : a.LeadsTo b) :
    a.Grows b ∧ (a.Faithful → b.Faithful) := by
  induction h with
  | refl => exact ⟨.refl a, id⟩
  | tail _ hcall ih =>
      constructor
      · exact ih.1.trans hcall.kept.1
      · intro ha
        exact hcall.kept.2 (ih.2 ha)

/-- A product stays the product of its word, and all tokens of the word keep their
primes. -/
theorem Encoded.spec {book : Codebook} {tokens : List Token} {product : Nat}
    (h : book.Encoded tokens product) :
    book.Faithful ∧ book.Covers tokens ∧ product = book.product tokens := by
  obtain ⟨a, ha, hproduct, hlater⟩ := h
  obtain ⟨-, hcovers, heq⟩ := encode_spec a tokens
  have hgrows := hlater.kept.1
  have hfaithful : (a.encode tokens).2.Faithful :=
    (Called.encode tokens).kept.2 (ha.kept.2 faithful_empty)
  refine ⟨hlater.kept.2 hfaithful, hcovers.grows hgrows, ?_⟩
  rw [product_of_grows hgrows hcovers, ← heq, hproduct]

section
variable {book : Codebook} {u v : List Token}

/-- A product divides another one exactly if its multiset is included. -/
theorem Faithful.product_dvd_iff_le (h : book.Faithful) (hu : book.Covers u)
    (hv : book.Covers v) : book.product u ∣ book.product v ↔ (u : Multiset Token) ≤ v := by
  rw [h.product_dvd_iff hu hv, Multiset.le_iff_exists_add]
  constructor
  · intro hsplit
    obtain ⟨rest, hperm⟩ := hsplit
    exact ⟨rest, Multiset.coe_eq_coe.mpr hperm⟩
  · intro hsplit
    obtain ⟨rest, heq⟩ := hsplit
    induction rest using Quot.inductionOn with
    | h rest => exact ⟨rest, Multiset.coe_eq_coe.mp heq⟩

/-- Dividing by the product of a part and multiplying by the product of a word
leaves the product of what remains and that word. -/
theorem product_exchange (h : book.Positive) {word rest pattern replacement : List Token}
    (hsplit : u.Perm (pattern ++ rest)) (hword : word.Perm (replacement ++ rest)) :
    book.product u / book.product pattern * book.product replacement = book.product word := by
  rw [product_of_perm hsplit, product_of_perm hword]
  exact (State.product_replace h [] pattern replacement rest).2

end

end Codebook

namespace State
variable {codes : Codebook} {s t : State} {op : Opcode} {rule : Rule}

/-- A move changes the side its opcode names, and no other. -/
theorem side_of_move? (h : s.move? op rule = some t) :
    t.side op.side = s.side op.side / rule.removed op.direction * rule.inserted op.direction ∧
      ∀ other, other ≠ op.side → t.side other = s.side other := by
  obtain ⟨-, rfl⟩ := move?_eq_some.mp h
  obtain ⟨side, direction⟩ := op
  constructor
  · cases side <;> rfl
  · intro other hother
    cases side <;> cases other <;> first | rfl | exact absurd rfl hother

/-- A step applies exactly if what it takes away is not zero and divides. -/
theorem move?_isSome_iff_dvd (h : 0 < rule.removed op.direction) :
    (s.move? op rule).isSome ↔ rule.removed op.direction ∣ s.side op.side := by
  rw [move?_isSome, admits, Bool.and_eq_true, beq_iff_eq, Nat.dvd_iff_mod_eq_zero]
  constructor
  · intro hadmits
    exact hadmits.2
  · intro hmod
    exact ⟨bne_iff_ne.mpr (Nat.ne_of_gt h), hmod⟩

end State

namespace Codebook

/-- Products handed out by one codebook, at whatever times, compare as the
multisets of their words. A step whose rule takes one such product away and puts
another in its place applies to a third one exactly if the first multiset is
included; the side it changes is then the product of the words that have these
tokens less the first and with the second, and the other side is as it was. -/
theorem encoded_as_multisets {book : Codebook} {xs ps rs : List Token} {x p r : Nat}
    (hx : book.Encoded xs x) (hp : book.Encoded ps p) (hr : book.Encoded rs r) :
    (p ∣ x ↔ (ps : Multiset Token) ≤ xs) ∧ (x = p ↔ (xs : Multiset Token) = ps) ∧
      ∀ (s : State) (op : Opcode) (rule : Rule), s.side op.side = x →
        rule.removed op.direction = p → rule.inserted op.direction = r →
        ((s.move? op rule).isSome ↔ (ps : Multiset Token) ≤ xs) ∧
          ∀ t, s.move? op rule = some t →
            (∀ word : List Token, (word : Multiset Token) = xs - ps + rs →
              book.encode word = (t.side op.side, book)) ∧
            ∀ other, other ≠ op.side → t.side other = s.side other := by
  obtain ⟨hbook, hxs, rfl⟩ := hx.spec
  obtain ⟨-, hps, rfl⟩ := hp.spec
  obtain ⟨-, hrs, rfl⟩ := hr.spec
  have hdvd := hbook.product_dvd_iff_le hps hxs
  refine ⟨hdvd, (hbook.product_eq_iff hxs hps).trans Multiset.coe_eq_coe.symm, ?_⟩
  intro s op rule hside hremoved hinserted
  have happlies : (s.move? op rule).isSome ↔ (ps : Multiset Token) ≤ xs := by
    rw [State.move?_isSome_iff_dvd (hremoved ▸ hbook.positive.product_pos ps), hremoved, hside]
    exact hdvd
  refine ⟨happlies, ?_⟩
  intro t ht
  obtain ⟨hchanged, hothers⟩ := State.side_of_move? ht
  refine ⟨?_, hothers⟩
  intro word hword
  have hle : (ps : Multiset Token) ≤ xs := happlies.mp (by rw [ht]; rfl)
  -- What remains of the word is a list of its own, since the pattern is a part of it.
  have hrest : (xs : Multiset Token) = ps + ↑(xs.diff ps) := by
    rw [← Multiset.coe_sub, add_tsub_cancel_of_le hle]
  have hsplit : xs.Perm (ps ++ xs.diff ps) := Multiset.coe_eq_coe.mp hrest
  have hperm : word.Perm (rs ++ xs.diff ps) := by
    rw [← Multiset.coe_eq_coe, hword, Multiset.coe_sub, add_comm]
    rfl
  have hcovers : book.Covers word := by
    apply Covers.of_perm _ hperm.symm
    exact hrs.append (hxs.of_perm hsplit).of_append_right
  rw [encode_of_covers hcovers, hchanged, hremoved, hinserted, hside,
    product_exchange hbook.positive hsplit hperm]

/-- Three words, between which a prime is drawn and given to no token: taking `a`
out of `a b a` and putting `c b` in leaves the tokens of `b a c b`. -/
theorem encoded_as_multisets_growing :
    ∃ book : Codebook, book.Encoded ["a", "b", "a"] 12 ∧ book.Encoded ["a"] 2 ∧
      book.Encoded ["c", "b"] 21 ∧ ∃ t,
      State.move? ⟨12, 12, []⟩ ⟨.left, .reduce⟩ ⟨⟨2, 21, ⟨["a"], ["c", "b"]⟩, false⟩, 1⟩ = some t ∧
      book.encode ["b", "a", "c", "b"] = (t.left, book) ∧ t.right = 12 := by
  have hdrawn : LeadsTo (encode {} ["a", "b", "a"]).2 (encode {} ["a", "b", "a"]).2.draw.2 :=
    .single .draw
  have hone := hdrawn.tail (.encode ["a"])
  have htwo := hone.tail (.encode ["c", "b"])
  have hstart : LeadsTo {} (encode {} ["a", "b", "a"]).2 := .single (.encode _)
  have hx : Encoded _ ["a", "b", "a"] 12 := ⟨{}, .refl, by cbv, htwo⟩
  have hp : Encoded _ ["a"] 2 := ⟨_, hstart.trans hdrawn, by cbv, .single (.encode ["c", "b"])⟩
  have hr : Encoded _ ["c", "b"] 21 := ⟨_, hstart.trans hone, by cbv, .refl⟩
  obtain ⟨-, -, hmoves⟩ := encoded_as_multisets hx hp hr
  obtain ⟨-, hresult⟩ := hmoves ⟨12, 12, []⟩ ⟨.left, .reduce⟩
    ⟨⟨2, 21, ⟨["a"], ["c", "b"]⟩, false⟩, 1⟩ rfl rfl rfl
  have hmove : State.move? ⟨12, 12, []⟩ ⟨.left, .reduce⟩
      ⟨⟨2, 21, ⟨["a"], ["c", "b"]⟩, false⟩, 1⟩ = some ⟨126, 12, [⟨⟨.left, .reduce⟩, 1⟩]⟩ := by
    decide
  obtain ⟨hword, hother⟩ := hresult _ hmove
  exact ⟨_, hx, hp, hr, _, hmove, hword ["b", "a", "c", "b"] (by decide),
    hother .right (by decide)⟩

end Codebook

end ThueProver
