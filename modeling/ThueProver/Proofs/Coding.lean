import Mathlib.Algebra.BigOperators.Group.List.Basic
import ThueProver.Proofs.History

/-!
# Codes that last

A codebook only grows: a token that owns a prime keeps it. A product made at one
time is therefore the product that any later codebook gives the same tokens, and
coding the axioms again with the codebook of a finished session changes neither
the rules nor the codebook. A codebook in which every prime has an owner is
reproduced by its symbols alone; this is what a snapshot keeps of it.
-/
namespace ThueProver

namespace Codebook

/-- Every token of `a` has the same prime in `b`. -/
def Grows (a b : Codebook) : Prop :=
  ∀ token p, a.primeOf? token = some p → b.primeOf? token = some p

theorem Grows.refl (a : Codebook) : a.Grows a := fun _ _ h => h

theorem Grows.trans {a b c : Codebook} (hab : a.Grows b) (hbc : b.Grows c) : a.Grows c :=
  fun token p h => hbc token p (hab token p h)

/-- Every token of the list owns a prime. -/
def Covers (book : Codebook) (tokens : List Token) : Prop :=
  ∀ token ∈ tokens, ∃ p, book.primeOf? token = some p

/-- The product of the primes of a list; a token without one counts for nothing. -/
def product (book : Codebook) (tokens : List Token) : Nat :=
  (tokens.map fun token => (book.primeOf? token).getD 1).prod

theorem product_append (book : Codebook) (xs ys : List Token) :
    book.product (xs ++ ys) = book.product xs * book.product ys := by
  simp [product]

theorem product_of_grows {a b : Codebook} (h : a.Grows b) {tokens : List Token}
    (hcovers : a.Covers tokens) : b.product tokens = a.product tokens := by
  unfold product
  congr 1
  apply List.map_congr_left
  intro token htoken
  obtain ⟨p, hp⟩ := hcovers token htoken
  rw [hp, h token p hp]

theorem Covers.grows {a b : Codebook} (h : a.Grows b) {tokens : List Token}
    (hcovers : a.Covers tokens) : b.Covers tokens := by
  intro token htoken
  obtain ⟨p, hp⟩ := hcovers token htoken
  exact ⟨p, h token p hp⟩

theorem intern_of_known {book : Codebook} {token : Token} {p : Nat}
    (h : book.primeOf? token = some p) : book.intern token = (p, book) := by
  simp [intern, h]

theorem intern_of_new {book : Codebook} {token : Token} (h : book.primeOf? token = none) :
    book.intern token = (Primes.next book.primes,
      { primes := book.primes ++ [Primes.next book.primes]
        owners := book.owners ++ [(token, Primes.next book.primes)] }) := by
  simp [intern, h, draw]

theorem primeOf?_concat (primes : List Nat) (owners : List (Token × Nat)) (token other : Token)
    (p : Nat) :
    primeOf? { primes, owners := owners ++ [(token, p)] } other =
      (owners.lookup other).or (if other = token then some p else none) := by
  unfold primeOf?
  rw [List.lookup_append]
  congr 1
  by_cases h : other = token
  · rw [h, List.lookup_cons_self, if_pos rfl]
  · rw [if_neg h, List.lookup_eq_none_iff]
    simpa using h

theorem grows_intern (book : Codebook) (token : Token) : book.Grows (book.intern token).2 := by
  intro other p hother
  cases h : book.primeOf? token with
  | some q => rwa [intern_of_known h]
  | none =>
      rw [intern_of_new h, primeOf?_concat, show book.owners.lookup other = some p from hother]
      rfl

theorem primeOf?_intern (book : Codebook) (token : Token) :
    (book.intern token).2.primeOf? token = some (book.intern token).1 := by
  cases h : book.primeOf? token with
  | some p => rw [intern_of_known h, h]
  | none =>
      rw [intern_of_new h, primeOf?_concat, show book.owners.lookup token = none from h]
      simp

/-- What encoding a list does: the codebook grows until it covers the list, and
the result is its product. -/
theorem encode_spec (book : Codebook) (tokens : List Token) :
    book.Grows (book.encode tokens).2 ∧ (book.encode tokens).2.Covers tokens ∧
      (book.encode tokens).1 = (book.encode tokens).2.product tokens := by
  induction tokens generalizing book with
  | nil => exact ⟨.refl book, by simp [Covers], rfl⟩
  | cons token rest ih =>
      obtain ⟨hgrows, hcovers, hproduct⟩ := ih (book.intern token).2
      have htoken := hgrows token _ (primeOf?_intern book token)
      simp only [encode]
      refine ⟨(grows_intern book token).trans hgrows, ?_, ?_⟩
      · intro other hother
        rcases List.mem_cons.mp hother with rfl | hother
        · exact ⟨_, htoken⟩
        · exact hcovers other hother
      · rw [hproduct]
        simp [product, htoken]

/-- A codebook that covers a list is not changed by it. -/
theorem encode_of_covers {book : Codebook} {tokens : List Token} (h : book.Covers tokens) :
    book.encode tokens = (book.product tokens, book) := by
  induction tokens with
  | nil => rfl
  | cons token rest ih =>
      obtain ⟨p, hp⟩ := h token List.mem_cons_self
      have hrest := ih fun other hother => h other (List.mem_cons_of_mem _ hother)
      simp [encode, intern_of_known hp, hrest, product, hp]

theorem encode_of_grows {a b : Codebook} {tokens : List Token} (h : (a.encode tokens).2.Grows b) :
    b.encode tokens = ((a.encode tokens).1, b) := by
  obtain ⟨-, hcovers, hproduct⟩ := encode_spec a tokens
  rw [encode_of_covers (hcovers.grows h), product_of_grows h hcovers, hproduct]

end Codebook

namespace CodedEquation

/-- The products are those the codebook gives the stored sides. -/
structure CodedBy (codes : Codebook) (e : CodedEquation) : Prop where
  left_covered : codes.Covers e.tokens.left
  right_covered : codes.Covers e.tokens.right
  left_eq : e.left = codes.product e.tokens.left
  right_eq : e.right = codes.product e.tokens.right

theorem CodedBy.grows {a b : Codebook} {e : CodedEquation} (h : e.CodedBy a) (hab : a.Grows b) :
    e.CodedBy b where
  left_covered := h.left_covered.grows hab
  right_covered := h.right_covered.grows hab
  left_eq := by rw [h.left_eq, Codebook.product_of_grows hab h.left_covered]
  right_eq := by rw [h.right_eq, Codebook.product_of_grows hab h.right_covered]

theorem CodedBy.canonical {codes : Codebook} {e : CodedEquation} (h : e.CodedBy codes) :
    e.canonical.CodedBy codes := by
  unfold CodedEquation.canonical
  split_ifs
  · exact h
  · exact ⟨h.right_covered, h.left_covered, h.right_eq, h.left_eq⟩

theorem canonical_ordered (e : CodedEquation) : e.canonical.right ≤ e.canonical.left := by
  unfold canonical
  split_ifs with hordered
  · simpa [isCanonical] using hordered
  · have hlt : e.left < e.right := by simpa [isCanonical] using hordered
    exact Nat.le_of_lt hlt

theorem canonical_of_ordered {e : CodedEquation} (h : e.right ≤ e.left) : e.canonical = e := by
  simp [canonical, isCanonical, h]

theorem CodedBy.removed_eq {codes : Codebook} {e : CodedEquation} (h : e.CodedBy codes)
    (d : Direction) : e.removed d = codes.product (e.pattern d) := by
  cases d with
  | reduce => exact h.left_eq
  | expand => exact h.right_eq

theorem CodedBy.inserted_eq {codes : Codebook} {e : CodedEquation} (h : e.CodedBy codes)
    (d : Direction) : e.inserted d = codes.product (e.replacement d) := by
  cases d with
  | reduce => exact h.right_eq
  | expand => exact h.left_eq

theorem CodedBy.pattern_covered {codes : Codebook} {e : CodedEquation} (h : e.CodedBy codes)
    (d : Direction) : codes.Covers (e.pattern d) := by
  cases d with
  | reduce => exact h.left_covered
  | expand => exact h.right_covered

theorem CodedBy.replacement_covered {codes : Codebook} {e : CodedEquation} (h : e.CodedBy codes)
    (d : Direction) : codes.Covers (e.replacement d) := by
  cases d with
  | reduce => exact h.right_covered
  | expand => exact h.left_covered

end CodedEquation

namespace Codebook

theorem code_spec (book : Codebook) (e : Equation) :
    book.Grows (book.code e).2 ∧ (book.code e).1.CodedBy (book.code e).2 := by
  obtain ⟨hgrows, hcovers, hproduct⟩ := encode_spec book e.left
  obtain ⟨hgrows', hcovers', hproduct'⟩ := encode_spec (book.encode e.left).2 e.right
  have hleft := product_of_grows hgrows' hcovers
  refine ⟨hgrows.trans hgrows', CodedEquation.CodedBy.canonical ?_⟩
  exact ⟨hcovers.grows hgrows', hcovers', hproduct.trans hleft.symm, hproduct'⟩

theorem code_of_grows {a b : Codebook} {e : Equation} (h : (a.code e).2.Grows b) :
    b.code e = ((a.code e).1, b) := by
  have hright : ((a.encode e.left).2.encode e.right).2.Grows b := h
  have hleft : (a.encode e.left).2.Grows b := (encode_spec _ e.right).1.trans hright
  simp only [code, encode_of_grows hleft, encode_of_grows hright]

end Codebook

namespace RuleBook

theorem appendAll_grows (book : RuleBook) (codes : Codebook) (axioms : List Equation) :
    codes.Grows (book.appendAll codes axioms).2 := by
  induction axioms generalizing book codes with
  | nil => exact .refl codes
  | cons e rest ih => exact (codes.code_spec e).1.trans (ih _ _)

/-- The rules of a book are coded by the codebook they left behind. -/
theorem appendAll_codedBy (book : RuleBook) (codes : Codebook) (axioms : List Equation)
    (h : ∀ rule ∈ book.rules, rule.CodedBy codes) :
    ∀ rule ∈ (book.appendAll codes axioms).1.rules,
      rule.CodedBy (book.appendAll codes axioms).2 := by
  induction axioms generalizing book codes with
  | nil => exact h
  | cons e rest ih =>
      apply ih
      intro rule hrule
      obtain ⟨hgrows, hcoded⟩ := codes.code_spec e
      rcases List.mem_append.mp hrule with hrule | hrule
      · exact (h rule hrule).grows hgrows
      · rw [List.mem_singleton.mp hrule]
        exact hcoded

/-- Coding the axioms again with a codebook that has grown yields the same rules
and leaves the codebook as it is. -/
theorem appendAll_of_grows {book : RuleBook} {a b : Codebook} {axioms : List Equation}
    (h : (book.appendAll a axioms).2.Grows b) :
    book.appendAll b axioms = ((book.appendAll a axioms).1, b) := by
  induction axioms generalizing book a with
  | nil => rfl
  | cons e rest ih =>
      have hcode : b.code e = ((a.code e).1, b) :=
        Codebook.code_of_grows ((appendAll_grows _ _ rest).trans h)
      have hrest := ih h
      simp only [appendAll, append, hcode] at hrest ⊢
      exact hrest

end RuleBook

namespace Codebook

/-- No prime is zero. -/
def Positive (book : Codebook) : Prop := ∀ token p, book.primeOf? token = some p → 0 < p

theorem le_firstUndivided (primes : List Nat) (tries n : Nat) :
    n ≤ Primes.firstUndivided primes tries n := by
  induction tries generalizing n with
  | zero => exact Nat.le_refl n
  | succ tries ih =>
      have hlater := ih (n + 2)
      unfold Primes.firstUndivided
      split_ifs <;> omega

theorem next_pos (primes : List Nat) : 0 < Primes.next primes := by
  unfold Primes.next
  split
  · decide
  · decide
  next p _ _ =>
    have hle := le_firstUndivided primes p (p + 2)
    omega

theorem Positive.intern {book : Codebook} (h : book.Positive) (token : Token) :
    (book.intern token).2.Positive := by
  intro other p hother
  cases hknown : book.primeOf? token with
  | some q =>
      rw [intern_of_known hknown] at hother
      exact h other p hother
  | none =>
      rw [intern_of_new hknown, primeOf?_concat] at hother
      rcases Option.or_eq_some_iff.mp hother with hold | ⟨-, hnew⟩
      · exact h other p hold
      · split_ifs at hnew
        cases hnew
        exact next_pos book.primes

theorem Positive.product_pos {book : Codebook} (h : book.Positive) (tokens : List Token) :
    0 < book.product tokens := by
  induction tokens with
  | nil => exact Nat.one_pos
  | cons token rest ih =>
      have htoken : 0 < (book.primeOf? token).getD 1 := by
        cases hp : book.primeOf? token with
        | none => exact Nat.one_pos
        | some p => exact h token p hp
      exact Nat.mul_pos htoken ih

/-- The symbols alone give the codebook back. -/
def Reproducible (book : Codebook) : Prop := ofSymbols book.symbols = book

theorem encode_append (book : Codebook) (xs ys : List Token) :
    (book.encode (xs ++ ys)).2 = ((book.encode xs).2.encode ys).2 := by
  induction xs generalizing book with
  | nil => rfl
  | cons token rest ih => exact ih (book.intern token).2

theorem encode_concat (book : Codebook) (tokens : List Token) (token : Token) :
    (book.encode (tokens ++ [token])).2 = ((book.encode tokens).2.intern token).2 :=
  encode_append book tokens [token]

theorem Reproducible.intern {book : Codebook} (h : book.Reproducible) (token : Token) :
    (book.intern token).2.Reproducible := by
  cases hknown : book.primeOf? token with
  | some p => rwa [intern_of_known hknown]
  | none =>
      have hsymbols : (book.intern token).2.symbols = book.symbols ++ [token] := by
        simp [intern_of_new hknown, symbols]
      unfold Reproducible ofSymbols at h ⊢
      rw [hsymbols, encode_concat, h]

/-- What holds of the empty codebook and is kept by every new token holds of each
codebook that coding leads to. -/
theorem encode_induction {P : Codebook → Prop}
    (hintern : ∀ book token, P book → P (book.intern token).2) {book : Codebook}
    (h : P book) (tokens : List Token) : P (book.encode tokens).2 := by
  induction tokens generalizing book with
  | nil => exact h
  | cons token rest ih => exact ih (hintern book token h)

theorem code_induction {P : Codebook → Prop}
    (hintern : ∀ book token, P book → P (book.intern token).2) {book : Codebook}
    (h : P book) (e : Equation) : P (book.code e).2 :=
  encode_induction hintern (encode_induction hintern h e.left) e.right

theorem appendAll_induction {P : Codebook → Prop}
    (hintern : ∀ book token, P book → P (book.intern token).2) {codes : Codebook}
    (h : P codes) (book : RuleBook) (axioms : List Equation) :
    P (book.appendAll codes axioms).2 := by
  induction axioms generalizing book codes with
  | nil => exact h
  | cons e rest ih => exact ih (code_induction hintern h e) _

end Codebook

namespace Context

/-- A theorem and axioms that were coded from nothing. -/
def Coded (axioms : List Equation) (goal : Equation) (withGraph : Bool) (c : Context) : Prop :=
  ∃ codes, RuleBook.ofEquations {} axioms = .ok (c.book, codes) ∧
    prepare codes c.book goal withGraph = .ok c

/-- A theorem and axioms that were coded after a list of symbols, which may hold
more tokens than they do, or fewer. -/
def CodedAfter (symbols : List Token) (axioms : List Equation) (goal : Equation)
    (withGraph : Bool) (c : Context) : Prop :=
  ∃ codes, RuleBook.ofEquations (.ofSymbols symbols) axioms = .ok (c.book, codes) ∧
    prepare codes c.book goal withGraph = .ok c

variable {symbols : List Token} {axioms : List Equation} {goal : Equation} {withGraph : Bool}
  {c : Context}

theorem CodedAfter.axioms_eq (h : c.CodedAfter symbols axioms goal withGraph) :
    c.book.rules.map (·.entered) = axioms := by
  obtain ⟨codes, hbook, -⟩ := h
  exact RuleBook.entered_of_ofEquations hbook

theorem CodedAfter.goal_eq (h : c.CodedAfter symbols axioms goal withGraph) :
    c.goal.entered = goal := by
  obtain ⟨codes, -, hcontext⟩ := h
  obtain ⟨-, hc⟩ := prepare_eq_ok.mp hcontext
  rw [hc]
  exact Codebook.code_entered codes goal

/-- What every new token keeps holds of the codebook of a context. -/
theorem CodedAfter.codes_induction (h : c.CodedAfter symbols axioms goal withGraph)
    {P : Codebook → Prop} (hempty : P {})
    (hintern : ∀ book token, P book → P (book.intern token).2) : P c.codes := by
  obtain ⟨codes, hbook, hcontext⟩ := h
  obtain ⟨-, happend⟩ := RuleBook.ofEquations_eq_ok.mp hbook
  obtain ⟨-, hc⟩ := prepare_eq_ok.mp hcontext
  have hsymbols : P (.ofSymbols symbols) := Codebook.encode_induction hintern hempty symbols
  have hcodes := Codebook.appendAll_induction hintern hsymbols {} axioms
  rw [happend] at hcodes
  rw [hc]
  exact Codebook.code_induction hintern hcodes goal

/-- The symbols, the axioms and the theorem of a context give it back. -/
theorem CodedAfter.recode (h : c.CodedAfter symbols axioms goal withGraph) :
    RuleBook.ofEquations (.ofSymbols c.codes.symbols) (c.book.rules.map (·.entered)) =
        .ok (c.book, c.codes) ∧
      prepare c.codes c.book c.goal.entered withGraph = .ok c := by
  have hsymbols : c.codes.Reproducible :=
    h.codes_induction rfl fun _ token hbook => hbook.intern token
  rw [h.axioms_eq, h.goal_eq, show Codebook.ofSymbols _ = _ from hsymbols]
  obtain ⟨codes, hbook, hcontext⟩ := h
  obtain ⟨hcheck, happend⟩ := RuleBook.ofEquations_eq_ok.mp hbook
  obtain ⟨hgoal, hc⟩ := prepare_eq_ok.mp hcontext
  have hcodes : c.codes = (codes.code goal).2 := by rw [hc]
  constructor
  · have hgrows : (RuleBook.appendAll {} (.ofSymbols symbols) axioms).2.Grows c.codes := by
      rw [happend, hcodes]
      exact (codes.code_spec goal).1
    have hagain := RuleBook.appendAll_of_grows hgrows
    rw [happend] at hagain
    exact RuleBook.ofEquations_eq_ok.mpr ⟨hcheck, hagain⟩
  · have hagain : c.codes.code goal = ((codes.code goal).1, c.codes) := by
      apply Codebook.code_of_grows
      rw [hcodes]
      exact .refl _
    rw [prepare_eq_ok, hagain]
    refine ⟨hgoal, hc.trans ?_⟩
    simp only [hcodes]

/-- Usable axioms can be coded with a usable theorem, and no others. -/
theorem exists_codedAfter_iff : (∃ c : Context, c.CodedAfter symbols axioms goal withGraph) ↔
    (∀ e ∈ axioms, e.Usable) ∧ goal.Usable := by
  constructor
  · rintro ⟨c, codes, hbook, hcontext⟩
    exact ⟨RuleBook.checkAll_eq_ok.mp (RuleBook.ofEquations_eq_ok.mp hbook).1,
      Equation.check_eq_ok.mp (prepare_eq_ok.mp hcontext).1⟩
  · rintro ⟨haxioms, hgoal⟩
    rcases happend : RuleBook.appendAll {} (.ofSymbols symbols) axioms with ⟨book, codes⟩
    have hbook := RuleBook.ofEquations_eq_ok.mpr ⟨RuleBook.checkAll_eq_ok.mpr haxioms, happend⟩
    obtain ⟨c, hcontext⟩ : ∃ c, prepare codes book goal withGraph = .ok c :=
      ⟨_, prepare_eq_ok.mpr ⟨Equation.check_eq_ok.mpr hgoal, rfl⟩⟩
    obtain rfl : c.book = book := by rw [(prepare_eq_ok.mp hcontext).2]
    exact ⟨c, codes, hbook, hcontext⟩

theorem Coded.after_nil (h : c.Coded axioms goal withGraph) :
    c.CodedAfter [] axioms goal withGraph := h

theorem Coded.axioms_eq (h : c.Coded axioms goal withGraph) :
    c.book.rules.map (·.entered) = axioms := h.after_nil.axioms_eq

theorem Coded.goal_eq (h : c.Coded axioms goal withGraph) : c.goal.entered = goal :=
  h.after_nil.goal_eq

theorem Coded.codes_induction (h : c.Coded axioms goal withGraph) {P : Codebook → Prop}
    (hempty : P {}) (hintern : ∀ book token, P book → P (book.intern token).2) : P c.codes :=
  h.after_nil.codes_induction hempty hintern

theorem Coded.positive (h : c.Coded axioms goal withGraph) : c.codes.Positive :=
  h.codes_induction (fun _ _ hp => by simp [Codebook.primeOf?] at hp)
    fun _ token hbook => hbook.intern token

theorem Coded.goal_codedBy (h : c.Coded axioms goal withGraph) : c.goal.CodedBy c.codes := by
  obtain ⟨codes, -, hcontext⟩ := h
  obtain ⟨-, hc⟩ := prepare_eq_ok.mp hcontext
  rw [hc]
  exact (codes.code_spec goal).2

theorem Coded.rules_codedBy (h : c.Coded axioms goal withGraph) :
    ∀ rule ∈ c.book.rules, rule.CodedBy c.codes := by
  obtain ⟨codes, hbook, hcontext⟩ := h
  obtain ⟨-, happend⟩ := RuleBook.ofEquations_eq_ok.mp hbook
  obtain ⟨-, hc⟩ := prepare_eq_ok.mp hcontext
  have hrules := RuleBook.appendAll_codedBy {} {} axioms (by simp)
  rw [happend] at hrules
  intro rule hrule
  rw [hc]
  exact (hrules rule hrule).grows (codes.code_spec goal).1

end Context

/-- What an accepted snapshot says of its symbols, axioms and theorem. -/
theorem Session.ofSnapshot_eq_ok_iff_codedAfter {snapshot : Snapshot} {s : Session} :
    ofSnapshot snapshot = .ok s ↔ snapshot.limits.check = .ok () ∧
      ∃ context : Context,
        context.CodedAfter snapshot.symbols snapshot.axioms snapshot.goal
          snapshot.limits.useCallGraph ∧
        context.codes.symbols.length = snapshot.symbols.length ∧
        s = { search := .restore context snapshot.limits snapshot.pending snapshot.visited
                snapshot.stats snapshot.best
              rejected := snapshot.rejected } := by
  rw [ofSnapshot_eq_ok]
  constructor
  · rintro ⟨hlimits, book, codes, context, hbook, hcontext, hlength, hs⟩
    obtain rfl : context.book = book := by rw [(Context.prepare_eq_ok.mp hcontext).2]
    exact ⟨hlimits, context, ⟨codes, hbook, hcontext⟩, hlength, hs⟩
  · rintro ⟨hlimits, context, ⟨codes, hbook, hcontext⟩, hlength, hs⟩
    exact ⟨hlimits, context.book, codes, context, hbook, hcontext, hlength, hs⟩

end ThueProver
