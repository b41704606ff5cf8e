import ThueProver.Proofs.PrimeSequence
import ThueProver.Proofs.SuspendedSessions

/-!
# Codebooks that are built again from their symbols

A snapshot keeps the symbols of a codebook and not their primes, so a codebook has to
be the one that meets its symbols in order. The symbols and their order always come
out right. The primes do as long as those of the symbols are the first ones drawn,
and that ends when a prime is drawn for no token and a new token is met afterwards:
the token gets a later prime than its place among the symbols gives it. Building the
codebook again closes the gap. Provers and sessions draw no primes but for tokens,
so theirs are reproduced whole.
-/
namespace ThueProver

namespace Codebook

/-- A call, or the codebook is replaced by the one its symbols give. -/
inductive Operation where
  | call (call : Call)
  | rebuild
  deriving DecidableEq, Repr

/-- The tokens that an operation hands in. -/
def Operation.tokens : Operation → List Token
  | .call made => made.tokens
  | .rebuild => []

def operate (book : Codebook) : Operation → Codebook
  | .call call => book.perform call
  | .rebuild => ofSymbols book.symbols

/-- The codebook that some operations make of the empty one. -/
def built (ops : List Operation) : Codebook := ops.foldl operate {}

/-- Such an operation has taken place, after those before it, and the codebook was not
built again since. -/
def Since (P : List Operation → Operation → Prop) (ops : List Operation) : Prop :=
  ∃ before op later, ops = before ++ op :: later ∧ .rebuild ∉ later ∧ P before op

/-- Since the codebook was last built again, a prime was drawn for no token. -/
def Drawn : List Operation → Prop := Since fun _ op => op = .call .draw

/-- Since the codebook was last built again, a prime was drawn for no token and after
that a token was met for the first time. -/
def Displaced : List Operation → Prop :=
  Since fun before op => Drawn before ∧ ∃ token ∈ op.tokens, token ∉ (built before).symbols

variable {book : Codebook} {ops : List Operation} {op : Operation} {token : Token}

theorem built_concat (ops : List Operation) (op : Operation) :
    built (ops ++ [op]) = (built ops).operate op := by
  simp [built]

theorem not_since_nil {P : List Operation → Operation → Prop} : ¬ Since P [] := by
  rintro ⟨before, op, later, heq, -⟩
  simp at heq

/-- The last operation is of this kind, or there was one before and the last one does
not build the codebook again. -/
theorem since_concat {P : List Operation → Operation → Prop} :
    Since P (ops ++ [op]) ↔ P ops op ∨ Since P ops ∧ op ≠ .rebuild := by
  constructor
  · rintro ⟨before, found, later, heq, hnot, hfound⟩
    rcases List.eq_nil_or_concat' later with rfl | ⟨earlier, last, rfl⟩
    · obtain ⟨rfl, hop⟩ := List.append_inj' heq rfl
      obtain rfl := List.singleton_inj.mp hop
      exact .inl hfound
    · rw [← List.cons_append, ← List.append_assoc] at heq
      obtain ⟨rfl, hop⟩ := List.append_inj' heq rfl
      obtain rfl := List.singleton_inj.mp hop
      rw [List.mem_append, List.mem_singleton, not_or] at hnot
      exact .inr ⟨⟨before, found, earlier, rfl, hnot.1, hfound⟩, Ne.symm hnot.2⟩
  · rintro (hlast | ⟨⟨before, found, later, rfl, hnot, hfound⟩, hop⟩)
    · exact ⟨ops, op, [], rfl, by simp, hlast⟩
    · refine ⟨before, found, later ++ [op], by simp, ?_, hfound⟩
      rw [List.mem_append, List.mem_singleton, not_or]
      exact ⟨hnot, Ne.symm hop⟩

theorem drawn_concat : Drawn (ops ++ [op]) ↔ op = .call .draw ∨ Drawn ops ∧ op ≠ .rebuild :=
  since_concat

theorem displaced_concat : Displaced (ops ++ [op]) ↔
    (Drawn ops ∧ ∃ token ∈ op.tokens, token ∉ (built ops).symbols) ∨
      Displaced ops ∧ op ≠ .rebuild :=
  since_concat

/-! ## The owned primes among those drawn -/

theorem Faithful.next_not_mem (h : book.Faithful) : Primes.next book.primes ∉ book.primes := by
  obtain ⟨bound, hbelow⟩ := h.drawn
  intro hmem
  exact Nat.lt_irrefl _ ((hbelow.next.2.mem_iff _).mp hmem).2

/-- A prime that is drawn for no token does not come between the owned ones. -/
theorem Faithful.prefix_draw (h : book.Faithful) :
    book.draw.2.owners.map (·.2) <+: book.draw.2.primes ↔
      book.owners.map (·.2) <+: book.primes := by
  constructor
  · intro hprefix
    exact List.prefix_of_prefix_length_le hprefix (List.prefix_append ..) h.owned.length_le
  · intro hprefix
    exact hprefix.trans (List.prefix_append ..)

/-- A new token gets the next prime, which leaves out those that nobody owns. -/
theorem Faithful.prefix_intern (h : book.Faithful) (hnew : book.primeOf? token = none) :
    (book.intern token).2.owners.map (·.2) <+: (book.intern token).2.primes ↔
      book.owners.map (·.2) = book.primes := by
  rw [intern_of_new hnew, List.map_append]
  constructor
  · intro hprefix
    by_contra hne
    have hshort : book.owners.map (·.2) <+: book.primes :=
      List.prefix_of_prefix_length_le ((List.prefix_append ..).trans hprefix)
        (List.prefix_append ..) h.owned.length_le
    have hlt : (book.owners.map (·.2)).length < book.primes.length :=
      Nat.lt_of_le_of_ne h.owned.length_le fun heq => hne (hshort.eq_of_length heq)
    have hlonger := List.prefix_of_prefix_length_le hprefix (List.prefix_append book.primes _)
      (by simpa using hlt)
    exact h.next_not_mem (hlonger.subset (by simp))
  · intro heq
    rw [heq]
    exact List.prefix_rfl

theorem owned_eq_intern_iff (book : Codebook) (token : Token) :
    (book.intern token).2.owners.map (·.2) = (book.intern token).2.primes ↔
      book.owners.map (·.2) = book.primes := by
  cases hknown : book.primeOf? token with
  | some p => rw [intern_of_known hknown]
  | none =>
      rw [intern_of_new hknown, List.map_append]
      exact List.append_left_inj _

/-- Encoding leaves no further prime without an owner, and gives none of them one. -/
theorem owned_eq_encode_iff (book : Codebook) (tokens : List Token) :
    (book.encode tokens).2.owners.map (·.2) = (book.encode tokens).2.primes ↔
      book.owners.map (·.2) = book.primes :=
  encode_induction
    (P := fun b => b.owners.map (·.2) = b.primes ↔ book.owners.map (·.2) = book.primes)
    (fun b token hb => (owned_eq_intern_iff b token).trans hb) Iff.rfl tokens

/-- The owned primes stay the first ones if each of those drawn has an owner or no
token is new. -/
theorem Faithful.prefix_encode (h : book.Faithful) (tokens : List Token) :
    (book.encode tokens).2.owners.map (·.2) <+: (book.encode tokens).2.primes ↔
      book.owners.map (·.2) <+: book.primes ∧
        (book.owners.map (·.2) = book.primes ∨ ∀ token ∈ tokens, token ∈ book.symbols) := by
  induction tokens generalizing book with
  | nil => simp [encode]
  | cons token rest ih =>
      have hrest := ih (h.intern token)
      simp only [encode, List.forall_mem_cons] at hrest ⊢
      rw [hrest, owned_eq_intern_iff]
      cases hknown : book.primeOf? token with
      | some p =>
          have hmet : token ∈ book.symbols := by
            by_contra hnot
            rw [primeOf?_eq_none_iff.mpr hnot] at hknown
            cases hknown
          simp only [intern_of_known hknown, hmet, true_and]
      | none =>
          have hnot : token ∉ book.symbols := primeOf?_eq_none_iff.mp hknown
          have hall : book.owners.map (·.2) = book.primes →
              book.owners.map (·.2) <+: book.primes := fun heq => heq ▸ List.prefix_rfl
          rw [h.prefix_intern hknown]
          tauto

/-! ## What an operation does to them -/

theorem faithful_ofSymbols (list : List Token) : (ofSymbols list).Faithful :=
  (inOrder_ofSymbols list).faithful

/-- A prime is left without an owner if the operation draws it for no token, or if one
was before and the codebook is not built again. -/
theorem Faithful.unowned_operate (h : book.Faithful) (op : Operation) :
    (book.operate op).owners.map (·.2) ≠ (book.operate op).primes ↔
      op = .call .draw ∨ book.owners.map (·.2) ≠ book.primes ∧ op ≠ .rebuild := by
  cases op with
  | rebuild => simp [operate, (inOrder_ofSymbols book.symbols).owned]
  | call call =>
      by_cases hdraw : call = .draw
      · subst hdraw
        refine iff_of_true ?_ (.inl rfl)
        intro heq
        have hlength : (book.owners.map (·.2)).length = (book.primes ++ [_]).length :=
          congrArg List.length heq
        have hle := h.owned.length_le
        rw [List.length_append, List.length_singleton] at hlength
        omega
      · rw [operate, perform_eq_encode hdraw, ne_eq, owned_eq_encode_iff]
        simp [hdraw]

/-- The owned primes are not the first ones if the operation meets a new token while
some prime has no owner, or if they were not before and the codebook is not built
again. -/
theorem Faithful.displaced_operate (h : book.Faithful) (op : Operation) :
    ¬ (book.operate op).owners.map (·.2) <+: (book.operate op).primes ↔
      (book.owners.map (·.2) ≠ book.primes ∧ ∃ token ∈ op.tokens, token ∉ book.symbols) ∨
        ¬ book.owners.map (·.2) <+: book.primes ∧ op ≠ .rebuild := by
  cases op with
  | rebuild => simp [operate, Operation.tokens, (inOrder_ofSymbols book.symbols).owned]
  | call call =>
      by_cases hdraw : call = .draw
      · subst hdraw
        simp [operate, perform, Operation.tokens, Call.tokens, h.prefix_draw]
      · rw [operate, perform_eq_encode hdraw, h.prefix_encode, not_and_or, or_comm]
        simp [Operation.tokens]

/-! ## Histories of operations -/

theorem faithful_built (ops : List Operation) : (built ops).Faithful := by
  induction ops using List.reverseRecOn with
  | nil => exact faithful_empty
  | append_singleton ops op ih =>
      rw [built_concat]
      cases op with
      | call call => exact (called_perform _ call).kept.2 ih
      | rebuild => exact faithful_ofSymbols _

theorem nodup_symbols_built (ops : List Operation) : (built ops).symbols.Nodup := by
  induction ops using List.reverseRecOn with
  | nil => exact List.nodup_nil
  | append_singleton ops op ih =>
      rw [built_concat]
      cases op with
      | call call => exact symbols_perform ih call ▸ nodup_eraseDups _
      | rebuild => exact symbols_ofSymbols _ ▸ nodup_eraseDups _

/-- A prime has no owner exactly if one was drawn for no token, and then the owned
primes are the first ones exactly if no token was met since. -/
theorem built_gaps (ops : List Operation) :
    (Drawn ops ↔ (built ops).owners.map (·.2) ≠ (built ops).primes) ∧
      (Displaced ops ↔ ¬ (built ops).owners.map (·.2) <+: (built ops).primes) := by
  induction ops using List.reverseRecOn with
  | nil => exact ⟨by simp [Drawn, not_since_nil, built], by simp [Displaced, not_since_nil, built]⟩
  | append_singleton ops op ih =>
      have hfaithful := faithful_built ops
      rw [drawn_concat, displaced_concat, built_concat, ih.1, ih.2]
      exact ⟨(hfaithful.unowned_operate op).symm, (hfaithful.displaced_operate op).symm⟩

/-! ## Building a codebook again -/

theorem symbols_ofSymbols_of_nodup (h : book.symbols.Nodup) :
    (ofSymbols book.symbols).symbols = book.symbols := by
  rw [symbols_ofSymbols, eraseDups_eq_self_iff.mpr h]

/-- The symbols alone are given the first primes. -/
theorem Faithful.owned_ofSymbols (h : book.Faithful) (hnodup : book.symbols.Nodup) :
    (ofSymbols book.symbols).owners.map (·.2) =
      book.primes.take (book.owners.map (·.2)).length := by
  obtain ⟨bound, hbelow⟩ := h.drawn
  have hinOrder := inOrder_ofSymbols book.symbols
  have hlength : (ofSymbols book.symbols).primes.length = (book.owners.map (·.2)).length := by
    have hsymbols := congrArg List.length (symbols_ofSymbols_of_nodup hnodup)
    rw [← hinOrder.owned]
    simpa [symbols] using hsymbols
  rw [hinOrder.owned, hinOrder.drawn, hlength, hbelow.eq_nth, ← List.map_take, List.take_range,
    Nat.min_eq_left h.owned.length_le]

/-- The symbols get their primes again exactly if these are the first ones drawn. -/
theorem Faithful.agrees_iff_owned_first (h : book.Faithful) (hnodup : book.symbols.Nodup) :
    (∀ token ∈ book.symbols, (ofSymbols book.symbols).primeOf? token = book.primeOf? token) ↔
      book.owners.map (·.2) <+: book.primes := by
  have hsymbols := symbols_ofSymbols_of_nodup hnodup
  have hagain := map_primeOf?_symbols (hsymbols ▸ hnodup)
  rw [hsymbols, h.owned_ofSymbols hnodup] at hagain
  rw [← List.map_inj_left, hagain, map_primeOf?_symbols hnodup,
    List.map_inj_right fun _ _ => Option.some.inj, List.prefix_iff_eq_take, eq_comm]

end Codebook

theorem Prover.Entered.reproducible {p : Prover} {axioms : List Equation} (h : p.Entered axioms) :
    p.codes.Reproducible := by
  obtain ⟨-, happend⟩ := RuleBook.ofEquations_eq_ok.mp h.ofEquations
  have hempty : Codebook.Reproducible {} := rfl
  have hcodes := Codebook.appendAll_induction (fun _ token hbook => hbook.intern token) hempty
    {} axioms
  rwa [happend] at hcodes

theorem Session.Live.reproducible {s : Session} (h : s.Live) :
    s.search.context.codes.Reproducible := by
  obtain ⟨symbols, axioms, goal, hcoded⟩ := h.restorable.context
  exact hcoded.codes_induction rfl fun _ token hbook => hbook.intern token

namespace Codebook

/-- Whatever was done with a codebook, its symbols give back the same symbols in the
same order, and each its prime exactly if, since the codebook was last built again,
no new token was met after a prime had been drawn for none. The codebook of a prover
and that of a session, wherever the session comes from and whatever was called on
it, are given back whole. -/
theorem rebuilt_agrees_iff (ops : List Operation) :
    let book := built ops
    (ofSymbols book.symbols).symbols = book.symbols ∧
      ((∀ token ∈ book.symbols, (ofSymbols book.symbols).primeOf? token = book.primeOf? token) ↔
        ¬ Displaced ops) ∧
      (∀ (p : Prover) axioms, p.Entered axioms → ofSymbols p.codes.symbols = p.codes) ∧
      ∀ s : Session, s.Live →
        ofSymbols s.search.context.codes.symbols = s.search.context.codes := by
  intro book
  have hnodup : book.symbols.Nodup := nodup_symbols_built ops
  refine ⟨symbols_ofSymbols_of_nodup hnodup, ?_, fun p axioms hp => hp.reproducible,
    fun s hs => hs.reproducible⟩
  rw [(faithful_built ops).agrees_iff_owned_first hnodup, (built_gaps ops).2, not_not]

/-- Here 3 is drawn for no token and `b` gets 5, but from the symbols it gets 3. The
codebook that is built of them is given back, and so are those of a prover and of a
session of it. -/
theorem rebuilt_agrees_iff_displaced :
    ∃ (p : Prover) (s : Session),
      p.Entered [⟨["b", "a"], ["c"]⟩] ∧ s.Live ∧
      Displaced [.call (.intern "a"), .call .draw, .call (.intern "b")] ∧
      (built [.call (.intern "a"), .call .draw, .call (.intern "b")]).primeOf? "b" = some 5 ∧
      (ofSymbols ["a", "b"]).primeOf? "b" = some 3 ∧
      ¬ Displaced [.call (.intern "a"), .call .draw, .call (.intern "b"), .rebuild] ∧
      ofSymbols p.codes.symbols = p.codes ∧
      ofSymbols s.search.context.codes.symbols = s.search.context.codes := by
  have hrun : ∃ p, Prover.setAxioms {} [⟨["b", "a"], ["c"]⟩] = .ok p ∧ ∃ s,
      p.start ⟨["c", "d"], ["a"]⟩ = .ok s := ⟨_, by cbv, _, by cbv⟩
  obtain ⟨p, hp, s, hs⟩ := hrun
  have hentered : p.Entered [⟨["b", "a"], ["c"]⟩] := .setAxioms (.fresh {}) hp
  have hlive : s.Live := ⟨s, 0, .start hentered hs, .start⟩
  obtain ⟨-, hdisplaced, hprovers, hsessions⟩ :=
    rebuilt_agrees_iff [.call (.intern "a"), .call .draw, .call (.intern "b")]
  obtain ⟨-, hrestored, -, -⟩ :=
    rebuilt_agrees_iff [.call (.intern "a"), .call .draw, .call (.intern "b"), .rebuild]
  refine ⟨p, s, hentered, hlive, ?_, by decide, by decide, hrestored.mp (by decide),
    hprovers p _ hentered, hsessions s hlive⟩
  rw [← not_not (a := Displaced _), ← hdisplaced]
  decide

end Codebook

end ThueProver
