import Mathlib
import ThueProver.Proofs.JsonReading
import ThueProver.Proofs.PrimeCodes

/-!
# Symbol tables of snapshots

A snapshot lists the symbols of its codebook in the order of their primes. When a
session is made of it, the codebook meets these symbols first and then the tokens
of the axioms and of the theorem, and the number of symbols it has come to is
compared with the number listed. A token that is not listed makes the codebook
longer than the list, a symbol that is listed twice makes it shorter, and the
comparison does not see the one where it is made up for by the other. If no
symbol is listed twice, the snapshots that pass are those whose list covers all
tokens, and then no token draws a prime that the list does not give it.
-/
namespace ThueProver

/-! ## Lists without their repetitions -/

section
variable {α : Type} [DecidableEq α]

theorem sublist_eraseDups (l : List α) : l.eraseDups.Sublist l := by
  cases l with
  | nil => exact .slnil
  | cons a rest =>
      rw [List.eraseDups_cons]
      exact ((sublist_eraseDups _).trans List.filter_sublist).cons_cons a
termination_by l.length
decreasing_by exact Nat.lt_succ_of_le (List.length_filter_le _ _)

theorem nodup_eraseDups (l : List α) : l.eraseDups.Nodup := by
  cases l with
  | nil => exact List.nodup_nil
  | cons a rest =>
      rw [List.eraseDups_cons, List.nodup_cons, List.mem_eraseDups]
      exact ⟨by simp, nodup_eraseDups _⟩
termination_by l.length
decreasing_by exact Nat.lt_succ_of_le (List.length_filter_le _ _)

theorem eraseDups_eq_self_iff {l : List α} : l.eraseDups = l ↔ l.Nodup := by
  constructor
  · intro heq
    rw [← heq]
    exact nodup_eraseDups l
  · intro hnodup
    have hsubset : l ⊆ l.eraseDups := fun a ha => List.mem_eraseDups.mpr ha
    exact (sublist_eraseDups l).eq_of_length_le (hnodup.subperm hsubset).length_le

theorem length_eraseDups_eq_iff {l : List α} : l.eraseDups.length = l.length ↔ l.Nodup := by
  rw [← eraseDups_eq_self_iff]
  constructor
  · exact (sublist_eraseDups l).eq_of_length
  · exact congrArg List.length

theorem eraseDups_concat (l : List α) (a : α) :
    (l ++ [a]).eraseDups = if a ∈ l then l.eraseDups else l.eraseDups ++ [a] := by
  rw [List.eraseDups_append]
  by_cases hmet : a ∈ l <;> simp [List.removeAll, hmet, List.eraseDups_cons]

variable {xs ys : List α}

/-- What the second list adds to the first is nothing exactly if it is covered. -/
theorem eraseDups_removeAll_eq_nil_iff : (ys.removeAll xs).eraseDups = [] ↔ ys ⊆ xs := by
  rw [List.eq_nil_iff_forall_not_mem]
  simp only [List.mem_eraseDups, List.removeAll, List.mem_filter, Bool.not_eq_true',
    List.elem_eq_mem, decide_eq_false_iff_not, not_and, not_not]
  rfl

theorem eraseDups_append_of_subset (h : ys ⊆ xs) : (xs ++ ys).eraseDups = xs.eraseDups := by
  rw [List.eraseDups_append, eraseDups_removeAll_eq_nil_iff.mpr h, List.append_nil]

theorem length_eraseDups_append_iff (h : xs.Nodup) :
    (xs ++ ys).eraseDups.length = xs.length ↔ ys ⊆ xs := by
  rw [List.eraseDups_append, eraseDups_eq_self_iff.mpr h, List.length_append,
    ← eraseDups_removeAll_eq_nil_iff, ← List.length_eq_zero_iff]
  omega

/-- Where the lengths agree, the first list covers the second exactly if it repeats
nothing. -/
theorem subset_iff_nodup_of_length (h : (xs ++ ys).eraseDups.length = xs.length) :
    ys ⊆ xs ↔ xs.Nodup := by
  constructor
  · intro hcovers
    rw [eraseDups_append_of_subset hcovers] at h
    exact length_eraseDups_eq_iff.mp h
  · intro hnodup
    exact (length_eraseDups_append_iff hnodup).mp h

end

namespace Primes

/-- There are as many primes in the list as there are below the bound. -/
theorem Below.length_eq_count {bound : Nat} {primes : List Nat} (h : Below bound primes) :
    primes.length = Nat.count Nat.Prime bound := by
  have hnodup : primes.Nodup := h.sorted.imp fun hlt => hlt.ne
  have hset : primes.toFinset = {q ∈ Finset.range bound | q.Prime} := by
    ext q
    rw [List.mem_toFinset, h.mem_iff, Finset.mem_filter, Finset.mem_range, and_comm]
  rw [Nat.count_eq_card_filter_range, ← hset, List.toFinset_card_of_nodup hnodup]

/-- The prime drawn after the first `n` is the one of index `n`. -/
theorem Below.next_eq_nth {bound : Nat} {primes : List Nat} (h : Below bound primes) :
    Primes.next primes = Nat.nth Nat.Prime primes.length := by
  obtain ⟨hprime, hbelow⟩ := h.next
  rw [hbelow.length_eq_count, Nat.nth_count hprime]

end Primes

namespace Codebook

variable {book : Codebook}

theorem primeOf?_eq_none_iff {token : Token} :
    book.primeOf? token = none ↔ token ∉ book.symbols := by
  rw [primeOf?, List.lookup_eq_none_iff, symbols, List.mem_map]
  simp only [bne_iff_ne, ne_eq, not_exists, not_and]
  exact forall₂_congr fun owner _ => not_congr eq_comm

theorem symbols_intern (book : Codebook) (token : Token) :
    (book.intern token).2.symbols =
      if token ∈ book.symbols then book.symbols else book.symbols ++ [token] := by
  split_ifs with hmet
  · obtain ⟨p, hp⟩ := Option.ne_none_iff_exists'.mp fun hnone => primeOf?_eq_none_iff.mp hnone hmet
    rw [intern_of_known hp]
  · rw [intern_of_new (primeOf?_eq_none_iff.mpr hmet)]
    simp [symbols]

/-- A codebook that encodes a list has met its tokens, each once, after the symbols
it had before and in the order in which it met them first. -/
theorem symbols_encode (h : book.symbols.Nodup) (list : List Token) :
    (book.encode list).2.symbols = (book.symbols ++ list).eraseDups := by
  induction list using List.reverseRecOn with
  | nil =>
      rw [List.append_nil, eraseDups_eq_self_iff.mpr h]
      rfl
  | append_singleton rest token ih =>
      rw [encode_concat, symbols_intern, ih, ← List.append_assoc, eraseDups_concat]
      simp only [List.mem_eraseDups]

theorem symbols_ofSymbols (list : List Token) : (ofSymbols list).symbols = list.eraseDups := by
  have hnodup : ({} : Codebook).symbols.Nodup := List.nodup_nil
  exact symbols_encode hnodup list

/-- Tokens that have been met change nothing. -/
theorem ofSymbols_append_of_subset {xs ys : List Token} (h : ys ⊆ xs) :
    ofSymbols (xs ++ ys) = ofSymbols xs := by
  have hcovers : (ofSymbols xs).Covers ys := by
    intro token htoken
    rw [← Option.ne_none_iff_exists']
    intro hnone
    rw [primeOf?_eq_none_iff, symbols_ofSymbols, List.mem_eraseDups] at hnone
    exact hnone (h htoken)
  calc ofSymbols (xs ++ ys)
      = ((ofSymbols xs).encode ys).2 := encode_append {} xs ys
    _ = ofSymbols xs := by rw [encode_of_covers hcovers]

/-- Every prime has an owner, and the owner of index `n` has the prime of index `n`. -/
structure InOrder (book : Codebook) : Prop where
  owned : book.owners.map (·.2) = book.primes
  drawn : book.primes = (List.range book.primes.length).map (Nat.nth Nat.Prime)
  faithful : book.Faithful

theorem inOrder_empty : ({} : Codebook).InOrder := ⟨rfl, rfl, faithful_empty⟩

theorem InOrder.intern (h : book.InOrder) (token : Token) : (book.intern token).2.InOrder := by
  have hfaithful := h.faithful.intern token
  cases hknown : book.primeOf? token with
  | some p => rwa [intern_of_known hknown]
  | none =>
      obtain ⟨bound, hbelow⟩ := h.faithful.drawn
      rw [intern_of_new hknown] at hfaithful ⊢
      refine ⟨?_, ?_, hfaithful⟩
      · rw [List.map_append, h.owned]
        rfl
      · rw [List.length_append, List.length_singleton, List.range_succ, List.map_append,
          ← h.drawn, hbelow.next_eq_nth]
        rfl

theorem inOrder_ofSymbols (list : List Token) : (ofSymbols list).InOrder :=
  encode_induction (fun _ token h => h.intern token) inOrder_empty list

theorem InOrder.primeOf?_getElem (h : book.InOrder) (hnodup : book.symbols.Nodup) (i : Nat)
    (hi : i < book.symbols.length) :
    book.primeOf? book.symbols[i] = some (Nat.nth Nat.Prime i) := by
  have howner : i < book.owners.length := by rwa [symbols, List.length_map] at hi
  have hprime : book.owners[i].2 = Nat.nth Nat.Prime i := by
    have hlength : i < book.primes.length := by rwa [← h.owned, List.length_map]
    have hindex : book.primes[i]? = some (Nat.nth Nat.Prime i) := by
      rw [h.drawn, List.getElem?_map, List.getElem?_range hlength]
      rfl
    rw [← h.owned, List.getElem?_map, List.getElem?_eq_getElem howner] at hindex
    exact Option.some.inj hindex
  have hlookup := Fields.lookup_of_mem_nodup hnodup (List.getElem_mem howner)
  rw [hprime] at hlookup
  simpa [symbols, primeOf?] using hlookup

end Codebook

/-! ## Snapshots -/

/-- The tokens of both sides. -/
def Equation.tokens (e : Equation) : List Token := e.left ++ e.right

theorem Codebook.code_codes (book : Codebook) (e : Equation) :
    (book.code e).2 = (book.encode e.tokens).2 := (book.encode_append e.left e.right).symm

theorem RuleBook.appendAll_codes (book : RuleBook) (codes : Codebook) (axioms : List Equation) :
    (book.appendAll codes axioms).2 = (codes.encode (axioms.flatMap (·.tokens))).2 := by
  induction axioms generalizing book codes with
  | nil => rfl
  | cons e rest ih =>
      rw [List.flatMap_cons, Codebook.encode_append, ← Codebook.code_codes]
      exact ih _ _

/-- The tokens of the axioms and of the theorem, in the order in which they are coded. -/
def Snapshot.tokens (s : Snapshot) : List Token := s.axioms.flatMap (·.tokens) ++ s.goal.tokens

/-- A context coded after a list of symbols has met the symbols, then the tokens. -/
theorem Context.CodedAfter.codes_eq {symbols : List Token} {axioms : List Equation}
    {goal : Equation} {withGraph : Bool} {c : Context}
    (h : c.CodedAfter symbols axioms goal withGraph) :
    c.codes = .ofSymbols (symbols ++ (axioms.flatMap (·.tokens) ++ goal.tokens)) := by
  obtain ⟨codes, hbook, hcontext⟩ := h
  obtain ⟨-, happend⟩ := RuleBook.ofEquations_eq_ok.mp hbook
  obtain ⟨-, hc⟩ := prepare_eq_ok.mp hcontext
  have hcodes := RuleBook.appendAll_codes {} (.ofSymbols symbols) axioms
  rw [happend] at hcodes
  dsimp only at hcodes
  rw [hc, Codebook.code_codes, hcodes, Codebook.ofSymbols, Codebook.ofSymbols,
    Codebook.encode_append, Codebook.encode_append]

namespace Session

variable {s : Snapshot} {t : Session}

/-- A snapshot is accepted exactly if its limits and equations are usable and its
symbols are as many as the different ones among them and the tokens. -/
theorem ofSnapshot_accepts_iff : (∃ t, ofSnapshot s = .ok t) ↔
    s.limits.check = .ok () ∧ ((∀ e ∈ s.axioms, e.Usable) ∧ s.goal.Usable) ∧
      (s.symbols ++ s.tokens).eraseDups.length = s.symbols.length := by
  rw [Snapshot.tokens, ← Codebook.symbols_ofSymbols,
    ← @Context.exists_codedAfter_iff s.symbols _ _ s.limits.useCallGraph]
  constructor
  · rintro ⟨t, ht⟩
    obtain ⟨hlimits, context, hcoded, hlength, -⟩ := ofSnapshot_eq_ok_iff_codedAfter.mp ht
    rw [hcoded.codes_eq] at hlength
    exact ⟨hlimits, ⟨context, hcoded⟩, hlength⟩
  · rintro ⟨hlimits, ⟨context, hcoded⟩, hlength⟩
    rw [← hcoded.codes_eq] at hlength
    exact ⟨_, ofSnapshot_eq_ok_iff_codedAfter.mpr ⟨hlimits, context, hcoded, hlength, rfl⟩⟩

/-- The codebook of the session that an accepted snapshot gives. -/
theorem codes_of_ofSnapshot (h : ofSnapshot s = .ok t) :
    t.search.context.codes = .ofSymbols (s.symbols ++ s.tokens) := by
  obtain ⟨-, context, hcoded, -, rfl⟩ := ofSnapshot_eq_ok_iff_codedAfter.mp h
  exact hcoded.codes_eq

/-- What the comparison of lengths comes to, for every snapshot. If no symbol is
listed twice, the snapshots that are accepted are those with usable limits and
equations whose symbols cover all tokens. Of any accepted snapshot the session has
the symbols listed and then the tokens, each once and with the prime of its
place; the list covers the tokens, and is the list of the symbols of the session,
exactly if no symbol is listed twice, and then no token has drawn a prime. -/
theorem ofSnapshot_symbols (s : Snapshot) :
    (s.symbols.Nodup → ((∃ t, ofSnapshot s = .ok t) ↔ s.limits.check = .ok () ∧
      ((∀ e ∈ s.axioms, e.Usable) ∧ s.goal.Usable) ∧ s.tokens ⊆ s.symbols)) ∧
    ∀ t, ofSnapshot s = .ok t →
      let codes := t.search.context.codes
      codes.symbols = (s.symbols ++ s.tokens).eraseDups ∧
      (∀ i (hi : i < codes.symbols.length),
        codes.primeOf? codes.symbols[i] = some (Nat.nth Nat.Prime i)) ∧
      (s.tokens ⊆ s.symbols ↔ s.symbols.Nodup) ∧
      (codes.symbols = s.symbols ↔ s.symbols.Nodup) ∧
      (s.symbols.Nodup → codes = .ofSymbols s.symbols) := by
  constructor
  · intro hnodup
    rw [ofSnapshot_accepts_iff, length_eraseDups_append_iff hnodup]
  · intro t ht
    dsimp only
    have hlength := (ofSnapshot_accepts_iff.mp ⟨t, ht⟩).2.2
    have hcovers := subset_iff_nodup_of_length hlength
    rw [codes_of_ofSnapshot ht, Codebook.symbols_ofSymbols]
    refine ⟨rfl, ?_, hcovers, ?_, ?_⟩
    · intro i hi
      have hsymbols := Codebook.symbols_ofSymbols (s.symbols ++ s.tokens)
      have hprime := (Codebook.inOrder_ofSymbols (s.symbols ++ s.tokens)).primeOf?_getElem
        (hsymbols ▸ nodup_eraseDups _) i (hsymbols ▸ hi)
      simpa only [hsymbols] using hprime
    · constructor
      · intro heq
        exact heq ▸ nodup_eraseDups _
      · intro hnodup
        rw [eraseDups_append_of_subset (hcovers.mpr hnodup), eraseDups_eq_self_iff.mpr hnodup]
    · intro hnodup
      exact Codebook.ofSymbols_append_of_subset (hcovers.mpr hnodup)

/-- The symbol that is listed twice makes up for the token that is not listed, and
that token draws a prime. -/
theorem accepted_uncovered :
    ∃ (s : Snapshot) (t : Session), s.symbols = ["a", "a"] ∧ s.goal = ⟨["a"], ["b"]⟩ ∧
      ofSnapshot s = .ok t ∧ "b" ∈ s.tokens ∧ "b" ∉ s.symbols ∧
      t.search.context.codes.symbols ≠ s.symbols ∧
      t.search.context.codes.primeOf? "b" = some 3 := by
  have hrun : ∃ s : Snapshot, s = ⟨["a", "a"], [], ⟨["a"], ["b"]⟩, [⟨3, 2, []⟩], [(3, 2)], none, {},
        0, {}⟩ ∧ ∃ t, ofSnapshot s = .ok t ∧ t.search.context.codes.symbols = ["a", "b"] ∧
      t.search.context.codes.primeOf? "b" = some 3 :=
    ⟨_, rfl, _, by cbv, by cbv, by cbv⟩
  obtain ⟨s, rfl, t, ht, hsymbols, hprime⟩ := hrun
  exact ⟨_, t, rfl, rfl, ht, by decide, by decide, by rw [hsymbols]; decide, hprime⟩

end Session

end ThueProver
