import ThueProver.Proofs.PrimeSequence

/-!
# Products are decoded into counts of tokens

Decoding takes the owners in turn and divides the prime of each out of what is left,
as often as it goes. Every one of these loops ends, because a prime is larger than
one and what is divided is never zero. The number of divisions is the exponent of
the prime, so nothing is left over exactly if every prime factor has an owner, and
by unique factorisation the counts of an encoded word are those of its tokens. A
prime that was drawn for no token has no owner and is never divided out.
-/
namespace ThueProver

namespace Primes

variable {p n : Nat}

/-- Dividing `n` by `p` for as long as it goes ends with this number of divisions and
this quotient. -/
inductive DividesOut (p : Nat) : Nat → Nat × Nat → Prop
  | stops {n : Nat} : n % p ≠ 0 → DividesOut p n (0, n)
  | divides {n count rest : Nat} : n % p = 0 → DividesOut p (n / p) (count, rest) →
      DividesOut p n (count + 1, rest)

theorem DividesOut.unique {r s : Nat × Nat} (hr : DividesOut p n r) (hs : DividesOut p n s) :
    r = s := by
  induction hr generalizing s with
  | stops hne =>
      cases hs with
      | stops _ => rfl
      | divides hmod _ => exact absurd hmod hne
  | divides hmod _ ih =>
      cases hs with
      | stops hne => exact absurd hmod hne
      | divides _ hlater =>
          cases ih hlater
          rfl

theorem dividesOut_divideOut (hp : 1 < p) (hn : n ≠ 0) : DividesOut p n (divideOut p n) := by
  fun_induction divideOut p n with
  | case1 n hdivides later ih =>
      have hle : p ≤ n := Nat.le_of_dvd hdivides.2.1 (Nat.dvd_of_mod_eq_zero hdivides.2.2)
      have hpos : 0 < n / p := Nat.div_pos hle (by omega)
      exact .divides hdivides.2.2 (ih hpos.ne')
  | case2 n hstops => exact .stops fun hmod => hstops ⟨hp, by omega, hmod⟩

/-- The divisions are counted by the exponent of the prime, and the other exponents
stay as they are. -/
theorem factorization_divideOut (hp : p.Prime) (hn : n ≠ 0) :
    (divideOut p n).1 = n.factorization p ∧ (divideOut p n).2 ≠ 0 ∧
      (divideOut p n).2.factorization = n.factorization.erase p := by
  fun_induction divideOut p n with
  | case1 n hdivides later ih =>
      have hdvd : p ∣ n := Nat.dvd_of_mod_eq_zero hdivides.2.2
      have hquotient : (n / p).factorization = n.factorization - Finsupp.single p 1 := by
        rw [Nat.factorization_div hdvd, hp.factorization]
      have hpos : 0 < n.factorization p := hp.factorization_pos_of_dvd hn hdvd
      obtain ⟨hcount, hrest, hothers⟩ := ih (Nat.div_pos (Nat.le_of_dvd (by omega) hdvd) hp.pos).ne'
      refine ⟨?_, hrest, ?_⟩
      · rw [hcount, hquotient, Finsupp.tsub_apply, Finsupp.single_eq_same]
        omega
      · rw [hothers, hquotient]
        ext q
        by_cases hq : q = p
        · subst hq
          simp
        · simp [Finsupp.erase_ne hq, Finsupp.single_eq_of_ne hq]
  | case2 n hstops =>
      have hndvd : ¬ p ∣ n := fun hdvd =>
        hstops ⟨hp.one_lt, by omega, Nat.mod_eq_zero_of_dvd hdvd⟩
      have hzero : n.factorization p = 0 := Nat.factorization_eq_zero_of_not_dvd hndvd
      refine ⟨hzero.symm, hn, ?_⟩
      rw [Finsupp.erase_of_notMem_support (Finsupp.notMem_support_iff.mpr hzero)]

end Primes

namespace Codebook

/-- Decoding with loops that go on for as long as a prime divides. -/
inductive Factors : List (Token × Nat) → Nat → Option (List (Token × Nat)) → Prop
  | whole : Factors [] 1 (some [])
  | leftOver {n : Nat} : n ≠ 1 → Factors [] n none
  | owner {token : Token} {p n count rest : Nat} {owners : List (Token × Nat)}
      {result : Option (List (Token × Nat))} :
      Primes.DividesOut p n (count, rest) → Factors owners rest result →
      Factors ((token, p) :: owners) n
        (result.map fun counts => if count = 0 then counts else (token, count) :: counts)

variable {owners : List (Token × Nat)} {n : Nat} {result other : Option (List (Token × Nat))}
  {counts : List (Token × Nat)} {book : Codebook} {tokens : List Token}

theorem Factors.unique (h : Factors owners n result) (h' : Factors owners n other) :
    result = other := by
  induction h generalizing other with
  | whole =>
      cases h' with
      | whole => rfl
      | leftOver hne => exact absurd rfl hne
  | leftOver hne =>
      cases h' with
      | whole => exact absurd rfl hne
      | leftOver _ => rfl
  | owner hdivides _ ih =>
      cases h' with
      | owner hdivides' hothers =>
          cases hdivides.unique hdivides'
          rw [ih hothers]

theorem factors_factor (howners : ∀ owner ∈ owners, owner.2.Prime) (hn : n ≠ 0) :
    Factors owners n (factor owners n) := by
  induction owners generalizing n with
  | nil =>
      unfold factor
      split_ifs with hone
      · exact hone ▸ .whole
      · exact .leftOver hone
  | cons owner owners ih =>
      obtain ⟨hprime, hothers⟩ := List.forall_mem_cons.mp howners
      obtain ⟨-, hrest, -⟩ := Primes.factorization_divideOut hprime hn
      exact .owner (Primes.dividesOut_divideOut hprime.one_lt hn) (ih hothers hrest)

/-- What an owner of a prime contributes to the counts of a product. -/
def share (n : Nat) (owner : Token × Nat) : Option (Token × Nat) :=
  if n.factorization owner.2 = 0 then none else some (owner.1, n.factorization owner.2)

/-- Nothing is left over exactly if every prime factor has an owner, and then the
counts are the exponents. -/
theorem factor_eq_some_iff (howners : ∀ owner ∈ owners, owner.2.Prime)
    (hnodup : (owners.map (·.2)).Nodup) (hn : n ≠ 0) :
    factor owners n = some counts ↔
      (∀ q, q.Prime → q ∣ n → q ∈ owners.map (·.2)) ∧ counts = owners.filterMap (share n) := by
  induction owners generalizing n counts with
  | nil =>
      simp only [factor, List.map_nil, List.not_mem_nil, List.filterMap_nil, imp_false,
        ← Nat.eq_one_iff_not_exists_prime_dvd]
      split_ifs with hone <;> simp [hone, eq_comm]
  | cons owner owners ih =>
      obtain ⟨token, p⟩ := owner
      obtain ⟨hprime, hothers⟩ := List.forall_mem_cons.mp howners
      obtain ⟨hfresh, hrest⟩ := List.nodup_cons.mp hnodup
      obtain ⟨hcount, hne, hexponents⟩ := Primes.factorization_divideOut hprime hn
      have hfactors : (∀ q, q.Prime → q ∣ (Primes.divideOut p n).2 → q ∈ owners.map (·.2)) ↔
          ∀ q, q.Prime → q ∣ n → q ∈ ((token, p) :: owners).map (·.2) := by
        refine forall₂_congr fun q hq => ?_
        rw [List.map_cons, List.mem_cons, hq.dvd_iff_one_le_factorization hne,
          hq.dvd_iff_one_le_factorization hn, hexponents]
        by_cases heq : q = p
        · simp [heq]
        · simp [heq, Finsupp.erase_ne heq]
      have hshares : owners.filterMap (share (Primes.divideOut p n).2) =
          owners.filterMap (share n) := by
        refine List.filterMap_congr fun owner howner => ?_
        have hdiffers : owner.2 ≠ p := fun heq =>
          hfresh (List.mem_map.mpr ⟨owner, howner, heq⟩)
        simp only [share, hexponents, Finsupp.erase_ne hdiffers]
      rw [factor, Option.map_eq_some_iff]
      simp only [ih hothers hrest hne, hfactors, hshares, hcount, List.filterMap_cons, share]
      split_ifs <;> simp [eq_comm]

theorem prod_shares (howners : ∀ owner ∈ owners, book.primeOf? owner.1 = some owner.2) (n : Nat) :
    ((owners.filterMap (share n)).map fun (token, count) =>
      ((book.primeOf? token).getD 1) ^ count).prod =
      ((owners.map (·.2)).map fun p => p ^ n.factorization p).prod := by
  induction owners with
  | nil => rfl
  | cons owner owners ih =>
      obtain ⟨howner, hothers⟩ := List.forall_mem_cons.mp howners
      rw [List.filterMap_cons, List.map_cons, List.map_cons, List.prod_cons, ← ih hothers, share]
      split_ifs with hzero
      · simp [hzero]
      · simp [howner]

/-- By unique factorisation the shares of the owners of all prime factors make up the
product. -/
theorem prod_exponents {primes : List Nat} (hnodup : primes.Nodup) (hn : n ≠ 0)
    (hall : ∀ q, q.Prime → q ∣ n → q ∈ primes) :
    (primes.map fun p => p ^ n.factorization p).prod = n := by
  have hsupport : n.factorization.support ⊆ primes.toFinset := by
    intro q hq
    rw [Nat.support_factorization, Nat.mem_primeFactors] at hq
    exact List.mem_toFinset.mpr (hall q hq.1 hq.2.1)
  rw [← List.prod_toFinset _ hnodup]
  calc ∏ p ∈ primes.toFinset, p ^ n.factorization p
      = n.factorization.prod fun p k => p ^ k :=
        (Finsupp.prod_of_support_subset _ hsupport _ fun _ _ => pow_zero _).symm
    _ = n := Nat.prod_factorization_pow_eq_self hn

theorem map_fst_shares_sublist (owners : List (Token × Nat)) (n : Nat) :
    ((owners.filterMap (share n)).map (·.1)).Sublist (owners.map (·.1)) := by
  induction owners with
  | nil => exact .slnil
  | cons owner owners ih =>
      rw [List.filterMap_cons, share]
      split_ifs
      · exact ih.cons _
      · exact ih.cons_cons _

theorem pos_of_mem_shares {entry : Token × Nat} (h : entry ∈ owners.filterMap (share n)) :
    0 < entry.2 := by
  obtain ⟨owner, -, hshare⟩ := List.mem_filterMap.mp h
  unfold share at hshare
  split_ifs at hshare with hzero
  cases hshare
  exact Nat.pos_of_ne_zero hzero

/-- The exponent of a prime in the product of a word is the number of times its owner
occurs. -/
theorem Faithful.factorization_product (h : book.Faithful) (hcovers : book.Covers tokens)
    {token : Token} {p : Nat} (hp : book.primeOf? token = some p) :
    (book.product tokens).factorization p = tokens.count token := by
  rw [← Nat.primeFactorsList_count_eq, ← (h.codesOf_perm hcovers).count_eq, codesOf,
    List.count, List.countP_map, List.count]
  refine List.countP_congr fun other hother => ?_
  obtain ⟨q, hq⟩ := hcovers other hother
  simp only [Function.comp_apply, hq, Option.getD_some, beq_iff_eq]
  constructor
  · rintro rfl
    exact h.primeOf?_injective hq hp
  · rintro rfl
    exact Option.some.inj (hq.symm.trans hp)

theorem Faithful.exists_of_dvd_product (h : book.Faithful) (hcovers : book.Covers tokens)
    {q : Nat} (hq : q.Prime) (hdvd : q ∣ book.product tokens) :
    ∃ token, book.primeOf? token = some q := by
  have hmem : q ∈ book.codesOf tokens := by
    rw [(h.codesOf_perm hcovers).mem_iff]
    exact (Nat.mem_primeFactorsList (h.positive.product_pos tokens).ne').mpr ⟨hq, hdvd⟩
  obtain ⟨token, htoken, hcode⟩ := List.mem_map.mp hmem
  obtain ⟨p, hp⟩ := hcovers token htoken
  rw [hp] at hcode
  exact ⟨token, hcode ▸ hp⟩

/-- The shares of the product of a word are the symbols that occur in it with the
numbers of their occurrences. -/
theorem Faithful.shares_product (h : book.Faithful) (hnodup : book.symbols.Nodup)
    (hcovers : book.Covers tokens) :
    book.owners.filterMap (share (book.product tokens)) =
      (book.symbols.filter (· ∈ tokens)).map fun token => (token, tokens.count token) := by
  have hshares : book.owners.filterMap (share (book.product tokens)) = book.owners.filterMap
      fun owner => if owner.1 ∈ tokens then some (owner.1, tokens.count owner.1) else none := by
    refine List.filterMap_congr fun owner howner => ?_
    have hprime := primeOf?_of_mem_owners hnodup howner
    simp only [share, h.factorization_product hcovers hprime, List.count_eq_zero]
    split_ifs <;> simp_all
  rw [hshares, symbols]
  generalize book.owners = owners
  induction owners with
  | nil => rfl
  | cons owner owners ih =>
      rw [List.filterMap_cons, List.map_cons, List.filter_cons]
      split_ifs <;> simp_all

theorem Faithful.nodup_owned (h : book.Faithful) : (book.owners.map (·.2)).Nodup := by
  obtain ⟨bound, hbelow⟩ := h.drawn
  exact (hbelow.sorted.imp fun hlt => hlt.ne).sublist h.owned

theorem Faithful.prime_of_mem_owners (h : book.Faithful) :
    ∀ owner ∈ book.owners, owner.2.Prime := by
  intro owner howner
  obtain ⟨bound, hbelow⟩ := h.drawn
  exact ((hbelow.mem_iff _).mp (h.owned.subset (List.mem_map_of_mem howner))).1

theorem mem_owned_iff (hnodup : book.symbols.Nodup) {q : Nat} :
    q ∈ book.owners.map (·.2) ↔ ∃ token, book.primeOf? token = some q := by
  constructor
  · intro hq
    obtain ⟨owner, howner, rfl⟩ := List.mem_map.mp hq
    exact ⟨owner.1, primeOf?_of_mem_owners hnodup howner⟩
  · rintro ⟨token, htoken⟩
    exact List.mem_map.mpr ⟨_, mem_owners_of_primeOf? htoken, rfl⟩

/-- A product is decoded exactly if it is not zero and all its prime factors have
owners. -/
theorem Faithful.decode?_eq_some_iff (h : book.Faithful) (hnodup : book.symbols.Nodup) :
    book.decode? n = some counts ↔ n ≠ 0 ∧
      (∀ q, q.Prime → q ∣ n → ∃ token, book.primeOf? token = some q) ∧
      counts = book.owners.filterMap (share n) := by
  unfold decode?
  split_ifs with hzero
  · simp [hzero]
  · rw [factor_eq_some_iff h.prime_of_mem_owners h.nodup_owned hzero]
    simp only [mem_owned_iff hnodup, ne_eq, hzero, not_false_eq_true, true_and]

/-- A product that a codebook handed out is decoded by it at any later time. -/
theorem Encoded.decode?_eq (h : book.Encoded tokens n) (hnodup : book.symbols.Nodup) :
    book.decode? n =
      some ((book.symbols.filter (· ∈ tokens)).map fun token => (token, tokens.count token)) := by
  obtain ⟨hfaithful, hcovers, rfl⟩ := h.spec
  rw [hfaithful.decode?_eq_some_iff hnodup]
  exact ⟨(hfaithful.positive.product_pos tokens).ne',
    fun q hq => hfaithful.exists_of_dvd_product hcovers hq,
    (hfaithful.shares_product hnodup hcovers).symm⟩

/-- After any calls on an empty codebook, every number is decoded by loops that end.
There is a result exactly if the number is not zero and each of its prime factors
belongs to a symbol; it lists different symbols in the order of their primes, each
with a positive count, and the powers of their primes make up the number. For the
product of a word, whatever is called in between, it lists the symbols that occur
in the word, each once, with the numbers of their occurrences. -/
theorem decoded_exactly (calls : List Call) :
    let book := after {} calls
    (∀ n result, n ≠ 0 → (Factors book.owners n result ↔ result = book.decode? n)) ∧
      (∀ n, (book.decode? n).isSome ↔
        n ≠ 0 ∧ ∀ q, q.Prime → q ∣ n → ∃ token, book.primeOf? token = some q) ∧
      (∀ n counts, book.decode? n = some counts →
        (counts.map (·.1)).Nodup ∧ (counts.map (·.1)).Sublist book.symbols ∧
        (∀ entry ∈ counts, 0 < entry.2) ∧
        (counts.map fun (token, count) => ((book.primeOf? token).getD 1) ^ count).prod = n) ∧
      ∀ tokens later,
        let grown := (book.encode tokens).2.after later
        tokens ⊆ grown.symbols ∧ grown.symbols.Nodup ∧
        grown.decode? (book.encode tokens).1 =
          some ((grown.symbols.filter (· ∈ tokens)).map fun token =>
            (token, tokens.count token)) := by
  intro book
  have hfaithful : book.Faithful := faithful_after calls
  have hnodup : book.symbols.Nodup := nodup_symbols_after calls
  refine ⟨?_, ?_, ?_, ?_⟩
  · intro n result hn
    have hfactors : Factors book.owners n (book.decode? n) := by
      rw [decode?, if_neg hn]
      exact factors_factor hfaithful.prime_of_mem_owners hn
    constructor
    · intro hresult
      exact hresult.unique hfactors
    · rintro rfl
      exact hfactors
  · intro n
    rw [Option.isSome_iff_exists]
    simp only [hfaithful.decode?_eq_some_iff hnodup, exists_and_left, exists_eq, and_true]
  · intro n counts hcounts
    obtain ⟨hn, hall, rfl⟩ := (hfaithful.decode?_eq_some_iff hnodup).mp hcounts
    have hsublist := map_fst_shares_sublist book.owners n
    refine ⟨hnodup.sublist hsublist, hsublist, fun entry => pos_of_mem_shares, ?_⟩
    rw [prod_shares fun owner => primeOf?_of_mem_owners hnodup]
    refine prod_exponents hfaithful.nodup_owned hn fun q hq hdvd => ?_
    exact (mem_owned_iff hnodup).mpr (hall q hq hdvd)
  · intro tokens later grown
    have hencoded : grown.Encoded tokens (book.encode tokens).1 :=
      ⟨book, leadsTo_after {} calls, rfl, leadsTo_after _ later⟩
    have hgrown : grown = after {} (calls ++ .encode tokens :: later) := by
      simp [grown, book, after, perform]
    have hgrownNodup : grown.symbols.Nodup := hgrown ▸ nodup_symbols_after _
    refine ⟨fun token htoken => ?_, hgrownNodup, hencoded.decode?_eq hgrownNodup⟩
    rw [hgrown, symbols_after, List.mem_eraseDups]
    exact List.mem_flatMap.mpr ⟨.encode tokens, by simp, htoken⟩

/-- No token owns 3, which was drawn before `b` was met. -/
example :
    let book := after {} [.intern "a", .draw, .intern "b"]
    book.decode? 20 = some [("a", 2), ("b", 1)] ∧ book.decode? 6 = none := by
  decide +kernel

end Codebook

end ThueProver
