import Mathlib.Data.Nat.Factors
import Mathlib.NumberTheory.Bertrand
import Mathlib.Tactic
import ThueProver.Proofs.Coding

/-!
# Products as multisets

The primes of a codebook are drawn by trial division: they are the first primes,
each found among the odd numbers after the last one, where there is one by
Bertrand's postulate. No two tokens own the same prime. A product of owned
primes is therefore the multiset of its tokens: words have equal products
exactly if one is a rearrangement of the other, and a product divides another
exactly if the tokens of the one word are among those of the other.
-/
namespace ThueProver

namespace Primes

/-- The list holds the primes below a bound, in order. -/
structure Below (bound : Nat) (primes : List Nat) : Prop where
  sorted : primes.Pairwise (· < ·)
  mem_iff : ∀ q, q ∈ primes ↔ q.Prime ∧ q < bound

variable {bound n p q : Nat} {primes : List Nat}

theorem Below.skip (h : Below n primes) (hn : ¬ n.Prime) : Below (n + 1) primes := by
  refine ⟨h.sorted, fun q => ?_⟩
  rw [h.mem_iff, and_congr_right_iff]
  intro hq
  have hne : q ≠ n := fun heq => hn (heq ▸ hq)
  omega

theorem Below.concat (h : Below n primes) (hn : n.Prime) : Below (n + 1) (primes ++ [n]) := by
  constructor
  · rw [List.pairwise_append]
    refine ⟨h.sorted, List.pairwise_singleton _ _, ?_⟩
    intro q hq m hm
    rw [List.mem_singleton.mp hm]
    exact ((h.mem_iff q).mp hq).2
  · intro q
    rw [List.mem_append, List.mem_singleton, h.mem_iff]
    constructor
    · rintro (⟨hq, hlt⟩ | rfl)
      · exact ⟨hq, by omega⟩
      · exact ⟨hn, by omega⟩
    · rintro ⟨hq, hlt⟩
      rcases Nat.lt_succ_iff_lt_or_eq.mp hlt with hlt | rfl
      · exact .inl ⟨hq, hlt⟩
      · exact .inr rfl

/-- The last prime of such a list bounds it. -/
theorem Below.last (h : Below bound primes) (hlast : primes.getLast? = some p) :
    p.Prime ∧ Below (p + 1) primes := by
  obtain ⟨front, rfl⟩ := List.getLast?_eq_some_iff.mp hlast
  obtain ⟨hp, hbound⟩ := (h.mem_iff p).mp (by simp)
  refine ⟨hp, h.sorted, ?_⟩
  intro q
  constructor
  · intro hq
    refine ⟨((h.mem_iff q).mp hq).1, ?_⟩
    rcases List.mem_append.mp hq with hq | hq
    · have hlt := (List.pairwise_append.mp h.sorted).2.2 q hq p (by simp)
      omega
    · rw [List.mem_singleton.mp hq]
      omega
  · rintro ⟨hq, hlt⟩
    exact (h.mem_iff q).mpr ⟨hq, by omega⟩

theorem mem_takeWhile_square (h : primes.Pairwise (· < ·)) :
    q ∈ primes.takeWhile (fun p => p * p ≤ n) ↔ q ∈ primes ∧ q * q ≤ n := by
  induction primes with
  | nil => simp
  | cons p rest ih =>
      obtain ⟨hfirst, hrest⟩ := List.pairwise_cons.mp h
      rw [List.takeWhile_cons]
      split_ifs with hsmall
      · rw [List.mem_cons, List.mem_cons, ih hrest, or_and_right]
        simp only [decide_eq_true_eq] at hsmall
        grind
      · simp only [decide_eq_true_eq, not_le] at hsmall
        simp only [List.not_mem_nil, List.mem_cons, false_iff, not_and, not_le]
        rintro (rfl | hq)
        · exact hsmall
        · have hlt := hfirst q hq
          nlinarith

/-- Trial division by the smaller primes decides primality. -/
theorem Below.undivided_iff (h : Below n primes) (hn : 2 ≤ n) :
    undivided primes n = true ↔ n.Prime := by
  unfold undivided
  simp only [List.all_eq_true, mem_takeWhile_square h.sorted, h.mem_iff, bne_iff_ne, ne_eq]
  constructor
  · intro hnone
    by_contra hcomposite
    have hfactor := Nat.minFac_prime (n := n) (by omega)
    have hsquare := Nat.minFac_sq_le_self (by omega) hcomposite
    rw [pow_two] at hsquare
    have hlt : n.minFac < n := by
      have htwo := hfactor.two_le
      nlinarith
    exact hnone n.minFac ⟨⟨hfactor, hlt⟩, hsquare⟩ (Nat.mod_eq_zero_of_dvd n.minFac_dvd)
  · rintro hprime q ⟨⟨hq, hlt⟩, -⟩ hmod
    have heq := (Nat.prime_dvd_prime_iff_eq hq hprime).mp (Nat.dvd_of_mod_eq_zero hmod)
    omega

/-- With a prime in reach, the first odd number that is not divided is the next
prime. -/
theorem Below.firstUndivided {tries : Nat} (h : Below n primes) (hn : 2 ≤ n) (hodd : n % 2 = 1)
    (hreach : ∃ q, q.Prime ∧ n ≤ q ∧ q < n + 2 * tries) :
    (Primes.firstUndivided primes tries n).Prime ∧
      Below (Primes.firstUndivided primes tries n) primes := by
  induction tries generalizing n with
  | zero =>
      obtain ⟨q, -, hle, hlt⟩ := hreach
      omega
  | succ tries ih =>
      unfold Primes.firstUndivided
      split_ifs with hundivided
      · exact ⟨(h.undivided_iff hn).mp hundivided, h⟩
      have hcomposite : ¬ n.Prime := fun hprime => hundivided ((h.undivided_iff hn).mpr hprime)
      have heven : ¬ (n + 1).Prime := by
        intro hprime
        rcases hprime.eq_two_or_odd with htwo | hodd' <;> omega
      refine ih ((h.skip hcomposite).skip heven) (by omega) (by omega) ?_
      obtain ⟨q, hq, hle, hlt⟩ := hreach
      have hne : q ≠ n := fun heq => hcomposite (heq ▸ hq)
      have hne' : q ≠ n + 1 := fun heq => heven (heq ▸ hq)
      exact ⟨q, hq, by omega, by omega⟩

/-- What is drawn is the next prime. -/
theorem Below.next (h : Below bound primes) :
    (Primes.next primes).Prime ∧ Below (Primes.next primes) primes := by
  unfold Primes.next
  split
  next hlast =>
    obtain rfl := List.getLast?_eq_none_iff.mp hlast
    refine ⟨Nat.prime_two, h.sorted, fun q => ?_⟩
    simp only [List.not_mem_nil, false_iff, not_and, not_lt]
    exact Nat.Prime.two_le
  next hlast => exact ⟨Nat.prime_three, (h.last hlast).2⟩
  next p hne hlast =>
    obtain ⟨hp, hbelow⟩ := h.last hlast
    have hodd : p % 2 = 1 := (hp.eq_two_or_odd).resolve_left fun htwo => hne (htwo ▸ rfl)
    have heven : ¬ (p + 1).Prime := by
      intro hprime
      have htwo := hp.two_le
      rcases hprime.eq_two_or_odd with htwo' | hodd' <;> omega
    obtain ⟨q, hq, hlt, hle⟩ := Nat.exists_prime_lt_and_le_two_mul p hp.ne_zero
    have hne' : q ≠ p + 1 := fun heq => heven (heq ▸ hq)
    exact (hbelow.skip heven).firstUndivided (by omega) (by omega) ⟨q, hq, by omega, by omega⟩

end Primes

namespace Codebook

/-- The primes drawn are the first ones, in order, and each has one owner at
most. -/
structure Faithful (book : Codebook) : Prop where
  drawn : ∃ bound, Primes.Below bound book.primes
  owned : (book.owners.map (·.2)).Sublist book.primes

theorem faithful_empty : ({} : Codebook).Faithful := by
  refine ⟨⟨0, List.Pairwise.nil, ?_⟩, List.Sublist.refl _⟩
  simp

theorem Faithful.intern {book : Codebook} (h : book.Faithful) (token : Token) :
    (book.intern token).2.Faithful := by
  cases hknown : book.primeOf? token with
  | some p => rwa [intern_of_known hknown]
  | none =>
      obtain ⟨bound, hbelow⟩ := h.drawn
      obtain ⟨hprime, hnext⟩ := hbelow.next
      rw [intern_of_new hknown]
      refine ⟨⟨_, hnext.concat hprime⟩, ?_⟩
      rw [List.map_append]
      exact h.owned.append (List.Sublist.refl _)

theorem mem_owners_of_primeOf? {book : Codebook} {token : Token} {p : Nat}
    (h : book.primeOf? token = some p) : (token, p) ∈ book.owners := by
  obtain ⟨before, after, howners, -⟩ := List.lookup_eq_some_iff.mp h
  rw [howners]
  simp

theorem Faithful.prime {book : Codebook} (h : book.Faithful) {token : Token} {p : Nat}
    (hp : book.primeOf? token = some p) : p.Prime := by
  obtain ⟨bound, hbelow⟩ := h.drawn
  have hdrawn := h.owned.subset (List.mem_map_of_mem (mem_owners_of_primeOf? hp))
  exact ((hbelow.mem_iff p).mp hdrawn).1

theorem Faithful.positive {book : Codebook} (h : book.Faithful) : book.Positive :=
  fun _ _ hp => (h.prime hp).pos

/-- No two tokens own the same prime. -/
theorem Faithful.primeOf?_injective {book : Codebook} (h : book.Faithful) {a b : Token} {p : Nat}
    (ha : book.primeOf? a = some p) (hb : book.primeOf? b = some p) : a = b := by
  obtain ⟨bound, hbelow⟩ := h.drawn
  have hnodup : (book.owners.map (·.2)).Nodup :=
    (hbelow.sorted.imp fun hlt => hlt.ne).sublist h.owned
  have hsame := List.inj_on_of_nodup_map hnodup (mem_owners_of_primeOf? ha)
    (mem_owners_of_primeOf? hb) rfl
  exact congrArg Prod.fst hsame

/-- The factors of the product of a list, a 1 for a token without a prime. -/
def codesOf (book : Codebook) (tokens : List Token) : List Nat :=
  tokens.map fun token => (book.primeOf? token).getD 1

theorem prod_codesOf (book : Codebook) (tokens : List Token) :
    (book.codesOf tokens).prod = book.product tokens := rfl

section
variable {book : Codebook} {u v : List Token}

theorem product_of_perm (h : u.Perm v) : book.product u = book.product v := (h.map _).prod_eq

theorem Covers.of_perm (h : book.Covers u) (hperm : u.Perm v) : book.Covers v :=
  fun token htoken => h token (hperm.mem_iff.mpr htoken)

theorem Covers.append (hu : book.Covers u) (hv : book.Covers v) : book.Covers (u ++ v) := by
  intro token htoken
  rcases List.mem_append.mp htoken with htoken | htoken
  · exact hu token htoken
  · exact hv token htoken

theorem Covers.of_append_right (h : book.Covers (u ++ v)) : book.Covers v :=
  fun token htoken => h token (List.mem_append_right u htoken)

/-- The codes of a list are the prime factors of its product. -/
theorem Faithful.codesOf_perm (h : book.Faithful) (hcovers : book.Covers u) :
    (book.codesOf u).Perm (book.product u).primeFactorsList := by
  refine Nat.primeFactorsList_unique (book.prod_codesOf u) ?_
  intro p hp
  obtain ⟨token, htoken, rfl⟩ := List.mem_map.mp hp
  obtain ⟨p, hprime⟩ := hcovers token htoken
  rw [hprime]
  exact h.prime hprime

/-- Codes can be read back. -/
theorem Faithful.exists_decode (h : book.Faithful) :
    ∃ decode : Nat → Token, ∀ u, book.Covers u → (book.codesOf u).map decode = u := by
  refine ⟨fun p => Classical.epsilon fun token => book.primeOf? token = some p, ?_⟩
  intro u hcovers
  rw [codesOf, List.map_map]
  refine (List.map_congr_left ?_).trans (List.map_id u)
  intro token htoken
  obtain ⟨p, hp⟩ := hcovers token htoken
  simp only [Function.comp_apply, hp, Option.getD_some, id_eq]
  have hdecoded :=
    Classical.epsilon_spec (p := fun token => book.primeOf? token = some p) ⟨token, hp⟩
  exact h.primeOf?_injective hdecoded hp

/-- Products are equal exactly if the words are rearrangements of each other. -/
theorem Faithful.product_eq_iff (h : book.Faithful) (hu : book.Covers u) (hv : book.Covers v) :
    book.product u = book.product v ↔ u.Perm v := by
  refine ⟨fun heq => ?_, product_of_perm⟩
  obtain ⟨decode, hdecode⟩ := h.exists_decode
  have hcodes : (book.codesOf u).Perm (book.codesOf v) :=
    (h.codesOf_perm hu).trans (heq ▸ (h.codesOf_perm hv).symm)
  have hwords := hcodes.map decode
  rwa [hdecode u hu, hdecode v hv] at hwords

/-- A product divides another one exactly if its tokens can be set apart. -/
theorem Faithful.product_dvd_iff (h : book.Faithful) (hu : book.Covers u) (hv : book.Covers v) :
    book.product u ∣ book.product v ↔ ∃ rest, v.Perm (u ++ rest) := by
  constructor
  · intro hdvd
    obtain ⟨decode, hdecode⟩ := h.exists_decode
    have hfactors :=
      Nat.primeFactorsList_sublist_of_dvd hdvd (h.positive.product_pos v).ne'
    obtain ⟨rest, hrest⟩ := hfactors.exists_perm_append
    have hcodes : (book.codesOf v).Perm (book.codesOf u ++ rest) :=
      ((h.codesOf_perm hv).trans hrest).trans ((h.codesOf_perm hu).symm.append_right rest)
    have hwords := hcodes.map decode
    rw [List.map_append, hdecode u hu, hdecode v hv] at hwords
    exact ⟨rest.map decode, hwords⟩
  · rintro ⟨rest, hperm⟩
    rw [product_of_perm hperm, product_append]
    exact Nat.dvd_mul_right _ _

end

end Codebook

theorem Context.Coded.faithful {axioms : List Equation} {goal : Equation} {withGraph : Bool}
    {c : Context} (h : c.Coded axioms goal withGraph) : c.codes.Faithful :=
  h.codes_induction Codebook.faithful_empty fun _ token hbook => hbook.intern token

end ThueProver
