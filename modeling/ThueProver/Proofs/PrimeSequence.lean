import ThueProver.Proofs.Multisets
import ThueProver.Proofs.SymbolTables

/-!
# The primes that calls draw

A codebook is asked for primes, for the prime of a token and for the product of a
word, in any order. It has then drawn the first primes, one for each prime that was
asked for and one for each token that was met: none is left out, although a
candidate is only divided by the primes up to its square root and every second
number is no candidate. The search for a candidate has a bound here and needs none:
trying one candidate after the other for as long as it takes ends with the same
prime.
-/
namespace ThueProver

namespace Primes

variable {bound n p q : Nat} {primes : List Nat}

/-- The number tried first after the primes of a list. -/
def firstTried (primes : List Nat) : Nat :=
  match primes.getLast? with
  | none => 2
  | some 2 => 3
  | some p => p + 2

/-- Trying `n, n + 2, n + 4, …` for as long as it takes ends with `p`. -/
inductive Finds (primes : List Nat) : Nat → Nat → Prop
  | found {n : Nat} : undivided primes n = true → Finds primes n n
  | divided {n p : Nat} : undivided primes n = false → Finds primes (n + 2) p → Finds primes n p

theorem Finds.unique (hp : Finds primes n p) (hq : Finds primes n q) : p = q := by
  induction hp with
  | found hundivided =>
      cases hq with
      | found _ => rfl
      | divided hdivided _ => rw [hundivided] at hdivided; cases hdivided
  | divided hdivided _ ih =>
      cases hq with
      | found hundivided => rw [hundivided] at hdivided; cases hdivided
      | divided _ hlater => exact ih hlater

/-- Where the bounded search comes to a prime, the unbounded one comes to it. -/
theorem finds_firstUndivided {tries : Nat}
    (h : undivided primes (firstUndivided primes tries n) = true) :
    Finds primes n (firstUndivided primes tries n) := by
  induction tries generalizing n with
  | zero => exact .found h
  | succ tries ih =>
      unfold firstUndivided at h ⊢
      split_ifs at h ⊢ with hundivided
      · exact .found hundivided
      · exact .divided (Bool.eq_false_of_not_eq_true hundivided) (ih h)

theorem exists_next_eq (primes : List Nat) :
    ∃ tries, Primes.next primes = firstUndivided primes tries (firstTried primes) := by
  cases hlast : primes.getLast? with
  | none => exact ⟨0, by simp only [Primes.next, firstTried, hlast, firstUndivided]⟩
  | some p =>
      by_cases htwo : p = 2
      · subst htwo
        exact ⟨0, by simp only [Primes.next, firstTried, hlast, firstUndivided]⟩
      · exact ⟨p, by simp only [Primes.next, firstTried, hlast]⟩

/-- The unbounded search comes to what is drawn. -/
theorem Below.finds (h : Below bound primes) :
    Finds primes (firstTried primes) (Primes.next primes) := by
  obtain ⟨hprime, hbelow⟩ := h.next
  have hundivided := (hbelow.undivided_iff hprime.two_le).mpr hprime
  obtain ⟨tries, htries⟩ := exists_next_eq primes
  rw [htries] at hundivided ⊢
  exact finds_firstUndivided hundivided

/-- The primes before the last one of such a list are those below it. -/
theorem Below.front {front : List Nat} (h : Below bound (front ++ [p])) : Below p front := by
  obtain ⟨hfront, -, hlt⟩ := List.pairwise_append.mp h.sorted
  refine ⟨hfront, fun q => ⟨fun hq => ?_, ?_⟩⟩
  · exact ⟨((h.mem_iff q).mp (List.mem_append_left _ hq)).1, hlt q hq p (List.mem_singleton_self p)⟩
  · rintro ⟨hprime, hsmall⟩
    obtain ⟨-, hbound⟩ := (h.mem_iff p).mp (by simp)
    have hmem := (h.mem_iff q).mpr ⟨hprime, by omega⟩
    rcases List.mem_append.mp hmem with hq | hq
    · exact hq
    · have heq := List.mem_singleton.mp hq
      omega

/-- The primes below a bound are the first ones. -/
theorem Below.eq_nth (h : Below bound primes) :
    primes = (List.range primes.length).map (Nat.nth Nat.Prime) := by
  induction primes using List.reverseRecOn generalizing bound with
  | nil => rfl
  | append_singleton front p ih =>
      obtain ⟨hprime, -⟩ := (h.mem_iff p).mp (by simp)
      have hlast : Nat.nth Nat.Prime front.length = p := by
        rw [h.front.length_eq_count, Nat.nth_count hprime]
      rw [List.length_append, List.length_singleton, List.range_succ, List.map_append,
        ← ih h.front, List.map_singleton, hlast]

end Primes

namespace Codebook

/-- A call on a codebook. -/
inductive Call where
  | draw
  | intern (token : Token)
  | encode (tokens : List Token)
  deriving DecidableEq, Repr

/-- The tokens that a call hands in. -/
def Call.tokens : Call → List Token
  | .draw => []
  | .intern token => [token]
  | .encode tokens => tokens

def perform (book : Codebook) : Call → Codebook
  | .draw => book.draw.2
  | .intern token => (book.intern token).2
  | .encode tokens => (book.encode tokens).2

/-- The codebook after some calls. -/
def after (book : Codebook) (calls : List Call) : Codebook := calls.foldl perform book

/-- How many primes some calls on an empty codebook take: one for each that is drawn
and one for each token that is met. -/
def taken (calls : List Call) : Nat :=
  calls.count .draw + (calls.flatMap Call.tokens).eraseDups.length

variable {book : Codebook} {call : Call} {calls : List Call}

theorem called_perform (book : Codebook) (call : Call) : book.Called (book.perform call) := by
  cases call with
  | draw => exact .draw
  | intern token => exact .intern token
  | encode tokens => exact .encode tokens

theorem leadsTo_after (book : Codebook) (calls : List Call) : book.LeadsTo (book.after calls) := by
  induction calls generalizing book with
  | nil => exact .refl
  | cons call rest ih => exact .head (called_perform book call) (ih _)

theorem after_concat (book : Codebook) (calls : List Call) (call : Call) :
    book.after (calls ++ [call]) = (book.after calls).perform call := by
  simp [after]

theorem faithful_after (calls : List Call) : (after {} calls).Faithful :=
  (leadsTo_after {} calls).kept.2 faithful_empty

/-- Every other call than a draw encodes the tokens it hands in. -/
theorem perform_eq_encode (h : call ≠ .draw) : book.perform call = (book.encode call.tokens).2 := by
  cases call with
  | draw => exact absurd rfl h
  | intern token => rfl
  | encode tokens => rfl

theorem symbols_perform (h : book.symbols.Nodup) (call : Call) :
    (book.perform call).symbols = (book.symbols ++ call.tokens).eraseDups := by
  by_cases hdraw : call = .draw
  · subst hdraw
    rw [Call.tokens, List.append_nil, eraseDups_eq_self_iff.mpr h]
    rfl
  · rw [perform_eq_encode hdraw, symbols_encode h]

/-- The symbols after some calls are the tokens met, each once. -/
theorem symbols_after (calls : List Call) :
    (after {} calls).symbols = (calls.flatMap Call.tokens).eraseDups := by
  induction calls using List.reverseRecOn with
  | nil => rfl
  | append_singleton calls call ih =>
      rw [after_concat, symbols_perform (ih ▸ nodup_eraseDups _), ih, List.flatMap_append,
        List.flatMap_singleton, List.eraseDups_append, List.eraseDups_append,
        eraseDups_eq_self_iff.mpr (nodup_eraseDups _)]
      simp [List.removeAll]

theorem nodup_symbols_after (calls : List Call) : (after {} calls).symbols.Nodup :=
  symbols_after calls ▸ nodup_eraseDups _

/-- Encoding takes a prime for each token that is new. -/
theorem length_primes_encode (book : Codebook) (tokens : List Token) :
    (book.encode tokens).2.primes.length + book.symbols.length =
      book.primes.length + (book.encode tokens).2.symbols.length := by
  refine encode_induction (P := fun b => b.primes.length + book.symbols.length =
    book.primes.length + b.symbols.length) ?_ rfl tokens
  intro b token hb
  cases hknown : b.primeOf? token with
  | some p => rwa [intern_of_known hknown]
  | none =>
      rw [intern_of_new hknown]
      simp only [symbols, List.length_map, List.length_append, List.length_singleton] at hb ⊢
      omega

theorem length_primes_after (calls : List Call) :
    (after {} calls).primes.length = calls.count .draw + (after {} calls).symbols.length := by
  induction calls using List.reverseRecOn with
  | nil => rfl
  | append_singleton calls call ih =>
      rw [after_concat, List.count_append]
      by_cases hdraw : call = .draw
      · subst hdraw
        simp only [perform, draw, symbols, List.length_append, List.length_singleton,
          List.count_singleton_self] at ih ⊢
        omega
      · have hlength := length_primes_encode (after {} calls) call.tokens
        rw [List.count_singleton, if_neg (by simpa using hdraw), perform_eq_encode hdraw]
        omega

/-- The prime of index `taken calls` comes after those that the calls have taken. -/
theorem primes_after (calls : List Call) :
    (after {} calls).primes = (List.range (taken calls)).map (Nat.nth Nat.Prime) := by
  obtain ⟨bound, hbelow⟩ := (faithful_after calls).drawn
  rw [taken, ← symbols_after, ← length_primes_after]
  exact hbelow.eq_nth

theorem primeOf?_of_mem_owners (h : book.symbols.Nodup) {owner : Token × Nat}
    (howner : owner ∈ book.owners) : book.primeOf? owner.1 = some owner.2 :=
  Fields.lookup_of_mem_nodup h howner

/-- The primes of the symbols, in the order of the symbols. -/
theorem map_primeOf?_symbols (h : book.symbols.Nodup) :
    book.symbols.map book.primeOf? = (book.owners.map (·.2)).map some := by
  rw [symbols, List.map_map, List.map_map]
  exact List.map_congr_left fun owner howner => primeOf?_of_mem_owners h howner

/-- After any calls on an empty codebook, the primes drawn are the first ones, as many
as there were draws and different tokens, and the next draw yields the prime that
follows: the unbounded search for it ends there, and nowhere else. The symbols are
different, their primes increase, no two of them share one, and no later call takes
one away. -/
theorem primes_exact (calls later : List Call) :
    let book := after {} calls
    book.primes = (List.range (taken calls)).map (Nat.nth Nat.Prime) ∧
      (∀ p, Primes.Finds book.primes (Primes.firstTried book.primes) p ↔
        p = Nat.nth Nat.Prime (taken calls)) ∧
      book.draw.1 = Nat.nth Nat.Prime (taken calls) ∧
      book.symbols.Nodup ∧
      (∃ primes : List Nat, book.symbols.map book.primeOf? = primes.map some ∧
        primes.Pairwise (· < ·) ∧ primes.Sublist book.primes) ∧
      (∀ a b p, book.primeOf? a = some p → book.primeOf? b = some p → a = b) ∧
      ∀ token p, book.primeOf? token = some p →
        (book.after later).primeOf? token = some p := by
  intro book
  have hprimes : book.primes = _ := primes_after calls
  have hfaithful : book.Faithful := faithful_after calls
  obtain ⟨bound, hbelow⟩ := hfaithful.drawn
  have hnodup : book.symbols.Nodup := nodup_symbols_after calls
  have hnext : Primes.next book.primes = Nat.nth Nat.Prime (taken calls) := by
    rw [hbelow.next_eq_nth, hprimes, List.length_map, List.length_range]
  refine ⟨hprimes, fun p => ⟨fun hp => ?_, ?_⟩, hnext, hnodup, ?_,
    fun a b p => hfaithful.primeOf?_injective, (leadsTo_after book later).kept.1⟩
  · rw [← hnext]
    exact hp.unique hbelow.finds
  · rintro rfl
    rw [← hnext]
    exact hbelow.finds
  · exact ⟨_, map_primeOf?_symbols hnodup, hbelow.sorted.sublist hfaithful.owned, hfaithful.owned⟩

/-- The third prime goes to no token. -/
example :
    let book := after {} [.intern "a", .encode ["b", "a"], .draw, .intern "c"]
    book.primes = [2, 3, 5, 7] ∧ book.owners = [("a", 2), ("b", 3), ("c", 7)] := by
  decide

end Codebook

end ThueProver
