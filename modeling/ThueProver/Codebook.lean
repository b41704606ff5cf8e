import ThueProver.Equation

/-!
# Tokens as primes

A codebook gives every token it meets a prime of its own, in increasing order of first meeting, and
encodes a token sequence as the product of its primes. The product is the multiset of the tokens:
it forgets their order and nothing else. Divisibility of products is therefore inclusion of
multisets, which is necessary but not sufficient for one sequence to occur inside another.
-/
namespace ThueProver

namespace Primes

/-- No listed prime up to the square root of `n` divides `n`. -/
def undivided (primes : List Nat) (n : Nat) : Bool :=
  (primes.takeWhile fun p => p * p ≤ n).all fun p => n % p != 0

/-- The first of `n, n + 2, n + 4, …` that no listed prime divides, among `tries` candidates. -/
def firstUndivided (primes : List Nat) : (tries : Nat) → (n : Nat) → Nat
  | 0, n => n
  | tries + 1, n => if undivided primes n then n else firstUndivided primes tries (n + 2)

/-- The prime after the last one of `primes`, which are all primes up to some bound in order.
There is a prime between a number and its double, so `p` odd candidates above `p` suffice. -/
def next (primes : List Nat) : Nat :=
  match primes.getLast? with
  | none => 2
  | some 2 => 3
  | some p => firstUndivided primes p (p + 2)

/-- How often `p` divides `n`, and what is left of `n`. -/
def divideOut (p n : Nat) : Nat × Nat :=
  if h : 1 < p ∧ 0 < n ∧ n % p = 0 then
    let rest := divideOut p (n / p)
    (rest.1 + 1, rest.2)
  else (0, n)
termination_by n
decreasing_by exact Nat.div_lt_self h.2.1 h.1

end Primes

/-- The primes drawn so far and the tokens that own one. A prime may be drawn without an owner. -/
structure Codebook where
  primes : List Nat := []
  owners : List (Token × Nat) := []
  deriving DecidableEq, Repr, Inhabited

namespace Codebook

def symbols (book : Codebook) : List Token := book.owners.map (·.1)

def primeOf? (book : Codebook) (token : Token) : Option Nat := book.owners.lookup token

/-- Draws the next prime. -/
def draw (book : Codebook) : Nat × Codebook :=
  let p := Primes.next book.primes
  (p, { book with primes := book.primes ++ [p] })

/-- The prime of a token; a token not met before draws one. -/
def intern (book : Codebook) (token : Token) : Nat × Codebook :=
  match book.primeOf? token with
  | some p => (p, book)
  | none =>
      let (p, book) := book.draw
      (p, { book with owners := book.owners ++ [(token, p)] })

/-- The product of the primes of a token sequence; the empty sequence has product 1. -/
def encode (book : Codebook) : List Token → Nat × Codebook
  | [] => (1, book)
  | token :: rest =>
      let (p, book) := book.intern token
      let (product, book) := book.encode rest
      (p * product, book)

/-- The codebook that meets `symbols` in this order. -/
def ofSymbols (symbols : List Token) : Codebook := (encode {} symbols).2

/-- Divides the owners' primes out of `n` in turn; nothing may be left over. -/
def factor : List (Token × Nat) → Nat → Option (List (Token × Nat))
  | [], n => if n = 1 then some [] else none
  | (token, p) :: owners, n =>
      let (count, rest) := Primes.divideOut p n
      (factor owners rest).map fun counts => if count = 0 then counts else (token, count) :: counts

/-- The tokens of a product with their multiplicities, in the order of their primes. There are
none for zero and for a product with a factor that no token owns. -/
def decode? (book : Codebook) (product : Nat) : Option (List (Token × Nat)) :=
  if product = 0 then none else factor book.owners product

end Codebook

end ThueProver
