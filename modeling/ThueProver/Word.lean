/-!
# Sizes of words

Counters, limits and rule numbers are read as 64-bit words, and products of primes as lists of
32-bit digits. Inside the library they are natural numbers without a bound.
-/
namespace ThueProver

/-- The first number that is no 64-bit word. -/
def wordBound : Nat := Nat.pow 2 64

/-- The first number that is no 32-bit digit. -/
def digitBound : Nat := Nat.pow 2 32

/-- The first number that is no port. -/
def portBound : Nat := Nat.pow 2 16

end ThueProver
