import Mathlib.Tactic.Common
import ThueProver.Json.Text

/-!
# Strings and numbers read back

A string is read back from its quoted form, whatever characters it holds, and a
64-bit word from its decimal digits. The digits of a number end where the value
ends, so the text that follows is part of the statement: it starts with a comma
or with one of the two closing brackets, or there is none.
-/
namespace ThueProver.JsonText

/-- The text goes on with a mark that ends a value, or not at all. -/
def Ends (rest : List Char) : Prop :=
  ∀ c, rest.head? = some c → c = ',' ∨ c = ']' ∨ c = Json.closeBrace

theorem ends_nil : Ends [] := by
  intro c hc
  cases hc

theorem ends_comma (rest : List Char) : Ends (',' :: rest) := by
  intro c hc
  exact .inl (Option.some.inj hc).symm

theorem ends_bracket (rest : List Char) : Ends (']' :: rest) := by
  intro c hc
  exact .inr (.inl (Option.some.inj hc).symm)

theorem ends_brace (rest : List Char) : Ends (Json.closeBrace :: rest) := by
  intro c hc
  exact .inr (.inr (Option.some.inj hc).symm)

theorem Ends.of_head {rest : List Char} (h : Ends rest) {P : Char → Prop} (hcomma : P ',')
    (hbracket : P ']') (hbrace : P Json.closeBrace) : ∀ c, rest.head? = some c → P c := by
  intro c hc
  rcases h c hc with rfl | rfl | rfl
  · exact hcomma
  · exact hbracket
  · exact hbrace

theorem skipBlanks_cons {c : Char} (h : isBlank c = false) (cs : List Char) :
    skipBlanks (c :: cs) = c :: cs := by
  simp [skipBlanks, h]

theorem expectMark_cons {mark : Char} (h : isBlank mark = false) (cs : List Char) :
    expectMark mark (mark :: cs) = .ok cs := by
  unfold expectMark
  rw [skipBlanks_cons h]
  simp [expect, List.isPrefixOf]

/-! ## Strings -/

theorem readString_plain {c : Char} (hquote : c ≠ '"') (hescape : c ≠ '\\')
    (hcontrol : ¬ c.toNat < 0x20) (cs : List Char) :
    readString (c :: cs) = (readString cs).map fun (s, rest) => (c :: s, rest) := by
  rw [readString]
  · rw [if_neg hcontrol]
  · exact hquote
  · simp [hescape]
  · simp [hescape]

/-- Two hexadecimal digits are enough for a control character. -/
theorem unit?_hexDigit : ∀ n < 32,
    unit? '0' '0' (Json.hexDigit (n / 16)) (Json.hexDigit (n % 16)) = some n := by
  decide

theorem readString_control {c : Char} (h : c.toNat < 0x20) (cs : List Char) :
    readString (['\\', 'u', '0', '0', Json.hexDigit (c.toNat / 16),
      Json.hexDigit (c.toNat % 16)] ++ cs) =
        (readString cs).map fun (s, rest) => (c :: s, rest) := by
  have hlow : isLowUnit c.toNat = false := by
    simp [isLowUnit]
    omega
  have hhigh : isHighUnit c.toNat = false := by
    simp [isHighUnit]
    omega
  simp only [List.cons_append, List.nil_append]
  rw [readString, unit?_hexDigit _ h]
  simp only [hlow, hhigh, Char.ofNat_toNat]
  rfl

theorem readString_letter {c letter : Char} (hletter : letter ≠ 'u')
    (h : unescape? letter = some c) (cs : List Char) :
    readString (['\\', letter] ++ cs) = (readString cs).map fun (s, rest) => (c :: s, rest) := by
  rw [List.cons_append, List.cons_append, List.nil_append, readString]
  · simp only [h]
  · intro a b d e rest hcons
    exact absurd hcons hletter

/-- A character is read back from its escaped form. -/
theorem readString_escaped (c : Char) (cs : List Char) :
    readString (Json.escaped c ++ cs) =
      (readString cs).map fun (s, rest) => (c :: s, rest) := by
  unfold Json.escaped
  split_ifs with hquote hescape hnewline hreturn htab hback hfeed hcontrol
  · exact readString_letter (by decide) (by rw [hquote]; rfl) cs
  · exact readString_letter (by decide) (by rw [hescape]; rfl) cs
  · exact readString_letter (by decide) (by rw [hnewline]; rfl) cs
  · exact readString_letter (by decide) (by rw [hreturn]; rfl) cs
  · exact readString_letter (by decide) (by rw [htab]; rfl) cs
  · exact readString_letter (by decide) (by rw [hback]; rfl) cs
  · exact readString_letter (by decide) (by rw [hfeed]; rfl) cs
  · exact readString_control hcontrol cs
  · exact readString_plain hquote hescape hcontrol cs

theorem readString_quoted (s rest : List Char) :
    readString (s.flatMap Json.escaped ++ '"' :: rest) = .ok (s, rest) := by
  induction s with
  | nil => rfl
  | cons c s ih =>
      rw [List.flatMap_cons, List.append_assoc, readString_escaped, ih]
      rfl

/-! ## Numbers -/

theorem digit_ne_minus {c : Char} (h : c.isDigit = true) : c ≠ '-' := by
  rintro rfl
  exact absurd h (by decide)

/-- A run of digits ends where the value ends. -/
theorem readDigits_append {digits rest : List Char} (hne : digits ≠ [])
    (hdigits : ∀ c ∈ digits, c.isDigit = true) (hrest : Ends rest) :
    readDigits (digits ++ rest) = .ok (digits, rest) := by
  have hstop : ∀ c, rest.head? = some c → c.isDigit = false :=
    hrest.of_head (by decide) (by decide) (by decide)
  have hkeep : rest.takeWhile Char.isDigit = [] ∧ rest.dropWhile Char.isDigit = rest := by
    cases rest with
    | nil => exact ⟨rfl, rfl⟩
    | cons c cs => simp [hstop c rfl]
  unfold readDigits
  rw [List.takeWhile_append_of_pos hdigits, List.dropWhile_append_of_pos hdigits, hkeep.1,
    hkeep.2, List.append_nil]
  simp [hne]

theorem readFraction_of_ends {rest : List Char} (h : Ends rest) :
    readFraction rest = .ok (none, rest) := by
  have hpoint : ∀ c, rest.head? = some c → c ≠ '.' :=
    h.of_head (by decide) (by decide) (by decide)
  cases rest with
  | nil => rfl
  | cons c cs =>
      rw [readFraction]
      intro rest hcons
      exact hpoint c rfl (List.cons.inj hcons).1

theorem readExponent_of_ends {rest : List Char} (h : Ends rest) :
    readExponent rest = .ok (none, rest) := by
  have hexponent : ∀ c, rest.head? = some c → (c = 'e' || c = 'E') = false :=
    h.of_head (by decide) (by decide) (by decide)
  cases rest with
  | nil => rfl
  | cons c cs =>
      have hplain := hexponent c rfl
      unfold readExponent
      simp only [hplain]
      rfl

/-- A number that is not zero does not start with the digit zero. -/
theorem head_toDigits {n : Nat} (h : 0 < n) : (Nat.toDigits 10 n).head? ≠ some '0' := by
  induction n using Nat.strongRecOn with
  | ind n ih =>
      by_cases hsmall : n < 10
      · rw [Nat.toDigits_of_lt_base hsmall]
        have hdigit : ∀ m < 10, 0 < m → m.digitChar ≠ '0' := by decide
        simpa using hdigit n hsmall h
      · rw [Nat.toDigits_of_base_le (by decide) (by omega)]
        have hhead := ih (n / 10) (by omega) (by omega)
        cases hdigits : Nat.toDigits 10 (n / 10) with
        | nil => exact absurd hdigits Nat.toDigits_ne_nil
        | cons c cs =>
            rw [hdigits] at hhead
            exact hhead

theorem le_ofDigitChars (cs : List Char) (n : Nat) : n ≤ Nat.ofDigitChars 10 cs n := by
  induction cs generalizing n with
  | nil => simp
  | cons c cs ih =>
      rw [Nat.ofDigitChars_cons]
      have hrest := ih (10 * n + (c.toNat - '0'.toNat))
      omega

/-- Digits that a word can hold are all taken. -/
theorem appendDigits_eq {cs : List Char} {n : Nat} (h : Nat.ofDigitChars 10 cs n < wordBound) :
    appendDigits n cs = (Nat.ofDigitChars 10 cs n, []) := by
  induction cs generalizing n with
  | nil => simp [appendDigits]
  | cons c cs ih =>
      rw [Nat.ofDigitChars_cons] at h ⊢
      have hvalue : n * 10 + digitValue c = 10 * n + (c.toNat - '0'.toNat) := by
        rw [digitValue, Nat.mul_comm]
      have hfits := le_ofDigitChars cs (10 * n + (c.toNat - '0'.toNat))
      rw [appendDigits, hvalue, if_pos (by omega)]
      exact ih h

theorem readNumeral_toDigits {n : Nat} (h : n < wordBound) {rest : List Char}
    (hrest : Ends rest) :
    readNumeral (Nat.toDigits 10 n ++ rest) = .ok (⟨n, 0, true⟩, rest) := by
  have hdigits : readDigits (Nat.toDigits 10 n ++ rest) = .ok (Nat.toDigits 10 n, rest) :=
    readDigits_append Nat.toDigits_ne_nil
      (fun c hc => Nat.isDigit_of_mem_toDigits (by decide) (by decide) hc) hrest
  have hvalue : Nat.ofDigitChars 10 (Nat.toDigits 10 n) 0 = n := Nat.ofDigitChars_ten_toDigits
  have happend : appendDigits 0 (Nat.toDigits 10 n) = (n, []) := by
    rw [appendDigits_eq (by rw [hvalue]; exact h), hvalue]
  have hzero : (decide ((Nat.toDigits 10 n).length > 1) &&
      (Nat.toDigits 10 n).head? == some '0') = false := by
    cases n with
    | zero => rfl
    | succ n =>
        have hhead := head_toDigits (Nat.succ_pos n)
        simp [hhead]
  simp only [readNumeral, hdigits, hzero, readFraction_of_ends hrest, readExponent_of_ends hrest,
    bind, Except.bind, happend]
  rfl

/-- Rounding to a double at most doubles a number. -/
theorem nearest_le (n : Nat) (h : n ≠ 0) : Numeral.nearest n ≤ 2 * n := by
  have hlog := Nat.log2_self_le h
  have hunit : Nat.pow 2 (n.log2 - 52) ≤ n :=
    Nat.le_trans (Nat.pow_le_pow_right (by decide) (Nat.sub_le _ _)) hlog
  have hquotient := Nat.div_mul_le_self n (Nat.pow 2 (n.log2 - 52))
  unfold Numeral.nearest
  dsimp only
  split_ifs
  · rw [Nat.add_mul]
    omega
  · omega

/-- No word is too large for a double. -/
theorem not_overflows {n : Nat} (h : n < wordBound) :
    Numeral.overflows ⟨n, 0, true⟩ = false := by
  by_cases hzero : n = 0
  · subst hzero
    rfl
  · have hnearest := nearest_le n hzero
    have hone : Numeral.nearest (Nat.pow 10 (0 : Int).toNat) = 1 := by decide
    have hceiling : 2 * wordBound ≤ Numeral.ceiling := by decide +kernel
    simp only [Numeral.overflows, hone]
    simp
    omega

/-- A number below a bound is read back. -/
theorem readNatural_toDigits {n bound : Nat} (hword : n < wordBound) (hbound : n < bound)
    {rest : List Char} (hrest : Ends rest) :
    readNatural bound (Nat.toDigits 10 n ++ rest) = .ok (n, rest) := by
  have hsigned : readSigned (Nat.toDigits 10 n ++ rest) = .ok ((false, ⟨n, 0, true⟩), rest) := by
    have hnumeral := readNumeral_toDigits hword hrest
    cases hdigits : Nat.toDigits 10 n with
    | nil => exact absurd hdigits Nat.toDigits_ne_nil
    | cons c cs =>
        have hdigit : c.isDigit = true :=
          Nat.isDigit_of_mem_toDigits (by decide) (by decide) (hdigits ▸ List.mem_cons_self)
        rw [hdigits] at hnumeral
        rw [List.cons_append] at hnumeral ⊢
        rw [readSigned, hnumeral]
        · rfl
        · intro rest hcons
          exact digit_ne_minus hdigit (List.cons.inj hcons).1
  simp only [readNatural, hsigned, bind, Except.bind, not_overflows hword]
  simp [hbound]
  rfl

end ThueProver.JsonText
