import Mathlib.Algebra.Ring.Nat
import Mathlib.Data.List.Basic
import Mathlib.Data.List.TakeDrop
import Mathlib.Tactic.Common
import ThueProver.Proofs.RuleFileGrammar

/-!
# Where a rule file is wrong

A file that is not of the grammar has a first line that says nothing, with whole lines
above it. What is wrong with such a line is said here by cutting the part before its
comment in three: the error is about the middle part, which is the whole line without
blanks at its ends or an equals sign. Reading refuses a file exactly with the error of
its first bad line, under the number of that line and with the bytes of the middle part.

Files compose at whole lines. What follows a file that ends with a newline is read as a
file of its own, and its error is moved down by the lines and bytes in front of it.
-/
namespace ThueProver

namespace Text
variable {cs front rest after : List Char}

/-! ## Bytes and lines -/

@[simp] theorem byteLength_append (cs rest : List Char) :
    byteLength (cs ++ rest) = byteLength cs + byteLength rest := by
  induction cs with
  | nil => simp [byteLength]
  | cons c cs ih => simp only [List.cons_append, byteLength, ih, Nat.add_assoc]

theorem byteLength_eq (cs : List Char) : byteLength cs = (String.ofList cs).utf8ByteSize := by
  induction cs with
  | nil => rfl
  | cons c cs ih =>
      have hcons : String.ofList (c :: cs) = String.singleton c ++ String.ofList cs := by
        rw [String.ext_iff]
        simp
      rw [byteLength, ih, hcons, String.utf8ByteSize_append, String.utf8ByteSize_singleton]

/-- The pieces of a text are those before a newline and those behind it. -/
theorem lines_append_newline (front rest : List Char) :
    lines (front ++ '\n' :: rest) = lines front ++ lines rest := by
  induction front using lines_induction with
  | last line hline => rw [lines_append hline, lines_of_notMem hline, List.singleton_append]
  | line line front hline ih =>
      rw [List.append_assoc, List.cons_append, lines_append hline, lines_append hline, ih,
        List.cons_append]

theorem length_lines (cs : List Char) : (lines cs).length = cs.count '\n' + 1 := by
  induction cs using lines_induction with
  | last line hline => simp [lines_of_notMem hline, List.count_eq_zero.mpr hline]
  | line line rest hline ih =>
      simp only [lines_append hline, List.length_cons, ih, List.count_append, List.count_cons_self,
        List.count_eq_zero.mpr hline, Nat.zero_add]

/-- Every piece but the last one takes a byte more for its newline. -/
theorem sum_byteLength_lines (cs : List Char) :
    ((lines cs).map (byteLength · + 1)).sum = byteLength cs + 1 := by
  have hnewline : Char.utf8Size '\n' = 1 := rfl
  induction cs using lines_induction with
  | last line hline => simp [lines_of_notMem hline]
  | line line rest hline ih =>
      simp only [lines_append hline, List.map_cons, List.sum_cons, ih, byteLength_append,
        byteLength, hnewline]
      omega

/-! ## Blanks at the ends -/

/-- There is something, and it neither starts nor ends with a blank. -/
structure Trimmed (cs : List Char) : Prop where
  ne_nil : cs ≠ []
  head : ∀ c ∈ cs.head?, isBlank c = false
  last : ∀ c ∈ cs.getLast?, isBlank c = false

theorem Trimmed.not_blank (h : Trimmed cs) : ∃ c ∈ cs, isBlank c = false := by
  cases cs with
  | nil => exact absurd rfl h.ne_nil
  | cons c cs => exact ⟨c, List.mem_cons_self, h.head c rfl⟩

theorem Trimmed.head_append (h : Trimmed cs) (after : List Char) :
    ∀ c ∈ (cs ++ after).head?, isBlank c = false := by
  cases cs with
  | nil => exact absurd rfl h.ne_nil
  | cons c cs => exact h.head

theorem Trimmed.last_append (h : Trimmed cs) (before : List Char) :
    ∀ c ∈ (before ++ cs).getLast?, isBlank c = false := by
  rw [List.getLast?_append]
  cases hlast : cs.getLast? with
  | none => exact absurd (List.getLast?_eq_none_iff.mp hlast) h.ne_nil
  | some c =>
      rw [Option.some_or, ← hlast]
      exact h.last

theorem trimmed_equals : Trimmed ['='] := ⟨by simp, by simp; decide, by simp; decide⟩

theorem takeWhile_isBlank (hfront : ∀ c ∈ front, isBlank c = true)
    (hrest : ∀ c ∈ rest.head?, isBlank c = false) : (front ++ rest).takeWhile isBlank = front := by
  rw [List.takeWhile_append_of_pos hfront]
  cases rest with
  | nil => simp
  | cons c rest =>
      have hc : isBlank c = false := hrest c rfl
      simp [hc]

theorem trimEnd_append (hlast : ∀ c ∈ front.getLast?, isBlank c = false)
    (hafter : ∀ c ∈ after, isBlank c = true) : trimEnd (front ++ after) = front := by
  have hreversed : ∀ c ∈ after.reverse, isBlank c = true := by simpa using hafter
  rw [trimEnd, List.reverse_append, List.dropWhile_append_of_pos hreversed]
  cases hfront : front.reverse with
  | nil => simpa using hfront.symm
  | cons c rest =>
      have hc : isBlank c = false := hlast c (by rw [← List.head?_reverse, hfront]; rfl)
      rw [List.dropWhile_cons_of_neg (by simp [hc]), ← hfront, List.reverse_reverse]

theorem exists_blanks_append (cs : List Char) :
    ∃ front rest, cs = front ++ rest ∧ (∀ c ∈ front, isBlank c = true) ∧
      ∀ c ∈ rest.head?, isBlank c = false := by
  refine ⟨cs.takeWhile isBlank, cs.dropWhile isBlank, List.takeWhile_append_dropWhile.symm,
    fun c hc => List.mem_takeWhile_imp hc, ?_⟩
  intro c hc
  have hhead := List.head?_dropWhile_not isBlank cs
  rw [Option.mem_def.mp hc] at hhead
  simpa using hhead

/-- A text that is not blank is trimmed by taking the blanks off its ends. -/
theorem exists_trimmed (h : ∃ c ∈ cs, isBlank c = false) :
    ∃ before mark after, cs = before ++ mark ++ after ∧ Trimmed mark ∧
      (∀ c ∈ before, isBlank c = true) ∧ ∀ c ∈ after, isBlank c = true := by
  obtain ⟨before, rest, rfl, hbefore, hhead⟩ := exists_blanks_append cs
  obtain ⟨behind, reversed, hrest, hbehind, hlast⟩ := exists_blanks_append rest.reverse
  obtain rfl : rest = reversed.reverse ++ behind.reverse := by
    rw [← List.reverse_append, ← hrest, List.reverse_reverse]
  have hafter : ∀ c ∈ behind.reverse, isBlank c = true := by simpa using hbehind
  have hne : reversed.reverse ≠ [] := by
    intro hnil
    obtain ⟨c, hc, hblank⟩ := h
    rw [hnil, List.nil_append, List.mem_append] at hc
    have hblank' : isBlank c = true := hc.elim (hbefore c) (hafter c)
    exact Bool.false_ne_true (hblank.symm.trans hblank')
  refine ⟨before, reversed.reverse, behind.reverse, (List.append_assoc _ _ _).symm,
    ⟨hne, ?_, ?_⟩, hbefore, hafter⟩
  · exact fun c hc => hhead c (by rw [List.head?_append, Option.mem_def.mp hc]; rfl)
  · rwa [List.getLast?_reverse]

end Text

namespace RuleFile
open Text

variable {cs line front before mark after left right above below rest : List Char}
  {source text s : String} {number offset : Nat} {fault : Fault} {e : Error}
  {axioms : List Equation}

/-! ## What is wrong with a line -/

/-- What the part of a line before its comment is blamed for, and which of three parts of it
the blame is on. -/
inductive Blames : Fault → (before mark after : List Char) → Prop
  | missingEquals {before mark after : List Char} :
      (∀ c ∈ before, isBlank c = true) → (∀ c ∈ after, isBlank c = true) → Trimmed mark →
      '=' ∉ mark → Blames .missingEquals before mark after
  | secondEquals {left between after : List Char} :
      '=' ∉ left → '=' ∉ between → Blames .secondEquals (left ++ '=' :: between) ['='] after
  | leftEmpty {before after : List Char} :
      (∀ c ∈ before, isBlank c = true) → '=' ∉ after → Blames .leftEmpty before ['='] after
  | rightEmpty {before after : List Char} :
      (∃ c ∈ before, isBlank c = false) → '=' ∉ before → (∀ c ∈ after, isBlank c = true) →
      Blames .rightEmpty before ['='] after

theorem Blames.trimmed (h : Blames fault before mark after) : Trimmed mark := by
  cases h with
  | missingEquals _ _ hmark _ => exact hmark
  | secondEquals | leftEmpty | rightEmpty => exact trimmed_equals

theorem Blames.not_all_blank (h : Blames fault before mark after) :
    ¬ (before ++ mark ++ after).all isBlank = true := by
  obtain ⟨c, hc, hblank⟩ := h.trimmed.not_blank
  intro hall
  have hblank' : isBlank c = true := List.all_eq_true.mp hall c (by simp [hc])
  exact Bool.false_ne_true (hblank.symm.trans hblank')

theorem spells_nil_iff : Spells cs [] ↔ ∀ c ∈ cs, isBlank c = true := by
  refine ⟨?_, fun h => by simpa using Spells.nil.append_blank h⟩
  intro h
  generalize hnil : ([] : List (List Char)) = ws at h
  induction h with
  | nil => simp
  | skip hc _ ih => exact List.forall_mem_cons.mpr ⟨hc, ih hnil⟩
  | word => cases hnil

theorem words_eq_nil_iff : words cs = [] ↔ ∀ c ∈ cs, isBlank c = true :=
  words_eq_iff.trans spells_nil_iff

theorem notMem_equals_of_blank (h : ∀ c ∈ cs, isBlank c = true) : '=' ∉ cs := by
  intro hmem
  have hequals : isBlank '=' = true := h '=' hmem
  exact absurd hequals (by decide)

/-- A line is refused with the bytes of the part that is blamed. -/
theorem Blames.readLine_eq (h : Blames fault before mark after) :
    readLine (before ++ mark ++ after) =
      .error ⟨fault, byteLength before, byteLength (before ++ mark)⟩ := by
  have hbyte : Char.utf8Size '=' = 1 := rfl
  cases h with
  | missingEquals hbefore hafter hmark hnone =>
      have hnone' : '=' ∉ before ++ mark ++ after := by
        simp [hnone, notMem_equals_of_blank hbefore, notMem_equals_of_blank hafter]
      have hstart : (before ++ mark ++ after).takeWhile isBlank = before := by
        rw [List.append_assoc, takeWhile_isBlank hbefore (hmark.head_append after)]
      have hstop : trimEnd (before ++ mark ++ after) = before ++ mark :=
        trimEnd_append (hmark.last_append before) hafter
      simp only [readLine, span_ne_of_notMem hnone', hstart, hstop]
      rw [byteLength_append, Nat.max_eq_left (Nat.le_add_right _ _)]
  | @secondEquals left between _ hleft hbetween =>
      have hcut : (left ++ '=' :: between) ++ ['='] ++ after =
          left ++ '=' :: (between ++ '=' :: after) := by simp
      have hsecond : (between ++ '=' :: after).takeWhile (· != '=') = between := by
        have hspan := span_ne_append hbetween after
        rw [List.span_eq_takeWhile_dropWhile] at hspan
        exact congrArg Prod.fst hspan
      have hcontains : (between ++ '=' :: after).contains '=' = true := by simp
      simp only [hcut, readLine, span_ne_append hleft, hsecond, hcontains, if_true]
      simp only [byteLength_append, byteLength, hbyte, Nat.add_zero, Nat.add_assoc]
  | leftEmpty hbefore hafter =>
      have hstart : (before ++ '=' :: after).takeWhile isBlank = before :=
        takeWhile_isBlank hbefore (trimmed_equals.head_append after)
      simp only [List.append_assoc, List.singleton_append, readLine,
        span_ne_append (notMem_equals_of_blank hbefore), hstart]
      simp [hafter, words_eq_nil_iff.mpr hbefore, byteLength, hbyte]
  | rightEmpty hstated hbefore hafter =>
      have hstop : trimEnd (before ++ '=' :: after) = before ++ ['='] := by
        have happend := trimEnd_append (trimmed_equals.last_append before) hafter
        rwa [List.append_assoc, List.singleton_append] at happend
      have hwords : words before ≠ [] := by
        simpa [words_eq_nil_iff] using hstated
      simp only [List.append_assoc, List.singleton_append, readLine, span_ne_append hbefore, hstop]
      simp [notMem_equals_of_blank hafter, hwords, words_eq_nil_iff.mpr hafter, byteLength, hbyte]

/-- A line with words that is no equation has a fault. -/
theorem exists_blames (hstated : ∃ c ∈ front, isBlank c = false)
    (hbad : ∀ e, readLine front ≠ .ok e) :
    ∃ fault before mark after, front = before ++ mark ++ after ∧
      Blames fault before mark after := by
  by_cases hequals : '=' ∈ front
  · obtain ⟨left, right, rfl, hleft⟩ := List.eq_append_cons_of_mem hequals
    by_cases hsecond : '=' ∈ right
    · obtain ⟨between, after, rfl, hbetween⟩ := List.eq_append_cons_of_mem hsecond
      exact ⟨_, left ++ '=' :: between, ['='], after, by simp, .secondEquals hleft hbetween⟩
    by_cases hempty : words left = []
    · exact ⟨_, left, ['='], right, by simp, .leftEmpty (words_eq_nil_iff.mp hempty) hsecond⟩
    have hstated' : ∃ c ∈ left, isBlank c = false := by
      simpa [words_eq_nil_iff] using hempty
    by_cases hempty' : words right = []
    · exact ⟨_, left, ['='], right, by simp,
        .rightEmpty hstated' hleft (words_eq_nil_iff.mp hempty')⟩
    · exact absurd (readLine_eq_ok_iff.mpr
        ⟨left, right, rfl, hleft, hsecond, hempty, hempty', rfl⟩) (hbad _)
  · obtain ⟨before, mark, after, rfl, hmark, hbefore, hafter⟩ := exists_trimmed hstated
    have hnone : '=' ∉ mark := fun h => hequals (by simp [h])
    exact ⟨_, before, mark, after, rfl, .missingEquals hbefore hafter hmark hnone⟩

/-- A line cannot be read exactly if it has a fault. -/
theorem unread_iff :
    (∀ entry, ¬ Reads line entry) ↔
      ∃ fault before mark after, Cut line (before ++ mark ++ after) ∧
        Blames fault before mark after := by
  constructor
  · intro h
    have hstated : ∃ c ∈ content line, isBlank c = false := by
      simpa [reads_none_iff] using h none
    obtain ⟨fault, before, mark, after, hfront, hblames⟩ :=
      exists_blames hstated fun e he => h (some e) (reads_some_iff.mpr he)
    exact ⟨fault, before, mark, after, content_eq_iff.mp hfront, hblames⟩
  · rintro ⟨fault, before, mark, after, hcut, hblames⟩ entry hreads
    have hcontent := content_eq_iff.mpr hcut
    cases entry with
    | none =>
        rw [reads_none_iff, hcontent] at hreads
        exact hblames.not_all_blank hreads
    | some e =>
        rw [reads_some_iff, hcontent, hblames.readLine_eq] at hreads
        cases hreads

/-! ## The first bad line -/

/-- A text is cut at the first of its lines that cannot be read. Above it there are whole
lines that can be, and below it, from its newline on, is the rest. -/
structure FirstUnread (cs above line below : List Char) : Prop where
  cut : cs = above ++ line ++ below
  above_whole : ∀ c ∈ above.getLast?, c = '\n'
  above_read : ∃ axioms, File above axioms
  line_whole : '\n' ∉ line
  below_whole : ∀ c ∈ below.head?, c = '\n'
  unread : ∀ entry, ¬ Reads line entry

theorem file_nil : File [] [] :=
  .last List.not_mem_nil (.blank ⟨List.not_mem_nil, .inl rfl⟩ (by simp))

/-- A text that is no file has a first line that cannot be read. -/
theorem file_or_firstUnread (cs : List Char) :
    (∃ axioms, File cs axioms) ∨ ∃ above line below, FirstUnread cs above line below := by
  induction cs using lines_induction with
  | last line hline =>
      by_cases hreads : ∃ entry, Reads line entry
      · obtain ⟨entry, hreads⟩ := hreads
        exact .inl ⟨_, .last hline hreads⟩
      · exact .inr ⟨[], line, [], by simp, by simp, ⟨[], file_nil⟩, hline, by simp,
          not_exists.mp hreads⟩
  | line line rest hline ih =>
      by_cases hreads : ∃ entry, Reads line entry
      · obtain ⟨entry, hreads⟩ := hreads
        rcases ih with ⟨axioms, hfile⟩ | ⟨above, bad, below, h⟩
        · exact .inl ⟨_, .line hline hreads hfile⟩
        · obtain ⟨axioms, hfile⟩ := h.above_read
          refine .inr ⟨line ++ '\n' :: above, bad, below, by simp [h.cut], ?_,
            ⟨_, .line hline hreads hfile⟩, h.line_whole, h.below_whole, h.unread⟩
          rw [List.getLast?_append, List.getLast?_cons]
          cases hlast : above.getLast? with
          | none => simp
          | some c => simpa using h.above_whole c hlast
      · exact .inr ⟨[], line, '\n' :: rest, by simp, by simp, ⟨[], file_nil⟩, hline, by simp,
          not_exists.mp hreads⟩

/-! ## Texts one after the other -/

theorem readLines_append (source : String) (number offset : Nat) (first rest : List (List Char)) :
    readLines source number offset (first ++ rest) =
      (readLines source number offset first).bind fun axioms =>
        (readLines source (number + first.length) (offset + (first.map (byteLength · + 1)).sum)
          rest).map (axioms ++ ·) := by
  induction first generalizing number offset with
  | nil =>
      change readLines source number offset rest =
        (readLines source number offset rest).map ([] ++ ·)
      cases readLines source number offset rest <;> rfl
  | cons line first ih =>
      have hnumber : number + 1 + first.length = number + (first.length + 1) := by omega
      have hoffset : offset + byteLength line + 1 + (first.map (byteLength · + 1)).sum =
          offset + (byteLength line + 1 + (first.map (byteLength · + 1)).sum) := by omega
      simp only [List.cons_append, readLines, ih, List.length_cons, List.map_cons, List.sum_cons,
        hnumber, hoffset]
      split_ifs with hblank
      · rfl
      · cases readLine (content line) with
        | error error => rfl
        | ok e =>
            cases readLines source (number + 1) (offset + byteLength line + 1) first with
            | error error => rfl
            | ok axioms =>
                simp only [Except.bind, Except.map]
                cases readLines source _ _ rest <;> rfl

/-- Whole lines can be read first, and what is below them by itself. -/
theorem readLines_append_whole (habove : ∀ c ∈ above.getLast?, c = '\n') (rest : List Char) :
    readLines source number offset (lines (above ++ rest)) =
      (readLines source number offset (lines above)).bind fun axioms =>
        (readLines source (number + above.count '\n') (offset + byteLength above)
          (lines rest)).map (axioms ++ ·) := by
  have hnil (number offset : Nat) : readLines source number offset (lines []) = .ok [] := rfl
  rcases List.eq_nil_or_concat' above with rfl | ⟨front, c, rfl⟩
  · change readLines source number offset (lines rest) =
      (readLines source number offset (lines rest)).map ([] ++ ·)
    cases readLines source number offset (lines rest) <;> rfl
  · obtain rfl : c = '\n' := habove c (by simp)
    have hnewline : Char.utf8Size '\n' = 1 := rfl
    rw [List.append_assoc, List.singleton_append, lines_append_newline, lines_append_newline,
      readLines_append, readLines_append, length_lines, sum_byteLength_lines, hnil]
    cases readLines source number offset (lines front) <;>
      simp [Except.bind, Except.map, byteLength, hnewline]

/-- The error of a text that stands below so many lines and bytes. -/
def Error.moved (e : Error) (lines bytes : Nat) : Error :=
  { e with line := e.line + lines, start := e.start + bytes, stop := e.stop + bytes }

theorem readLines_moved (source : String) (number offset lines bytes : Nat)
    (ls : List (List Char)) :
    readLines source (number + lines) (offset + bytes) ls =
      (readLines source number offset ls).mapError (·.moved lines bytes) := by
  induction ls generalizing number offset with
  | nil => rfl
  | cons line rest ih =>
      have hnumber : number + lines + 1 = number + 1 + lines := by omega
      have hoffset : offset + bytes + byteLength line + 1 =
          offset + byteLength line + 1 + bytes := by omega
      simp only [readLines, hnumber, hoffset, ih]
      split_ifs with hblank
      · rfl
      · cases readLine (content line) with
        | error e =>
            simp only [Except.mapError, Error.moved, Except.error.injEq, Error.mk.injEq, true_and]
            omega
        | ok e => cases readLines source (number + 1) (offset + byteLength line + 1) rest <;> rfl

/-! ## The error of a file -/

/-- What an error says of a text. It is about a part of the first line that cannot be read,
before the comment of that line. Its line is counted by the newlines above, and it starts
and stops with the bytes of that part. -/
def Error.Locates (e : Error) (text : String) : Prop :=
  ∃ above line below before mark after,
    FirstUnread text.toList above line below ∧ Cut line (before ++ mark ++ after) ∧
      Blames e.fault before mark after ∧ Trimmed mark ∧ e.line = above.count '\n' + 1 ∧
      e.start = (String.ofList (above ++ before)).utf8ByteSize ∧
      e.stop = (String.ofList (above ++ before ++ mark)).utf8ByteSize

theorem readLines_of_blames {fault : Fault} (hcut : Cut line (before ++ mark ++ after))
    (hblames : Blames fault before mark after) (rest : List (List Char)) :
    readLines source number offset (line :: rest) =
      .error ⟨source, number, fault, offset + byteLength before,
        offset + byteLength (before ++ mark)⟩ := by
  rw [readLines, content_eq_iff.mpr hcut, if_neg hblames.not_all_blank, hblames.readLine_eq]

theorem exists_lines_append (hline : '\n' ∉ line) (hbelow : ∀ c ∈ below.head?, c = '\n') :
    ∃ rest, lines (line ++ below) = line :: rest := by
  cases below with
  | nil => exact ⟨[], by rw [List.append_nil, lines_of_notMem hline]⟩
  | cons c below =>
      obtain rfl : c = '\n' := hbelow c rfl
      exact ⟨lines below, lines_append hline below⟩

/-- Reading gets to the first line that cannot be read, and no further. -/
theorem FirstUnread.parse_eq {fault : Fault} (h : FirstUnread text.toList above line below)
    (hcut : Cut line (before ++ mark ++ after)) (hblames : Blames fault before mark after) :
    parse source text = .error ⟨source, above.count '\n' + 1, fault,
      byteLength (above ++ before), byteLength (above ++ before ++ mark)⟩ := by
  obtain ⟨axioms, hfile⟩ := h.above_read
  have habove : readLines source 1 0 (lines above) = .ok axioms :=
    (readLines_eq_ok_iff source 1 0).mpr hfile
  obtain ⟨rest, hrest⟩ := exists_lines_append h.line_whole h.below_whole
  rw [parse, h.cut, List.append_assoc, readLines_append_whole h.above_whole, habove, hrest]
  simp only [Except.bind, readLines_of_blames hcut hblames, Except.map, byteLength_append,
    Nat.zero_add, Nat.add_assoc, Nat.add_comm 1]

/-- A text is refused with an error exactly if the error locates what is wrong in it. -/
theorem parse_eq_error_iff :
    parse source text = .error e ↔ e.source = source ∧ e.Locates text := by
  constructor
  · intro h
    rcases file_or_firstUnread text.toList with ⟨axioms, hfile⟩ | ⟨above, line, below, hfirst⟩
    · have hread : parse source text = .ok axioms := (readLines_eq_ok_iff source 1 0).mpr hfile
      cases hread.symm.trans h
    · obtain ⟨fault, before, mark, after, hcut, hblames⟩ := unread_iff.mp hfirst.unread
      cases (hfirst.parse_eq hcut hblames).symm.trans h
      exact ⟨rfl, above, line, below, before, mark, after, hfirst, hcut, hblames,
        hblames.trimmed, rfl, byteLength_eq _, byteLength_eq _⟩
  · rintro ⟨rfl, above, line, below, before, mark, after, hfirst, hcut, hblames, -, hnumber,
      hstart, hstop⟩
    rw [hfirst.parse_eq hcut hblames, ← hnumber, byteLength_eq, ← hstart, byteLength_eq, ← hstop]

theorem Error.Locates.start_lt_stop (h : e.Locates text) : e.start < e.stop := by
  obtain ⟨above, line, below, before, mark, after, -, -, -, hmark, -, hstart, hstop⟩ := h
  rw [hstart, hstop, ← byteLength_eq, ← byteLength_eq]
  cases mark with
  | nil => exact absurd rfl hmark.ne_nil
  | cons c mark =>
      have hsize := c.utf8Size_pos
      simp only [byteLength_append, byteLength]
      omega

/-- What an error starts and stops at are places between characters of the text. -/
theorem Error.Locates.isValid (h : e.Locates text) :
    String.Pos.Raw.IsValid text ⟨e.start⟩ ∧ String.Pos.Raw.IsValid text ⟨e.stop⟩ := by
  obtain ⟨above, line, below, before, mark, after, hfirst, ⟨-, hline⟩, -, -, -, hstart, hstop⟩ := h
  obtain ⟨rest, hrest⟩ : ∃ rest, line = before ++ mark ++ rest := by
    rcases hline with rfl | ⟨comment, rfl⟩
    · exact ⟨after, rfl⟩
    · exact ⟨after ++ '#' :: comment, by simp⟩
  have htext : text = String.ofList (above ++ before ++ mark ++ (rest ++ below)) := by
    rw [← String.ofList_toList (s := text), hfirst.cut, hrest]
    simp
  constructor
  · refine String.Pos.Raw.isValid_iff_exists_append.mpr
      ⟨.ofList (above ++ before), .ofList (mark ++ (rest ++ below)), ?_, by rw [hstart]; rfl⟩
    rw [htext, ← String.ofList_append, List.append_assoc]
  · refine String.Pos.Raw.isValid_iff_exists_append.mpr
      ⟨.ofList (above ++ before ++ mark), .ofList (rest ++ below), ?_, by rw [hstop]; rfl⟩
    rw [htext, ← String.ofList_append]

/-- Behind a newline a text is read by itself, and its error is moved down. -/
theorem parse_append (h : s.toList.getLast? = some '\n') (t : String) :
    parse source (s ++ t) =
      match parse source s with
      | .error e => .error e
      | .ok axioms =>
          match parse source t with
          | .error e => .error (e.moved (s.toList.count '\n') s.utf8ByteSize)
          | .ok later => .ok (axioms ++ later) := by
  have hwhole : ∀ c ∈ s.toList.getLast?, c = '\n' := fun c hc =>
    (Option.some.inj (h.symm.trans hc)).symm
  have hsize : byteLength s.toList = s.utf8ByteSize := by
    rw [byteLength_eq, String.ofList_toList]
  rw [parse, String.toList_append, readLines_append_whole hwhole, hsize, readLines_moved]
  unfold parse
  cases readLines source 1 0 (lines s.toList) with
  | error e => rfl
  | ok axioms => cases readLines source 1 0 (lines t.toList) <;> rfl

/-- What reading says of a text that it refuses. The error is that of the first line that
cannot be read, under the number of that line. It is about the line without its comment and
without blanks at its ends if there is no equals sign, else about the second equals sign,
and if there is one alone, with nothing on one side of it, about that one. So it spans
characters of that line, at least one of them, and neither the first nor the last of them
is a blank. Behind a text that ends with a newline another one is read as by itself, and
its error is moved down by the lines and bytes in front of it. -/
theorem parse_errors (source : String) :
    (∀ text e, parse source text = .error e ↔ e.source = source ∧ e.Locates text) ∧
    (∀ text e, parse source text = .error e → e.start < e.stop ∧
      String.Pos.Raw.IsValid text ⟨e.start⟩ ∧ String.Pos.Raw.IsValid text ⟨e.stop⟩) ∧
    ∀ s t : String, s.toList.getLast? = some '\n' →
      parse source (s ++ t) =
        match parse source s with
        | .error e => .error e
        | .ok axioms =>
            match parse source t with
            | .error e => .error (e.moved (s.toList.count '\n') s.utf8ByteSize)
            | .ok later => .ok (axioms ++ later) := by
  refine ⟨fun text e => parse_eq_error_iff, ?_, fun s t hs => parse_append hs t⟩
  intro text e h
  obtain ⟨-, hlocates⟩ := parse_eq_error_iff.mp h
  exact ⟨hlocates.start_lt_stop, hlocates.isValid⟩

/-- A line of six bytes moves the error of the next one, in which an ideographic space
takes three bytes and an accented letter two, and the signs in the comment do not count. -/
theorem parse_errors_wide :
    let first := "a = b\n"
    let second := "\u3000é =c=d # = =\n"
    let e : Error := ⟨"", 1, .secondEquals, 8, 9⟩
    parse "" second = .error e ∧ parse "" (first ++ second) = .error (e.moved 1 6) ∧
      (e.moved 1 6).Locates (first ++ second) ∧
      String.Pos.Raw.IsValid (first ++ second) ⟨14⟩ := by
  intro first second e
  have hfirst : parse "" first = .ok [⟨["a"], ["b"]⟩] := by decide
  have hsecond : parse "" second = .error e := by decide
  obtain ⟨hlocates, hvalid, happend⟩ := parse_errors ""
  have herror : parse "" (first ++ second) = .error (e.moved 1 6) := by
    rw [happend first second (by decide), hfirst, hsecond]
    decide
  exact ⟨hsecond, herror, ((hlocates _ _).mp herror).2, (hvalid _ _ herror).2.1⟩

end RuleFile
end ThueProver
