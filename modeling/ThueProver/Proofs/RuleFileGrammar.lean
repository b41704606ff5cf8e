import Mathlib.Data.List.TakeDrop
import Mathlib.Data.List.TakeWhile
import Mathlib.Tactic.Common
import ThueProver.Proofs.History
import ThueProver.RuleFile

/-!
# The grammar of rule files

What a rule file is can be said without reading it. A word is a run of characters that
are no blanks, bounded by blanks or the ends of the text. A line is cut before its first
hash sign, and what is left is blank or two lists of words with the only equals sign
between them. A file is lines with newlines between them. Reading succeeds on exactly
these files and yields their equations in order.

Tokens that were read are fit for axioms, and axioms with such tokens can be written to a
file from which they are read back, whatever blanks, comments and empty lines are put
around them.
-/
namespace ThueProver

/-! ## Pieces -/

namespace Text
variable {mark : Char → Bool} {c : Char} {cs piece rest : List Char}

/-- Characters that are no marks go to the first piece. -/
theorem splitWhere_append (h : ∀ c ∈ piece, mark c = false) {first : List Char}
    {pieces : List (List Char)} (hrest : splitWhere mark rest = first :: pieces) :
    splitWhere mark (piece ++ rest) = (piece ++ first) :: pieces := by
  induction piece with
  | nil => exact hrest
  | cons c piece ih =>
      obtain ⟨hc, hpiece⟩ := List.forall_mem_cons.mp h
      rw [List.cons_append, splitWhere, hc, ih hpiece]
      rfl

theorem splitWhere_of_unmarked (h : ∀ c ∈ piece, mark c = false) :
    splitWhere mark piece = [piece] := by
  have hend : splitWhere mark [] = [[]] := rfl
  have hpieces := splitWhere_append h hend
  rwa [List.append_nil] at hpieces

/-- A piece ends at the first mark. -/
theorem splitWhere_append_mark (h : ∀ c ∈ piece, mark c = false) (hc : mark c = true)
    (rest : List Char) : splitWhere mark (piece ++ c :: rest) = piece :: splitWhere mark rest := by
  have hmark : splitWhere mark (c :: rest) = [] :: splitWhere mark rest := by
    rw [splitWhere, hc]
    rfl
  simpa using splitWhere_append h hmark

theorem lines_of_notMem (h : '\n' ∉ cs) : lines cs = [cs] :=
  splitWhere_of_unmarked fun _ hc => beq_false_of_ne (ne_of_mem_of_not_mem hc h)

theorem lines_append (h : '\n' ∉ cs) (rest : List Char) :
    lines (cs ++ '\n' :: rest) = cs :: lines rest :=
  splitWhere_append_mark (fun _ hc => beq_false_of_ne (ne_of_mem_of_not_mem hc h)) rfl rest

/-- A text is a line, or a line with a newline and a text behind it. -/
@[elab_as_elim]
theorem lines_induction {motive : List Char → Prop}
    (last : ∀ line, '\n' ∉ line → motive line)
    (line : ∀ line rest, '\n' ∉ line → motive rest → motive (line ++ '\n' :: rest))
    (cs : List Char) : motive cs := by
  induction hlength : cs.length using Nat.strongRecOn generalizing cs with
  | ind length ih =>
      by_cases hnewline : '\n' ∈ cs
      · obtain ⟨front, rest, rfl, hfront⟩ := List.eq_append_cons_of_mem hnewline
        have hshorter : rest.length < length := by
          rw [← hlength, List.length_append, List.length_cons]
          omega
        exact line front rest hfront (ih _ hshorter rest rfl)
      · exact last cs hnewline

/-! ## Words -/

/-- The words of a text. Blanks are skipped, and a word is a run of characters that are no
blanks, as far as the next blank or the end of the text. -/
inductive Spells : List Char → List (List Char) → Prop
  | nil : Spells [] []
  | skip {c : Char} {cs : List Char} {words : List (List Char)} :
      isBlank c = true → Spells cs words → Spells (c :: cs) words
  | word {word rest : List Char} {words : List (List Char)} :
      word ≠ [] → (∀ c ∈ word, isBlank c = false) → (∀ c ∈ rest.head?, isBlank c = true) →
      Spells rest words → Spells (word ++ rest) (word :: words)

theorem words_cons_blank (hc : isBlank c = true) (cs : List Char) : words (c :: cs) = words cs := by
  rw [words, splitWhere, hc]
  rfl

theorem words_word_append {word : List Char} (hword : word ≠ [])
    (h : ∀ c ∈ word, isBlank c = false) (hrest : ∀ c ∈ rest.head?, isBlank c = true) :
    words (word ++ rest) = word :: words rest := by
  cases rest with
  | nil => simp [words, splitWhere_of_unmarked h, splitWhere, hword]
  | cons c rest =>
      have hc : isBlank c = true := hrest c rfl
      rw [words_cons_blank hc, words, splitWhere_append_mark h hc]
      simp [words, hword]

theorem exists_spells (cs : List Char) : ∃ words, Spells cs words := by
  induction cs with
  | nil => exact ⟨[], .nil⟩
  | cons c cs ih =>
      obtain ⟨words, h⟩ := ih
      cases hc : isBlank c with
      | true => exact ⟨words, .skip hc h⟩
      | false =>
          have hchar : ∀ c' ∈ [c], isBlank c' = false := by simpa using hc
          cases h with
          | nil => exact ⟨_, .word (List.cons_ne_nil c []) hchar (by simp) .nil⟩
          | skip hblank hrest =>
              exact ⟨_, .word (List.cons_ne_nil c []) hchar (by simpa using hblank)
                (.skip hblank hrest)⟩
          | word _ hchars hbreak hrest =>
              exact ⟨_, .word (List.cons_ne_nil c _) (List.forall_mem_cons.mpr ⟨hc, hchars⟩)
                hbreak hrest⟩

theorem Spells.words_eq {ws : List (List Char)} (h : Spells cs ws) : words cs = ws := by
  induction h with
  | nil => rfl
  | skip hc _ ih => rw [words_cons_blank hc, ih]
  | word hword hchars hbreak _ ih => rw [words_word_append hword hchars hbreak, ih]

theorem words_eq_iff {ws : List (List Char)} : words cs = ws ↔ Spells cs ws := by
  refine ⟨?_, Spells.words_eq⟩
  rintro rfl
  obtain ⟨ws, h⟩ := exists_spells cs
  exact h.words_eq ▸ h

theorem Spells.of_mem {ws : List (List Char)} (h : Spells cs ws) :
    ∀ word ∈ ws, word ≠ [] ∧ ∀ c ∈ word, isBlank c = false ∧ c ∈ cs := by
  induction h with
  | nil => simp
  | skip _ _ ih =>
      intro word hword
      obtain ⟨hempty, hchars⟩ := ih word hword
      exact ⟨hempty, fun c hc => ⟨(hchars c hc).1, List.mem_cons_of_mem _ (hchars c hc).2⟩⟩
  | word hempty hblank _ _ ih =>
      intro other hother
      rcases List.mem_cons.mp hother with rfl | hother
      · exact ⟨hempty, fun c hc => ⟨hblank c hc, List.mem_append_left _ hc⟩⟩
      · obtain ⟨hempty', hchars⟩ := ih other hother
        exact ⟨hempty', fun c hc => ⟨(hchars c hc).1, List.mem_append_right _ (hchars c hc).2⟩⟩

theorem Spells.append_blank {ws : List (List Char)} {gap : List Char} (h : Spells cs ws)
    (hgap : ∀ c ∈ gap, isBlank c = true) : Spells (cs ++ gap) ws := by
  induction h with
  | nil =>
      rw [List.nil_append]
      induction gap with
      | nil => exact .nil
      | cons c gap ih =>
          obtain ⟨hc, hgap⟩ := List.forall_mem_cons.mp hgap
          exact .skip hc (ih hgap)
  | skip hc _ ih => exact .skip hc ih
  | @word word rest _ hempty hchars hbreak _ ih =>
      rw [List.append_assoc]
      refine .word hempty hchars ?_ ih
      cases rest with
      | nil => exact fun c hc => hgap c (List.mem_of_mem_head? hc)
      | cons c rest => exact hbreak

end Text

namespace RuleFile
open Text

/-! ## Lines -/

/-- The part of a line before its first hash sign. -/
def Cut (line front : List Char) : Prop :=
  '#' ∉ front ∧ (line = front ∨ ∃ comment, line = front ++ '#' :: comment)

/-- What a line says. Without its comment it is blank and says nothing, or it has exactly one
equals sign with words on both sides. -/
inductive Reads (line : List Char) : Option Equation → Prop
  | blank {front : List Char} :
      Cut line front → (∀ c ∈ front, isBlank c = true) → Reads line none
  | equation {left right : List Char} {ls rs : List (List Char)} :
      Cut line (left ++ '=' :: right) → '=' ∉ left → '=' ∉ right →
      Spells left ls → Spells right rs → ls ≠ [] → rs ≠ [] →
      Reads line (some ⟨ls.map String.ofList, rs.map String.ofList⟩)

/-- The equations of the lines of a file, in order. -/
inductive File : List Char → List Equation → Prop
  | last {line : List Char} {entry : Option Equation} :
      '\n' ∉ line → Reads line entry → File line entry.toList
  | line {line rest : List Char} {entry : Option Equation} {axioms : List Equation} :
      '\n' ∉ line → Reads line entry → File rest axioms →
      File (line ++ '\n' :: rest) (entry.toList ++ axioms)

variable {cs line front left right : List Char} {mark : Char} {e : Equation}
  {entry : Option Equation} {axioms : List Equation} {source : String} {number offset : Nat}

theorem bne_of_notMem (h : mark ∉ cs) : ∀ c ∈ cs, (c != mark) = true :=
  fun _ hc => bne_iff_ne.mpr (ne_of_mem_of_not_mem hc h)

theorem span_ne_of_notMem (h : mark ∉ cs) : cs.span (· != mark) = (cs, []) := by
  rw [List.span_eq_takeWhile_dropWhile, List.takeWhile_eq_self_iff.mpr (bne_of_notMem h),
    List.dropWhile_eq_nil_iff.mpr (bne_of_notMem h)]

theorem span_ne_append (h : mark ∉ front) (back : List Char) :
    (front ++ mark :: back).span (· != mark) = (front, mark :: back) := by
  rw [List.span_eq_takeWhile_dropWhile, List.takeWhile_append_of_pos (bne_of_notMem h),
    List.dropWhile_append_of_pos (bne_of_notMem h)]
  simp

theorem content_eq_iff : content line = front ↔ Cut line front := by
  have hcontent : ∀ {front}, Cut line front → content line = front := by
    intro front hcut
    have hspan : (line.span (· != '#')).1 = front := by
      obtain ⟨hfront, rfl | ⟨comment, rfl⟩⟩ := hcut
      · rw [span_ne_of_notMem hfront]
      · rw [span_ne_append hfront]
    rwa [List.span_eq_takeWhile_dropWhile] at hspan
  refine ⟨?_, hcontent⟩
  rintro rfl
  by_cases hhash : '#' ∈ line
  · obtain ⟨front, comment, rfl, hfront⟩ := List.eq_append_cons_of_mem hhash
    have hcut : Cut (front ++ '#' :: comment) front := ⟨hfront, .inr ⟨comment, rfl⟩⟩
    rwa [hcontent hcut]
  · have hcut : Cut line line := ⟨hhash, .inl rfl⟩
    rwa [hcontent hcut]

theorem readLine_eq_ok_iff :
    readLine cs = .ok e ↔ ∃ left right, cs = left ++ '=' :: right ∧ '=' ∉ left ∧ '=' ∉ right ∧
      words left ≠ [] ∧ words right ≠ [] ∧ ⟨tokens left, tokens right⟩ = e := by
  constructor
  · intro h
    by_cases hequals : '=' ∈ cs
    · obtain ⟨left, right, rfl, hleft⟩ := List.eq_append_cons_of_mem hequals
      refine ⟨left, right, rfl, hleft, ?_⟩
      simp only [readLine, span_ne_append hleft] at h
      split_ifs at h with hsecond hempty hempty'
      exact ⟨by simpa using hsecond, by simpa using hempty, by simpa using hempty',
        Except.ok.inj h⟩
    · simp only [readLine, span_ne_of_notMem hequals] at h
      cases h
  · rintro ⟨left, right, rfl, hleft, hright, hempty, hempty', rfl⟩
    simp only [readLine, span_ne_append hleft]
    simp [hright, hempty, hempty']

theorem reads_none_iff : Reads line none ↔ (content line).all isBlank = true := by
  rw [List.all_eq_true]
  constructor
  · rintro ⟨hcut, hblank⟩
    rwa [content_eq_iff.mpr hcut]
  · exact .blank (content_eq_iff.mp rfl)

theorem reads_some_iff : Reads line (some e) ↔ readLine (content line) = .ok e := by
  rw [readLine_eq_ok_iff]
  constructor
  · intro h
    cases h with
    | equation hcut hleft hright hls hrs hempty hempty' =>
        obtain rfl := hls.words_eq
        obtain rfl := hrs.words_eq
        exact ⟨_, _, content_eq_iff.mpr hcut, hleft, hright, hempty, hempty', rfl⟩
  · rintro ⟨left, right, hcut, hleft, hright, hempty, hempty', rfl⟩
    exact .equation (content_eq_iff.mp hcut) hleft hright (words_eq_iff.mp rfl)
      (words_eq_iff.mp rfl) hempty hempty'

/-- A blank line has no equals sign. -/
theorem readLine_ne_ok_of_blank (h : ∀ c ∈ cs, isBlank c = true) (e : Equation) :
    readLine cs ≠ .ok e := by
  intro hok
  obtain ⟨left, right, rfl, -⟩ := readLine_eq_ok_iff.mp hok
  have hequals : isBlank '=' = true := h '=' (by simp)
  exact absurd hequals (by decide)

/-! ## Files -/

theorem readLines_cons_eq_ok_iff {rest : List (List Char)} :
    readLines source number offset (line :: rest) = .ok axioms ↔
      ∃ entry later, Reads line entry ∧
        readLines source (number + 1) (offset + byteLength line + 1) rest = .ok later ∧
        entry.toList ++ later = axioms := by
  simp only [Option.exists, reads_none_iff, reads_some_iff, readLines]
  split_ifs with hblank
  · have hnone := readLine_ne_ok_of_blank (List.all_eq_true.mp hblank)
    simp [hblank, hnone]
  · cases readLine (content line) with
    | error error => simp [hblank]
    | ok e =>
        cases readLines source (number + 1) (offset + byteLength line + 1) rest <;>
          simp [hblank, Except.map]

/-- Reading succeeds on the files of the grammar and yields their equations. -/
theorem readLines_eq_ok_iff (source : String) (number offset : Nat) :
    readLines source number offset (lines cs) = .ok axioms ↔ File cs axioms := by
  constructor
  · intro h
    induction cs using lines_induction generalizing number offset axioms with
    | last line hline =>
        rw [lines_of_notMem hline] at h
        obtain ⟨entry, later, hreads, hlater, rfl⟩ := readLines_cons_eq_ok_iff.mp h
        cases hlater
        rw [List.append_nil]
        exact .last hline hreads
    | line line rest hline ih =>
        rw [lines_append hline] at h
        obtain ⟨entry, later, hreads, hlater, rfl⟩ := readLines_cons_eq_ok_iff.mp h
        exact .line hline hreads (ih _ _ hlater)
  · intro h
    induction h generalizing number offset with
    | last hline hreads =>
        rw [lines_of_notMem hline, readLines_cons_eq_ok_iff]
        exact ⟨_, [], hreads, rfl, List.append_nil _⟩
    | line hline hreads _ ih =>
        rw [lines_append hline, readLines_cons_eq_ok_iff]
        exact ⟨_, _, hreads, ih _ _, rfl⟩

end RuleFile

/-! ## Tokens -/

/-- A token that can stand in a rule file. -/
def Token.Plain (token : Token) : Prop :=
  token ≠ "" ∧ ∀ c ∈ token.toList, Text.isBlank c = false ∧ c ≠ '=' ∧ c ≠ '#'

/-- Both sides have tokens, and all of them are plain. -/
structure Equation.Plain (e : Equation) : Prop where
  left_ne_nil : e.left ≠ []
  right_ne_nil : e.right ≠ []
  left_plain : ∀ token ∈ e.left, token.Plain
  right_plain : ∀ token ∈ e.right, token.Plain

theorem Equation.Plain.usable {e : Equation} (h : e.Plain) : e.Usable :=
  ⟨h.left_ne_nil, h.right_ne_nil, fun hempty => (h.left_plain "" hempty).1 rfl,
    fun hempty => (h.right_plain "" hempty).1 rfl⟩

namespace RuleFile
open Text

variable {cs line : List Char} {ws : List (List Char)} {e : Equation} {axioms : List Equation}
  {tokens : List Token} {c : Char}

theorem plain_of_spells (h : Spells cs ws) (hequals : '=' ∉ cs) (hhash : '#' ∉ cs) :
    ∀ token ∈ ws.map String.ofList, Token.Plain token := by
  intro token htoken
  obtain ⟨word, hword, rfl⟩ := List.mem_map.mp htoken
  obtain ⟨hempty, hchars⟩ := h.of_mem word hword
  refine ⟨by simpa using hempty, ?_⟩
  rw [String.toList_ofList]
  intro c hc
  obtain ⟨hblank, hmem⟩ := hchars c hc
  exact ⟨hblank, ne_of_mem_of_not_mem hmem hequals, ne_of_mem_of_not_mem hmem hhash⟩

theorem Reads.plain (h : Reads line (some e)) : e.Plain := by
  cases h with
  | @equation left right _ _ hcut hleft hright hls hrs hempty hempty' =>
      have hhashes : '#' ∉ left ∧ '#' ∉ right := by simpa using hcut.1
      exact ⟨by simpa using hempty, by simpa using hempty',
        plain_of_spells hls hleft hhashes.1, plain_of_spells hrs hright hhashes.2⟩

/-- All tokens of a file are plain. -/
theorem File.plain (h : File cs axioms) : ∀ e ∈ axioms, e.Plain := by
  have hentry : ∀ {line entry}, Reads line entry → ∀ e ∈ entry.toList, e.Plain := by
    intro line entry hreads e he
    obtain rfl := Option.mem_toList.mp he
    exact hreads.plain
  induction h with
  | last _ hreads => exact hentry hreads
  | line _ hreads _ ih =>
      intro e he
      rcases List.mem_append.mp he with hfirst | hlater
      · exact hentry hreads e hfirst
      · exact ih e hlater

/-! ## Writing -/

/-- A line as it is written: an equation or none, blanks after it and a comment or none. -/
structure Line where
  equation? : Option Equation
  blanks : String
  comment? : Option String
  plain : ∀ e ∈ equation?, e.Plain
  blank : ∀ c ∈ blanks.toList, isBlank c = true ∧ c ≠ '\n'
  oneLine : ∀ comment ∈ comment?, '\n' ∉ comment.toList

def Line.text (l : Line) : String :=
  l.equation?.elim "" Equation.text ++ l.blanks ++ l.comment?.elim "" ("#" ++ ·)

theorem spells_intercalate (h : ∀ token ∈ tokens, Token.Plain token) :
    Spells ([' '].intercalate (tokens.map String.toList)) (tokens.map String.toList) := by
  induction tokens with
  | nil => exact .nil
  | cons token rest ih =>
      obtain ⟨⟨hempty, hchars⟩, hrest⟩ := List.forall_mem_cons.mp h
      have hword : token.toList ≠ [] := by simpa using hempty
      have hblank : ∀ c ∈ token.toList, isBlank c = false := fun c hc => (hchars c hc).1
      cases rest with
      | nil => simpa using Spells.word hword hblank (by simp) .nil
      | cons next rest =>
          rw [List.map_cons, List.map_cons, List.intercalate_cons_cons, List.append_assoc]
          exact .word hword hblank (by simp; decide) (.skip rfl (ih hrest))

theorem mem_intercalate {pieces : List (List Char)} (h : c ∈ [' '].intercalate pieces) :
    c = ' ' ∨ ∃ piece ∈ pieces, c ∈ piece := by
  induction pieces with
  | nil => cases h
  | cons piece rest ih =>
      cases rest with
      | nil => exact .inr ⟨piece, List.mem_cons_self, by simpa using h⟩
      | cons next rest =>
          rw [List.intercalate_cons_cons, List.mem_append, List.mem_append] at h
          rcases h with (hpiece | hspace) | hrest
          · exact .inr ⟨piece, List.mem_cons_self, hpiece⟩
          · exact .inl (List.mem_singleton.mp hspace)
          · rcases ih hrest with hspace | ⟨other, hother, hc⟩
            · exact .inl hspace
            · exact .inr ⟨other, List.mem_cons_of_mem _ hother, hc⟩

/-- A side of plain tokens holds nothing that ends a side or a line. -/
theorem notMem_intercalate (h : ∀ token ∈ tokens, Token.Plain token)
    (hc : c = '=' ∨ c = '#' ∨ c = '\n') : c ∉ [' '].intercalate (tokens.map String.toList) := by
  intro hmem
  rcases mem_intercalate hmem with rfl | ⟨piece, hpiece, hin⟩
  · revert hc
    decide
  · obtain ⟨token, htoken, rfl⟩ := List.mem_map.mp hpiece
    obtain ⟨hblank, hequals, hhash⟩ := (h token htoken).2 c hin
    rcases hc with rfl | rfl | rfl
    · exact hequals rfl
    · exact hhash rfl
    · cases hblank

theorem toList_equationText (e : Equation) :
    e.text.toList = ([' '].intercalate (e.left.map String.toList) ++ [' ']) ++
      '=' :: (' ' :: [' '].intercalate (e.right.map String.toList)) := by
  simp [Equation.text, String.toList_intercalate]

namespace Line
variable (l : Line)

/-- The part of a line before its comment. -/
def front : String := l.equation?.elim "" Equation.text ++ l.blanks

theorem notMem_blanks {l : Line} (h : isBlank c = false ∨ c = '\n') : c ∉ l.blanks.toList := by
  intro hc
  obtain ⟨hblank, hnewline⟩ := l.blank c hc
  rcases h with h | h
  · exact absurd hblank (by simp [h])
  · exact hnewline h

theorem notMem_front {l : Line} (hc : c = '#' ∨ c = '\n') : c ∉ l.front.toList := by
  have hblanks : c ∉ l.blanks.toList := by
    refine notMem_blanks ?_
    rcases hc with rfl | rfl
    · exact .inl (by decide)
    · exact .inr rfl
  rw [front, String.toList_append, List.mem_append]
  rintro (hequation | hin)
  · cases hentry : l.equation? with
    | none => simp [hentry] at hequation
    | some e =>
        have hplain := l.plain e hentry
        rw [hentry, Option.elim_some, toList_equationText] at hequation
        have hleft := notMem_intercalate hplain.left_plain (.inr hc)
        have hright := notMem_intercalate hplain.right_plain (.inr hc)
        rcases hc with rfl | rfl <;> simp [hleft, hright] at hequation
  · exact hblanks hin

theorem toList_text : l.text.toList =
    l.front.toList ++ l.comment?.elim [] fun comment => '#' :: comment.toList := by
  unfold text
  cases l.comment? <;> simp [front]

theorem cut : Cut l.text.toList l.front.toList := by
  refine ⟨notMem_front (.inl rfl), ?_⟩
  rw [toList_text]
  cases l.comment? with
  | none => exact .inl (List.append_nil _)
  | some comment => exact .inr ⟨comment.toList, rfl⟩

theorem newline_notMem : '\n' ∉ l.text.toList := by
  rw [toList_text, List.mem_append, not_or]
  refine ⟨notMem_front (.inr rfl), ?_⟩
  cases hcomment : l.comment? with
  | none => simp
  | some comment => simpa using l.oneLine comment hcomment

/-- A line that was written says its equation. -/
theorem reads : Reads l.text.toList l.equation? := by
  have hcut := l.cut
  cases hentry : l.equation? with
  | none =>
      refine .blank hcut fun c hc => ?_
      have hblanks : c ∈ l.blanks.toList := by simpa [front, hentry] using hc
      exact (l.blank c hblanks).1
  | some e =>
      have hplain := l.plain e hentry
      have hblank : ∀ c ∈ l.blanks.toList, isBlank c = true := fun c hc => (l.blank c hc).1
      have hleft := notMem_intercalate hplain.left_plain (.inl rfl)
      have hright := notMem_intercalate hplain.right_plain (.inl rfl)
      have hequals : '=' ∉ l.blanks.toList := notMem_blanks (.inl (by decide))
      rw [front, hentry, Option.elim_some, String.toList_append, toList_equationText,
        List.append_assoc, List.cons_append] at hcut
      have hspells := Reads.equation hcut (by simpa using hleft) (by simp [hright, hequals])
        ((spells_intercalate hplain.left_plain).append_blank (List.forall_mem_singleton.mpr rfl))
        ((Spells.skip rfl (spells_intercalate hplain.right_plain)).append_blank hblank)
        (by simpa using hplain.left_ne_nil) (by simpa using hplain.right_ne_nil)
      simpa using hspells

end Line

/-- Lines that were written make a file, with or without a newline at its end. -/
theorem file_of_lines (ls : List Line) :
    File ("\n".intercalate (ls.map Line.text)).toList (ls.filterMap Line.equation?) := by
  rw [String.toList_intercalate, List.map_map]
  induction ls with
  | nil => exact .last List.not_mem_nil (.blank ⟨List.not_mem_nil, .inl rfl⟩ (by simp))
  | cons l rest ih =>
      have hentries : (l :: rest).filterMap Line.equation? =
          l.equation?.toList ++ rest.filterMap Line.equation? := by
        cases hentry : l.equation? <;> simp [hentry]
      rw [hentries]
      cases rest with
      | nil => simpa using File.last l.newline_notMem l.reads
      | cons next rest =>
          rw [List.map_cons, List.map_cons, List.intercalate_cons_cons, List.append_assoc]
          exact .line l.newline_notMem l.reads ih

/-- Without hash sign and newline a text is one line, which is read as an equation is. -/
theorem parse_of_oneLine {source text : String} (hhash : '#' ∉ text.toList)
    (hnewline : '\n' ∉ text.toList) (hblank : ∃ c ∈ text.toList, isBlank c = false) :
    parse source text = (parseEquation source text).map ([·]) := by
  have hcontent : content text.toList = text.toList := content_eq_iff.mpr ⟨hhash, .inl rfl⟩
  have hstated : ¬ text.toList.all isBlank = true := by simpa using hblank
  rw [parse, lines_of_notMem hnewline, readLines, hcontent, if_neg hstated, parseEquation]
  cases readLine text.toList with
  | error error => simp [Except.map]
  | ok e => rfl

/-- Reading accepts the files of the grammar, with their equations in order. All tokens that
are read are plain, and the equations are taken as axioms by any codebook. What is written
with plain tokens is read back, whatever blanks, comments and empty lines there are around
the equations. A text of one line is read as a file as it is read by itself, errors
included. -/
theorem parse_spec (source : String) :
    (∀ text axioms, parse source text = .ok axioms ↔ File text.toList axioms) ∧
    (∀ text axioms, parse source text = .ok axioms →
      (∀ e ∈ axioms, e.Plain) ∧
        ∀ codes, ∃ coded, RuleBook.ofEquations codes axioms = .ok coded) ∧
    (∀ ls : List Line,
      parse source ("\n".intercalate (ls.map Line.text)) = .ok (ls.filterMap Line.equation?)) ∧
    ∀ text : String, '#' ∉ text.toList → '\n' ∉ text.toList →
      (∃ c ∈ text.toList, isBlank c = false) →
      parse source text = (parseEquation source text).map ([·]) := by
  have hfile : ∀ text axioms, parse source text = .ok axioms ↔ File text.toList axioms :=
    fun text axioms => readLines_eq_ok_iff source 1 0
  refine ⟨hfile, ?_, fun ls => (hfile _ _).mpr (file_of_lines ls),
    fun text => parse_of_oneLine⟩
  intro text axioms hparse
  have hplain := ((hfile text axioms).mp hparse).plain
  refine ⟨hplain, fun codes => ⟨_, RuleBook.ofEquations_eq_ok.mpr ⟨?_, rfl⟩⟩⟩
  exact RuleBook.checkAll_eq_ok.mpr fun e he => (hplain e he).usable

/-- An equals sign needs no blanks, one in a comment does not count and a carriage return is
blank. A line with two equals signs is refused in the same words as a file and by itself. -/
theorem parse_spec_glued :
    File "x y=z # a = b\r\n\r\n# none".toList [⟨["x", "y"], ["z"]⟩] ∧
      Equation.Plain ⟨["x", "y"], ["z"]⟩ ∧
      parse "" "a = b = c" = (parseEquation "" "a = b = c").map ([·]) ∧
      parse "" "a = b = c" = .error ⟨"", 1, .secondEquals, 6, 7⟩ := by
  have hparse : parse "" "x y=z # a = b\r\n\r\n# none" = .ok [⟨["x", "y"], ["z"]⟩] := by decide
  obtain ⟨hfile, hplain, -, hsame⟩ := parse_spec ""
  refine ⟨(hfile _ _).mp hparse, (hplain _ _ hparse).1 _ List.mem_cons_self, ?_, by decide⟩
  exact hsame "a = b = c" (by decide) (by decide) ⟨'a', by decide, by decide⟩

end RuleFile
end ThueProver
