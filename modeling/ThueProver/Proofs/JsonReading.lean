import ThueProver.Json.Schema
import ThueProver.Proofs.JsonWords

/-!
# Values read back by their schema

A value that fits a schema is read back from its compact text, and the reader
stops where the value ends. A record is written with its members in the order of
the schema, which is one of the orders in which it can be read.

Readers spend one unit of fuel on each item of a list and each member of a
record. A text is longer than it has items, so its length is enough.
-/
namespace ThueProver

open JsonText

-- Readers are unfolded shape by shape below, by equations that are made once, here.
attribute [simp] Schema.read

namespace JsonText

/-- The reader takes the text of the value off the front of a longer text. -/
def Reads (reader : List Char → Reading Json) (v : Json) : Prop :=
  ∀ rest, Ends rest → reader (v.chars ++ rest) = .ok (v, rest)

/-- How the text of a value starts; only that of null starts with its letter. -/
theorem chars_start (v : Json) : ∃ c cs, v.chars = c :: cs ∧ isBlank c = false ∧ c ≠ ']' ∧
    (c = 'n' → v = .null) := by
  cases v with
  | null => exact ⟨_, _, rfl, by decide, by decide, fun _ => rfl⟩
  | flag value =>
      cases value with
      | true => exact ⟨_, _, by rw [Json.chars], by decide, by decide,
          fun hc => absurd hc (by decide)⟩
      | false => exact ⟨_, _, by rw [Json.chars], by decide, by decide,
          fun hc => absurd hc (by decide)⟩
  | number n =>
      cases hdigits : Nat.toDigits 10 n with
      | nil => exact absurd hdigits Nat.toDigits_ne_nil
      | cons c cs =>
          have hdigit : c.isDigit = true :=
            Nat.isDigit_of_mem_toDigits (by decide) (by decide) (hdigits ▸ List.mem_cons_self)
          refine ⟨c, cs, by rw [Json.chars, hdigits], ?_, ?_, ?_⟩
          · rw [Bool.eq_false_iff]
            intro hblank
            simp only [isBlank, Bool.or_eq_true, beq_iff_eq] at hblank
            rcases hblank with ((rfl | rfl) | rfl) | rfl <;> exact absurd hdigit (by decide)
          · rintro rfl
            exact absurd hdigit (by decide)
          · rintro rfl
            exact absurd hdigit (by decide)
  | text value => exact ⟨_, _, by rw [Json.chars, Json.quoted], by decide, by decide,
          fun hc => absurd hc (by decide)⟩
  | list items => exact ⟨_, _, by rw [Json.chars], by decide, by decide,
          fun hc => absurd hc (by decide)⟩
  | record members => exact ⟨_, _, by rw [Json.chars], by decide, by decide,
          fun hc => absurd hc (by decide)⟩

theorem skipBlanks_chars (v : Json) (rest : List Char) :
    skipBlanks (v.chars ++ rest) = v.chars ++ rest := by
  obtain ⟨c, cs, hchars, hblank, -⟩ := chars_start v
  rw [hchars, List.cons_append, skipBlanks_cons hblank]

theorem chars_length_pos (v : Json) : 0 < v.chars.length := by
  obtain ⟨c, cs, hchars, -⟩ := chars_start v
  rw [hchars]
  exact Nat.succ_pos _

theorem readItems_itemChars {item : List Char → Reading Json} {vs : List Json} (hne : vs ≠ [])
    (h : ∀ v ∈ vs, Reads item v) {fuel : Nat} (hfuel : vs.length ≤ fuel) (rest : List Char) :
    readItems item fuel (Json.itemChars vs ++ ']' :: rest) = .ok (vs, rest) := by
  induction vs generalizing fuel with
  | nil => exact absurd rfl hne
  | cons v vs ih =>
      obtain ⟨fuel, rfl⟩ : ∃ f, fuel = f + 1 := ⟨fuel - 1, by simp at hfuel; omega⟩
      have hv := h v List.mem_cons_self
      cases vs with
      | nil =>
          rw [Json.itemChars, readItems, hv _ (ends_bracket rest)]
          simp only [skipBlanks_cons (by decide : isBlank ']' = false)]
      | cons w ws =>
          have hrest := ih (by simp) (fun u hu => h u (List.mem_cons_of_mem _ hu))
            (Nat.le_of_succ_le_succ hfuel)
          rw [Json.itemChars, List.append_assoc, List.cons_append, readItems,
            hv _ (ends_comma _)]
          simp only [skipBlanks_cons (by decide : isBlank ',' = false), hrest]
          rfl

theorem readList_itemChars {item : List Char → Reading Json} {vs : List Json}
    (h : ∀ v ∈ vs, Reads item v) {fuel : Nat} (hfuel : vs.length ≤ fuel) (rest : List Char) :
    readList item fuel (Json.itemChars vs ++ ']' :: rest) = .ok (vs, rest) := by
  cases vs with
  | nil => rfl
  | cons v vs =>
      have hitems := readItems_itemChars (List.cons_ne_nil v vs) h hfuel rest
      obtain ⟨c, cs, hchars, hblank, hclose, -⟩ := chars_start v
      have hstart : ∃ more, Json.itemChars (v :: vs) ++ ']' :: rest = c :: more := by
        cases vs with
        | nil => exact ⟨_, by rw [Json.itemChars, hchars]; rfl⟩
        | cons w ws => exact ⟨_, by rw [Json.itemChars, hchars]; rfl⟩
      obtain ⟨more, hmore⟩ := hstart
      rw [hmore] at hitems ⊢
      unfold readList
      rw [skipBlanks_cons hblank]
      split
      next hcons => exact absurd (List.cons.inj hcons).1 hclose
      next => exact hitems

/-- One more item of a fixed list, after its comma if it is not the first. -/
theorem readFixed_cons {item : List Char → Reading Json}
    {items : List (List Char → Reading Json)} {v : Json} (hv : Reads item v) {rest more : List Char}
    {vs : List Json} (hends : Ends rest) (hmore : readFixed false items rest = .ok (vs, more)) :
    readFixed true (item :: items) (v.chars ++ rest) = .ok (v :: vs, more) ∧
      readFixed false (item :: items) (',' :: (v.chars ++ rest)) = .ok (v :: vs, more) := by
  obtain ⟨c, cs, hchars, hblank, hclose, -⟩ := chars_start v
  have hread := hv rest hends
  constructor
  · unfold readFixed
    rw [skipBlanks_chars]
    split
    next hcons =>
      rw [hchars] at hcons
      exact absurd (List.cons.inj hcons).1 hclose
    next =>
      simp only [if_true, pure, Except.pure, bind, Except.bind, hread, hmore]
  · unfold readFixed
    rw [skipBlanks_cons (by decide)]
    split
    next hcons => exact absurd (List.cons.inj hcons).1 (by decide)
    next =>
      have hcomma : expect [','] (',' :: (v.chars ++ rest)) = .ok (v.chars ++ rest) := by
        simp [expect, List.isPrefixOf]
      simp only [hcomma, bind, Except.bind, hread, hmore]
      rfl

theorem readFixed_pair {first second : List Char → Reading Json} {v w : Json}
    (hv : Reads first v) (hw : Reads second w) (rest : List Char) :
    readFixed true [first, second] (Json.itemChars [v, w] ++ ']' :: rest) =
      .ok ([v, w], rest) := by
  have hend : readFixed false [] (']' :: rest) = .ok ([], rest) := by
    rw [readFixed, expectMark_cons (by decide)]
    rfl
  have hsecond := (readFixed_cons hw (ends_bracket rest) hend).2
  have hfirst := (readFixed_cons hv (ends_comma _) hsecond).1
  rw [Json.itemChars, Json.itemChars, List.append_assoc, List.cons_append]
  exact hfirst

/-- One member is read and added to those found; a brace ends the record. -/
theorem readMembers_member {readers : List (String × (List Char → Reading Json))} {name : String}
    {v : Json} {item : List Char → Reading Json} (hitem : readers.lookup name = some item)
    (hv : Reads item v) {found : List (String × Json)} (hnew : found.lookup name = none)
    (fuel : Nat) {rest : List Char} (hends : Ends rest) :
    readMembers readers (fuel + 1) found (Json.quoted name ++ ':' :: (v.chars ++ rest)) =
      match skipBlanks rest with
      | '\x7d' :: rest => .ok (found ++ [(name, v)], rest)
      | ',' :: rest => readMembers readers fuel (found ++ [(name, v)]) rest
      | _ => .error .malformed := by
  have hname : readString (name.toList.flatMap Json.escaped ++ '"' :: ':' :: (v.chars ++ rest)) =
      .ok (name.toList, ':' :: (v.chars ++ rest)) := readString_quoted _ _
  have hread := hv rest hends
  have hquote := expectMark_cons (by decide : isBlank '"' = false)
    (name.toList.flatMap Json.escaped ++ '"' :: ':' :: (v.chars ++ rest))
  have hcolon := expectMark_cons (by decide : isBlank ':' = false) (v.chars ++ rest)
  rw [Json.quoted, List.cons_append, List.append_assoc, List.singleton_append, readMembers, hquote]
  simp only [bind, Except.bind, hname, String.ofList_toList, hitem, hnew, hcolon, hread,
    Option.isSome_none, pure, Except.pure]
  rfl

theorem lookup_of_not_mem {found : List (String × Json)} {name : String}
    (h : name ∉ found.map (·.1)) : found.lookup name = none := by
  rw [List.lookup_eq_none_iff]
  intro m hm
  simp only [bne_iff_ne, ne_eq]
  rintro rfl
  exact h (List.mem_map_of_mem hm)

theorem readMembers_memberChars {readers : List (String × (List Char → Reading Json))}
    {ms : List (String × Json)} (hne : ms ≠ [])
    (h : ∀ m ∈ ms, ∃ item, readers.lookup m.1 = some item ∧ Reads item m.2) {fuel : Nat}
    (hfuel : ms.length ≤ fuel) {found : List (String × Json)}
    (hnodup : ((found ++ ms).map (·.1)).Nodup) (rest : List Char) :
    readMembers readers fuel found (Json.memberChars ms ++ Json.closeBrace :: rest) =
      .ok (found ++ ms, rest) := by
  induction ms generalizing fuel found with
  | nil => exact absurd rfl hne
  | cons m ms ih =>
      obtain ⟨fuel, rfl⟩ : ∃ f, fuel = f + 1 := ⟨fuel - 1, by simp at hfuel; omega⟩
      obtain ⟨name, v⟩ := m
      obtain ⟨item, hitem, hv⟩ := h _ List.mem_cons_self
      have hnew : found.lookup name = none := by
        apply lookup_of_not_mem
        rw [List.map_append, List.nodup_append] at hnodup
        intro hin
        exact hnodup.2.2 name hin name (by simp) rfl
      cases ms with
      | nil =>
          rw [Json.memberChars, List.append_assoc, List.cons_append,
            readMembers_member hitem hv hnew fuel (ends_brace rest),
            skipBlanks_cons (by decide)]
          rfl
      | cons m ms =>
          have hnodup' : ((found ++ [(name, v)] ++ m :: ms).map (·.1)).Nodup := by
            rw [List.append_assoc]
            exact hnodup
          have hrest := ih (by simp) (fun u hu => h u (List.mem_cons_of_mem _ hu))
            (Nat.le_of_succ_le_succ hfuel) hnodup'
          rw [List.append_assoc] at hrest
          rw [Json.memberChars, List.append_assoc, List.cons_append, List.append_assoc,
            List.cons_append, readMembers_member hitem hv hnew fuel (ends_comma _),
            skipBlanks_cons (by decide)]
          exact hrest

end JsonText

/-! ## Schemas -/

mutual

/-- The value has the shape of the schema and its numbers are words. -/
def Schema.Fits : Schema → Json → Prop
  | .flag, v => ∃ value, v = .flag value
  | .natural bound, v => ∃ n, v = .number n ∧ n < bound ∧ n < wordBound
  | .text, v => ∃ s, v = .text s
  | .word choices, v => ∃ s, v = .text s ∧ s ∈ choices
  | .list item, v => ∃ vs, v = .list vs ∧ ∀ w ∈ vs, item.Fits w
  | .pair first second, v => ∃ x y, v = .list [x, y] ∧ first.Fits x ∧ second.Fits y
  | .optional inner, v => v = .null ∨ v ≠ .null ∧ inner.Fits v
  | .record fields, v => ∃ ms, v = .record ms ∧ fields.Fit ms ∧ fields.names.Nodup

/-- The members are those of the schema, in its order. -/
def Fields.Fit : Fields → List (String × Json) → Prop
  | .nil, ms => ms = []
  | .cons name schema rest, ms => ∃ v tail, ms = (name, v) :: tail ∧ schema.Fits v ∧ rest.Fit tail

end

namespace Fields

theorem map_fst_of_fit : (fields : Fields) → {ms : List (String × Json)} → fields.Fit ms →
    ms.map (·.1) = fields.names
  | .nil, ms, h => by
      rw [Fit] at h
      rw [h]
      rfl
  | .cons name schema rest, ms, h => by
      rw [Fit] at h
      obtain ⟨v, tail, rfl, -, htail⟩ := h
      rw [List.map_cons, map_fst_of_fit rest htail]
      rfl

/-- Members that were all found are collected in the order of the schema. -/
theorem collect_eq {found : List (String × Json)} : (fields : Fields) →
    {ms : List (String × Json)} → fields.Fit ms →
    (∀ m ∈ ms, found.lookup m.1 = some m.2) → fields.collect found = .ok ms
  | .nil, ms, h, _ => by
      rw [Fit] at h
      rw [h]
      rfl
  | .cons name schema rest, ms, h, hfound => by
      rw [Fit] at h
      obtain ⟨v, tail, rfl, -, htail⟩ := h
      have hname := hfound _ List.mem_cons_self
      have hrest := collect_eq rest htail fun m hm => hfound m (List.mem_cons_of_mem _ hm)
      simp only at hname
      simp only [collect, hname, hrest]
      rfl

theorem lookup_of_mem_nodup {β : Type} {members : List (String × β)}
    (h : (members.map (·.1)).Nodup) {m : String × β} (hm : m ∈ members) :
    members.lookup m.1 = some m.2 := by
  obtain ⟨before, after, rfl⟩ := List.append_of_mem hm
  rw [List.map_append, List.map_cons, List.nodup_append] at h
  refine List.lookup_eq_some_iff.mpr ⟨before, after, rfl, ?_⟩
  intro other hother
  simp only [bne_iff_ne, ne_eq]
  intro heq
  exact h.2.2 _ (List.mem_map_of_mem hother) _ List.mem_cons_self heq.symm

theorem map_fst_readers (fuel : Nat) : (fields : Fields) →
    (fields.readers fuel).map (·.1) = fields.names
  | .nil => by
      rw [readers]
      rfl
  | .cons name schema rest => by
      rw [readers, List.map_cons, map_fst_readers fuel rest]
      rfl

end Fields

namespace Json

theorem length_itemChars (vs : List Json) : vs.length ≤ (itemChars vs).length ∧
    ∀ v ∈ vs, v.chars.length ≤ (itemChars vs).length := by
  induction vs with
  | nil => exact ⟨Nat.le_refl 0, by simp⟩
  | cons v vs ih =>
      have hv := chars_length_pos v
      cases vs with
      | nil =>
          rw [itemChars]
          exact ⟨hv, by simp⟩
      | cons w ws =>
          obtain ⟨hlength, heach⟩ := ih
          simp only [itemChars, List.length_append, List.length_cons] at hlength heach ⊢
          refine ⟨by omega, ?_⟩
          intro u hu
          rcases List.mem_cons.mp hu with rfl | hu
          · omega
          · have hmember := heach u hu
            omega

theorem length_memberChars (ms : List (String × Json)) : ms.length ≤ (memberChars ms).length ∧
    ∀ m ∈ ms, m.2.chars.length ≤ (memberChars ms).length := by
  induction ms with
  | nil => exact ⟨Nat.le_refl 0, by simp⟩
  | cons m ms ih =>
      obtain ⟨name, v⟩ := m
      cases ms with
      | nil =>
          simp only [memberChars, List.length_append, List.length_cons, List.length_nil]
          refine ⟨by omega, ?_⟩
          intro u hu
          rw [List.mem_singleton.mp hu]
          dsimp only
          omega
      | cons m ms =>
          obtain ⟨hlength, heach⟩ := ih
          simp only [memberChars, List.length_append, List.length_cons] at hlength heach ⊢
          refine ⟨by omega, ?_⟩
          intro u hu
          rcases List.mem_cons.mp hu with rfl | hu
          · dsimp only
            omega
          · have hmember := heach u hu
            omega

end Json

theorem reads_flag (fuel : Nat) (value : Bool) : Reads (Schema.flag.read fuel) (.flag value) := by
  intro rest _
  cases value with
  | true =>
      rw [Json.chars, Schema.read]
      rfl
  | false =>
      rw [Json.chars, Schema.read]
      rfl

theorem reads_natural (fuel : Nat) {bound n : Nat} (hbound : n < bound) (hword : n < wordBound) :
    Reads ((Schema.natural bound).read fuel) (.number n) := by
  intro rest hrest
  have hread := readNatural_toDigits hword hbound hrest
  have hblank := skipBlanks_chars (.number n) rest
  have hstarts : startsNumber (Nat.toDigits 10 n ++ rest) = true := by
    cases hdigits : Nat.toDigits 10 n with
    | nil => exact absurd hdigits Nat.toDigits_ne_nil
    | cons c cs =>
        have hdigit : c.isDigit = true :=
          Nat.isDigit_of_mem_toDigits (by decide) (by decide) (hdigits ▸ List.mem_cons_self)
        simp [startsNumber, hdigit]
  rw [Json.chars] at hblank ⊢
  simp only [Schema.read, hblank, hstarts, hread]
  rfl

theorem reads_text (fuel : Nat) (s : String) : Reads (Schema.text.read fuel) (.text s) := by
  intro rest _
  rw [Json.chars, Json.quoted, List.cons_append, List.append_assoc, List.singleton_append,
    Schema.read, skipBlanks_cons (by decide)]
  simp only [readString_quoted, Except.map, String.ofList_toList]

theorem reads_word (fuel : Nat) {choices : List String} {s : String} (h : s ∈ choices) :
    Reads ((Schema.word choices).read fuel) (.text s) := by
  intro rest _
  rw [Json.chars, Json.quoted, List.cons_append, List.append_assoc, List.singleton_append,
    Schema.read, skipBlanks_cons (by decide)]
  simp only [readWord, readString_quoted, bind, Except.bind, String.ofList_toList,
    List.contains_iff_mem.mpr h]
  rfl

theorem reads_list {fuel : Nat} {item : Schema} {vs : List Json}
    (h : ∀ v ∈ vs, Reads (item.read fuel) v) (hfuel : vs.length ≤ fuel) :
    Reads ((Schema.list item).read fuel) (.list vs) := by
  intro rest _
  rw [Json.chars, List.cons_append, List.append_assoc, List.singleton_append, Schema.read,
    skipBlanks_cons (by decide)]
  simp only [readList_itemChars h hfuel, Except.map]

theorem reads_pair {fuel : Nat} {first second : Schema} {v w : Json}
    (hv : Reads (first.read fuel) v) (hw : Reads (second.read fuel) w) :
    Reads ((Schema.pair first second).read fuel) (.list [v, w]) := by
  intro rest _
  rw [Json.chars, List.cons_append, List.append_assoc, List.singleton_append, Schema.read,
    skipBlanks_cons (by decide)]
  simp only [readFixed_pair hv hw, Except.map]

theorem reads_optional {fuel : Nat} {inner : Schema} {v : Json} (hne : v ≠ .null)
    (h : Reads (inner.read fuel) v) : Reads ((Schema.optional inner).read fuel) v := by
  intro rest hrest
  obtain ⟨c, cs, hchars, hblank, -, hnull⟩ := chars_start v
  have hread := h rest hrest
  rw [Schema.read, skipBlanks_chars]
  split
  next hcons =>
    rw [hchars] at hcons
    exact absurd (hnull (List.cons.inj hcons).1) hne
  next => exact hread

theorem reads_record {fuel : Nat} {fields : Fields} {ms : List (String × Json)}
    (hfit : fields.Fit ms) (hnodup : fields.names.Nodup)
    (h : ∀ m ∈ ms, ∃ reader, (m.1, reader) ∈ fields.readers fuel ∧ Reads reader m.2)
    (hfuel : ms.length ≤ fuel) : Reads ((Schema.record fields).read fuel) (.record ms) := by
  intro rest _
  have hnames := Fields.map_fst_of_fit fields hfit
  have hreaders := Fields.map_fst_readers fuel fields
  have hcollect : fields.collect ms = .ok ms := by
    apply Fields.collect_eq fields hfit
    intro m hm
    exact Fields.lookup_of_mem_nodup (hnames ▸ hnodup) hm
  rw [Json.chars, List.cons_append, List.append_assoc, List.singleton_append, Schema.read,
    skipBlanks_cons (by decide)]
  cases ms with
  | nil =>
      simp only [Json.openBrace, Json.memberChars, List.nil_append, Json.closeBrace,
        skipBlanks_cons (by decide : isBlank '\x7d' = false), hcollect]
      rfl
  | cons m ms =>
      have hmembers : readMembers (fields.readers fuel) fuel []
          (Json.memberChars (m :: ms) ++ Json.closeBrace :: rest) = .ok (m :: ms, rest) := by
        refine readMembers_memberChars (List.cons_ne_nil m ms) ?_ hfuel ?_ rest
        · intro u hu
          obtain ⟨reader, hreader, hreads⟩ := h u hu
          exact ⟨reader, Fields.lookup_of_mem_nodup (hreaders ▸ hnodup) hreader, hreads⟩
        · rw [List.nil_append, hnames]
          exact hnodup
      have hstart : ∃ more,
          Json.memberChars (m :: ms) ++ Json.closeBrace :: rest = '"' :: more := by
        cases ms with
        | nil => exact ⟨_, by rw [Json.memberChars, Json.quoted]; rfl⟩
        | cons m ms => exact ⟨_, by rw [Json.memberChars, Json.quoted]; rfl⟩
      obtain ⟨more, hmore⟩ := hstart
      rw [hmore] at hmembers ⊢
      simp only [Json.openBrace, skipBlanks_cons (by decide : isBlank '"' = false)]
      split
      next hcons => exact absurd (List.cons.inj hcons).1 (by decide)
      next =>
        simp only [hmembers, hcollect, bind, Except.bind]
        rfl

mutual

/-- A value that fits a schema is read back from its text. -/
theorem Schema.reads (fuel : Nat) : (schema : Schema) → {v : Json} → schema.Fits v →
    v.chars.length ≤ fuel → Reads (schema.read fuel) v
  | .flag, v, h, _ => by
      rw [Schema.Fits] at h
      obtain ⟨value, rfl⟩ := h
      exact reads_flag fuel value
  | .natural bound, v, h, _ => by
      rw [Schema.Fits] at h
      obtain ⟨n, rfl, hbound, hword⟩ := h
      exact reads_natural fuel hbound hword
  | .text, v, h, _ => by
      rw [Schema.Fits] at h
      obtain ⟨s, rfl⟩ := h
      exact reads_text fuel s
  | .word choices, v, h, _ => by
      rw [Schema.Fits] at h
      obtain ⟨s, rfl, hs⟩ := h
      exact reads_word fuel hs
  | .list item, v, h, hfuel => by
      rw [Schema.Fits] at h
      obtain ⟨vs, rfl, hvs⟩ := h
      obtain ⟨hcount, heach⟩ := Json.length_itemChars vs
      simp only [Json.chars, List.length_cons, List.length_append] at hfuel
      refine reads_list ?_ (by omega)
      intro w hw
      have hlength := heach w hw
      exact Schema.reads fuel item (hvs w hw) (by omega)
  | .pair first second, v, h, hfuel => by
      rw [Schema.Fits] at h
      obtain ⟨x, y, rfl, hx, hy⟩ := h
      obtain ⟨-, heach⟩ := Json.length_itemChars [x, y]
      have hfirst := heach x (by simp)
      have hsecond := heach y (by simp)
      simp only [Json.chars, List.length_cons, List.length_append] at hfuel
      exact reads_pair (Schema.reads fuel first hx (by omega))
        (Schema.reads fuel second hy (by omega))
  | .optional inner, v, h, hfuel => by
      rw [Schema.Fits] at h
      rcases h with rfl | ⟨hne, h⟩
      · intro rest _
        rw [Json.chars, Schema.read]
        rfl
      · exact reads_optional hne (Schema.reads fuel inner h hfuel)
  | .record fields, v, h, hfuel => by
      rw [Schema.Fits] at h
      obtain ⟨ms, rfl, hfit, hnodup⟩ := h
      obtain ⟨hcount, heach⟩ := Json.length_memberChars ms
      simp only [Json.chars, List.length_cons, List.length_append] at hfuel
      refine reads_record hfit hnodup (Fields.reads fuel fields hfit ?_) (by omega)
      intro m hm
      have hlength := heach m hm
      omega

/-- Each member of a fitting record has a reader that reads it back. -/
theorem Fields.reads (fuel : Nat) : (fields : Fields) → {ms : List (String × Json)} →
    fields.Fit ms → (∀ m ∈ ms, m.2.chars.length ≤ fuel) →
    ∀ m ∈ ms, ∃ reader, (m.1, reader) ∈ fields.readers fuel ∧ Reads reader m.2
  | .nil, ms, h, _ => by
      rw [Fields.Fit] at h
      simp [h]
  | .cons name schema rest, ms, h, hfuel => by
      rw [Fields.Fit] at h
      obtain ⟨v, tail, rfl, hv, htail⟩ := h
      intro m hm
      rw [Fields.readers]
      rcases List.mem_cons.mp hm with rfl | hm
      · exact ⟨_, List.mem_cons_self, Schema.reads fuel schema hv (hfuel _ List.mem_cons_self)⟩
      · obtain ⟨reader, hreader, hreads⟩ := Fields.reads fuel rest htail
          (fun u hu => hfuel u (List.mem_cons_of_mem _ hu)) m hm
        exact ⟨reader, List.mem_cons_of_mem _ hreader, hreads⟩

end

/-- The text of a fitting value is read as that value. -/
theorem Schema.readWhole_render {schema : Schema} {v : Json} (h : schema.Fits v) :
    schema.readWhole v.render = .ok v := by
  have hread := schema.reads (v.render.length + 1) h (by simp [Json.render]) [] ends_nil
  rw [List.append_nil] at hread
  simp only [readWhole, Json.render, String.toList_ofList] at hread ⊢
  simp only [hread, bind, Except.bind]
  rfl

end ThueProver
