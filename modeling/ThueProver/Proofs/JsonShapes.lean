import ThueProver.Proofs.History
import ThueProver.Proofs.JsonReading

/-!
# What is read has the shape asked for

The reader of a schema accepts many texts for one value: blanks anywhere, members
in any order and others between them, records written as lists. Whatever it
accepts, the value it hands out fits the schema, so its members stand in the order
of the schema and its numbers are below their bounds. In particular no number that
is read is too large for a word, as digits are taken only while a word can hold
them.
-/
namespace ThueProver

open JsonText

/-- A mapped operation succeeds exactly if the operation does. -/
theorem map_eq_ok {ε α β : Type} {x : Except ε α} {f : α → β} {b : β} :
    x.map f = .ok b ↔ ∃ a, x = .ok a ∧ f a = b := by
  cases x with
  | error error => simp [Except.map]
  | ok a => simp [Except.map]

theorem throw_ne_ok {ε α : Type} {error : ε} {a : α} : (throw error : Except ε α) ≠ .ok a :=
  nofun

theorem throw_bind_ne_ok {ε α β : Type} {error : ε} {f : α → Except ε β} {b : β} :
    (throw error >>= f) ≠ .ok b := nofun

namespace JsonText

/-- The reader hands out the value for some text. -/
def Yields (reader : List Char → Reading Json) (v : Json) : Prop :=
  ∃ cs rest, reader cs = .ok (v, rest)

/-! ## Numbers and words -/

theorem appendDigits_lt {n : Nat} (h : n < wordBound) (cs : List Char) :
    (appendDigits n cs).1 < wordBound := by
  induction cs generalizing n with
  | nil => exact h
  | cons c rest ih =>
      rw [appendDigits]
      split_ifs with hword
      · exact ih hword
      · exact h

theorem digits_of_readNumeral {cs rest : List Char} {n : Numeral}
    (h : readNumeral cs = .ok (n, rest)) : n.digits < wordBound := by
  unfold readNumeral at h
  simp only [bind_eq_ok] at h
  obtain ⟨⟨whole, rest⟩, -, h⟩ := h
  dsimp only at h
  split_ifs at h
  · exact absurd h throw_bind_ne_ok
  · simp only [bind_eq_ok] at h
    obtain ⟨⟨fraction, rest⟩, -, ⟨exponent, rest⟩, -, h⟩ := h
    obtain ⟨rfl, -⟩ := Prod.mk.inj (Except.ok.inj h)
    exact appendDigits_lt (appendDigits_lt (by decide) whole) _

theorem digits_of_readSigned {cs rest : List Char} {negative : Bool} {n : Numeral}
    (h : readSigned cs = .ok ((negative, n), rest)) : n.digits < wordBound := by
  unfold readSigned at h
  split at h
  all_goals
    obtain ⟨⟨m, rest⟩, hm, heq⟩ := map_eq_ok.mp h
    cases heq
    exact digits_of_readNumeral hm

theorem lt_of_readNatural {bound : Nat} {cs rest : List Char} {n : Nat}
    (h : readNatural bound cs = .ok (n, rest)) : n < bound ∧ n < wordBound := by
  unfold readNatural at h
  obtain ⟨⟨⟨negative, m⟩, rest⟩, hsigned, h⟩ := bind_eq_ok.mp h
  have hword := digits_of_readSigned hsigned
  dsimp only at h
  split_ifs at h with hoverflows hfits hfits
  · exact absurd h throw_bind_ne_ok
  · exact absurd h throw_bind_ne_ok
  · obtain ⟨rfl, -⟩ := Prod.mk.inj (Except.ok.inj h)
    simp only [Bool.and_eq_true, decide_eq_true_eq] at hfits
    exact ⟨hfits.2, hword⟩

theorem mem_of_readWord {choices : List String} {cs rest : List Char} {v : Json}
    (h : readWord choices cs = .ok (v, rest)) : ∃ s, v = .text s ∧ s ∈ choices := by
  unfold readWord at h
  obtain ⟨⟨word, after⟩, -, h⟩ := bind_eq_ok.mp h
  dsimp only at h
  split_ifs at h with hword
  obtain ⟨rfl, -⟩ := Prod.mk.inj (Except.ok.inj h)
  exact ⟨_, rfl, List.contains_iff_mem.mp hword⟩

/-! ## Lists and records -/

theorem forall_of_readItems {item : List Char → Reading Json} {fuel : Nat} {cs rest : List Char}
    {vs : List Json} (h : readItems item fuel cs = .ok (vs, rest)) : ∀ v ∈ vs, Yields item v := by
  induction fuel generalizing cs vs with
  | zero => cases h
  | succ fuel ih =>
      rw [readItems] at h
      split at h
      · cases h
      next v more hv =>
      have hyields : Yields item v := ⟨_, _, hv⟩
      split at h
      · obtain ⟨rfl, -⟩ := Prod.mk.inj (Except.ok.inj h)
        simpa using hyields
      · obtain ⟨⟨ws, after⟩, hws, heq⟩ := map_eq_ok.mp h
        obtain ⟨rfl, rfl⟩ := Prod.mk.inj heq
        exact List.forall_mem_cons.mpr ⟨hyields, ih hws⟩
      · cases h

theorem forall_of_readList {item : List Char → Reading Json} {fuel : Nat} {cs rest : List Char}
    {vs : List Json} (h : readList item fuel cs = .ok (vs, rest)) : ∀ v ∈ vs, Yields item v := by
  unfold readList at h
  split at h
  · obtain ⟨rfl, -⟩ := Prod.mk.inj (Except.ok.inj h)
    simp
  · exact forall_of_readItems h

/-- A list of fixed length holds one value of each reader. -/
theorem forall₂_of_readFixed {readers : List (List Char → Reading Json)} {first : Bool}
    {cs rest : List Char} {vs : List Json} (h : readFixed first readers cs = .ok (vs, rest)) :
    List.Forall₂ Yields readers vs := by
  induction readers generalizing first cs vs with
  | nil =>
      rw [readFixed] at h
      obtain ⟨more, -, heq⟩ := map_eq_ok.mp h
      obtain ⟨rfl, -⟩ := Prod.mk.inj heq
      exact .nil
  | cons reader readers ih =>
      rw [readFixed] at h
      split at h
      · cases h
      · split_ifs at h
        all_goals
          simp only [bind_eq_ok] at h
          obtain ⟨start, -, ⟨v, more⟩, hv, ⟨ws, after⟩, hws, heq⟩ := h
          obtain ⟨rfl, rfl⟩ := Prod.mk.inj (Except.ok.inj heq)
          exact .cons ⟨_, _, hv⟩ (ih hws)

/-- Each member found was handed out by the reader of its name. -/
def Found (readers : List (String × (List Char → Reading Json))) (found : List (String × Json)) :
    Prop :=
  ∀ m ∈ found, ∃ reader, readers.lookup m.1 = some reader ∧ Yields reader m.2

theorem Found.concat {readers : List (String × (List Char → Reading Json))}
    {found : List (String × Json)} (h : Found readers found) {name : String} {v : Json}
    {reader : List Char → Reading Json} (hreader : readers.lookup name = some reader)
    (hv : Yields reader v) : Found readers (found ++ [(name, v)]) := by
  intro m hm
  rcases List.mem_append.mp hm with hm | hm
  · exact h m hm
  · rw [List.mem_singleton.mp hm]
    exact ⟨reader, hreader, hv⟩

theorem found_of_readMembers {readers : List (String × (List Char → Reading Json))} {fuel : Nat}
    {found members : List (String × Json)} {cs rest : List Char} (hfound : Found readers found)
    (h : readMembers readers fuel found cs = .ok (members, rest)) : Found readers members := by
  induction fuel generalizing found cs with
  | zero => cases h
  | succ fuel ih =>
      rw [readMembers] at h
      simp only [bind_eq_ok] at h
      obtain ⟨start, -, ⟨name, more⟩, -, h⟩ := h
      dsimp only at h
      split at h
      next reader hreader =>
        split_ifs at h
        · exact absurd h throw_bind_ne_ok
        · simp only [bind_eq_ok] at h
          obtain ⟨value, -, ⟨v, after⟩, hv, next, hnext, h⟩ := h
          obtain rfl := Except.ok.inj hnext
          have hadded := hfound.concat hreader ⟨_, _, hv⟩
          split at h
          · obtain ⟨rfl, -⟩ := Prod.mk.inj (Except.ok.inj h)
            exact hadded
          · exact ih hadded h
          · exact absurd h throw_ne_ok
      -- A member of another name is passed over.
      next =>
        simp only [bind_eq_ok] at h
        obtain ⟨value, -, after, -, next, hnext, h⟩ := h
        obtain rfl := Except.ok.inj hnext
        split at h
        · obtain ⟨rfl, -⟩ := Prod.mk.inj (Except.ok.inj h)
          exact hfound
        · exact ih hfound h
        · exact absurd h throw_ne_ok

end JsonText

/-! ## Schemas -/

mutual

/-- No record names two of its members alike. -/
def Schema.Distinct : Schema → Prop
  | .list item => item.Distinct
  | .pair first second => first.Distinct ∧ second.Distinct
  | .optional inner => inner.Distinct
  | .record fields => fields.names.Nodup ∧ fields.Distinct
  | _ => True

def Fields.Distinct : Fields → Prop
  | .nil => True
  | .cons _ schema rest => schema.Distinct ∧ rest.Distinct

end

namespace Fields

/-- What the readers of the members hand out fits the members' schemas. -/
def Sound (fuel : Nat) : Fields → Prop
  | .nil => True
  | .cons _ schema rest => (∀ v, Yields (schema.read fuel) v → schema.Fits v) ∧ rest.Sound fuel

/-- One value for each member, in the order of the schema, makes a fitting record. -/
theorem fit_of_forall₂ {fuel : Nat} : (fields : Fields) → fields.Sound fuel → {vs : List Json} →
    List.Forall₂ Yields ((fields.readers fuel).map (·.2)) vs → fields.Fit (fields.names.zip vs)
  | .nil, _, vs, h => by
      rw [readers] at h
      cases h
      rw [Fit]
      rfl
  | .cons name schema rest, hsound, vs, h => by
      rw [readers] at h
      rw [Sound] at hsound
      cases h with
      | cons hv hvs =>
          rw [Fit]
          exact ⟨_, _, rfl, hsound.1 _ hv, fit_of_forall₂ rest hsound.2 hvs⟩

/-- The members found, and null for the optional ones that are missing, make a
fitting record. -/
theorem fit_of_collect {fuel : Nat} {all : List (String × (List Char → Reading Json))}
    {found : List (String × Json)} (hfound : Found all found) : (fields : Fields) →
    fields.Sound fuel →
    (∀ entry ∈ fields.readers fuel, all.lookup entry.1 = some entry.2) →
    {ms : List (String × Json)} → fields.collect found = .ok ms → fields.Fit ms
  | .nil, _, _, ms, h => by
      rw [collect] at h
      obtain rfl := Except.ok.inj h
      rw [Fit]
  | .cons name schema rest, hsound, hreaders, ms, h => by
      rw [Sound] at hsound
      rw [readers, List.forall_mem_cons] at hreaders
      rw [Fit]
      unfold collect at h
      split at h
      next v hv =>
        obtain ⟨tail, htail, rfl⟩ := map_eq_ok.mp h
        refine ⟨v, tail, rfl, ?_, fit_of_collect hfound rest hsound.2 hreaders.2 htail⟩
        obtain ⟨before, after, heq, -⟩ := List.lookup_eq_some_iff.mp hv
        obtain ⟨reader, hreader, hyields⟩ := hfound (name, v) (by simp [heq])
        rw [hreaders.1, Option.some.injEq] at hreader
        subst hreader
        exact hsound.1 v hyields
      next inner hnone =>
        obtain ⟨tail, htail, rfl⟩ := map_eq_ok.mp h
        refine ⟨.null, tail, rfl, ?_, fit_of_collect hfound rest hsound.2 hreaders.2 htail⟩
        rw [Schema.Fits]
        exact .inl rfl
      next => cases h

end Fields

theorem fits_record_of_yields {fuel : Nat} {fields : Fields} (hnodup : fields.names.Nodup)
    (hsound : fields.Sound fuel) {v : Json} (h : Yields ((Schema.record fields).read fuel) v) :
    (Schema.record fields).Fits v := by
  have hreaders : ∀ entry ∈ fields.readers fuel,
      (fields.readers fuel).lookup entry.1 = some entry.2 := by
    intro entry hentry
    exact Fields.lookup_of_mem_nodup (Fields.map_fst_readers fuel fields ▸ hnodup) hentry
  obtain ⟨cs, rest, h⟩ := h
  rw [Schema.read] at h
  rw [Schema.Fits]
  split at h
  · obtain ⟨⟨vs, after⟩, hvs, heq⟩ := map_eq_ok.mp h
    obtain ⟨rfl, -⟩ := Prod.mk.inj heq
    exact ⟨_, rfl, fields.fit_of_forall₂ hsound (forall₂_of_readFixed hvs), hnodup⟩
  · split at h
    · obtain ⟨ms, hms, heq⟩ := map_eq_ok.mp h
      obtain ⟨rfl, -⟩ := Prod.mk.inj heq
      have hnone : Found (fields.readers fuel) [] := by simp [Found]
      exact ⟨_, rfl, fields.fit_of_collect hnone hsound hreaders hms, hnodup⟩
    · simp only [bind_eq_ok] at h
      obtain ⟨⟨found, after⟩, hmembers, ms, hms, heq⟩ := h
      obtain ⟨rfl, -⟩ := Prod.mk.inj (Except.ok.inj heq)
      have hnone : Found (fields.readers fuel) [] := by simp [Found]
      have hfound := found_of_readMembers hnone hmembers
      exact ⟨_, rfl, fields.fit_of_collect hfound hsound hreaders hms, hnodup⟩
  · cases h

mutual

/-- What is read by a schema fits it. -/
theorem Schema.fits_of_yields (fuel : Nat) : (schema : Schema) → schema.Distinct → {v : Json} →
    Yields (schema.read fuel) v → schema.Fits v
  | .flag, _, v, ⟨cs, rest, h⟩ => by
      rw [Schema.read] at h
      rw [Schema.Fits]
      split at h
      · obtain ⟨after, -, heq⟩ := map_eq_ok.mp h
        exact ⟨true, (Prod.mk.inj heq).1.symm⟩
      · obtain ⟨after, -, heq⟩ := map_eq_ok.mp h
        exact ⟨false, (Prod.mk.inj heq).1.symm⟩
      · cases h
  | .natural bound, _, v, ⟨cs, rest, h⟩ => by
      rw [Schema.read] at h
      rw [Schema.Fits]
      dsimp only at h
      split_ifs at h
      obtain ⟨⟨n, after⟩, hn, heq⟩ := map_eq_ok.mp h
      exact ⟨n, (Prod.mk.inj heq).1.symm, lt_of_readNatural hn⟩
  | .text, _, v, ⟨cs, rest, h⟩ => by
      rw [Schema.read] at h
      rw [Schema.Fits]
      split at h
      · obtain ⟨⟨s, after⟩, -, heq⟩ := map_eq_ok.mp h
        exact ⟨_, (Prod.mk.inj heq).1.symm⟩
      · cases h
  | .word choices, _, v, ⟨cs, rest, h⟩ => by
      rw [Schema.read] at h
      rw [Schema.Fits]
      split at h
      · exact mem_of_readWord h
      · split at h
        · simp only [bind_eq_ok] at h
          obtain ⟨⟨word, after⟩, hword, _, -, _, -, _, -, heq⟩ := h
          obtain ⟨rfl, -⟩ := Prod.mk.inj (Except.ok.inj heq)
          exact mem_of_readWord hword
        · cases h
      · cases h
  | .list item, hdistinct, v, ⟨cs, rest, h⟩ => by
      rw [Schema.Distinct] at hdistinct
      rw [Schema.read] at h
      rw [Schema.Fits]
      split at h
      · obtain ⟨⟨vs, after⟩, hvs, heq⟩ := map_eq_ok.mp h
        refine ⟨vs, (Prod.mk.inj heq).1.symm, ?_⟩
        intro w hw
        exact Schema.fits_of_yields fuel item hdistinct (forall_of_readList hvs w hw)
      · cases h
  | .pair first second, hdistinct, v, ⟨cs, rest, h⟩ => by
      rw [Schema.Distinct] at hdistinct
      rw [Schema.read] at h
      rw [Schema.Fits]
      split at h
      · obtain ⟨⟨vs, after⟩, hvs, heq⟩ := map_eq_ok.mp h
        obtain ⟨rfl, -⟩ := Prod.mk.inj heq
        cases forall₂_of_readFixed hvs with
        | cons hx hrest =>
            cases hrest with
            | cons hy hnil =>
                cases hnil
                exact ⟨_, _, rfl, Schema.fits_of_yields fuel first hdistinct.1 hx,
                  Schema.fits_of_yields fuel second hdistinct.2 hy⟩
      · cases h
  | .optional inner, hdistinct, v, ⟨cs, rest, h⟩ => by
      rw [Schema.Distinct] at hdistinct
      rw [Schema.read] at h
      rw [Schema.Fits]
      split at h
      · obtain ⟨after, -, heq⟩ := map_eq_ok.mp h
        exact .inl (Prod.mk.inj heq).1.symm
      · by_cases hnull : v = .null
        · exact .inl hnull
        · exact .inr ⟨hnull, Schema.fits_of_yields fuel inner hdistinct ⟨_, _, h⟩⟩
  | .record fields, hdistinct, v, h => by
      rw [Schema.Distinct] at hdistinct
      exact fits_record_of_yields hdistinct.1 (Fields.sound fuel fields hdistinct.2) h

theorem Fields.sound (fuel : Nat) : (fields : Fields) → fields.Distinct → fields.Sound fuel
  | .nil, _ => by
      rw [Fields.Sound]
      trivial
  | .cons name schema rest, hdistinct => by
      rw [Fields.Distinct] at hdistinct
      rw [Fields.Sound]
      exact ⟨fun _ hv => Schema.fits_of_yields fuel schema hdistinct.1 hv,
        Fields.sound fuel rest hdistinct.2⟩

end

/-- A text is read as a value that fits the schema, or not at all. -/
theorem Schema.fits_of_readWhole {schema : Schema} (hdistinct : schema.Distinct) {text : String}
    {v : Json} (h : schema.readWhole text = .ok v) : schema.Fits v := by
  unfold readWhole at h
  obtain ⟨⟨w, rest⟩, hread, h⟩ := bind_eq_ok.mp h
  dsimp only at h
  split_ifs at h
  obtain rfl := Except.ok.inj h
  exact schema.fits_of_yields _ hdistinct ⟨_, _, hread⟩

end ThueProver
