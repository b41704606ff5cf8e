import Mathlib.Data.List.Basic
import Mathlib.Data.Set.List
import Mathlib.Tactic.Common
import ThueProver.Workspace

/-!
# What a workspace is loaded from

A directory tree holds files and directories at paths, which are the lists of names that
lead to them. The walk is compared here with these paths alone: it visits what the tree
holds, each thing once, in the component-wise order of the paths, in which a directory
comes before what is in it.

Loading reads in turn what bears the extension of rule files. If only files do, loading
succeeds exactly if all of them can be read, with their number and their axioms one after
the other, and else its error is that of the first one which cannot. A directory that
bears the extension is taken for a rule file that cannot be read.
-/
namespace ThueProver

namespace Entry

variable {tree entry child : Entry} {entries : List (String × Entry)} {name : String}
  {names : List String}

/-! ## Trees and paths -/

/-- What the names on a path lead to, from each directory to one of its entries. -/
inductive At : Entry → List String → Entry → Prop
  | here (entry : Entry) : At entry [] entry
  | inside {entries : List (String × Entry)} {name : String} {child entry : Entry}
      {names : List String} :
      (name, child) ∈ entries → At child names entry → At (.directory entries) (name :: names) entry

/-- No directory of the tree has two entries of one name. -/
def Distinct (tree : Entry) : Prop :=
  ∀ names entries, tree.At names (.directory entries) → (entries.map (·.1)).Nodup

/-- Induction on a tree, with the entries of a directory at hand. -/
theorem tree_induction {motive : Entry → Prop} (file : ∀ bytes, motive (.file bytes))
    (directory : ∀ entries, (∀ item ∈ entries, motive item.2) → motive (.directory entries)) :
    ∀ tree, motive tree
  | .file bytes => file bytes
  | .directory entries => directory entries fun item _ => tree_induction file directory item.2
decreasing_by
  have hitem : sizeOf item < sizeOf entries := List.sizeOf_lt_of_mem ‹_›
  have hchild : sizeOf item.2 < sizeOf item := by
    cases item
    simp only [Prod.mk.sizeOf_spec]
    omega
  simp only [Entry.directory.sizeOf_spec]
  omega

theorem at_file_iff {bytes : ByteArray} :
    (file bytes).At names entry ↔ names = [] ∧ entry = file bytes := by
  constructor
  · intro h
    cases h
    exact ⟨rfl, rfl⟩
  · rintro ⟨rfl, rfl⟩
    exact .here _

theorem at_directory_iff :
    (directory entries).At names entry ↔ (names = [] ∧ entry = directory entries) ∨
      ∃ item ∈ entries, ∃ rest, names = item.1 :: rest ∧ item.2.At rest entry := by
  constructor
  · intro h
    cases h with
    | here => exact .inl ⟨rfl, rfl⟩
    | inside hchild hentry => exact .inr ⟨_, hchild, _, rfl, hentry⟩
  · rintro (⟨rfl, rfl⟩ | ⟨item, hitem, rest, rfl, hentry⟩)
    · exact .here _
    · exact .inside hitem hentry

theorem distinct_directory_iff :
    (directory entries).Distinct ↔
      (entries.map (·.1)).Nodup ∧ ∀ item ∈ entries, item.2.Distinct := by
  constructor
  · intro h
    exact ⟨h [] entries (.here _), fun item hitem names inner hinner =>
      h (item.1 :: names) inner (.inside hitem hinner)⟩
  · rintro ⟨hnodup, hchildren⟩ names inner hinner
    rcases at_directory_iff.mp hinner with ⟨-, hsame⟩ | ⟨item, hitem, rest, -, hrest⟩
    · cases hsame
      exact hnodup
    · exact hchildren item hitem rest inner hrest

theorem distinct_file (bytes : ByteArray) : (file bytes).Distinct := by
  intro names entries h
  cases (at_file_iff.mp h).2

/-- Trees that are made by putting entries at paths have distinct names. -/
theorem Distinct.put (hentry : entry.Distinct) (htree : tree.Distinct) (path : List String) :
    (entry.put path tree).Distinct := by
  induction path generalizing tree with
  | nil =>
      rw [Entry.put]
      split_ifs
      · exact htree
      · exact hentry
  | cons name path ih =>
      have hentries : (tree.entries.map (·.1)).Nodup ∧ ∀ item ∈ tree.entries, item.2.Distinct := by
        cases tree with
        | file bytes => simp [Entry.entries]
        | directory entries => exact distinct_directory_iff.mp htree
      have hold : ((tree.entries.lookup name).getD (directory [])).Distinct := by
        cases hlookup : tree.entries.lookup name with
        | none => exact distinct_directory_iff.mpr (by simp)
        | some child =>
            obtain ⟨_, _, hmem, -⟩ := List.lookup_eq_some_iff.mp hlookup
            exact hentries.2 (name, child) (by rw [hmem]; simp)
      refine distinct_directory_iff.mpr ⟨?_, ?_⟩
      · rw [List.map_append, List.nodup_append]
        refine ⟨hentries.1.sublist (List.filter_sublist.map _), by simp, ?_⟩
        intro a ha b hb
        obtain ⟨item, hitem, rfl⟩ := List.mem_map.mp ha
        obtain rfl : b = name := by simpa using hb
        simpa using (List.mem_filter.mp hitem).2
      · intro item hitem
        rcases List.mem_append.mp hitem with hkept | hnew
        · exact hentries.2 item (List.mem_filter.mp hkept).1
        · rw [List.mem_singleton.mp hnew]
          exact ih hold

/-- The bytes of a file; a directory has none. -/
def bytes? : Entry → Option ByteArray
  | file bytes => some bytes
  | directory _ => none

end Entry

namespace Workspace
open Entry

variable {α β : Type} {items : List (String × α)} {name path : String} {tree entry : Entry}
  {names : List String} {entries : List (String × Entry)}

/-! ## Sorting by name -/

theorem insertByName_perm (item : String × α) (items : List (String × α)) :
    (insertByName item items).Perm (item :: items) := by
  induction items with
  | nil => exact .refl _
  | cons other rest ih =>
      rw [insertByName]
      split_ifs
      · exact (ih.cons other).trans (.swap item other rest)
      · exact .refl _

theorem sortByName_perm (items : List (String × α)) : (sortByName items).Perm items := by
  induction items with
  | nil => exact .refl _
  | cons item rest ih => exact (insertByName_perm item (sortByName rest)).trans (ih.cons item)

theorem insertByName_increasing {item : String × α} (hitem : item.1 ∉ items.map (·.1))
    (h : items.Pairwise fun a b => a.1 < b.1) :
    (insertByName item items).Pairwise fun a b => a.1 < b.1 := by
  induction items with
  | nil => exact List.pairwise_singleton _ _
  | cons other rest ih =>
      obtain ⟨hfirst, hrest⟩ := List.pairwise_cons.mp h
      obtain ⟨hne, hnotMem⟩ : item.1 ≠ other.1 ∧ item.1 ∉ rest.map (·.1) := by
        simpa [not_or] using hitem
      rw [insertByName]
      split_ifs with hbefore
      · refine List.pairwise_cons.mpr ⟨?_, ih hnotMem hrest⟩
        intro b hb
        rcases List.mem_cons.mp ((insertByName_perm item rest).mem_iff.mp hb) with rfl | hb
        · exact hbefore
        · exact hfirst b hb
      · have hsmaller : item.1 < other.1 := Std.lt_of_le_of_ne (String.not_lt.mp hbefore) hne
        refine List.pairwise_cons.mpr ⟨?_, h⟩
        intro b hb
        rcases List.mem_cons.mp hb with rfl | hb
        · exact hsmaller
        · exact String.lt_trans hsmaller (hfirst b hb)

theorem sortByName_increasing (h : (items.map (·.1)).Nodup) :
    (sortByName items).Pairwise fun a b => a.1 < b.1 := by
  induction items with
  | nil => exact .nil
  | cons item rest ih =>
      obtain ⟨hitem, hrest⟩ := List.nodup_cons.mp h
      refine insertByName_increasing (fun hmem => hitem ?_) (ih hrest)
      exact ((sortByName_perm rest).map _).mem_iff.mp hmem

theorem insertByName_map (f : String × α → β) (item : String × α) (items : List (String × α)) :
    insertByName (item.1, f item) (items.map fun a => (a.1, f a)) =
      (insertByName item items).map fun a => (a.1, f a) := by
  induction items with
  | nil => rfl
  | cons other rest ih =>
      simp only [List.map_cons, insertByName, ih]
      split_ifs <;> rfl

/-- Only the names count for the order. -/
theorem sortByName_map (f : String × α → β) (items : List (String × α)) :
    sortByName (items.map fun a => (a.1, f a)) = (sortByName items).map fun a => (a.1, f a) := by
  induction items with
  | nil => rfl
  | cons item rest ih =>
      have hcons : sortByName ((item :: rest).map fun a => (a.1, f a)) =
          insertByName (item.1, f item) (sortByName (rest.map fun a => (a.1, f a))) := rfl
      rw [hcons, ih, insertByName_map]
      rfl

/-! ## The walk -/

theorem walks_eq (path : String) (entries : List (String × Entry)) :
    walks path entries =
      entries.map fun item => (item.1, walk (join path item.1) item.1 item.2) := by
  induction entries with
  | nil => rw [walks, List.map_nil]
  | cons item rest ih => rw [walks, ih, List.map_cons]

/-- A directory is visited before its entries, and these in the order of their names. -/
theorem walk_directory (path name : String) (entries : List (String × Entry)) :
    walk path name (.directory entries) = ⟨path, name, none⟩ ::
      (sortByName entries).flatMap fun item => walk (join path item.1) item.1 item.2 := by
  rw [walk, walks_eq, sortByName_map, List.flatMap_map]

/-- The path of what the names lead to from the directory at `path`, as it is shown. -/
def pathAt (path : String) (names : List String) : String := names.foldl join path

/-- The name of what the names lead to from an entry of a given name. -/
def nameAt (name : String) (names : List String) : String := names.getLast?.getD name

/-- The list holds what a property says, in the component-wise order of the names. -/
structure InPathOrder (P : List String → α → Prop) (items : List (List String × α)) : Prop where
  increasing : items.Pairwise fun a b => a.1 < b.1
  mem_iff : ∀ names a, (names, a) ∈ items ↔ P names a

theorem InPathOrder.forall_mem_iff {P Q : List String → α → Prop} {items : List (List String × α)}
    (h : InPathOrder P items) :
    (∀ item ∈ items, Q item.1 item.2) ↔ ∀ names a, P names a → Q names a := by
  simp only [Prod.forall, h.mem_iff]

/-- What a walk visits at a place below the directory at `path`. -/
def visitAt (path name : String) (item : List String × Entry) : Visit :=
  ⟨pathAt path item.1, nameAt name item.1, item.2.bytes?⟩

theorem visitAt_cons (path name first : String) (item : List String × Entry) :
    visitAt path name (first :: item.1, item.2) = visitAt (join path first) first item := by
  simp [visitAt, pathAt, nameAt, List.getLast?_cons]

/-- Walks through entries in the order of their names come to one list. -/
theorem exists_inPathOrder_entries (hentries : entries.Pairwise fun a b => a.1 < b.1)
    (hwalk : ∀ item ∈ entries, ∃ items, InPathOrder item.2.At items ∧
      ∀ path name, walk path name item.2 = items.map (visitAt path name)) :
    ∃ items, InPathOrder (fun names entry =>
        ∃ item ∈ entries, ∃ rest, names = item.1 :: rest ∧ item.2.At rest entry) items ∧
      ∀ path name, (entries.flatMap fun item => walk (join path item.1) item.1 item.2) =
        items.map (visitAt path name) := by
  induction entries with
  | nil => exact ⟨[], ⟨.nil, by simp⟩, by simp⟩
  | cons item rest ih =>
      obtain ⟨hfirst, hrest⟩ := List.pairwise_cons.mp hentries
      obtain ⟨hitem, hothers⟩ := List.forall_mem_cons.mp hwalk
      obtain ⟨inner, hinner, hwalkInner⟩ := hitem
      obtain ⟨later, hlater, hwalkLater⟩ := ih hrest hothers
      refine ⟨inner.map (fun a => (item.1 :: a.1, a.2)) ++ later, ⟨?_, ?_⟩, ?_⟩
      · rw [List.pairwise_append, List.pairwise_map]
        refine ⟨hinner.increasing.imp fun hlt => .cons hlt, hlater.increasing, ?_⟩
        intro a ha b hb
        obtain ⟨a, -, rfl⟩ := List.mem_map.mp ha
        obtain ⟨other, hother, names, hnames, -⟩ := (hlater.mem_iff b.1 b.2).mp hb
        rw [hnames]
        exact .rel (hfirst other hother)
      · intro names entry
        simp only [List.mem_append, hlater.mem_iff, List.mem_map, List.mem_cons, exists_eq_or_imp]
        refine or_congr_left ⟨?_, ?_⟩
        · rintro ⟨a, ha, hsame⟩
          cases hsame
          exact ⟨a.1, rfl, (hinner.mem_iff _ _).mp ha⟩
        · rintro ⟨names, rfl, hentry⟩
          exact ⟨(names, entry), (hinner.mem_iff _ _).mpr hentry, rfl⟩
      · intro path name
        rw [List.flatMap_cons, hwalkInner, hwalkLater path name, List.map_append, List.map_map]
        simp only [Function.comp_def, visitAt_cons]

/-- A walk visits what the tree holds in path order. -/
theorem exists_inPathOrder (htree : tree.Distinct) :
    ∃ items, InPathOrder tree.At items ∧
      ∀ path name, walk path name tree = items.map (visitAt path name) := by
  induction tree using tree_induction with
  | file bytes =>
      refine ⟨[([], .file bytes)], ⟨List.pairwise_singleton _ _, fun names entry => ?_⟩, ?_⟩
      · rw [List.mem_singleton, Prod.mk.injEq, at_file_iff]
      · intro path name
        rw [walk]
        rfl
  | directory entries ih =>
      obtain ⟨hnodup, hchildren⟩ := distinct_directory_iff.mp htree
      have hmem : ∀ item, item ∈ sortByName entries ↔ item ∈ entries :=
        fun item => (sortByName_perm entries).mem_iff
      obtain ⟨items, hitems, hwalk⟩ := exists_inPathOrder_entries (sortByName_increasing hnodup)
        fun item hitem => ih item ((hmem item).mp hitem) (hchildren item ((hmem item).mp hitem))
      refine ⟨([], .directory entries) :: items, ⟨List.pairwise_cons.mpr ⟨?_, hitems.increasing⟩,
        ?_⟩, ?_⟩
      · intro a ha
        obtain ⟨item, -, rest, hnames, -⟩ := (hitems.mem_iff a.1 a.2).mp ha
        rw [hnames]
        exact List.nil_lt_cons _ _
      · intro names entry
        rw [List.mem_cons, hitems.mem_iff, Prod.mk.injEq, at_directory_iff]
        simp only [hmem]
      · intro path name
        rw [walk_directory, hwalk path name, List.map_cons]
        rfl

/-! ## Names of rule files -/

/-- The name has the extension of rule files. A dot in front of a name starts no extension. -/
def HasRuleName (name : String) : Prop := ∃ stem, stem ≠ "" ∧ name = stem ++ ".rules"

theorem isRuleFileName_iff : isRuleFileName name = true ↔ HasRuleName name := by
  have hparts := List.takeWhile_append_dropWhile (p := (· != '.')) (l := name.toList.reverse)
  unfold isRuleFileName extension?
  constructor
  · intro h
    cases hdrop : name.toList.reverse.dropWhile (· != '.') with
    | nil => simp [hdrop] at h
    | cons dot stem =>
        cases stem with
        | nil => simp [hdrop] at h
        | cons c stem =>
            have hdot : dot = '.' := by
              have hne : name.toList.reverse.dropWhile (· != '.') ≠ [] := by simp [hdrop]
              simpa [hdrop] using List.head_dropWhile_not (· != '.') hne
            simp only [hdrop, beq_iff_eq, Option.some.injEq] at h
            have htake := congrArg String.toList h
            rw [String.toList_ofList] at htake
            refine ⟨.ofList (c :: stem).reverse, by simp, ?_⟩
            rw [String.ext_iff, ← List.reverse_reverse name.toList, ← hparts, List.reverse_append,
              htake, hdrop, hdot]
            simp
  · rintro ⟨stem, hstem, rfl⟩
    have hreversed : (stem ++ ".rules").toList.reverse =
        "selur".toList ++ '.' :: stem.toList.reverse := by simp
    have hstem' : stem.toList.reverse ≠ [] := by simpa using hstem
    rw [hreversed]
    cases hrest : stem.toList.reverse with
    | nil => exact absurd hrest hstem'
    | cons c rest => simp

/-! ## Reading in turn -/

/-- What reading comes to for what stands at a path. A directory cannot be read, and a file
has to hold text, and that text rules. -/
def reading (path : String) : Entry → Except LoadError (List Equation)
  | .directory _ => .error .isDirectory
  | .file bytes =>
      match String.fromUTF8? bytes with
      | none => .error .notText
      | some text => (RuleFile.parse path text).mapError .badRule

theorem readVisit_visitAt (path name : String) (item : List String × Entry) :
    readVisit (visitAt path name item) = reading (pathAt path item.1) item.2 := by
  obtain ⟨names, entry⟩ := item
  cases entry with
  | directory entries => rfl
  | file bytes =>
      unfold readVisit reading visitAt
      simp only [Entry.bytes?]
      cases String.fromUTF8? bytes with
      | none => rfl
      | some text =>
          simp only
          cases RuleFile.parse (pathAt path names) text <;> rfl

/-- What things that are read in turn come to: their number and their axioms one after the
other, or the first error. -/
inductive InTurn : List (Except LoadError (List Equation)) → Except LoadError Contents → Prop
  | done (parsed : List (List Equation)) :
      InTurn (parsed.map .ok) (.ok ⟨parsed.length, parsed.flatten⟩)
  | failed (parsed : List (List Equation)) (error : LoadError)
      (rest : List (Except LoadError (List Equation))) :
      InTurn (parsed.map .ok ++ .error error :: rest) (.error error)

theorem inTurn_readVisits (visits : List Visit) :
    InTurn (visits.map readVisit) (readVisits visits) := by
  induction visits with
  | nil => exact .done []
  | cons visit rest ih =>
      rw [List.map_cons, readVisits]
      cases readVisit visit with
      | error error => exact .failed [] error _
      | ok axioms =>
          generalize readVisits rest = outcome at ih
          generalize rest.map readVisit = results at ih
          cases ih with
          | done parsed => exact .done (axioms :: parsed)
          | failed parsed error rest => exact .failed (axioms :: parsed) error rest

variable {results : List (Except LoadError (List Equation))} {outcome : Except LoadError Contents}

theorem InTurn.exists_ok_iff (h : InTurn results outcome) :
    (∃ contents, outcome = .ok contents) ↔ ∀ result ∈ results, ∃ axioms, result = .ok axioms := by
  cases h with
  | done parsed => simp
  | failed parsed error rest =>
      constructor
      · rintro ⟨_, hok⟩
        cases hok
      · intro hall
        obtain ⟨_, hok⟩ := hall (.error error) (by simp)
        cases hok

/-! ## Loading -/

/-- The name of the directory at a path. -/
def rootName (path : String) : String := (components path).getLast?.getD ""

theorem fromUTF8?_toUTF8 (text : String) : String.fromUTF8? text.toUTF8 = some text := by
  rw [String.fromUTF8?, String.toUTF8_eq_toByteArray, dif_pos text.isValidUTF8]
  rfl

theorem reading_text (path text : String) :
    reading path (.file text.toUTF8) = (RuleFile.parse path text).mapError .badRule := by
  rw [reading, fromUTF8?_toUTF8]

variable {root : Entry}

theorem exists_mapError_ok_iff (path text : String) :
    (∃ axioms, (RuleFile.parse path text).mapError LoadError.badRule = .ok axioms) ↔
      ∃ axioms, RuleFile.parse path text = .ok axioms := by
  cases RuleFile.parse path text <;> simp [Except.mapError]

/-- Whatever bears the extension is read in turn. -/
theorem exists_marked (hroot : root.Distinct) (path : String) :
    ∃ marked, InPathOrder (fun names entry =>
        root.At names entry ∧ HasRuleName (nameAt (rootName path) names)) marked ∧
      InTurn (marked.map fun item => reading (pathAt path item.1) item.2)
        (load (some root) path) := by
  obtain ⟨items, hitems, hwalk⟩ := exists_inPathOrder hroot
  refine ⟨items.filter fun item => isRuleFileName (nameAt (rootName path) item.1),
    ⟨hitems.increasing.filter _, fun names entry => ?_⟩, ?_⟩
  · rw [List.mem_filter, hitems.mem_iff, isRuleFileName_iff]
  · have hload : load (some root) path = readVisits
        ((items.filter fun item => isRuleFileName (nameAt (rootName path) item.1)).map
          (visitAt path (rootName path))) := by
      have hvisits := hwalk path (rootName path)
      unfold rootName at hvisits
      simp only [load, hvisits, List.filter_map]
      rfl
    have hread := inTurn_readVisits
      ((items.filter fun item => isRuleFileName (nameAt (rootName path) item.1)).map
        (visitAt path (rootName path)))
    rw [hload]
    simpa only [List.map_map, Function.comp_def, readVisit_visitAt] using hread

/-- Files of text are known by their texts. -/
theorem InPathOrder.exists_texts {P : List String → Entry → Prop}
    {marked : List (List String × Entry)} (hmarked : InPathOrder P marked)
    (htexts : ∀ names entry, P names entry → ∃ text, entry = .file (String.toUTF8 text)) :
    ∃ files : List (List String × String),
      InPathOrder (fun names text => P names (.file text.toUTF8)) files ∧
        marked = files.map fun file => (file.1, .file file.2.toUTF8) := by
  have hrange : marked ∈ Set.range
      (List.map fun file : List String × String => (file.1, Entry.file file.2.toUTF8)) := by
    rw [Set.range_list_map]
    intro item hitem
    obtain ⟨text, htext⟩ := htexts item.1 item.2 ((hmarked.mem_iff _ _).mp hitem)
    exact ⟨(item.1, text), Prod.ext rfl htext.symm⟩
  obtain ⟨files, rfl⟩ := hrange
  have hincreasing := hmarked.increasing
  rw [List.pairwise_map] at hincreasing
  refine ⟨files, ⟨hincreasing, fun names text => ?_⟩, rfl⟩
  rw [← hmarked.mem_iff]
  refine (List.mem_map_of_injective ?_).symm
  rintro ⟨names, text⟩ ⟨names', text'⟩ hsame
  simp only [Prod.mk.injEq, Entry.file.injEq, String.toUTF8_eq_toByteArray,
    String.toByteArray_inj] at hsame
  exact Prod.ext hsame.1 hsame.2

/-- What a workspace is loaded from, in any tree. Whatever bears the extension of rule files
is read in path order, and loading comes to the number of these things and their axioms
one after the other, or to the error of the first that cannot be read. So it succeeds
exactly if all of them can be read, which no directory can. If no directory bears the
extension and the files that do hold text, these things are the rule files. -/
theorem load_spec {root : Entry} (hroot : root.Distinct) (path : String) :
    let named names := HasRuleName (nameAt (rootName path) names)
    (∃ marked, InPathOrder (fun names entry => root.At names entry ∧ named names) marked ∧
      ((∃ contents, load (some root) path = .ok contents) ↔
        ∀ names entry, root.At names entry → named names →
          ∃ axioms, reading (pathAt path names) entry = .ok axioms) ∧
      InTurn (marked.map fun item => reading (pathAt path item.1) item.2)
        (load (some root) path)) ∧
    ((∀ names entries, root.At names (.directory entries) → ¬ named names) →
      (∀ names bytes, root.At names (.file bytes) → named names →
        ∃ text, bytes = String.toUTF8 text) →
      ∃ files, InPathOrder (fun names text =>
          root.At names (.file (String.toUTF8 text)) ∧ named names) files ∧
        ((∃ contents, load (some root) path = .ok contents) ↔
          ∀ names text, root.At names (.file (String.toUTF8 text)) → named names →
            ∃ axioms, RuleFile.parse (pathAt path names) text = .ok axioms) ∧
        InTurn (files.map fun file => (RuleFile.parse (pathAt path file.1) file.2).mapError .badRule)
          (load (some root) path)) := by
  intro named
  obtain ⟨marked, hmarked, hturn⟩ := exists_marked hroot path
  refine ⟨⟨marked, hmarked, ?_, hturn⟩, ?_⟩
  · rw [hturn.exists_ok_iff, List.forall_mem_map, hmarked.forall_mem_iff
      (Q := fun names entry => ∃ axioms, reading (pathAt path names) entry = .ok axioms)]
    simp only [and_imp, named]
  · intro hdirectories htexts
    have hfile : ∀ names entry, root.At names entry ∧ named names →
        ∃ text, entry = .file (String.toUTF8 text) := by
      rintro names entry ⟨hentry, hnamed⟩
      cases entry with
      | directory entries => exact absurd hnamed (hdirectories names entries hentry)
      | file bytes =>
          obtain ⟨text, rfl⟩ := htexts names bytes hentry hnamed
          exact ⟨text, rfl⟩
    obtain ⟨files, hfiles, rfl⟩ := hmarked.exists_texts hfile
    simp only [List.map_map, Function.comp_def, reading_text] at hturn
    refine ⟨files, hfiles, ?_, hturn⟩
    rw [hturn.exists_ok_iff, List.forall_mem_map]
    simp only [exists_mapError_ok_iff]
    rw [hfiles.forall_mem_iff
      (Q := fun names text => ∃ axioms, RuleFile.parse (pathAt path names) text = .ok axioms)]
    simp only [and_imp, named]

/-- The names in a directory count before those of a file that starts like the directory. -/
theorem load_spec_nested :
    let root : Entry := .directory [("a.rules", .file (String.toUTF8 "c = d")),
      ("notes", .file (String.toUTF8 "=")),
      ("a", .directory [("x.rules", .file (String.toUTF8 "a = b"))])]
    let named names := HasRuleName (nameAt (rootName ".") names)
    root.Distinct ∧ (∀ names entries, root.At names (.directory entries) → ¬ named names) ∧
      (∀ names bytes, root.At names (.file bytes) → named names →
        ∃ text, bytes = String.toUTF8 text) ∧
      load (some root) "." = .ok ⟨2, [⟨["a"], ["b"]⟩, ⟨["c"], ["d"]⟩]⟩ ∧
      ∀ names text, root.At names (.file (String.toUTF8 text)) → named names →
        ∃ axioms, RuleFile.parse (pathAt "." names) text = .ok axioms := by
  intro root named
  have hroot : root.Distinct := by simp [root, distinct_directory_iff, distinct_file]
  have hdirectories : ∀ names entries, root.At names (.directory entries) → ¬ named names := by
    intro names entries h hnamed
    simp only [root, at_directory_iff, at_file_iff, List.mem_cons, List.not_mem_nil, or_false,
      exists_eq_or_imp, reduceCtorEq, and_false, exists_const, ↓existsAndEq, exists_eq_left,
      true_and, false_or] at h
    obtain ⟨rfl, -⟩ | ⟨rfl, -⟩ := h
    · exact absurd (isRuleFileName_iff.mpr hnamed) (by decide)
    · exact absurd (isRuleFileName_iff.mpr hnamed) (by decide)
  have htexts : ∀ names bytes, root.At names (.file bytes) → named names →
      ∃ text, bytes = String.toUTF8 text := by
    intro names bytes h _
    simp only [root, at_directory_iff, at_file_iff, List.mem_cons, List.not_mem_nil, or_false,
      exists_eq_or_imp, reduceCtorEq, and_false, ↓existsAndEq, exists_eq_left, true_and,
      false_or, Entry.file.injEq] at h
    obtain ⟨-, rfl⟩ | ⟨-, rfl⟩ | ⟨-, rfl⟩ := h
    · exact ⟨"c = d", rfl⟩
    · exact ⟨"=", rfl⟩
    · exact ⟨"a = b", rfl⟩
  have hload : load (some root) "." = .ok ⟨2, [⟨["a"], ["b"]⟩, ⟨["c"], ["d"]⟩]⟩ := by
    decide +kernel
  obtain ⟨files, -, hok, -⟩ := (load_spec hroot ".").2 hdirectories htexts
  exact ⟨hroot, hdirectories, htexts, hload, hok.mp ⟨_, hload⟩⟩

/-- A directory that bears the extension keeps a workspace from being loaded, although all
its rule files can be read. -/
theorem directory_not_loaded :
    let root : Entry := .directory [("a.rules", .file (String.toUTF8 "a = b\n")),
      ("x.rules", .directory [])]
    root.Distinct ∧
      (∀ names text, root.At names (.file (String.toUTF8 text)) →
        HasRuleName (nameAt (rootName ".") names) →
        ∃ axioms, RuleFile.parse (pathAt "." names) text = .ok axioms) ∧
      load (some root) "." = .error .isDirectory := by
  intro root
  have hroot : root.Distinct := by simp [root, distinct_directory_iff, distinct_file]
  refine ⟨hroot, ?_, by decide +kernel⟩
  intro names text h _
  simp only [root, at_directory_iff, at_file_iff, List.mem_cons, List.not_mem_nil, or_false,
    exists_eq_or_imp, reduceCtorEq, and_false, false_and, exists_const, ↓existsAndEq, true_and,
    false_or, Entry.file.injEq, String.toUTF8_eq_toByteArray, String.toByteArray_inj] at h
  obtain ⟨rfl, rfl⟩ := h
  exact ⟨[⟨["a"], ["b"]⟩], by decide⟩

end Workspace

end ThueProver
