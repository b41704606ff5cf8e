import Mathlib.Data.List.Nodup
import Mathlib.Data.List.Perm.Basic
import Mathlib.Data.List.Sort
import Mathlib.Tactic.Common
import ThueProver.Frontier

/-!
# The pending list of a frontier

A frontier ranks its states in a tree, and its pending list is read off by
arrival. Every operation is described here by what it does to this list and to
the set of pairs met: entering appends, pushing appends the states whose pairs
are new, and popping takes out the state that leads. Which state leads is a
property of the list and the order alone. Numbers of arrival and the shape of
the trees therefore never matter, which is why a frontier can be restored from
its pending list.
-/
namespace ThueProver
open Std

section Maps
variable {α β : Type} {cmp : α → α → Ordering}

open DTreeMap.Internal in
theorem head?_toListModel (t : Impl α fun _ => β) :
    (t.toListModel.map fun e => (e.1, e.2)).head? = Impl.Const.minEntry? t := by
  induction t using Impl.Const.minEntry?.induct_unfolding with
  | case1 => simp
  | case2 => simp
  | case3 size k v r size' k' v' l' r' ih => simpa using ih

theorem minEntry?_eq_head? (m : TreeMap α β cmp) : m.minEntry? = m.toList.head? := by
  have h := head?_toListModel m.inner.inner
  rw [← DTreeMap.Internal.Impl.Const.toList_eq_toListModel_map] at h
  exact h.symm

theorem values_eq_map_toList (m : TreeMap α β cmp) : m.values = m.toList.map (·.2) := by
  have h : m.values = m.foldr (fun _ v l => v :: l) [] := rfl
  rw [h, TreeMap.foldr_eq_foldr_toList]
  induction m.toList with
  | nil => rfl
  | cons a l ih => simp [ih]

/-- A list in strictly increasing order of some key is known by its members. -/
theorem eq_of_increasing {key : α → Nat} {l l' : List α}
    (h : l.Pairwise fun a b => key a < key b) (h' : l'.Pairwise fun a b => key a < key b)
    (hmem : ∀ x, x ∈ l ↔ x ∈ l') : l = l' := by
  have : Irrefl fun a b : α => key a < key b := ⟨fun _ => Nat.lt_irrefl _⟩
  have : Antisymm fun a b : α => key a < key b :=
    ⟨fun _ _ hab hba => absurd hba (Nat.lt_asymm hab)⟩
  exact h.eq_of_mem_iff h' hmem

end Maps

instance : LawfulEqCmp Rank.order where
  eq_of_compare {a b} h := by
    simp only [compareLex, compareOn, Ordering.then_eq_eq, Nat.compare_eq_eq] at h
    obtain ⟨hleft, hright, harrival⟩ := h
    cases a
    cases b
    simp_all

instance : LawfulEqCmp pairOrder where
  eq_of_compare {a b} h := by
    simp only [compareLex, compareOn, Ordering.then_eq_eq, Nat.compare_eq_eq] at h
    exact Prod.ext h.1 h.2

/-- The pair of `s` is larger than that of `t`, the left product counting first. -/
def State.Outranks (s t : State) : Prop :=
  t.left < s.left ∨ t.left = s.left ∧ t.right < s.right

namespace Frontier

/-- The place of a state that arrives under a number. -/
def rankAt (order : FrontierOrder) (s : State) (arrival : Nat) : Rank :=
  match order with
  | .largestFirst => ⟨s.left, s.right, arrival⟩
  | .breadthFirst => ⟨0, 0, arrival⟩

theorem rank_eq (f : Frontier) (s : State) : f.rank s = rankAt f.order s f.arrivals := by
  unfold rank rankAt
  cases f.order <;> rfl

@[simp] theorem rankAt_arrival (order : FrontierOrder) (s : State) (arrival : Nat) :
    (rankAt order s arrival).arrival = arrival := by
  cases order <;> rfl

/-- Waiting states have the places they got on arrival, under different numbers. -/
structure Valid (f : Frontier) : Prop where
  rank : ∀ (r : Rank) s, f.waiting[r]? = some s → r = rankAt f.order s r.arrival
  early : ∀ (r : Rank) s, f.waiting[r]? = some s → r.arrival < f.arrivals
  distinct : ∀ (r : Rank) s (r' : Rank) s', f.waiting[r]? = some s → f.waiting[r']? = some s' →
    r.arrival = r'.arrival → r = r'

theorem valid_empty (order : FrontierOrder) : Valid { order } := by
  constructor <;> intro r s <;> simp

/-- The pending states with their numbers, in increasing order. -/
def entries (f : Frontier) : List (Nat × State) :=
  (TreeMap.ofList (f.waiting.toList.map fun (rank, s) => (rank.arrival, s))).toList

theorem pending_eq (f : Frontier) : f.pending = f.entries.map (·.2) :=
  values_eq_map_toList _

theorem entries_increasing (f : Frontier) : f.entries.Pairwise fun a b => a.1 < b.1 := by
  have h := TreeMap.ordered_keys_toList
    (t := TreeMap.ofList (f.waiting.toList.map fun (rank, s) => (rank.arrival, s)))
  exact h.imp fun hab => Nat.compare_eq_lt.mp hab

/-- No two waiting states have the same number. -/
theorem Valid.distinct_arrivals {f : Frontier} (h : f.Valid) :
    (f.waiting.toList.map fun (rank, s) => (rank.arrival, s)).Pairwise
      fun a b => ¬ compare a.1 b.1 = .eq := by
  rw [List.pairwise_map]
  refine TreeMap.distinct_keys_toList.imp_of_mem ?_
  rintro ⟨r, s⟩ ⟨r', s'⟩ hr hr' hne heq
  have hsame := h.distinct r s r' s' (TreeMap.mem_toList_iff_getElem?_eq_some.mp hr)
    (TreeMap.mem_toList_iff_getElem?_eq_some.mp hr') (Nat.compare_eq_eq.mp heq)
  exact hne (by rw [hsame]; exact ReflCmp.compare_self)

theorem length_pending {f : Frontier} (h : f.Valid) : f.pending.length = f.size := by
  rw [pending_eq, List.length_map, entries, TreeMap.length_toList,
    TreeMap.size_ofList h.distinct_arrivals, List.length_map, TreeMap.length_toList, size]

theorem mem_entries {f : Frontier} (h : f.Valid) {a : Nat} {s : State} :
    (a, s) ∈ f.entries ↔ ∃ r : Rank, f.waiting[r]? = some s ∧ r.arrival = a := by
  have hmem : ∀ a s, (a, s) ∈ f.waiting.toList.map (fun (rank, s) => (rank.arrival, s)) ↔
      ∃ r : Rank, f.waiting[r]? = some s ∧ r.arrival = a := by
    intro a s
    constructor
    · intro hin
      obtain ⟨⟨r, t⟩, hr, heq⟩ := List.mem_map.mp hin
      cases heq
      exact ⟨r, TreeMap.mem_toList_iff_getElem?_eq_some.mp hr, rfl⟩
    · rintro ⟨r, hr, rfl⟩
      exact List.mem_map.mpr ⟨(r, s), TreeMap.mem_toList_iff_getElem?_eq_some.mpr hr, rfl⟩
  have hdistinct := h.distinct_arrivals
  unfold entries
  rw [TreeMap.mem_toList_iff_getElem?_eq_some, ← hmem]
  constructor
  · intro hget
    have hkey : a ∈ (f.waiting.toList.map fun (rank, s) => (rank.arrival, s)).map Prod.fst := by
      by_contra hno
      rw [TreeMap.getElem?_ofList_of_contains_eq_false (by simpa using hno)] at hget
      cases hget
    obtain ⟨⟨a', s'⟩, hin, rfl⟩ := List.mem_map.mp hkey
    rw [TreeMap.getElem?_ofList_of_mem ReflCmp.compare_self hdistinct hin] at hget
    cases hget
    exact hin
  · intro hin
    exact TreeMap.getElem?_ofList_of_mem ReflCmp.compare_self hdistinct hin

theorem entries_eq {f : Frontier} (h : f.Valid) {l : List (Nat × State)}
    (hl : l.Pairwise fun a b => a.1 < b.1)
    (hmem : ∀ a s, (a, s) ∈ l ↔ ∃ r : Rank, f.waiting[r]? = some s ∧ r.arrival = a) :
    f.entries = l := by
  refine eq_of_increasing f.entries_increasing hl ?_
  rintro ⟨a, s⟩
  rw [mem_entries h, hmem]

theorem pending_empty (order : FrontierOrder) : pending { order } = [] := by
  rw [pending_eq, entries_eq (valid_empty order) List.Pairwise.nil, List.map_nil]
  intro a s
  simp

theorem getElem?_enter (f : Frontier) (s : State) (r : Rank) :
    (f.enter s).waiting[r]? = if f.rank s = r then some s else f.waiting[r]? := by
  simp only [enter, TreeMap.getElem?_insert, LawfulEqCmp.compare_eq_iff_eq]

theorem Valid.enter {f : Frontier} (h : f.Valid) (s : State) : (f.enter s).Valid := by
  have hrank : f.rank s = rankAt f.order s f.arrivals := f.rank_eq s
  refine ⟨?_, ?_, ?_⟩
  · intro r t hr
    rw [getElem?_enter] at hr
    split_ifs at hr with heq
    · cases hr
      rw [← heq, hrank, rankAt_arrival]
      rfl
    · exact h.rank r t hr
  · intro r t hr
    rw [getElem?_enter] at hr
    split_ifs at hr with heq
    · rw [← heq, hrank, rankAt_arrival]
      exact Nat.lt_succ_self _
    · exact Nat.lt_succ_of_lt (h.early r t hr)
  · intro r t r' t' hr hr' harrival
    rw [getElem?_enter] at hr hr'
    split_ifs at hr hr' with heq heq' heq'
    · exact heq.symm.trans heq'
    · have hearly := h.early r' t' hr'
      rw [← harrival, ← heq, hrank, rankAt_arrival] at hearly
      exact absurd hearly (Nat.lt_irrefl _)
    · have hearly := h.early r t hr
      rw [harrival, ← heq', hrank, rankAt_arrival] at hearly
      exact absurd hearly (Nat.lt_irrefl _)
    · exact h.distinct r t r' t' hr hr' harrival

theorem entries_enter {f : Frontier} (h : f.Valid) (s : State) :
    (f.enter s).entries = f.entries ++ [(f.arrivals, s)] := by
  have hfresh : ∀ t, f.waiting[f.rank s]? ≠ some t := by
    intro t ht
    have hearly := h.early _ t ht
    rw [rank_eq, rankAt_arrival] at hearly
    exact absurd hearly (Nat.lt_irrefl _)
  refine entries_eq (h.enter s) ?_ ?_
  · refine List.pairwise_append.mpr ⟨f.entries_increasing, List.pairwise_singleton _ _, ?_⟩
    rintro ⟨a, t⟩ ht b hb
    rw [List.mem_singleton.mp hb]
    obtain ⟨r, hr, rfl⟩ := (mem_entries h).mp ht
    exact h.early r t hr
  · intro a t
    rw [List.mem_append, mem_entries h, List.mem_singleton, Prod.mk.injEq]
    constructor
    · rintro (⟨r, hr, rfl⟩ | ⟨rfl, rfl⟩)
      · refine ⟨r, ?_, rfl⟩
        rw [getElem?_enter, if_neg]
        · exact hr
        · rintro rfl
          exact hfresh t hr
      · exact ⟨f.rank t, by simp [getElem?_enter], by rw [rank_eq, rankAt_arrival]⟩
    · rintro ⟨r, hr, rfl⟩
      rw [getElem?_enter] at hr
      split_ifs at hr with heq
      · cases hr
        exact .inr ⟨by rw [← heq, rank_eq, rankAt_arrival], rfl⟩
      · exact .inl ⟨r, hr, rfl⟩

/-- A state that enters comes last. -/
theorem pending_enter {f : Frontier} (h : f.Valid) (s : State) :
    (f.enter s).pending = f.pending ++ [s] := by
  rw [pending_eq, entries_enter h, pending_eq, List.map_append]
  rfl

/-- The state between `before` and `after` is taken up next. -/
def Leads (order : FrontierOrder) (before : List State) (s : State) (after : List State) : Prop :=
  match order with
  | .largestFirst => (∀ t ∈ before, s.Outranks t) ∧ ∀ t ∈ after, ¬ t.Outranks s
  | .breadthFirst => before = []

theorem leads_of_least {order : FrontierOrder} {before after : List (Nat × State)} {a : Nat}
    {s : State} (hbefore : ∀ b ∈ before, b.1 < a)
    (hleast : ∀ b ∈ before ++ after,
      (Rank.order (rankAt order s a) (rankAt order b.2 b.1)).isLE) :
    Leads order (before.map (·.2)) s (after.map (·.2)) := by
  cases order with
  | breadthFirst =>
      cases before with
      | nil => rfl
      | cons b rest =>
          have hlate := hbefore b List.mem_cons_self
          have hle := hleast b (by simp)
          simp [rankAt, compareLex, compareOn, Nat.isLE_compare] at hle
          omega
  | largestFirst =>
      have hcompare : ∀ b ∈ before ++ after, s.Outranks b.2 ∨
          b.2.left = s.left ∧ b.2.right = s.right ∧ a ≤ b.1 := by
        intro b hb
        have hle := hleast b hb
        simp only [rankAt, compareLex, compareOn] at hle
        rcases Nat.lt_trichotomy b.2.left s.left with hleft | hleft | hleft
        · exact .inl (.inl hleft)
        · rcases Nat.lt_trichotomy b.2.right s.right with hright | hright | hright
          · exact .inl (.inr ⟨hleft, hright⟩)
          · rw [hleft, hright] at hle
            simp [Nat.isLE_compare] at hle
            exact .inr ⟨hleft, hright, hle⟩
          · rw [hleft, Nat.compare_eq_gt.mpr hright] at hle
            simp at hle
        · rw [Nat.compare_eq_gt.mpr hleft] at hle
          simp at hle
      constructor
      · intro t ht
        obtain ⟨b, hb, rfl⟩ := List.mem_map.mp ht
        have hlate := hbefore b hb
        rcases hcompare b (List.mem_append_left _ hb) with hout | ⟨-, -, hle⟩
        · exact hout
        · omega
      · intro t ht hout
        obtain ⟨b, hb, rfl⟩ := List.mem_map.mp ht
        unfold State.Outranks at hcompare hout
        have hcases := hcompare b (List.mem_append_right _ hb)
        omega

theorem pop?_eq_none {f : Frontier} (h : f.Valid) (hpop : f.pop? = none) : f.pending = [] := by
  unfold pop? at hpop
  split at hpop
  next hmin =>
    rw [minEntry?_eq_head?, List.head?_eq_none_iff] at hmin
    rw [pending_eq, entries_eq h List.Pairwise.nil, List.map_nil]
    intro a s
    simp only [List.not_mem_nil, false_iff]
    rintro ⟨r, hr, -⟩
    have hin := TreeMap.mem_toList_iff_getElem?_eq_some.mpr hr
    rw [hmin] at hin
    exact List.not_mem_nil hin
  · cases hpop

/-- The least place is taken out, and nothing else changes. -/
theorem pop?_eq_some {f g : Frontier} {s : State} (hpop : f.pop? = some (s, g)) :
    ∃ rank, f.waiting[rank]? = some s ∧ g = { f with waiting := f.waiting.erase rank } ∧
      ∀ r t, f.waiting[r]? = some t → (Rank.order rank r).isLE := by
  unfold pop? at hpop
  split at hpop
  · cases hpop
  next rank least hmin =>
  cases hpop
  rw [minEntry?_eq_head?, List.head?_eq_some_iff] at hmin
  obtain ⟨rest, hlist⟩ := hmin
  have hsorted := TreeMap.ordered_keys_toList (t := f.waiting)
  rw [hlist, List.pairwise_cons] at hsorted
  refine ⟨rank, ?_, rfl, ?_⟩
  · rw [← TreeMap.mem_toList_iff_getElem?_eq_some, hlist]
    exact List.mem_cons_self
  · intro r t hr
    rw [← TreeMap.mem_toList_iff_getElem?_eq_some, hlist] at hr
    rcases List.mem_cons.mp hr with heq | hr
    · cases heq
      have hself : Rank.order rank rank = .eq := ReflCmp.compare_self
      rw [hself]
      rfl
    · rw [hsorted.1 _ hr]
      rfl

theorem Valid.erase {f : Frontier} (h : f.Valid) (rank : Rank) :
    Valid { f with waiting := f.waiting.erase rank } := by
  have hold : ∀ (r : Rank) s, (f.waiting.erase rank)[r]? = some s → f.waiting[r]? = some s := by
    intro r s hr
    rw [TreeMap.getElem?_erase] at hr
    split_ifs at hr
    exact hr
  exact ⟨fun r s hr => h.rank r s (hold r s hr), fun r s hr => h.early r s (hold r s hr),
    fun r s r' s' hr hr' => h.distinct r s r' s' (hold r s hr) (hold r' s' hr')⟩

/-- Popping takes the leading state out of the pending list and leaves the pairs
met as they are. -/
theorem pop?_spec {f g : Frontier} (h : f.Valid) {s : State} (hpop : f.pop? = some (s, g)) :
    g.Valid ∧ g.order = f.order ∧ g.seen = f.seen ∧
      ∃ before after, f.pending = before ++ s :: after ∧ g.pending = before ++ after ∧
        Leads f.order before s after := by
  obtain ⟨rank, hrank, rfl, hleast⟩ := pop?_eq_some hpop
  have hvalid := h.erase rank
  refine ⟨hvalid, rfl, rfl, ?_⟩
  obtain ⟨before, after, hentries⟩ := List.append_of_mem ((mem_entries h).mpr ⟨rank, hrank, rfl⟩)
  have hincreasing := f.entries_increasing
  rw [hentries, List.pairwise_append, List.pairwise_cons] at hincreasing
  obtain ⟨hbefore, ⟨hafter, hrest⟩, hcross⟩ := hincreasing
  have hothers : ∀ b ∈ before ++ after, b.1 ≠ rank.arrival ∧
      (Rank.order (rankAt f.order s rank.arrival) (rankAt f.order b.2 b.1)).isLE := by
    rintro ⟨a, t⟩ hb
    have hin : (a, t) ∈ f.entries := by
      rw [hentries]
      rcases List.mem_append.mp hb with hb | hb <;> simp [hb]
    obtain ⟨r, hr, rfl⟩ := (mem_entries h).mp hin
    refine ⟨?_, ?_⟩
    · rcases List.mem_append.mp hb with hb | hb
      · exact Nat.ne_of_lt (hcross _ hb _ List.mem_cons_self)
      · exact Nat.ne_of_gt (hafter _ hb)
    · rw [← h.rank rank s hrank, ← h.rank r t hr]
      exact hleast r t hr
  have herased : entries { f with waiting := f.waiting.erase rank } = before ++ after := by
    refine entries_eq hvalid ?_ ?_
    · exact List.pairwise_append.mpr ⟨hbefore, hrest,
        fun a ha b hb => hcross a ha b (List.mem_cons_of_mem _ hb)⟩
    · intro a t
      constructor
      · intro hb
        have hin : (a, t) ∈ f.entries := by
          rw [hentries]
          rcases List.mem_append.mp hb with hb | hb <;> simp [hb]
        obtain ⟨r, hr, rfl⟩ := (mem_entries h).mp hin
        refine ⟨r, ?_, rfl⟩
        rw [TreeMap.getElem?_erase, if_neg]
        · exact hr
        · intro heq
          rw [LawfulEqCmp.compare_eq_iff_eq] at heq
          exact (hothers _ hb).1 (by rw [heq])
      · rintro ⟨r, hr, rfl⟩
        rw [TreeMap.getElem?_erase] at hr
        split_ifs at hr with hne
        have hin := (mem_entries h).mpr ⟨r, hr, rfl⟩
        rw [hentries, List.mem_append, List.mem_cons] at hin
        rcases hin with hin | hin | hin
        · exact List.mem_append_left _ hin
        · refine absurd ?_ hne
          rw [h.distinct rank s r t hrank hr (congrArg Prod.fst hin).symm]
          exact ReflCmp.compare_self
        · exact List.mem_append_right _ hin
  refine ⟨before.map (·.2), after.map (·.2), ?_, ?_, ?_⟩
  · rw [pending_eq, hentries, List.map_append, List.map_cons]
  · rw [pending_eq, herased, List.map_append]
  · exact leads_of_least (fun b hb => hcross b hb _ List.mem_cons_self) fun b hb => (hothers b hb).2

/-- Only one state of a list leads. -/
theorem Leads.unique {order : FrontierOrder} {before after before' after' : List State}
    {s s' : State} (h : Leads order before s after) (h' : Leads order before' s' after')
    (heq : before ++ s :: after = before' ++ s' :: after') :
    before = before' ∧ s = s' ∧ after = after' := by
  cases order with
  | breadthFirst =>
      cases (h : before = [])
      cases (h' : before' = [])
      simpa using heq
  | largestFirst =>
      rcases List.append_eq_append_iff.mp heq with ⟨gap, hgap, hrest⟩ | ⟨gap, hgap, hrest⟩
      · cases gap with
        | nil =>
            simp only [List.nil_append, List.cons.injEq] at hrest
            exact ⟨by simpa using hgap.symm, hrest.1, hrest.2⟩
        | cons t gap =>
            obtain ⟨rfl, hafter⟩ := List.cons.inj hrest
            have hout := h'.1 s (by simp [hgap])
            have hin := h.2 s' (by rw [hafter]; exact List.mem_append_right gap List.mem_cons_self)
            exact absurd hout hin
      · cases gap with
        | nil =>
            simp only [List.nil_append, List.cons.injEq] at hrest
            exact ⟨by simpa using hgap, hrest.1.symm, hrest.2.symm⟩
        | cons t gap =>
            obtain ⟨rfl, hafter⟩ := List.cons.inj hrest
            have hout := h.1 s' (by simp [hgap])
            have hin := h'.2 s (by rw [hafter]; exact List.mem_append_right gap List.mem_cons_self)
            exact absurd hout hin

theorem mem_seen_enter (f : Frontier) (s : State) (k : Nat × Nat) :
    k ∈ (f.enter s).seen ↔ s.key = k ∨ k ∈ f.seen := by
  simp only [enter, TreeSet.mem_insert, LawfulEqCmp.compare_eq_iff_eq]

theorem push_of_seen {f : Frontier} {s : State} (h : s.key ∈ f.seen) : f.push s = (false, f) := by
  unfold push
  rw [if_pos (TreeSet.contains_iff_mem.mpr h)]

theorem push_of_unseen {f : Frontier} {s : State} (h : s.key ∉ f.seen) :
    f.push s = (true, f.enter s) := by
  unfold push
  rw [if_neg fun hcontains => h (TreeSet.contains_iff_mem.mp hcontains)]

theorem pushAll_cons_of_seen {f : Frontier} {s : State} (h : s.key ∈ f.seen) (rest : List State) :
    f.pushAll (s :: rest) = (⟨(f.pushAll rest).1.pushed, (f.pushAll rest).1.duplicates + 1⟩,
      (f.pushAll rest).2) := by
  simp [pushAll, push_of_seen h]

theorem pushAll_cons_of_unseen {f : Frontier} {s : State} (h : s.key ∉ f.seen)
    (rest : List State) :
    f.pushAll (s :: rest) =
      (⟨((f.enter s).pushAll rest).1.pushed + 1, ((f.enter s).pushAll rest).1.duplicates⟩,
        ((f.enter s).pushAll rest).2) := by
  simp [pushAll, push_of_unseen h]

/-- What a batch does to a frontier: of its states those enter, in turn, whose
pairs are met for the first time, and all its pairs have been met afterwards. -/
structure Pushed (f : Frontier) (batch : List State) (count : PushCount) (g : Frontier)
    (new : List State) : Prop where
  valid : g.Valid
  order : g.order = f.order
  pending : g.pending = f.pending ++ new
  sublist : new.Sublist batch
  pushed : count.pushed = new.length
  total : count.pushed + count.duplicates = batch.length
  nodup : (new.map State.key).Nodup
  unseen : ∀ t ∈ new, t.key ∉ f.seen
  seen : ∀ k, k ∈ g.seen ↔ k ∈ f.seen ∨ ∃ t ∈ new, t.key = k
  met : ∀ t ∈ batch, t.key ∈ g.seen

theorem pushAll_spec {f : Frontier} (h : f.Valid) (batch : List State) :
    ∃ new, Pushed f batch (f.pushAll batch).1 (f.pushAll batch).2 new := by
  induction batch generalizing f with
  | nil => exact ⟨[], h, rfl, by simp [pushAll], .slnil, rfl, rfl, List.nodup_nil, by simp,
      by simp [pushAll], by simp⟩
  | cons s rest ih =>
      by_cases hseen : s.key ∈ f.seen
      · obtain ⟨new, hnew⟩ := ih h
        have htotal := hnew.total
        rw [pushAll_cons_of_seen hseen]
        refine ⟨new, hnew.valid, hnew.order, hnew.pending, hnew.sublist.cons s, hnew.pushed, ?_,
          hnew.nodup, hnew.unseen, hnew.seen, ?_⟩
        · rw [List.length_cons, ← htotal]
          rfl
        · intro t ht
          rcases List.mem_cons.mp ht with rfl | ht
          · exact (hnew.seen _).mpr (.inl hseen)
          · exact hnew.met t ht
      · obtain ⟨new, hnew⟩ := ih (h.enter s)
        have htotal := hnew.total
        have hpushed := hnew.pushed
        rw [pushAll_cons_of_unseen hseen]
        have hmet : ∀ k, k ∈ ((f.enter s).pushAll rest).2.seen ↔
            k ∈ f.seen ∨ ∃ t ∈ s :: new, t.key = k := by
          intro k
          rw [hnew.seen, mem_seen_enter]
          simp only [List.mem_cons, exists_eq_or_imp]
          tauto
        refine ⟨s :: new, hnew.valid, hnew.order, ?_, hnew.sublist.cons_cons s, ?_, ?_, ?_, ?_,
          hmet, ?_⟩
        · rw [hnew.pending, pending_enter h, List.append_assoc]
          rfl
        · rw [List.length_cons, ← hpushed]
        · rw [List.length_cons, ← htotal]
          exact Nat.add_right_comm _ _ _
        · rw [List.map_cons, List.nodup_cons]
          refine ⟨?_, hnew.nodup⟩
          intro hkey
          obtain ⟨t, ht, heq⟩ := List.mem_map.mp hkey
          exact hnew.unseen t ht ((mem_seen_enter f s _).mpr (.inl heq.symm))
        · intro t ht hk
          rcases List.mem_cons.mp ht with rfl | ht
          · exact hseen hk
          · exact hnew.unseen t ht ((mem_seen_enter f s _).mpr (.inr hk))
        · intro t ht
          rcases List.mem_cons.mp ht with rfl | ht
          · exact (hmet _).mpr (.inr ⟨t, List.mem_cons_self, rfl⟩)
          · exact hnew.met t ht

theorem pushAll_append (f : Frontier) (xs ys : List State) :
    f.pushAll (xs ++ ys) =
      (⟨(f.pushAll xs).1.pushed + ((f.pushAll xs).2.pushAll ys).1.pushed,
        (f.pushAll xs).1.duplicates + ((f.pushAll xs).2.pushAll ys).1.duplicates⟩,
        ((f.pushAll xs).2.pushAll ys).2) := by
  induction xs generalizing f with
  | nil => simp [pushAll]
  | cons s rest ih =>
      by_cases hseen : s.key ∈ f.seen
      · simp only [List.cons_append, pushAll_cons_of_seen hseen, ih, Prod.mk.injEq,
          PushCount.mk.injEq]
        exact ⟨⟨trivial, by omega⟩, trivial⟩
      · simp only [List.cons_append, pushAll_cons_of_unseen hseen, ih, Prod.mk.injEq,
          PushCount.mk.injEq]
        exact ⟨⟨by omega, trivial⟩, trivial⟩

theorem foldl_enter_spec {f : Frontier} (h : f.Valid) (states : List State) :
    (states.foldl enter f).Valid ∧ (states.foldl enter f).order = f.order ∧
      (states.foldl enter f).pending = f.pending ++ states ∧
      ∀ k, k ∈ (states.foldl enter f).seen ↔ k ∈ f.seen ∨ ∃ t ∈ states, t.key = k := by
  induction states generalizing f with
  | nil => exact ⟨h, rfl, by simp, by simp⟩
  | cons s rest ih =>
      obtain ⟨hvalid, horder, hpending, hseen⟩ := ih (h.enter s)
      refine ⟨hvalid, horder, ?_, ?_⟩
      · rw [List.foldl_cons, hpending, pending_enter h, List.append_assoc]
        rfl
      · intro k
        rw [List.foldl_cons, hseen, mem_seen_enter]
        simp only [List.mem_cons, exists_eq_or_imp]
        tauto

/-- A restored frontier has the given states pending, in the given order. -/
theorem restore_spec (order : FrontierOrder) (states : List State) (visited : List (Nat × Nat)) :
    (restore order states visited).Valid ∧ (restore order states visited).order = order ∧
      (restore order states visited).pending = states ∧
      ∀ k, k ∈ (restore order states visited).seen ↔ (∃ t ∈ states, t.key = k) ∨ k ∈ visited := by
  obtain ⟨hvalid, horder, hpending, hseen⟩ := foldl_enter_spec (valid_empty order) states
  refine ⟨⟨hvalid.rank, hvalid.early, hvalid.distinct⟩, horder, ?_, ?_⟩
  · rw [pending_empty, List.nil_append] at hpending
    exact hpending
  · intro k
    unfold restore
    rw [TreeSet.mem_insertMany_list, hseen]
    simp

/-- The frontiers differ in numbers of arrival at most. -/
structure Alike (f g : Frontier) : Prop where
  valid_left : f.Valid
  valid_right : g.Valid
  order : f.order = g.order
  pending : f.pending = g.pending
  seen : ∀ k, k ∈ f.seen ↔ k ∈ g.seen

theorem Alike.refl {f : Frontier} (h : f.Valid) : Alike f f := ⟨h, h, rfl, rfl, fun _ => Iff.rfl⟩

theorem Alike.symm {f g : Frontier} (h : Alike f g) : Alike g f :=
  ⟨h.valid_right, h.valid_left, h.order.symm, h.pending.symm, fun k => (h.seen k).symm⟩

theorem Alike.visited {f g : Frontier} (h : Alike f g) : f.visited = g.visited :=
  TreeSet.Equiv.toList_eq (TreeSet.Equiv.of_forall_mem_iff h.seen)

theorem Alike.enter {f g : Frontier} (h : Alike f g) (s : State) :
    Alike (f.enter s) (g.enter s) where
  valid_left := h.valid_left.enter s
  valid_right := h.valid_right.enter s
  order := h.order
  pending := by rw [pending_enter h.valid_left, pending_enter h.valid_right, h.pending]
  seen k := by rw [mem_seen_enter, mem_seen_enter, h.seen]

theorem Alike.pushAll {f g : Frontier} (h : Alike f g) (batch : List State) :
    (f.pushAll batch).1 = (g.pushAll batch).1 ∧
      Alike (f.pushAll batch).2 (g.pushAll batch).2 := by
  induction batch generalizing f g with
  | nil => exact ⟨rfl, h⟩
  | cons s rest ih =>
      by_cases hseen : s.key ∈ f.seen
      · obtain ⟨hcount, halike⟩ := ih h
        rw [pushAll_cons_of_seen hseen, pushAll_cons_of_seen ((h.seen _).mp hseen), hcount]
        exact ⟨rfl, halike⟩
      · obtain ⟨hcount, halike⟩ := ih (h.enter s)
        rw [pushAll_cons_of_unseen hseen,
          pushAll_cons_of_unseen fun hg => hseen ((h.seen _).mpr hg), hcount]
        exact ⟨rfl, halike⟩

theorem Alike.pop?_none {f g : Frontier} (h : Alike f g) (hpop : f.pop? = none) :
    g.pop? = none := by
  cases hg : g.pop? with
  | none => rfl
  | some popped =>
      obtain ⟨-, -, -, before, after, hpending, -⟩ := pop?_spec h.valid_right hg
      rw [← h.pending, pop?_eq_none h.valid_left hpop] at hpending
      exact absurd hpending (by simp)

/-- Frontiers that are alike hand out the same state and are alike again. -/
theorem Alike.pop?_some {f g f' : Frontier} (h : Alike f g) {s : State}
    (hpop : f.pop? = some (s, f')) : ∃ g', g.pop? = some (s, g') ∧ Alike f' g' := by
  obtain ⟨hvalid, horder, hseen, before, after, hpending, hpending', hleads⟩ :=
    pop?_spec h.valid_left hpop
  cases hg : g.pop? with
  | none =>
      rw [h.symm.pop?_none hg] at hpop
      cases hpop
  | some popped =>
      obtain ⟨hvalid₂, horder₂, hseen₂, before₂, after₂, hpending₂, hpending₂', hleads₂⟩ :=
        pop?_spec h.valid_right hg
      rw [← h.order] at hleads₂
      obtain ⟨rfl, rfl, rfl⟩ := hleads.unique hleads₂ (by rw [← hpending, ← hpending₂, h.pending])
      refine ⟨popped.2, rfl, hvalid, hvalid₂, ?_, ?_, ?_⟩
      · rw [horder, horder₂, h.order]
      · rw [hpending', hpending₂']
      · intro k
        rw [hseen, hseen₂, h.seen]

/-- A frontier and the one restored from its pending list and the pairs it has met,
however these are listed, are alike, provided the pending pairs have been met. -/
theorem alike_restore_of_mem_iff {f : Frontier} (h : f.Valid)
    (hmet : ∀ t ∈ f.pending, t.key ∈ f.seen) {visited : List (Nat × Nat)}
    (hvisited : ∀ k, k ∈ visited ↔ k ∈ f.seen) :
    Alike f (restore f.order f.pending visited) := by
  obtain ⟨hvalid, horder, hpending, hseen⟩ := restore_spec f.order f.pending visited
  refine ⟨h, hvalid, horder.symm, hpending.symm, ?_⟩
  intro k
  rw [hseen, hvisited]
  constructor
  · exact .inr
  · rintro (⟨t, ht, rfl⟩ | hk)
    · exact hmet t ht
    · exact hk

theorem mem_visited {f : Frontier} {k : Nat × Nat} : k ∈ f.visited ↔ k ∈ f.seen :=
  TreeSet.mem_toList

theorem alike_restore {f : Frontier} (h : f.Valid) (hmet : ∀ t ∈ f.pending, t.key ∈ f.seen) :
    Alike f (restore f.order f.pending f.visited) :=
  alike_restore_of_mem_iff h hmet fun _ => mem_visited

/-- The frontier takes up its states in this order, and has met the pair of each. -/
structure Tracked (order : FrontierOrder) (f : Frontier) : Prop where
  valid : f.Valid
  order_eq : f.order = order
  met : ∀ t ∈ f.pending, t.key ∈ f.seen

variable {order : FrontierOrder} {f g : Frontier} {state : State}

theorem Tracked.enter (h : f.Tracked order) (state : State) : (f.enter state).Tracked order := by
  refine ⟨h.valid.enter state, h.order_eq, ?_⟩
  intro t ht
  rw [pending_enter h.valid, List.mem_append, List.mem_singleton] at ht
  rw [mem_seen_enter]
  rcases ht with ht | rfl
  · exact .inr (h.met t ht)
  · exact .inl rfl

theorem Tracked.pushAll (h : f.Tracked order) (batch : List State) :
    (f.pushAll batch).2.Tracked order := by
  obtain ⟨new, hnew⟩ := pushAll_spec h.valid batch
  refine ⟨hnew.valid, hnew.order.trans h.order_eq, ?_⟩
  intro t ht
  rw [hnew.pending] at ht
  rw [hnew.seen]
  rcases List.mem_append.mp ht with hold | hin
  · exact .inl (h.met t hold)
  · exact .inr ⟨t, hin, rfl⟩

theorem Tracked.pop (h : f.Tracked order) (hpop : f.pop? = some (state, g)) : g.Tracked order := by
  obtain ⟨hvalid, horder, hseen, before, after, hpending, hrest, -⟩ := pop?_spec h.valid hpop
  refine ⟨hvalid, horder.trans h.order_eq, ?_⟩
  intro t ht
  rw [hseen]
  apply h.met
  rw [hrest] at ht
  rw [hpending]
  rcases List.mem_append.mp ht with ht | ht <;> simp [ht]

theorem tracked_restore (order : FrontierOrder) (pending : List State)
    (visited : List (Nat × Nat)) : (restore order pending visited).Tracked order := by
  obtain ⟨hvalid, horder, hpending, hseen⟩ := restore_spec order pending visited
  refine ⟨hvalid, horder, ?_⟩
  intro t ht
  exact (hseen _).mpr (.inl ⟨t, hpending ▸ ht, rfl⟩)

theorem tracked_empty (order : FrontierOrder) : Tracked order { order } := by
  refine ⟨valid_empty order, rfl, ?_⟩
  rw [pending_empty]
  simp

/-- The frontier a search starts with. -/
theorem tracked_push (order : FrontierOrder) (state : State) :
    (Frontier.push { order } state).2.Tracked order := by
  have hpushed := (tracked_empty order).pushAll [state]
  have hunseen : state.key ∉ ({ order } : Frontier).seen := by simp
  rw [pushAll_cons_of_unseen hunseen] at hpushed
  rwa [push_of_unseen hunseen]

end Frontier

end ThueProver
