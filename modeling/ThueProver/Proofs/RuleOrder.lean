import Mathlib
import ThueProver.Proofs.BatchOrder
import ThueProver.Proofs.Justification

/-!
# The order of the rules does not matter to a search of largest pairs first

Two searches run side by side on theorems of equal products, with rules that have
the same products in another order. What is seen of a state is its pair, the
length of its proof and the pairs its proof leads through; the labels of the steps
are not. The children of states that look alike are the same lists of views up to
their order, and of each pair the frontier takes one. Therefore the pending states
of both searches stay the same views up to their order.

The least place in a frontier of largest pairs first belongs to the largest
pending pair, and no pair is pending twice. So numbers of arrival, in which both
searches differ, decide nothing: both take up states that look alike, and count
the same.
-/
namespace ThueProver

/-- The products of both sides. -/
def CodedEquation.products (e : CodedEquation) : Nat × Nat := (e.left, e.right)

/-- What is seen of a state but for the labels of the steps on its proof. The trail
has the pairs that its proof leads through, from the root on. -/
structure View where
  pair : Nat × Nat
  length : Nat
  trail : List (Option (Nat × Nat))
  deriving DecidableEq, Repr

/-- How a child with this pair looks. -/
def View.child (v : View) (pair : Nat × Nat) : View where
  pair
  length := v.length + 1
  trail := v.trail ++ [some pair]

namespace State

/-- The pair that a step with a rule of these products leads to. -/
def pairAfter (pair products : Nat × Nat) (op : Opcode) : Option (Nat × Nat) :=
  (move? ⟨pair.1, pair.2, []⟩ op ⟨⟨products.1, products.2, default, false⟩, 0⟩).map key

theorem key_move? (s : State) (op : Opcode) (rule : Rule) :
    (s.move? op rule).map key = pairAfter s.key rule.products op := by
  have hadmits : s.admits op rule =
      admits ⟨s.key.1, s.key.2, []⟩ op ⟨⟨rule.products.1, rule.products.2, default, false⟩, 0⟩ := by
    cases op with
    | mk side direction => cases side <;> cases direction <;> rfl
  unfold pairAfter move?
  rw [hadmits]
  split
  · cases op with
    | mk side direction => cases side <;> cases direction <;> rfl
  · rfl

theorem outranks_congr {s t u : State} (h : s.key = t.key) :
    s.Outranks u ↔ t.Outranks u := by
  obtain ⟨hleft, hright⟩ := Prod.mk.inj h
  unfold Outranks
  rw [hleft, hright]

theorem key_eq_of_not_outranks {s t : State} (hst : ¬ s.Outranks t) (hts : ¬ t.Outranks s) :
    s.key = t.key := by
  unfold Outranks at hst hts
  apply Prod.ext
  · show s.left = t.left
    omega
  · show s.right = t.right
    omega

end State

namespace Context

/-- The pairs that steps lead through, from the root on. -/
def trail (c : Context) (steps : List Step) : List (Option (Nat × Nat)) :=
  steps.inits.map fun path => (c.book.follow? (.root c.goal) path).map State.key

def view (c : Context) (s : State) : View where
  pair := s.key
  length := s.proof.length
  trail := c.trail s.proof

@[simp] theorem view_root (c : Context) :
    c.view (.root c.goal) = ⟨c.goal.products, 0, [some c.goal.products]⟩ := rfl

/-- The theorems have the same products, and the rules have the same products in
another order. -/
structure Rearranges (c c' : Context) : Prop where
  goal : c.goal.products = c'.goal.products
  rules : (c.book.rules.map (·.products)).Perm (c'.book.rules.map (·.products))

variable {c c' : Context} {s t : State}

theorem Derives.justifies (hnumbered : c.book.Numbered) (h : c.Derives s) : c.Justifies s := by
  induction h with
  | root => exact justifies_root c
  | child _ _ ht ih =>
      obtain ⟨rule, hrule, op, hmove⟩ := mem_children.mp ht
      exact ih.move hnumbered hrule hmove

/-- A child looks as its parent and its own pair tell. -/
theorem view_child (hnumbered : c.book.Numbered) (hs : c.Derives s) (ht : t ∈ c.children s) :
    c.view t = (c.view s).child t.key := by
  obtain ⟨rule, hrule, op, hmove⟩ := mem_children.mp ht
  have hfollowed := ((hs.justifies hnumbered).move hnumbered hrule hmove).followed
  have hproof : t.proof = s.proof ++ [⟨op, rule.id⟩] := by
    obtain ⟨-, rfl⟩ := State.move?_eq_some.mp hmove
    rfl
  have htrail : c.trail t.proof = c.trail s.proof ++ [some t.key] := by
    rw [hproof] at hfollowed ⊢
    simp [trail, List.inits_append, hfollowed]
  unfold view View.child
  rw [htrail, hproof, List.length_append]
  rfl

/-- The pairs of the children depend on the pair of the state and on the products
of the rules. -/
theorem keys_children (c : Context) (s : State) :
    (c.children s).map State.key = (c.book.rules.map (·.products)).flatMap fun products =>
      Opcode.all.filterMap (State.pairAfter s.key products) := by
  unfold children moves
  induction c.book.rules with
  | nil => rfl
  | cons rule rest ih =>
      have hops : ((Opcode.all.filter (s.admits · rule)).filterMap (s.move? · rule)).map State.key =
          Opcode.all.filterMap (State.pairAfter s.key rule.products) := by
        rw [List.filterMap_filter, List.map_filterMap]
        apply List.filterMap_congr
        intro op _
        rw [← State.key_move?]
        unfold State.move?
        split <;> rfl
      rw [List.map_cons, List.flatMap_cons, ← hops, ← ih, List.filterMap_cons]
      unfold State.childrenOf
      cases hnone : (Opcode.all.filter (s.admits · rule)).isEmpty with
      | true => simp [List.isEmpty_iff.mp hnone]
      | false => simp [hnone]

theorem isTerminal_of_view (hst : c.view s = c'.view t) : s.isTerminal = t.isTerminal :=
  State.isTerminal_congr (congrArg View.pair hst)

/-- Which of two states is the better one can be told from how they look. -/
theorem betters_of_view {u v : State} (hst : c.view s = c'.view t) (huv : c.view u = c'.view v) :
    s.betters u = t.betters v := by
  obtain ⟨hleft, hright⟩ := Prod.mk.inj (congrArg View.pair hst : s.key = t.key)
  obtain ⟨hleft', hright'⟩ := Prod.mk.inj (congrArg View.pair huv : u.key = v.key)
  have hlength : s.proof.length = t.proof.length := congrArg View.length hst
  have hlength' : u.proof.length = v.proof.length := congrArg View.length huv
  unfold State.betters State.sharedBits
  rw [hleft, hright, hleft', hright', hlength, hlength']

/-- States that look alike have children of the same pairs, up to their order. -/
theorem keys_children_perm (h : c.Rearranges c') (hst : c.view s = c'.view t) :
    ((c.children s).map State.key).Perm ((c'.children t).map State.key) := by
  have hkey : s.key = t.key := congrArg View.pair hst
  rw [keys_children, keys_children, hkey]
  exact h.rules.flatMap_right _

theorem length_children_eq (h : c.Rearranges c') (hst : c.view s = c'.view t) :
    (c.children s).length = (c'.children t).length := by
  have hlength := (keys_children_perm h hst).length_eq
  rwa [List.length_map, List.length_map] at hlength

end Context

namespace Frontier
variable {c c' : Context} {f g : Frontier}

/-- Both frontiers hold the same views, in any order, and have met the same pairs. -/
structure Mirrors (c c' : Context) (f g : Frontier) : Prop where
  pending : (f.pending.map c.view).Perm (g.pending.map c'.view)
  seen : ∀ k, k ∈ f.seen ↔ k ∈ g.seen

theorem pending_perm_of_pop? (h : f.Valid) {s : State} {f' : Frontier}
    (hpop : f.pop? = some (s, f')) : f.pending.Perm (s :: f'.pending) := by
  obtain ⟨-, -, -, before, after, hpending, hrest, -⟩ := pop?_spec h hpop
  rw [hpending, hrest]
  exact List.perm_middle

/-- No pending pair is larger than the one that is popped. -/
theorem not_outranks_of_pop? (h : f.Valid) (horder : f.order = .largestFirst) {s : State}
    {f' : Frontier} (hpop : f.pop? = some (s, f')) : ∀ u ∈ f.pending, ¬ u.Outranks s := by
  obtain ⟨-, -, -, before, after, hpending, -, hleads⟩ := pop?_spec h hpop
  rw [horder] at hleads
  intro u hu hout
  rw [hpending] at hu
  cases List.mem_append.mp hu with
  | inl hbefore =>
      have hless := hleads.1 u hbefore
      unfold State.Outranks at hless hout
      omega
  | inr hin =>
      cases List.mem_cons.mp hin with
      | inl hself =>
          rw [hself] at hout
          unfold State.Outranks at hout
          omega
      | inr hafter => exact hleads.2 u hafter hout

theorem Mirrors.exists_alike (h : f.Mirrors c c' g) {s : State} (hs : s ∈ f.pending) :
    ∃ t ∈ g.pending, c'.view t = c.view s :=
  List.mem_map.mp (h.pending.mem_iff.mp (List.mem_map_of_mem hs))

theorem Mirrors.symm (h : f.Mirrors c c' g) : g.Mirrors c' c f :=
  ⟨h.pending.symm, fun k => (h.seen k).symm⟩

theorem Mirrors.pop?_none (h : f.Mirrors c c' g) (hf : f.Valid) (hg : g.Valid)
    (hpop : f.pop? = none) : g.pop? = none := by
  cases hnext : g.pop? with
  | none => rfl
  | some popped =>
      have hlength := h.pending.length_eq
      have hlength' := (pending_perm_of_pop? hg hnext).length_eq
      simp [pop?_eq_none hf hpop, hlength'] at hlength

/-- The states that are popped look alike, and so do those that stay. -/
theorem Mirrors.pop (h : f.Mirrors c c' g) {taken taken' : List State} (hf : f.Met c taken)
    (hg : g.Met c' taken') (horder : f.order = .largestFirst) (horder' : g.order = .largestFirst)
    {s t : State} {f' g' : Frontier} (hs : f.pop? = some (s, f')) (ht : g.pop? = some (t, g')) :
    c.view s = c'.view t ∧ f'.Mirrors c c' g' := by
  have hperm := pending_perm_of_pop? hf.valid hs
  have hperm' := pending_perm_of_pop? hg.valid ht
  obtain ⟨u, hu, hus⟩ := h.exists_alike (hperm.mem_iff.mpr List.mem_cons_self)
  obtain ⟨v, hv, hvt⟩ := h.symm.exists_alike (hperm'.mem_iff.mpr List.mem_cons_self)
  have hukey : u.key = s.key := congrArg View.pair hus
  have hvkey : v.key = t.key := congrArg View.pair hvt
  have hkey : s.key = t.key := by
    apply State.key_eq_of_not_outranks
    · rw [← State.outranks_congr hukey]
      exact not_outranks_of_pop? hg.valid horder' ht u hu
    · rw [← State.outranks_congr hvkey]
      exact not_outranks_of_pop? hf.valid horder hs v hv
  -- Among the states of the second frontier no other one has this pair.
  have hsame : u = t := by
    apply List.inj_on_of_nodup_map hg.nodup
    · exact List.mem_append_right _ hu
    · exact List.mem_append_right _ (hperm'.mem_iff.mpr List.mem_cons_self)
    · exact hukey.trans hkey
  have hview : c.view s = c'.view t := by rw [← hsame, hus]
  refine ⟨hview, ?_, ?_⟩
  · have hrest := ((hperm.map c.view).symm.trans h.pending).trans (hperm'.map c'.view)
    rw [List.map_cons, List.map_cons, hview] at hrest
    exact (List.perm_cons _).mp hrest
  · intro k
    rw [(pop?_spec hf.valid hs).2.2.1, (pop?_spec hg.valid ht).2.2.1]
    exact h.seen k

/-- The pairs that a batch brings in are those that were not met before. -/
theorem Pushed.mem_keys {batch new : List State} {count : PushCount}
    (h : Pushed f batch count g new) (k : Nat × Nat) :
    k ∈ new.map State.key ↔ k ∈ batch.map State.key ∧ k ∉ f.seen := by
  rw [List.mem_map, List.mem_map]
  constructor
  · intro hk
    obtain ⟨t, ht, rfl⟩ := hk
    exact ⟨⟨t, h.sublist.subset ht, rfl⟩, h.unseen t ht⟩
  · intro hk
    obtain ⟨⟨t, ht, rfl⟩, hunseen⟩ := hk
    cases (h.seen t.key).mp (h.met t ht) with
    | inl hseen => exact absurd hseen hunseen
    | inr hnew => exact hnew

/-- Batches of the same pairs, in any order, bring in states that look alike if the
pair of a state in them tells how it looks. -/
theorem Mirrors.pushAll (h : f.Mirrors c c' g) (hf : f.Valid) (hg : g.Valid)
    {batch batch' : List State} (hbatch : (batch.map State.key).Perm (batch'.map State.key))
    {look : Nat × Nat → View} (hlook : ∀ t ∈ batch, c.view t = look t.key)
    (hlook' : ∀ t ∈ batch', c'.view t = look t.key) :
    (f.pushAll batch).1 = (g.pushAll batch').1 ∧
      (f.pushAll batch).2.Mirrors c c' (g.pushAll batch').2 := by
  obtain ⟨new, hnew⟩ := pushAll_spec hf batch
  obtain ⟨new', hnew'⟩ := pushAll_spec hg batch'
  have hkeys : (new.map State.key).Perm (new'.map State.key) := by
    rw [List.perm_ext_iff_of_nodup hnew.nodup hnew'.nodup]
    intro k
    rw [hnew.mem_keys, hnew'.mem_keys, hbatch.mem_iff, h.seen]
  have hviews : new.map c.view = (new.map State.key).map look := by
    rw [List.map_map]
    exact List.map_congr_left fun t ht => hlook t (hnew.sublist.subset ht)
  have hviews' : new'.map c'.view = (new'.map State.key).map look := by
    rw [List.map_map]
    exact List.map_congr_left fun t ht => hlook' t (hnew'.sublist.subset ht)
  have hlength := hbatch.length_eq
  have hlength' := hkeys.length_eq
  simp only [List.length_map] at hlength hlength'
  have hpushed := hnew.pushed
  have hpushed' := hnew'.pushed
  have htotal := hnew.total
  have htotal' := hnew'.total
  refine ⟨?_, ?_, ?_⟩
  · have hcounts : (f.pushAll batch).1.pushed = (g.pushAll batch').1.pushed := by omega
    have hcounts' : (f.pushAll batch).1.duplicates = (g.pushAll batch').1.duplicates := by omega
    cases hcount : (f.pushAll batch).1
    cases hcount' : (g.pushAll batch').1
    rw [hcount, hcount'] at hcounts hcounts'
    exact congrArg₂ _ hcounts hcounts'
  · rw [hnew.pending, hnew'.pending, List.map_append, List.map_append, hviews, hviews']
    exact h.pending.append (hkeys.map look)
  · intro k
    have hmem : (∃ t ∈ new, t.key = k) ↔ ∃ t ∈ new', t.key = k := by
      rw [← List.mem_map, ← List.mem_map, hkeys.mem_iff]
    rw [hnew.seen, hnew'.seen, h.seen, hmem]

end Frontier

/-- How an event looks. -/
def SearchEvent.view (c : Context) : SearchEvent → View ⊕ StopReason
  | .candidate s => .inl (c.view s)
  | .stopped reason => .inr reason

namespace Search
variable {c c' : Context} {s t s' t' : Search}

/-- Both searches look alike and have counted the same, each in its own context. -/
structure Mirrors (c c' : Context) (s t : Search) : Prop where
  context : s.context = c
  context' : t.context = c'
  limits : s.limits = t.limits
  frontier : s.frontier.Mirrors c c' t.frontier
  rejections : s.rejections = t.rejections
  stats : s.stats = t.stats
  best : s.best.map c.view = t.best.map c'.view
  cancelled : s.cancelled = t.cancelled
  elapsedMs : s.elapsedMs = t.elapsedMs
  stopped : s.stopped = t.stopped

theorem Mirrors.ending (h : Mirrors c c' s t) : s.stopped.or s.spent? = t.stopped.or t.spent? := by
  unfold spent?
  rw [h.stopped, h.cancelled, h.limits, h.stats, h.elapsedMs]

theorem Mirrors.stop (h : Mirrors c c' s t) (reason : StopReason) :
    Mirrors c c' (s.stop reason) (t.stop reason) :=
  { h with stopped := rfl }

/-- What is popped on both sides looks alike. -/
theorem Mirrors.popped (h : Mirrors c c' s t) {taken taken' : List State} (hs : s.Explored taken)
    (ht : t.Explored taken') (horder : s.limits.frontierOrder = .largestFirst)
    {state state' : State} {f g : Frontier} (hpop : s.frontier.pop? = some (state, f))
    (hpop' : t.frontier.pop? = some (state', g)) :
    c.view state = c'.view state' ∧ f.Mirrors c c' g := by
  apply h.frontier.pop (h.context ▸ hs.toMet) (h.context' ▸ ht.toMet) _ _ hpop hpop'
  · rw [hs.order, horder]
  · rw [ht.order, ← h.limits, horder]

theorem Mirrors.observe (h : Mirrors c c' s t) {f g : Frontier} (hfrontier : f.Mirrors c c' g)
    {state state' : State} (hview : c.view state = c'.view state') :
    Mirrors c c' ({ s with frontier := f }.observe state)
      ({ t with frontier := g }.observe state') := by
  have hbest := h.best
  refine { h with frontier := hfrontier, stats := ?_, best := ?_ }
  · simp only [Search.observe, h.stats]
  · unfold Search.observe
    cases hs : s.best with
    | none =>
        cases ht : t.best with
        | none => simp [hview]
        | some old' => simp [hs, ht] at hbest
    | some old =>
        cases ht : t.best with
        | none => simp [hs, ht] at hbest
        | some old' =>
            simp only [hs, ht, Option.map_some, Option.some.injEq] at hbest
            simp only [Context.betters_of_view hview hbest]
            split <;> simp [hview, hbest]

section
variable (hc : c.Rearranges c') (hbook : c.book.Numbered) (hbook' : c'.book.Numbered)
include hc hbook hbook'

/-- The children may enter in any order on either side. -/
theorem Mirrors.absorb (h : Mirrors c c' s t) (hs : s.frontier.Valid) (ht : t.frontier.Valid)
    {state state' : State} (hstate : c.Derives state) (hstate' : c'.Derives state')
    (hview : c.view state = c'.view state') {batch batch' : List State}
    (hbatch : batch.Perm (c.children state)) (hbatch' : batch'.Perm (c'.children state')) :
    Mirrors c c' (s.absorb batch) (t.absorb batch') := by
  have hkeys := ((hbatch.map State.key).trans (Context.keys_children_perm hc hview)).trans
    (hbatch'.map State.key).symm
  obtain ⟨hcount, hfrontier⟩ := h.frontier.pushAll hs ht hkeys
    (fun u hu => Context.view_child hbook hstate (hbatch.mem_iff.mp hu))
    (fun u hu => hview ▸ Context.view_child hbook' hstate' (hbatch'.mem_iff.mp hu))
  refine { h with frontier := hfrontier, stats := ?_ }
  simp only [Search.absorb, h.stats, hcount, hbatch.length_eq, hbatch'.length_eq,
    Context.length_children_eq hc hview]

/-- The same becomes of states that look alike. -/
theorem Mirrors.treated (h : Mirrors c c' s t) (hs : s.frontier.Valid) (ht : t.frontier.Valid)
    {state state' : State} (hstate : c.Derives state) (hstate' : c'.Derives state')
    (hview : c.view state = c'.view state') {worker worker' : Worker}
    (hheld : worker.SameLoad worker') {event event' : Option SearchEvent}
    (hone : Treated worker s state s' event) (hother : Treated worker' t state' t' event') :
    Mirrors c c' s' t' ∧ event.map (·.view c) = event'.map (·.view c') := by
  have hterminal := Context.isTerminal_of_view hview
  have hlength := Context.length_children_eq hc hview
  have hnil : c.children state = [] ↔ c'.children state' = [] := by
    rw [← List.length_eq_zero_iff, hlength, List.length_eq_zero_iff]
  obtain rfl := h.context
  obtain rfl := h.context'
  cases hone with
  | candidate hequal =>
      cases hother with
      | candidate _ =>
          refine ⟨{ h with stats := ?_ }, ?_⟩
          · simp only [countCandidate, h.stats]
          · simp only [Option.map_some, SearchEvent.view, hview]
      | stuck hopen | refused hopen | grown hopen => simp [hequal, hopen] at hterminal
  | stuck hopen hnone =>
      cases hother with
      | candidate hequal => simp [hequal, hopen] at hterminal
      | stuck _ _ => exact ⟨h, rfl⟩
      | refused _ hsome | grown _ hsome => exact absurd (hnil.mp hnone) hsome
  | refused hopen hsome hfull =>
      rw [h.limits, hlength, show worker.inFlight = worker'.inFlight from hheld] at hfull
      cases hother with
      | candidate hequal => simp [hequal, hopen] at hterminal
      | stuck _ hnone => exact absurd (hnil.mpr hnone) hsome
      | refused _ _ _ =>
          refine ⟨{ h with rejections := ?_, stats := ?_ }, rfl⟩
          · simp only [reject, h.rejections, hlength]
          · simp only [reject, h.stats, hlength]
      | grown _ _ hroom => exact absurd hroom hfull
  | grown hopen hsome hroom =>
      rw [h.limits, hlength, show worker.inFlight = worker'.inFlight from hheld] at hroom
      cases hother with
      | candidate hequal => simp [hequal, hopen] at hterminal
      | stuck _ hnone => exact absurd (hnil.mpr hnone) hsome
      | refused _ _ hfull => exact absurd hroom hfull
      | grown _ _ _ =>
          have hcounted : Mirrors s.context t.context
              { s with stats := { s.stats with expanded := s.stats.expanded + 1 } }
              { t with stats := { t.stats with expanded := t.stats.expanded + 1 } } :=
            { h with stats := by simp only [h.stats] }
          exact ⟨hcounted.absorb hc hbook hbook' hs ht hstate hstate' hview
            (childrenIn_perm worker s state) (childrenIn_perm worker' t state'), rfl⟩

/-- Steps on searches that look alike come to events that look alike. -/
theorem Mirrors.step (h : Mirrors c c' s t) {taken taken' : List State} (hs : s.Explored taken)
    (ht : t.Explored taken') (horder : s.limits.frontierOrder = .largestFirst)
    {worker worker' : Worker} (hheld : worker.SameLoad worker')
    {event event' : Option SearchEvent} (hone : s.Stepped worker s' event)
    (hother : t.Stepped worker' t' event') :
    Mirrors c c' s' t' ∧ event.map (·.view c) = event'.map (·.view c') := by
  have hending := h.ending
  cases hone with
  | stopped reason hreason =>
      rw [hreason] at hending
      cases hother with
      | stopped _ hreason' =>
          cases hending.trans hreason'
          exact ⟨h.stop reason, rfl⟩
      | exhausted hgo' | treated hgo' => cases hending.trans hgo'
  | exhausted hgo hpop =>
      rw [hgo] at hending
      cases hother with
      | stopped _ hreason' => cases hending.trans hreason'
      | exhausted _ _ => exact ⟨h.stop .exhausted, rfl⟩
      | treated _ hpop' _ => cases (h.frontier.pop?_none hs.valid ht.valid hpop).symm.trans hpop'
  | treated hgo hpop hone =>
      rw [hgo] at hending
      cases hother with
      | stopped _ hreason' => cases hending.trans hreason'
      | exhausted _ hpop' =>
          cases (h.frontier.symm.pop?_none ht.valid hs.valid hpop').symm.trans hpop
      | treated _ hpop' hother =>
          obtain ⟨hview, hfrontier⟩ := h.popped hs ht horder hpop hpop'
          exact (h.observe hfrontier hview).treated hc hbook hbook'
            (Frontier.pop?_spec hs.valid hpop).1 (Frontier.pop?_spec ht.valid hpop').1
            (h.context ▸ hs.derives_popped hpop) (h.context' ▸ ht.derives_popped hpop')
            hview hheld hone hother

end

/-- Searches that look alike and were explored from their roots. -/
structure Abreast (c c' : Context) (s t : Search) : Prop extends Mirrors c c' s t where
  explored : ∃ taken, s.Explored taken
  explored' : ∃ taken, t.Explored taken
  order : s.limits.frontierOrder = .largestFirst

theorem Abreast.step (h : Abreast c c' s t) (hc : c.Rearranges c') {worker worker' : Worker}
    (hheld : worker.SameLoad worker') :
    Abreast c c' (s.step worker).2.1 (t.step worker').2.1 ∧
      (s.step worker).2.2.map (·.view c) = (t.step worker').2.2.map (·.view c') := by
  obtain ⟨taken, hs⟩ := h.explored
  obtain ⟨taken', ht⟩ := h.explored'
  have hone := hs.stepped worker
  have hother := ht.stepped worker'
  obtain ⟨hmirrors, hevents⟩ := h.toMirrors.step hc (h.context ▸ hs.prepared.numbered)
    (h.context' ▸ ht.prepared.numbered) hs ht h.order hheld hone hother
  exact ⟨⟨hmirrors, ⟨_, hs.step hone⟩, ⟨_, ht.step hother⟩, (step_limits worker s) ▸ h.order⟩,
    hevents⟩

theorem Abreast.flagged (h : Abreast c c' s t) (cancelled : Bool) :
    Abreast c c' { s with cancelled } { t with cancelled } := by
  obtain ⟨taken, hs⟩ := h.explored
  obtain ⟨taken', ht⟩ := h.explored'
  exact ⟨{ h.toMirrors with cancelled := rfl }, ⟨taken, hs.flagged cancelled s.elapsedMs⟩,
    ⟨taken', ht.flagged cancelled t.elapsedMs⟩, h.order⟩

theorem Abreast.wait (h : Abreast c c' s t) (ms : Nat) : Abreast c c' (s.wait ms) (t.wait ms) := by
  obtain ⟨taken, hs⟩ := h.explored
  obtain ⟨taken', ht⟩ := h.explored'
  have helapsed : s.elapsedMs + ms = t.elapsedMs + ms := by rw [h.elapsedMs]
  exact ⟨{ h.toMirrors with elapsedMs := helapsed },
    ⟨taken, hs.flagged s.cancelled (s.elapsedMs + ms)⟩,
    ⟨taken', ht.flagged t.cancelled (t.elapsedMs + ms)⟩, h.order⟩

theorem Abreast.restored (h : Abreast c c' s t) : Abreast c c' s.restored t.restored := by
  obtain ⟨taken, hs⟩ := h.explored
  obtain ⟨taken', ht⟩ := h.explored'
  have hone := hs.alike_restored
  have hother := ht.alike_restored
  have hfrontier : s.restored.frontier.Mirrors c c' t.restored.frontier := by
    constructor
    · rw [← hone.pending, ← hother.pending]
      exact h.frontier.pending
    · intro k
      rw [← hone.seen, ← hother.seen, h.frontier.seen]
  exact ⟨⟨h.context, h.context', h.limits, hfrontier, rfl, h.stats, h.best, rfl, rfl, rfl⟩,
    ⟨taken, hs.restored⟩, ⟨taken', ht.restored⟩, h.order⟩

/-- The next state to be taken up looks the same on both sides. -/
theorem Abreast.upNext? (h : Abreast c c' s t) :
    s.upNext?.map c.view = t.upNext?.map c'.view := by
  obtain ⟨taken, hs⟩ := h.explored
  obtain ⟨taken', ht⟩ := h.explored'
  have hending := h.ending
  cases hgo : s.stopped.or s.spent? with
  | some reason =>
      rw [hgo] at hending
      rw [upNext?_of_stopped hgo, upNext?_of_stopped hending.symm]
      rfl
  | none =>
      rw [hgo] at hending
      cases hpop : s.frontier.pop? with
      | none =>
          have hpop' := h.frontier.pop?_none hs.valid ht.valid hpop
          rw [upNext?_of_empty hgo hpop, upNext?_of_empty hending.symm hpop']
          rfl
      | some popped =>
          cases hpop' : t.frontier.pop? with
          | none => cases (h.frontier.symm.pop?_none ht.valid hs.valid hpop').symm.trans hpop
          | some popped' =>
              rw [upNext?_of_popped hgo hpop, upNext?_of_popped hending.symm hpop']
              have hview := (h.popped hs ht h.order hpop hpop').1
              simp only [Option.map_some, hview]

theorem abreast_start (hc : c.Rearranges c') (hone : c.Prepared) (hother : c'.Prepared)
    {limits : Limits} (horder : limits.frontierOrder = .largestFirst) :
    Abreast c c' (start c limits) (start c' limits) := by
  have hs := explored_start hone limits
  have ht := explored_start hother limits
  have hpending := pending_start c limits
  have hpending' := pending_start c' limits
  have hkey : (State.root c.goal).key = (State.root c'.goal).key := hc.goal
  have hview : c.view (.root c.goal) = c'.view (.root c'.goal) := by
    rw [Context.view_root, Context.view_root, hc.goal]
  have hfrontier : (start c limits).frontier.Mirrors c c' (start c' limits).frontier := by
    constructor
    · rw [hpending, hpending', List.map_singleton, List.map_singleton, hview]
    · intro k
      rw [hs.seen, ht.seen, hpending, hpending']
      simp [hkey]
  exact ⟨⟨rfl, rfl, rfl, hfrontier, rfl, rfl, rfl, rfl, rfl, rfl⟩, ⟨[], hs⟩, ⟨[], ht⟩, horder⟩

/-- Under largest-first order the order of the rules does not matter, and neither do
their tokens. The searches of two theorems of equal products, with rules that have
the same products in another order, come to events that look alike under any
calls, one by one, however the batches that are shared out come back. After them the
next states to be taken up look alike, all counts are the same, the same pairs have
been met, and the best states look alike. Among the calls may be single steps, so all
this holds after every step. -/
theorem largestFirst_rearranged {book book' : RuleBook} (hbook : book.Built)
    (hbook' : book'.Built) {codes codes' : Codebook} {goal goal' : Equation}
    {withGraph withGraph' : Bool} {c c' : Context}
    (hone : Context.prepare codes book goal withGraph = .ok c)
    (hother : Context.prepare codes' book' goal' withGraph' = .ok c') (hc : c.Rearranges c')
    {limits : Limits} (horder : limits.frontierOrder = .largestFirst) {list list' : List Call}
    (hlist : list.Forall₂ (Call.Alike Worker.SameLoad) list') :
    let one := (start c limits).calls list
    let other := (start c' limits).calls list'
    one.2.map (Option.map (·.view c)) = other.2.map (Option.map (·.view c')) ∧
      one.1.upNext?.map c.view = other.1.upNext?.map c'.view ∧
      one.1.stats = other.1.stats ∧
      one.1.frontier.visited = other.1.frontier.visited ∧
      one.1.best.map c.view = other.1.best.map c'.view := by
  intro one other
  have hstart := abreast_start hc (Context.prepared_of_prepare hbook.numbered hone)
    (Context.prepared_of_prepare hbook'.numbered hother) horder
  have hcalls : Abreast c c' one.1 other.1 ∧
      one.2.map (Option.map (·.view c)) = other.2.map (Option.map (·.view c')) := by
    apply calls_related _ _ _ _ hstart hlist
    · intro worker worker' s t hheld h
      exact h.step hc hheld
    · intro s t cancelled h
      exact h.flagged cancelled
    · intro s t ms h
      exact h.wait ms
    · intro s t h
      exact h.restored
  obtain ⟨habreast, hevents⟩ := hcalls
  have hvisited : one.1.frontier.visited = other.1.frontier.visited :=
    Std.TreeSet.Equiv.toList_eq (Std.TreeSet.Equiv.of_forall_mem_iff habreast.frontier.seen)
  exact ⟨hevents, habreast.upNext?, habreast.stats, hvisited, habreast.best⟩

/-- Two axioms in either order, shared out on one side, where the batch of the second
comes back first: the candidates that are found look alike, although the steps that
lead to them have other numbers. -/
theorem largestFirst_rearranged_exchanged :
    ∃ c c' : Context, c.book.rules.map (·.products) = [(3, 2), (5, 3)] ∧
      c'.book.rules.map (·.products) = [(5, 3), (3, 2)] ∧ ∃ t t',
      ((start c { parallelThreshold := 2 }).calls [.advance {} 9]).2 = [some (.candidate t)] ∧
      ((start c' { parallelThreshold := 2 }).calls
        [.advance { arrival := fun _ batch => 1 - batch } 9]).2 = [some (.candidate t')] ∧
      t.proof ≠ t'.proof ∧ c.view t = c'.view t' := by
  have hrun : ∃ book codes,
      RuleBook.ofEquations {} [⟨["a"], ["b"]⟩, ⟨["b"], ["c"]⟩] = .ok (book, codes) ∧
      ∃ book' codes',
      RuleBook.ofEquations codes [⟨["b"], ["c"]⟩, ⟨["a"], ["b"]⟩] = .ok (book', codes') ∧
      ∃ c, Context.prepare codes book ⟨["a"], ["c"]⟩ true = .ok c ∧
      ∃ c', Context.prepare codes' book' ⟨["a"], ["c"]⟩ true = .ok c' ∧
      c.goal.products = c'.goal.products ∧
      c.book.rules.map (·.products) = [(3, 2), (5, 3)] ∧
      c'.book.rules.map (·.products) = [(5, 3), (3, 2)] ∧ ∃ t t',
      ((start c { parallelThreshold := 2 }).calls [.advance {} 9]).2 = [some (.candidate t)] ∧
      ((start c' { parallelThreshold := 2 }).calls
        [.advance { arrival := fun _ batch => 1 - batch } 9]).2 = [some (.candidate t')] ∧
      t.proof.map (·.rule) = [1, 2] ∧ t'.proof.map (·.rule) = [2, 1] :=
    ⟨_, _, by cbv, _, _, by cbv, _, by cbv, _, by cbv, by cbv, by cbv, by cbv, _, _, by cbv,
      by cbv, by cbv, by cbv⟩
  obtain ⟨book, codes, hbook, book', codes', hbook', c, hone, c', hother, hgoal, hrules, hrules',
    t, t', ht, ht', hproof, hproof'⟩ := hrun
  have hc : c.Rearranges c' := by
    refine ⟨hgoal, ?_⟩
    rw [hrules, hrules']
    exact .swap _ _ _
  have horder : Limits.frontierOrder { parallelThreshold := 2 } = .largestFirst := rfl
  have hload : Worker.SameLoad {} { arrival := fun _ batch => 1 - batch } := rfl
  obtain ⟨hevents, -⟩ := largestFirst_rearranged (.replace hbook) (.replace hbook') hone hother hc
    horder (.cons (.advance hload 9) .nil)
  refine ⟨c, c', hrules, hrules', t, t', ht, ht', ?_, ?_⟩
  · intro heq
    rw [heq, hproof'] at hproof
    cases hproof
  · rw [ht, ht'] at hevents
    simpa [SearchEvent.view] using hevents

end Search

end ThueProver
