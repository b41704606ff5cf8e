import Mathlib
import ThueProver.Proofs.Exhaustion
import ThueProver.Proofs.Justification

/-!
# Breadth-first proofs are shortest

Under breadth-first order the pending states form a queue. Their proofs get no
shorter along the queue and differ in length by one step at most, because children
enter behind states whose proofs are as long. So states are taken up in the order
of the lengths of their proofs.

As long as no request was refused, a child of a state that was taken up has been
met with a proof at most one step longer. Following any steps from the root, one
therefore comes past pairs that were met with proofs as short, or to a pending
state whose proof is as short; in both cases what was taken up so far has shorter
proofs still. The first candidate has a shortest proof among all pairs of equal
products.
-/
namespace ThueProver

namespace Context

/-- The steps lead from the root to `t`, and no state on the way to it has equal
products. -/
structure Reaches (c : Context) (steps : List Step) (t : State) : Prop where
  followed : c.book.follow? (.root c.goal) steps = some t
  passing : ∀ n < steps.length, ∀ u,
    c.book.follow? (.root c.goal) (steps.take n) = some u → u.isTerminal = false

variable {c : Context} {steps : List Step} {step : Step} {t u : State}

theorem Reaches.eq_root (h : c.Reaches [] t) : t = .root c.goal :=
  (Option.some.inj h.followed).symm

/-- The last step is a move of a state that the steps before it reach. -/
theorem Reaches.of_concat (h : c.Reaches (steps ++ [step]) t) :
    ∃ s, c.Reaches steps s ∧ s.isTerminal = false ∧
      ∃ rule ∈ c.book.rules, s.move? step.opcode rule = some t := by
  have hfollowed := h.followed
  rw [RuleBook.follow?_append] at hfollowed
  obtain ⟨s, hs, hlast⟩ := Option.bind_eq_some_iff.mp hfollowed
  have hpassing : ∀ n ≤ steps.length, ∀ u,
      c.book.follow? (.root c.goal) (steps.take n) = some u → u.isTerminal = false := by
    intro n hn u hu
    apply h.passing n
    · rw [List.length_append, List.length_singleton]
      omega
    · rwa [List.take_append_of_le_length hn]
  refine ⟨s, ⟨hs, fun n hn => hpassing n (Nat.le_of_lt hn)⟩, ?_, ?_⟩
  · apply hpassing steps.length (Nat.le_refl _)
    rwa [List.take_length]
  · simp only [RuleBook.follow?] at hlast
    split at hlast
    · cases hlast
    next rule hrule =>
    split at hlast
    · cases hlast
    next moved hmove =>
    cases hlast
    exact ⟨rule, (RuleBook.mem_of_get? hrule).1, hmove⟩

/-- Steps that lead to equal products come to some for the first time. -/
theorem exists_reaches_terminal (h : c.book.follow? (.root c.goal) steps = some u)
    (hu : u.isTerminal = true) :
    ∃ n v, n ≤ steps.length ∧ c.Reaches (steps.take n) v ∧ v.isTerminal = true := by
  classical
  have hsome : ∃ n v, c.book.follow? (.root c.goal) (steps.take n) = some v ∧
      v.isTerminal = true := ⟨steps.length, u, by rwa [List.take_length], hu⟩
  obtain ⟨v, hv, hterminal⟩ := Nat.find_spec hsome
  have hle : Nat.find hsome ≤ steps.length := by
    apply Nat.find_min' hsome
    exact ⟨u, by rwa [List.take_length], hu⟩
  refine ⟨Nat.find hsome, v, hle, ⟨hv, ?_⟩, hterminal⟩
  intro m hm w hw
  rw [List.length_take, Nat.min_eq_left hle] at hm
  rw [List.take_take, Nat.min_eq_left (Nat.le_of_lt hm)] at hw
  have hnot := Nat.find_min hsome hm
  by_contra hequal
  exact hnot ⟨w, hw, by simpa using hequal⟩

theorem length_proof_of_child (h : u ∈ c.children t) :
    u.proof.length = t.proof.length + 1 := by
  obtain ⟨rule, -, op, hmove⟩ := mem_children.mp h
  obtain ⟨-, rfl⟩ := State.move?_eq_some.mp hmove
  simp

/-- The pair of every child of `u` was met, with a proof one step longer at most. -/
def Near (c : Context) (met : List State) (u : State) : Prop :=
  u.isTerminal = false → ∀ child ∈ c.children u,
    ∃ v ∈ met, v.key = child.key ∧ v.proof.length ≤ u.proof.length + 1

theorem Near.mono {met met' : List State} (h : c.Near met u) (hmet : met ⊆ met') :
    c.Near met' u := by
  intro hopen child hchild
  obtain ⟨v, hv, hnear⟩ := h hopen child hchild
  exact ⟨v, hmet hv, hnear⟩

end Context

namespace Frontier
variable {f g : Frontier} {taken : List State} {state : State}

/-- The proof of `t` is no longer than that of `u`. -/
def NoLonger (t u : State) : Prop := t.proof.length ≤ u.proof.length

/-- Proofs get no shorter from the first state that was taken up to the last one
pending, and those of the pending states differ by one step at most. -/
structure Layered (f : Frontier) (taken : List State) : Prop where
  sorted : (taken ++ f.pending).Pairwise NoLonger
  spread : ∀ t ∈ f.pending, ∀ u ∈ f.pending, u.proof.length ≤ t.proof.length + 1

/-- Under breadth-first order the first pending state is popped. -/
theorem pending_of_pop? (h : f.Valid) (horder : f.order = .breadthFirst)
    (hpop : f.pop? = some (state, g)) : f.pending = state :: g.pending := by
  obtain ⟨-, -, -, before, after, hpending, hrest, hleads⟩ := pop?_spec h hpop
  rw [horder] at hleads
  cases (hleads : before = [])
  rw [hpending, hrest]
  rfl

theorem Layered.pop (h : f.Layered taken) (hpending : f.pending = state :: g.pending) :
    g.Layered (taken ++ [state]) := by
  constructor
  · have hsorted := h.sorted
    rwa [hpending, List.append_cons] at hsorted
  · intro t ht u hu
    apply h.spread
    · rw [hpending]
      exact List.mem_cons_of_mem _ ht
    · rw [hpending]
      exact List.mem_cons_of_mem _ hu

/-- Between the proof of the state that was popped and one step more lie the proofs
of all states pending after it, and no state was taken up with a longer one. -/
theorem Layered.around (h : f.Layered taken) (hpending : f.pending = state :: g.pending) :
    (∀ t ∈ taken ++ [state], t.proof.length ≤ state.proof.length) ∧
      ∀ t ∈ g.pending, state.proof.length ≤ t.proof.length ∧
        t.proof.length ≤ state.proof.length + 1 := by
  have hsorted := h.sorted
  rw [hpending, List.pairwise_append, List.pairwise_cons] at hsorted
  constructor
  · intro t ht
    cases List.mem_append.mp ht with
    | inl hbefore => exact hsorted.2.2 t hbefore state List.mem_cons_self
    | inr hself => rw [List.mem_singleton.mp hself]
  · intro t ht
    have hspread := h.spread state (by simp [hpending]) t (by simp [hpending, ht])
    exact ⟨hsorted.2.1.1 t ht, hspread⟩

/-- States with a proof one step longer enter behind the others. -/
theorem Layered.pushAll (h : f.Layered taken) (hvalid : f.Valid) {batch : List State} {n : Nat}
    (hbatch : ∀ t ∈ batch, t.proof.length = n + 1) (htaken : ∀ t ∈ taken, t.proof.length ≤ n)
    (hpending : ∀ t ∈ f.pending, n ≤ t.proof.length ∧ t.proof.length ≤ n + 1) :
    (f.pushAll batch).2.Layered taken ∧
      ∀ t ∈ (f.pushAll batch).2.pending, n ≤ t.proof.length ∧ t.proof.length ≤ n + 1 := by
  obtain ⟨new, hnew⟩ := pushAll_spec hvalid batch
  have hlength : ∀ t ∈ new, t.proof.length = n + 1 :=
    fun t ht => hbatch t (hnew.sublist.subset ht)
  have hall : ∀ t ∈ (f.pushAll batch).2.pending,
      n ≤ t.proof.length ∧ t.proof.length ≤ n + 1 := by
    intro t ht
    rw [hnew.pending] at ht
    cases List.mem_append.mp ht with
    | inl hold => exact hpending t hold
    | inr hin =>
        have heq := hlength t hin
        omega
  refine ⟨⟨?_, ?_⟩, hall⟩
  · rw [hnew.pending, ← List.append_assoc, List.pairwise_append]
    refine ⟨h.sorted, ?_, ?_⟩
    · apply List.pairwise_of_forall_mem_list
      intro t ht u hu
      exact Nat.le_of_eq ((hlength t ht).trans (hlength u hu).symm)
    · intro t ht u hu
      have heq := hlength u hu
      unfold NoLonger
      cases List.mem_append.mp ht with
      | inl hbefore =>
          have hle := htaken t hbefore
          omega
      | inr hold =>
          have hle := (hpending t hold).2
          omega
  · intro t ht u hu
    have hfirst := hall t ht
    have hsecond := hall u hu
    omega

end Frontier

namespace Search
variable {s t : Search} {taken : List State}

/-- The frontier is layered, the root was met first, and unless a request was
refused all children of the states taken up were met with proofs one step longer
at most. -/
structure Layered (s : Search) (taken : List State) : Prop
    extends Frontier.Layered s.frontier taken where
  root : .root s.context.goal ∈ taken ++ s.frontier.pending
  near : s.stats.rejectedBatches = 0 → ∀ u ∈ taken,
    s.context.Near (taken ++ s.frontier.pending) u

theorem layered_start (context : Context) (limits : Limits) :
    (start context limits).Layered [] := by
  have hpending := pending_start context limits
  constructor
  case toLayered =>
    constructor
    · rw [hpending]
      exact List.pairwise_singleton _ _
    · rw [hpending]
      intro u hu v hv
      rw [List.mem_singleton.mp hu, List.mem_singleton.mp hv]
      exact Nat.le_succ _
  case root =>
    rw [hpending]
    exact List.mem_singleton_self _
  case near =>
    intro _ u hu
    cases hu

/-- Whatever becomes of the state that a step takes up, the layers stay. -/
theorem Layered.step {worker : Worker} {event : Option SearchEvent} (h : s.Layered taken)
    (hexplored : s.Explored taken) (horder : s.limits.frontierOrder = .breadthFirst)
    (hstep : s.Stepped worker t event) : t.Layered (taken ++ s.upNext?.toList) := by
  have hnext := hexplored.step hstep
  cases hstep with
  | stopped reason hreason =>
      rw [upNext?_of_stopped hreason, Option.toList_none, List.append_nil]
      exact ⟨h.toLayered, h.root, h.near⟩
  | exhausted hgo hpop =>
      rw [upNext?_of_empty hgo hpop, Option.toList_none, List.append_nil]
      exact ⟨h.toLayered, h.root, h.near⟩
  | @treated state frontier _ _ hgo hpop ht =>
      rw [upNext?_of_popped hgo hpop, Option.toList_some] at hnext ⊢
      have hvalid := (Frontier.pop?_spec hexplored.valid hpop).1
      have hpending := Frontier.pending_of_pop? hexplored.valid
        (hexplored.order.trans horder) hpop
      have hlayered := h.toLayered.pop hpending
      obtain ⟨htaken, hlater⟩ := h.toLayered.around hpending
      have hmet : taken ++ s.frontier.pending = taken ++ [state] ++ frontier.pending := by
        rw [hpending, List.append_cons]
      have hroot := h.root
      have hnear := h.near
      rw [hmet] at hroot hnear
      have hconcat : ∀ {met : List State}, s.stats.rejectedBatches = 0 →
          taken ++ [state] ++ frontier.pending ⊆ met → s.context.Near met state →
          ∀ u ∈ taken ++ [state], s.context.Near met u := by
        intro met hnone hkept hstate u hu
        cases List.mem_append.mp hu with
        | inl hbefore => exact (hnear hnone u hbefore).mono hkept
        | inr hself => rwa [List.mem_singleton.mp hself]
      cases ht with
      | candidate hterminal =>
          refine ⟨hlayered, hroot, ?_⟩
          intro hnone
          apply hconcat hnone (List.Subset.refl _)
          intro hopen
          simp [hterminal] at hopen
      | stuck hopen hchildless =>
          refine ⟨hlayered, hroot, ?_⟩
          intro hnone
          apply hconcat hnone (List.Subset.refl _)
          intro _ child hchild
          rw [show s.context.children state = [] from hchildless] at hchild
          cases hchild
      | refused hopen hsome hfull =>
          refine ⟨hlayered, hroot, ?_⟩
          intro hnone
          simp [reject] at hnone
      | grown hopen hsome hroom =>
          have hperm := childrenIn_perm worker ({ s with frontier }.observe state) state
          generalize childrenIn worker ({ s with frontier }.observe state) state = entering
            at hperm hnext ⊢
          obtain ⟨new, hnew⟩ := Frontier.pushAll_spec hvalid entering
          have hlength : ∀ u ∈ entering, u.proof.length = state.proof.length + 1 :=
            fun u hu => Context.length_proof_of_child (hperm.mem_iff.mp hu)
          have hgrown := hlayered.pushAll hvalid hlength htaken hlater
          have hkept : taken ++ [state] ++ frontier.pending ⊆
              taken ++ [state] ++ (frontier.pushAll entering).2.pending := by
            rw [hnew.pending, ← List.append_assoc]
            exact List.subset_append_left _ _
          refine ⟨hgrown.1, hkept hroot, ?_⟩
          intro hnone
          apply hconcat hnone hkept
          -- A child was met now or before, and no state was met with a longer proof.
          intro _ child hchild
          obtain ⟨v, hv, hkey⟩ := (hnext.seen _).mp (hnew.met child (hperm.mem_iff.mpr hchild))
          refine ⟨v, hv, hkey, ?_⟩
          cases List.mem_append.mp hv with
          | inl hbefore => exact Nat.le_succ_of_le (htaken v hbefore)
          | inr hwaiting => exact (hgrown.2 v hwaiting).2

theorem Driven.layered {held : Nat} {context : Context} (hcontext : context.Prepared)
    {limits : Limits} (horder : limits.frontierOrder = .breadthFirst)
    (h : Driven held (Search.start context limits) taken s) : s.Layered taken := by
  induction h with
  | start => exact layered_start context limits
  | @step taken s worker hdriven _ ih =>
      obtain ⟨hspared, -, hlimits⟩ := hdriven.spared hcontext
      exact ih.step hspared.explored (by rw [hlimits, horder])
        (hspared.explored.stepped worker)
  | cancel _ ih => exact ⟨ih.toLayered, ih.root, ih.near⟩
  | renew _ ih => exact ⟨ih.toLayered, ih.root, ih.near⟩
  | wait ms _ ih => exact ⟨ih.toLayered, ih.root, ih.near⟩

/-- A pair that steps reach was met with a proof as short, unless a state is still
pending whose proof is as short. -/
theorem Layered.met_of_reaches (h : s.Layered taken) (hadmitted : s.stats.rejectedBatches = 0)
    {steps : List Step} {u : State} (hu : s.context.Reaches steps u) :
    (∃ v ∈ taken ++ s.frontier.pending, v.key = u.key ∧ v.proof.length ≤ steps.length) ∨
      ∃ v ∈ s.frontier.pending, v.proof.length ≤ steps.length := by
  induction steps using List.reverseRecOn generalizing u with
  | nil => exact .inl ⟨_, h.root, by rw [hu.eq_root], Nat.le_refl 0⟩
  | append_singleton steps step ih =>
      obtain ⟨last, hlast, hopen, rule, hrule, hmove⟩ := hu.of_concat
      rw [List.length_append, List.length_singleton]
      cases ih hlast with
      | inr hwaiting =>
          obtain ⟨v, hv, hle⟩ := hwaiting
          exact .inr ⟨v, hv, Nat.le_succ_of_le hle⟩
      | inl hmet =>
          obtain ⟨v, hv, hkey, hle⟩ := hmet
          cases List.mem_append.mp hv with
          | inr hwaiting => exact .inr ⟨v, hwaiting, Nat.le_succ_of_le hle⟩
          | inl hbefore =>
              obtain ⟨child, hchild, hsame⟩ := State.move?_congr hkey.symm hmove
              obtain ⟨w, hw, hwkey, hwle⟩ := h.near hadmitted v hbefore
                ((State.isTerminal_congr hkey).trans hopen) child
                (Context.mem_children.mpr ⟨rule, hrule, step.opcode, hchild⟩)
              refine .inl ⟨w, hw, hwkey.trans hsame, ?_⟩
              omega

/-- The states taken up and the next one are in front of all that are met, and
their proofs are no longer than those of the pending states. -/
theorem Layered.upNext? (h : s.Layered taken) (hexplored : s.Explored taken)
    (horder : s.limits.frontierOrder = .breadthFirst) :
    (taken ++ s.upNext?.toList).Sublist (taken ++ s.frontier.pending) ∧
      ∀ u ∈ taken ++ s.upNext?.toList, ∀ v ∈ s.frontier.pending,
        u.proof.length ≤ v.proof.length := by
  have hsorted := h.sorted
  rw [List.pairwise_append] at hsorted
  cases hup : s.upNext? with
  | none =>
      rw [Option.toList_none, List.append_nil]
      exact ⟨List.sublist_append_left _ _, hsorted.2.2⟩
  | some state =>
      obtain ⟨frontier, hpop⟩ : ∃ frontier, s.frontier.pop? = some (state, frontier) := by
        unfold Search.upNext? at hup
        split at hup
        · cases hup
        · obtain ⟨popped, hpopped, rfl⟩ := Option.map_eq_some_iff.mp hup
          exact ⟨popped.2, hpopped⟩
      have hpending := Frontier.pending_of_pop? hexplored.valid
        (hexplored.order.trans horder) hpop
      rw [Option.toList_some]
      constructor
      · rw [hpending]
        exact (List.singleton_sublist.mpr List.mem_cons_self).append_left taken
      · intro u hu v hv
        have hle := (h.toLayered.around hpending).1 u hu
        rw [hpending] at hv
        cases List.mem_cons.mp hv with
        | inl hself => rwa [hself]
        | inr hlater => exact hle.trans ((h.toLayered.around hpending).2 v hlater).1

/-- Under breadth-first order states are taken up in the order of the lengths of
their proofs. As long as no request was refused, no steps that lead from the root
to the same pair without passing equal products are fewer than those on the proof
of a state that was taken up, or is taken up next; and no steps from the root to
any state of equal products are fewer than those on the proof of the first
candidate. -/
theorem breadthFirst_shortest {book : RuleBook} (hbook : book.Built) {codes : Codebook}
    {goal : Equation} {withGraph : Bool} {c : Context}
    (hcontext : Context.prepare codes book goal withGraph = .ok c) {limits : Limits}
    (horder : limits.frontierOrder = .breadthFirst) {held : Nat}
    (hs : Driven held (start c limits) taken s) :
    let popped := taken ++ s.upNext?.toList
    (popped.Pairwise fun t u => t.proof.length ≤ u.proof.length) ∧
      (s.stats.rejectedBatches = 0 →
        (∀ t ∈ popped, ∀ steps u, c.Reaches steps u → u.key = t.key →
          t.proof.length ≤ steps.length) ∧
        ∀ t, popped.find? State.isTerminal = some t → ∀ steps u,
          c.book.follow? (.root c.goal) steps = some u → u.left = u.right →
            t.proof.length ≤ steps.length) := by
  have hprepared := Context.prepared_of_prepare hbook.numbered hcontext
  have hlayered := hs.layered hprepared horder
  obtain ⟨hspared, rfl, rfl⟩ := hs.spared hprepared
  have hexplored := hspared.explored
  obtain ⟨hfront, hpending⟩ := hlayered.upNext? hexplored horder
  intro popped
  have hsorted : popped.Pairwise Frontier.NoLonger := hlayered.sorted.sublist hfront
  refine ⟨hsorted, ?_⟩
  intro hadmitted
  constructor
  · intro t ht steps u hu hkey
    cases hlayered.met_of_reaches hadmitted hu with
    | inl hmet =>
        obtain ⟨v, hv, hvkey, hle⟩ := hmet
        have hsame : v = t := List.inj_on_of_nodup_map hexplored.nodup hv (hfront.subset ht)
          (hvkey.trans hkey)
        rwa [← hsame]
    | inr hwaiting =>
        obtain ⟨v, hv, hle⟩ := hwaiting
        exact (hpending t ht v hv).trans hle
  · intro t ht steps u hu hequal
    have hmem : t ∈ popped := List.mem_of_find?_eq_some ht
    have hterminal : u.isTerminal = true := by simpa [State.isTerminal] using hequal
    obtain ⟨n, v, hn, hv, hvterminal⟩ := Context.exists_reaches_terminal hu hterminal
    have hlength : (steps.take n).length ≤ steps.length := (List.take_sublist n steps).length_le
    apply Nat.le_trans _ hlength
    cases hlayered.met_of_reaches hadmitted hv with
    | inr hwaiting =>
        obtain ⟨w, hw, hle⟩ := hwaiting
        exact (hpending t hmem w hw).trans hle
    | inl hmet =>
        obtain ⟨w, hw, hkey, hle⟩ := hmet
        apply Nat.le_trans _ hle
        cases List.mem_append.mp hw with
        | inr hlater => exact hpending t hmem w hlater
        | inl hbefore =>
            -- Both are candidates that were taken up, and `t` was the first.
            obtain ⟨-, front, rest, hsplit, hfirst⟩ := List.find?_eq_some_iff_append.mp ht
            have hwterminal := (State.isTerminal_congr hkey).trans hvterminal
            have hin : w ∈ front ++ t :: rest := hsplit ▸ List.mem_append_left _ hbefore
            rw [hsplit, List.pairwise_append, List.pairwise_cons] at hsorted
            cases List.mem_append.mp hin with
            | inl hearlier =>
                have hopen := hfirst w hearlier
                simp [hwterminal] at hopen
            | inr hin =>
                cases List.mem_cons.mp hin with
                | inl hself => rw [hself]
                | inr hlater => exact hsorted.2.1.1 w hlater

/-- The sides are two axioms apart. The fourth state to be taken up is the first
candidate, so every way from the root to equal products has two steps or more. -/
theorem breadthFirst_shortest_chain :
    ∃ c : Context, c.book.rules.map (·.entered) = [⟨["a"], ["b"]⟩, ⟨["b"], ["c"]⟩] ∧
      c.goal.entered = ⟨["a"], ["c"]⟩ ∧ ∀ steps u,
      c.book.follow? (.root c.goal) steps = some u → u.left = u.right → 2 ≤ steps.length := by
  have hrun : ∃ book codes,
      RuleBook.ofEquations {} [⟨["a"], ["b"]⟩, ⟨["b"], ["c"]⟩] = .ok (book, codes) ∧ ∃ c,
      Context.prepare codes book ⟨["a"], ["c"]⟩ true = .ok c ∧
      c.book.rules.map (·.entered) = [⟨["a"], ["b"]⟩, ⟨["b"], ["c"]⟩] ∧
      c.goal.entered = ⟨["a"], ["c"]⟩ ∧ ∃ s₀ s₁ s₂ s₃ : Search,
      start c { frontierOrder := .breadthFirst } = s₀ ∧ (s₀.step {}).2.1 = s₁ ∧
      (s₁.step {}).2.1 = s₂ ∧ (s₂.step {}).2.1 = s₃ ∧ s₃.stats.rejectedBatches = 0 ∧ ∃ t,
      ([] ++ s₀.upNext?.toList ++ s₁.upNext?.toList ++ s₂.upNext?.toList ++
        s₃.upNext?.toList).find? State.isTerminal = some t ∧ t.proof.length = 2 :=
    ⟨_, _, by cbv, _, by cbv, by cbv, by cbv, _, _, _, _, rfl, rfl, rfl, rfl, by cbv, _, by cbv,
      by cbv⟩
  obtain ⟨book, codes, hbook, c, hcontext, haxioms, hgoal, s₀, s₁, s₂, s₃, rfl, rfl, rfl, rfl,
    hadmitted, t, ht, hlength⟩ := hrun
  have hheld : 0 ≤ Worker.inFlight {} := Nat.zero_le _
  have hstart : Driven 0 (start c { frontierOrder := .breadthFirst }) [] _ := .start
  have hdriven := ((hstart.step {} hheld).step {} hheld).step {} hheld
  obtain ⟨-, hshortest⟩ := breadthFirst_shortest (.replace hbook) hcontext rfl hdriven
  refine ⟨c, haxioms, hgoal, ?_⟩
  intro steps u hsteps hequal
  rw [← hlength]
  exact (hshortest hadmitted).2 t ht steps u hsteps hequal

end Search

end ThueProver
