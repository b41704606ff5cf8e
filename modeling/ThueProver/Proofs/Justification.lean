import Mathlib
import ThueProver.Proofs.Calls
import ThueProver.Proofs.Exhaustion

/-!
# Every state is justified by its own proof

A state carries the steps that led to it. Following these steps from the root,
each with the rule of its number, leads to exactly this state, and no step fails
on the way. This holds of all states a search keeps or hands out. It does not
depend on what the call graph says: the graph chooses which moves are tried, and
a move that does not apply has no child.

A proof whose steps name rules of the book can be replayed on tokens as far as
they allow. A session around such a search therefore never fails.
-/
namespace ThueProver

namespace RuleBook

/-- The state that steps lead to, each with the rule of its number. There is none
if a number is unknown or a step does not apply. -/
def follow? (book : RuleBook) (s : State) : List Step → Option State
  | [] => some s
  | step :: rest =>
      match book.get? step.rule with
      | none => none
      | some rule =>
          match s.move? step.opcode rule with
          | none => none
          | some t => book.follow? t rest

theorem follow?_append (book : RuleBook) (s : State) (xs ys : List Step) :
    book.follow? s (xs ++ ys) = (book.follow? s xs).bind (book.follow? · ys) := by
  induction xs generalizing s with
  | nil => rfl
  | cons step rest ih =>
      simp only [List.cons_append, follow?]
      cases book.get? step.rule with
      | none => rfl
      | some rule =>
          dsimp only
          cases s.move? step.opcode rule with
          | none => rfl
          | some t => exact ih t

theorem get?_of_follow? {book : RuleBook} {s t : State} {steps : List Step}
    (h : book.follow? s steps = some t) :
    ∀ step ∈ steps, ∃ rule, book.get? step.rule = some rule := by
  induction steps generalizing s with
  | nil =>
      intro step hstep
      cases hstep
  | cons first rest ih =>
      simp only [follow?] at h
      split at h
      · cases h
      next rule hrule =>
      split at h
      · cases h
      · intro step hstep
        rcases List.mem_cons.mp hstep with rfl | hstep
        · exact ⟨rule, hrule⟩
        · exact ih h step hstep

theorem mem_of_get? {book : RuleBook} {id : Nat} {rule : Rule} (h : book.get? id = some rule) :
    rule ∈ book.rules ∧ rule.id = id := by
  cases id with
  | zero => cases h
  | succ index =>
      obtain ⟨hget, hid⟩ := Option.filter_eq_some_iff.mp h
      exact ⟨List.mem_of_getElem? hget, by simpa using hid⟩

end RuleBook

namespace Context

/-- The proof of a state accounts for it: its steps name rules of the book and
lead from the root to the state, and they can be replayed on any tokens. -/
structure Justifies (c : Context) (t : State) : Prop where
  followed : c.book.follow? (.root c.goal) t.proof = some t
  known : ∀ step ∈ t.proof, ∃ rule ∈ c.book.rules, rule.id = step.rule
  replayed : ∀ tokens, ∃ r, replay c.book tokens t.proof = .ok r

variable {c : Context} {s t : State}

theorem justifies_of_follow? (h : c.book.follow? (.root c.goal) t.proof = some t) :
    c.Justifies t := by
  have hget := RuleBook.get?_of_follow? h
  refine ⟨h, ?_, replay_ok hget⟩
  intro step hstep
  obtain ⟨rule, hrule⟩ := hget step hstep
  exact ⟨rule, RuleBook.mem_of_get? hrule⟩

theorem justifies_root (c : Context) : c.Justifies (.root c.goal) := justifies_of_follow? rfl

/-- A move adds the step that accounts for it. -/
theorem Justifies.move (h : c.Justifies s) (hnumbered : c.book.Numbered) {rule : Rule}
    (hrule : rule ∈ c.book.rules) {op : Opcode} (hmove : s.move? op rule = some t) :
    c.Justifies t := by
  have hproof : t.proof = s.proof ++ [⟨op, rule.id⟩] := by
    obtain ⟨-, rfl⟩ := State.move?_eq_some.mp hmove
    rfl
  apply justifies_of_follow?
  rw [hproof, RuleBook.follow?_append, h.followed]
  simp only [Option.bind_some, RuleBook.follow?, hnumbered.get?_of_mem hrule, hmove]

end Context

namespace Search

/-- The states a search keeps are justified. -/
structure Held (s : Search) : Prop where
  valid : s.frontier.Valid
  numbered : s.context.book.Numbered
  pending : ∀ t ∈ s.frontier.pending, s.context.Justifies t
  best : ∀ t, s.best = some t → s.context.Justifies t

variable {s : Search} {state : State}

theorem held_start {c : Context} (h : c.book.Numbered) (limits : Limits) :
    (start c limits).Held := by
  refine ⟨(met_start c limits).valid, h, ?_, ?_⟩
  · rw [show (start c limits).context = c from rfl, pending_start]
    intro t ht
    rw [List.mem_singleton.mp ht]
    exact c.justifies_root
  · intro t ht
    cases ht

theorem Held.flagged (h : s.Held) (cancelled : Bool) (elapsedMs : Nat) :
    Held { s with cancelled, elapsedMs } := ⟨h.valid, h.numbered, h.pending, h.best⟩

theorem Held.restored (h : s.Held) : s.restored.Held := by
  obtain ⟨hvalid, -, hpending, -⟩ :=
    Frontier.restore_spec s.limits.frontierOrder s.frontier.pending s.frontier.visited
  refine ⟨hvalid, h.numbered, ?_, h.best⟩
  intro t ht
  exact h.pending t (hpending ▸ ht)

theorem Held.pop (h : s.Held) {frontier : Frontier}
    (hpop : s.frontier.pop? = some (state, frontier)) :
    s.context.Justifies state ∧ ({ s with frontier }.observe state).Held := by
  obtain ⟨hvalid, -, -, before, after, hpending, hrest, -⟩ := Frontier.pop?_spec h.valid hpop
  have hstate : s.context.Justifies state := by
    apply h.pending
    simp [hpending]
  refine ⟨hstate, hvalid, h.numbered, ?_, ?_⟩
  · intro t ht
    apply h.pending
    change t ∈ frontier.pending at ht
    rw [hrest] at ht
    rw [hpending]
    rcases List.mem_append.mp ht with ht | ht <;> simp [ht]
  · intro t ht
    rcases best_observe ht with rfl | hold
    · exact hstate
    · exact h.best t hold

/-- Whatever moves are tried, the children that enter are justified. -/
theorem Held.absorb (h : s.Held) (hstate : s.context.Justifies state)
    {moves : List (Rule × List Opcode)}
    (hmoves : ∀ move ∈ moves, move.1 ∈ s.context.book.rules) :
    (s.absorb (state.childrenOf moves)).Held := by
  obtain ⟨new, hnew⟩ := Frontier.pushAll_spec h.valid (state.childrenOf moves)
  refine ⟨hnew.valid, h.numbered, ?_, h.best⟩
  intro t ht
  change t ∈ (s.frontier.pushAll (state.childrenOf moves)).2.pending at ht
  rw [hnew.pending] at ht
  rcases List.mem_append.mp ht with ht | ht
  · exact h.pending t ht
  · obtain ⟨move, hmove, hchild⟩ := List.mem_flatMap.mp (hnew.sublist.subset ht)
    obtain ⟨op, -, hchild⟩ := List.mem_filterMap.mp hchild
    exact hstate.move h.numbered (hmoves move hmove) hchild

theorem Held.expand (h : s.Held) (hstate : s.context.Justifies state) (worker : Worker) :
    (s.expand worker state).2.Held := by
  have hmoves : ∀ move ∈ s.applicable state, move.1 ∈ s.context.book.rules :=
    fun move hmove => mem_applicable hmove
  unfold Search.expand
  split
  · exact h
  next move moves happlicable =>
    rw [happlicable] at hmoves
    unfold request
    split
    · exact ⟨h.valid, h.numbered, h.pending, h.best⟩
    · simp only [grow_eq]
      have hcounted : Held { s with stats := { s.stats with expanded := s.stats.expanded + 1 } } :=
        ⟨h.valid, h.numbered, h.pending, h.best⟩
      refine hcounted.absorb hstate fun tried htried => ?_
      exact hmoves tried ((s.arrange_perm worker _).mem_iff.mp htried)

/-- A step keeps all states justified, and so is a candidate it hands out. -/
theorem Held.step (h : s.Held) (worker : Worker) :
    (s.step worker).2.1.Held ∧ ∀ t, (s.step worker).2.2 = some (.candidate t) →
      s.context.Justifies t ∧ t.left = t.right := by
  unfold Search.step
  split
  · exact ⟨⟨h.valid, h.numbered, h.pending, h.best⟩, by simp⟩
  split
  · exact ⟨⟨h.valid, h.numbered, h.pending, h.best⟩, by simp⟩
  next state frontier hpop =>
  obtain ⟨hstate, hobserved⟩ := h.pop hpop
  unfold takeUp
  split_ifs with hterminal
  · refine ⟨⟨hobserved.valid, hobserved.numbered, hobserved.pending, hobserved.best⟩, ?_⟩
    intro t ht
    cases ht
    exact ⟨hstate, by simpa [State.isTerminal] using hterminal⟩
  · exact ⟨hobserved.expand hstate worker, by simp⟩

theorem calls_held (h : s.Held) (list : List Call) :
    ((s.calls list).1.Held ∧ (s.calls list).1.context = s.context) ∧
      ∀ e, some e ∈ (s.calls list).2 → ∀ t, e = .candidate t →
        s.context.Justifies t ∧ t.left = t.right := by
  refine calls_invariant (P := fun u => u.Held ∧ u.context = s.context) ?_ ?_ ?_ ⟨h, rfl⟩ list
  · rintro worker u ⟨hu, hcontext⟩
    obtain ⟨hnext, hcandidate⟩ := hu.step worker
    refine ⟨⟨hnext, (step_context worker u).trans hcontext⟩, ?_⟩
    rintro e he t rfl
    exact hcontext ▸ hcandidate t he
  · rintro u cancelled elapsedMs ⟨hu, hcontext⟩
    exact ⟨hu.flagged cancelled elapsedMs, hcontext⟩
  · rintro u ⟨hu, hcontext⟩
    exact ⟨hu.restored, hcontext⟩

end Search

namespace Session

theorem examine_ne_failed {s : Session} {candidate : State}
    (h : s.search.context.Justifies candidate) (error : ProofError) :
    (s.examine candidate).2 ≠ .failed error := by
  obtain ⟨replayed, hreplayed⟩ := h.replayed s.search.context.goal.tokens
  unfold examine
  rw [show s.replay candidate.proof = .ok replayed from hreplayed]
  dsimp only
  split_ifs <;> simp [settle]

theorem close_ne_failed {s : Session} (h : s.search.Held) (reason : StopReason)
    (error : ProofError) : (s.close reason).2 ≠ .failed error := by
  have hbest : ∃ replayed, s.replay s.search.bestProof = .ok replayed := by
    unfold Search.bestProof
    cases hbest : s.search.best with
    | none => exact ⟨_, rfl⟩
    | some t => exact (h.best t hbest).replayed s.search.context.goal.tokens
  obtain ⟨replayed, hreplayed⟩ := hbest
  unfold close
  rw [hreplayed]
  simp [settle]

theorem held_step {s : Session} (h : s.search.Held) (worker : Worker) :
    (s.step worker).2.1.search.Held ∧ ∀ error, (s.step worker).2.2 ≠ .failed error := by
  obtain ⟨hheld, hcandidate⟩ := h.step worker
  have hcontext := Search.step_context worker s.search
  unfold step
  split
  next heq =>
    rw [heq] at hheld
    exact ⟨hheld, by simp⟩
  next heq =>
    rw [heq] at hheld hcandidate hcontext
    refine ⟨by rw [examine_search]; exact hheld, examine_ne_failed ?_⟩
    dsimp only at hcontext ⊢
    rw [hcontext]
    exact (hcandidate _ rfl).1
  next heq =>
    rw [heq] at hheld
    exact ⟨by rw [close_search]; exact hheld, close_ne_failed hheld _⟩

/-- The search of a session that a prover began keeps justified states, also
after the session had its report and was taken up again. -/
theorem Revived.held {axioms : List Equation} {goal : Equation} {origin s : Session} {lost : Nat}
    (h : origin.Revived lost s) (hbegun : origin.search.Begun axioms goal)
    (hheld : origin.search.Held) : s.search.Begun axioms goal ∧ s.search.Held := by
  refine h.invariant (P := fun _ s => s.search.Begun axioms goal ∧ s.search.Held)
    ⟨hbegun, hheld⟩ ?_ ?_ ?_
  · intro worker _ s hs _
    refine ⟨?_, (held_step hs.2 worker).1⟩
    rw [step_search]
    exact hs.1.step worker
  · intro _ s cancelled elapsedMs _ hs
    exact ⟨hs.1.flagged cancelled elapsedMs, hs.2.flagged cancelled elapsedMs⟩
  · intro _ s t hs ht
    rw [hs.1.ofSnapshot, Except.ok.injEq] at ht
    subst ht
    exact ⟨hs.1.restored, hs.2.restored⟩

/-- Whatever calls are made on a search, and whether or not it was put away and
restored between them, the states pending, the best state and the candidates
handed out are justified, and a candidate has equal sides. A session around such
a search never fails: a call of `advance` comes to a report or to nothing, and a
run comes to a report. -/
theorem states_justified :
    (∀ (c : Context) (limits : Limits) (list : List Search.Call), c.book.Built →
      let done := (Search.start c limits).calls list
      (∀ t ∈ done.1.frontier.pending, c.Justifies t) ∧
        (∀ t, done.1.best = some t → c.Justifies t) ∧
        ∀ t, some (.candidate t) ∈ done.2 → c.Justifies t ∧ t.left = t.right) ∧
    ∀ (p : Prover) (axioms : List Equation) (goal : Equation) (origin s : Session) (lost : Nat),
      p.Entered axioms → p.start goal = .ok origin → origin.Revived lost s →
      (∀ t ∈ s.search.frontier.pending, s.search.context.Justifies t) ∧
        (∀ t, s.search.best = some t → s.search.context.Justifies t) ∧
        (∀ worker budget error, (s.advance worker budget).2.2 ≠ .failed error) ∧
        ∀ worker, ∃ r, (s.run worker).2.2 = .ok r := by
  constructor
  · intro c limits list hbook
    obtain ⟨⟨hheld, hcontext⟩, hcandidates⟩ :=
      Search.calls_held (Search.held_start hbook.numbered limits) list
    rw [show (Search.start c limits).context = c from rfl] at hcontext hcandidates
    refine ⟨?_, ?_, fun t ht => hcandidates _ ht t rfl⟩
    · intro t ht
      exact hcontext ▸ hheld.pending t ht
    · intro t ht
      exact hcontext ▸ hheld.best t ht
  · intro p axioms goal origin s lost hp horigin hs
    have hbegun := (attempt_start hp horigin).begun
    obtain ⟨taken, hexplored⟩ := hbegun.explored
    obtain ⟨-, context, hcontext, rfl⟩ := Prover.start_eq_ok.mp horigin
    obtain ⟨-, hheld⟩ :=
      hs.held hbegun (Search.held_start hexplored.prepared.numbered p.limits)
    obtain ⟨hadvance, hrun⟩ := succeeds_of_step (P := fun s => s.search.Held)
      (fun worker s hs _ => held_step hs worker) hheld
    exact ⟨hheld.pending, hheld.best, hadvance, hrun⟩

/-- A candidate that is handed out after the search was restored, and a session
that is taken up again after its proof was reported. -/
theorem states_justified_restored :
    (∃ (c : Context) (t : State), t.proof.length = 1 ∧ c.Justifies t ∧ t.left = t.right) ∧
      ∃ (p : Prover) (s t : Session), p.Entered [⟨["a"], ["b"]⟩] ∧
        p.start ⟨["a"], ["b"]⟩ = .ok s ∧ s.Revived 1 t ∧
        ∀ worker, ∃ r, (t.run worker).2.2 = .ok r := by
  constructor
  · have hrun : ∃ book codes, RuleBook.ofEquations {} [⟨["a"], ["b"]⟩] = .ok (book, codes) ∧
        ∃ c, Context.prepare codes book ⟨["a"], ["b"]⟩ true = .ok c ∧ c.book = book ∧ ∃ t,
        some (.candidate t) ∈
          ((Search.start c {}).calls [.advance {} 1, .restore, .advance {} 1]).2 ∧
        t.proof.length = 1 :=
      ⟨_, _, by cbv, _, by cbv, by cbv, _, List.mem_of_getElem? (i := 2) (by cbv), by cbv⟩
    obtain ⟨book, codes, hbook, c, -, hsame, t, ht, hlength⟩ := hrun
    obtain ⟨-, -, hcandidates⟩ := states_justified.1 c {} _ (hsame ▸ .replace hbook)
    exact ⟨c, t, hlength, hcandidates t ht⟩
  · have hrun : ∃ p, Prover.setAxioms {} [⟨["a"], ["b"]⟩] = .ok p ∧ ∃ s,
        p.start ⟨["a"], ["b"]⟩ = .ok s ∧ (s.advance {} 9).2.1.proofs = 1 ∧ ∃ t,
        ofSnapshot (s.advance {} 9).2.1.snapshot = .ok t :=
      ⟨_, by cbv, _, by cbv, by cbv, _, by cbv⟩
    obtain ⟨p, hp, s, hs, hproofs, t, ht⟩ := hrun
    have hrevived : s.Revived (0 + (s.advance {} 9).2.1.proofs) t :=
      .resume (.advance {} 9 .start) ht
    rw [hproofs] at hrevived
    have hentered := Prover.Entered.setAxioms (.fresh _) hp
    obtain ⟨-, -, -, hrun⟩ := states_justified.2 p _ _ s t _ hentered hs hrevived
    exact ⟨p, s, t, hentered, hs, hrevived, hrun⟩

end Session

end ThueProver
