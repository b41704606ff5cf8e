import ThueProver.Proofs.Termination

/-!
# The best partial trace

A search keeps one of the states it has taken up, and a session that comes to no proof
reports the proof of that state. The running choice compares a state with the last
winner only. It is nevertheless the first of the best, because to better a state is to
have more bits in common, or as many with a shorter proof, and this is a strict order
on all states.

The number of bits of the common factor does not decide which factor is larger. A state
that was passed over may have the larger factor, but then not twice as large, and its
proof is not shorter; and among states with the same factor the choice is the shortest
proof. The state kept has the largest factor exactly when it has the largest of those
with as many bits.
-/
namespace ThueProver

namespace State

/-- What both sides have in common. -/
def shared (s : State) : Nat := Nat.gcd s.left s.right

variable {s t u : State}

theorem sharedBits_le_iff (s : State) (n : Nat) : s.sharedBits ≤ n ↔ s.shared < 2 ^ n := by
  unfold sharedBits
  by_cases hzero : s.shared = 0
  · rw [shared] at hzero ⊢
    simp [hzero]
  · rw [shared] at hzero ⊢
    simp only [if_neg hzero]
    rw [Nat.add_one_le_iff, Nat.log2_lt hzero]

/-- More in common never has fewer bits. -/
theorem sharedBits_mono (h : s.shared ≤ t.shared) : s.sharedBits ≤ t.sharedBits :=
  (sharedBits_le_iff s _).mpr (Nat.lt_of_le_of_lt h ((sharedBits_le_iff t _).mp (Nat.le_refl _)))

/-- With as many bits the common factor is not twice as large. -/
theorem shared_lt_of_sharedBits_le (h : s.sharedBits ≤ t.sharedBits) :
    s.shared = 0 ∨ s.shared < 2 * t.shared := by
  have hbelow := (sharedBits_le_iff s _).mp h
  cases hbits : t.sharedBits with
  | zero =>
      rw [hbits] at hbelow
      left
      simpa using hbelow
  | succ n =>
      right
      have hlarge : 2 ^ n ≤ t.shared := by
        rw [← Nat.not_lt, ← sharedBits_le_iff]
        omega
      rw [hbits, Nat.pow_succ] at hbelow
      omega

theorem betters_iff : s.betters t = true ↔ t.sharedBits < s.sharedBits ∨
    s.sharedBits = t.sharedBits ∧ s.proof.length < t.proof.length := by
  simp [betters]

theorem betters_trans (hst : s.betters t = true) (htu : t.betters u = true) :
    s.betters u = true := by
  rw [betters_iff] at *
  omega

theorem not_betters_of_betters (h : s.betters t = true) : t.betters s = false := by
  rw [← Bool.not_eq_true, betters_iff]
  rw [betters_iff] at h
  omega

theorem sharedBits_le_of_not_betters (h : s.betters t = false) : s.sharedBits ≤ t.sharedBits := by
  rw [← Bool.not_eq_true, betters_iff] at h
  omega

/-- What does not better a state is bettered by all that betters the state. -/
theorem betters_of_not_betters (hst : s.betters t = true) (hut : u.betters t = false) :
    s.betters u = true := by
  rw [← Bool.not_eq_true, betters_iff] at hut
  rw [betters_iff] at *
  omega

/-- What does not better a state has no more in common with as short a proof. -/
theorem length_le_of_not_betters (hts : t.betters s = false) (h : s.shared ≤ t.shared) :
    s.proof.length ≤ t.proof.length := by
  have hbits := sharedBits_mono h
  rw [← Bool.not_eq_true, betters_iff] at hts
  omega

end State

namespace Search

variable {origin s t : Search} {restored : Bool} {taken : List State} {event : Option SearchEvent}

/-- The state that is kept is the first of the best that were taken up. -/
structure Leads (s : Search) (taken : List State) : Prop where
  none_iff : s.best = none ↔ taken = []
  first : ∀ b, s.best = some b → ∃ before after, taken = before ++ b :: after ∧
    (∀ u ∈ before, b.betters u = true) ∧ ∀ u ∈ after, u.betters b = false

/-- A state that is observed becomes the best if it betters the best before. -/
theorem Leads.observe (h : s.Leads taken) (state : State) :
    (s.observe state).Leads (taken ++ [state]) := by
  cases hbest : s.best with
  | none =>
      have hnew : (s.observe state).best = some state := by simp only [Search.observe, hbest]
      refine ⟨by simp [hnew], ?_⟩
      intro b hb
      obtain rfl : state = b := Option.some.inj (hnew.symm.trans hb)
      rw [h.none_iff.mp hbest]
      exact ⟨[], [], rfl, by simp, by simp⟩
  | some best =>
      obtain ⟨before, after, htaken, hbefore, hafter⟩ := h.first best hbest
      cases hbetters : state.betters best with
      | true =>
          have hnew : (s.observe state).best = some state := by
            simp only [Search.observe, hbest, hbetters, if_true]
          refine ⟨by simp [hnew], ?_⟩
          intro b hb
          obtain rfl : state = b := Option.some.inj (hnew.symm.trans hb)
          refine ⟨taken, [], rfl, ?_, by simp⟩
          rw [htaken]
          intro u hu
          rcases List.mem_append.mp hu with hu | hu
          · exact State.betters_trans hbetters (hbefore u hu)
          rcases List.mem_cons.mp hu with rfl | hu
          · exact hbetters
          · exact State.betters_of_not_betters hbetters (hafter u hu)
      | false =>
          have hnew : (s.observe state).best = some best := by
            simp only [Search.observe, hbest, hbetters, Bool.false_eq_true, if_false]
          refine ⟨by simp [hnew], ?_⟩
          intro b hb
          obtain rfl : best = b := Option.some.inj (hnew.symm.trans hb)
          refine ⟨before, after ++ [state], by rw [htaken]; simp, hbefore, ?_⟩
          intro u hu
          rcases List.mem_append.mp hu with hu | hu
          · exact hafter u hu
          · rw [List.mem_singleton.mp hu]
            exact hbetters

theorem Leads.of_best_eq (h : s.Leads taken) (hbest : t.best = s.best) : t.Leads taken :=
  ⟨hbest ▸ h.none_iff, hbest ▸ h.first⟩

theorem Leads.step (h : s.Leads taken) (hstep : s.Went t event) :
    t.Leads (taken ++ s.upNext?.toList) := by
  cases hstep with
  | halted reason hreason =>
      rw [upNext?_of_stopped hreason, Option.toList_none, List.append_nil]
      exact h.of_best_eq rfl
  | emptied hgo hpop =>
      rw [upNext?_of_empty hgo hpop, Option.toList_none, List.append_nil]
      exact h.of_best_eq rfl
  | @handled state frontier _ _ hgo hpop hhandled =>
      rw [upNext?_of_popped hgo hpop]
      have hpopped : Leads { s with frontier } taken := h.of_best_eq rfl
      exact (hpopped.observe state).of_best_eq hhandled.keeps.best

theorem Ran.leads {context : Context} {limits : Limits}
    (h : (Search.start context limits).Ran restored taken s) : s.Leads taken := by
  induction h with
  | start =>
      refine ⟨by simp [Search.start], ?_⟩
      intro b hb
      cases hb
  | step worker _ ih => exact ih.step (went worker _)
  | cancel _ ih => exact ih.of_best_eq rfl
  | renew _ ih => exact ih.of_best_eq rfl
  | wait ms _ ih => exact ih.of_best_eq rfl
  | restore _ ih => exact ih.of_best_eq rfl

/-- No state that was taken up betters the one that is kept. -/
theorem Leads.not_betters (h : s.Leads taken) {b u : State} (hb : s.best = some b)
    (hu : u ∈ taken) : u.betters b = false := by
  obtain ⟨before, after, rfl, hbefore, hafter⟩ := h.first b hb
  rcases List.mem_append.mp hu with hu | hu
  · exact State.not_betters_of_betters (hbefore u hu)
  rcases List.mem_cons.mp hu with rfl | hu
  · rw [← Bool.not_eq_true, State.betters_iff]
    omega
  · exact hafter u hu

/-- The search keeps a state that has as much in common as any that it took up, and the
shortest proof of those with as much. -/
def KeepsLargest (s : Search) (taken : List State) : Prop :=
  ∃ b ∈ taken, s.best = some b ∧
    ∀ u ∈ taken, u.shared ≤ b.shared ∧ (u.shared = b.shared → b.proof.length ≤ u.proof.length)

theorem Leads.keepsLargest_iff (h : s.Leads taken) {b : State} (hb : s.best = some b) :
    s.KeepsLargest taken ↔
      ∀ u ∈ taken, u.sharedBits = b.sharedBits → u.shared ≤ b.shared := by
  constructor
  · intro hlargest u hu _
    obtain ⟨b', -, hb', hmost⟩ := hlargest
    obtain rfl : b = b' := Option.some.inj (hb.symm.trans hb')
    exact (hmost u hu).1
  · intro hties
    obtain ⟨before, after, htaken, -⟩ := h.first b hb
    refine ⟨b, by simp [htaken], hb, ?_⟩
    intro u hu
    have hnot := h.not_betters hb hu
    constructor
    · by_cases hbits : u.sharedBits = b.sharedBits
      · exact hties u hu hbits
      · have hfewer := State.sharedBits_le_of_not_betters hnot
        have hless : ¬ b.shared ≤ u.shared := by
          intro hle
          exact hbits (Nat.le_antisymm hfewer (State.sharedBits_mono hle))
        omega
    · intro heq
      exact State.length_le_of_not_betters hnot (Nat.le_of_eq heq.symm)

end Search

namespace Session

variable {axioms : List Equation} {goal : Equation}

/-- The report of a session without a proof has the best partial trace of its search. -/
structure Traced (axioms : List Equation) (goal : Equation) (s : Session) : Prop where
  begun : s.search.Begun axioms goal
  trace : ∀ r, s.outcome = some r → r.isProved = false →
    r.proof = s.search.bestProof ∧ r.stats = s.search.stats

theorem Traced.step {s : Session} (h : s.Traced axioms goal) (hnone : s.outcome = none)
    (worker : Worker) : (s.step worker).2.1.Traced axioms goal := by
  have hbegun : (s.step worker).2.1.search.Begun axioms goal :=
    step_search worker s ▸ h.begun.step worker
  obtain ⟨taken, hexplored⟩ := h.begun.explored
  have hstepped := stepped_of_explored hexplored worker
  generalize (s.step worker).2.1 = t at hbegun hstepped ⊢
  generalize (s.step worker).2.2 = progress at hstepped
  refine ⟨hbegun, ?_⟩
  intro r hr hproved
  cases hstepped with
  | searched hsearch =>
      rw [hnone] at hr
      cases hr
  | rejected hsearch =>
      rw [hnone] at hr
      cases hr
  | proved replayed hsearch heq =>
      cases hr
      rw [heq] at hproved
      cases hproved
  | closed replayed hsearch heq =>
      cases hr
      rw [heq]
      exact ⟨rfl, rfl⟩

theorem Revived.traced {origin s : Session} {lost : Nat} (h : origin.Revived lost s)
    (horigin : origin.Traced axioms goal) : s.Traced axioms goal := by
  refine h.invariant (P := fun _ s => s.Traced axioms goal) horigin
    (fun worker _ s hs hnone => hs.step hnone worker) ?_ ?_
  · intro _ s cancelled elapsedMs _ hs
    exact ⟨hs.begun.flagged cancelled elapsedMs, hs.trace⟩
  · intro _ s t hs ht
    rw [hs.begun.ofSnapshot, Except.ok.injEq] at ht
    subst ht
    refine ⟨hs.begun.restored, ?_⟩
    intro r hr
    cases hr

theorem traced_start {p : Prover} (hp : p.Entered axioms) {s : Session}
    (hs : p.start goal = .ok s) : s.Traced axioms goal := by
  obtain ⟨hlimits, context, hcontext, rfl⟩ := Prover.start_eq_ok.mp hs
  refine ⟨Search.begun_start hp hlimits hcontext, ?_⟩
  intro r hr
  cases hr

end Session

namespace Search

/-- After any positive number of states, whatever happened in between, a search keeps
the first of the best states that it took up. No other one has more bits in common, so
none has twice as much in common; one that has as much or more in common has no shorter
proof. The state kept has the most in common if and only if it has the most of those
with as many bits. A session without a proof reports the proof of the state that its
search keeps. -/
theorem best_partial_trace (c : Context) (limits : Limits) :
    (∀ {restored : Bool} {taken : List State} {s : Search},
      (start c limits).Ran restored taken s → taken ≠ [] → ∃ b before after,
        s.best = some b ∧ taken = before ++ b :: after ∧
        (∀ u ∈ before, b.betters u = true) ∧ (∀ u ∈ after, u.betters b = false) ∧
        (∀ u ∈ taken, u.sharedBits ≤ b.sharedBits ∧
          (u.shared = 0 ∨ u.shared < 2 * b.shared) ∧
          (b.shared ≤ u.shared → b.proof.length ≤ u.proof.length)) ∧
        (s.KeepsLargest taken ↔
          ∀ u ∈ taken, u.sharedBits = b.sharedBits → u.shared ≤ b.shared)) ∧
    ∀ {p : Prover} {axioms : List Equation} {goal : Equation} {origin s : Session} {lost : Nat}
      {r : Report}, p.Entered axioms → p.start goal = .ok origin →
      origin.search = start c limits → origin.Revived lost s →
      s.outcome = some r → r.isProved = false → r.proof = s.search.bestProof ∧
        ∃ restored taken, (start c limits).Ran restored taken s.search ∧
          r.stats.popped = taken.length := by
  constructor
  · intro restored taken s hran hsome
    have hleads := hran.leads
    cases hbest : s.best with
    | none => exact absurd (hleads.none_iff.mp hbest) hsome
    | some b =>
        obtain ⟨before, after, htaken, hbefore, hafter⟩ := hleads.first b hbest
        refine ⟨b, before, after, rfl, htaken, hbefore, hafter, ?_, hleads.keepsLargest_iff hbest⟩
        intro u hu
        have hnot := hleads.not_betters hbest hu
        have hbits := State.sharedBits_le_of_not_betters hnot
        exact ⟨hbits, State.shared_lt_of_sharedBits_le hbits, State.length_le_of_not_betters hnot⟩
  · intro p axioms goal origin s lost r hp hs horigin hrevived hr hproved
    obtain ⟨hproof, hstats⟩ := (hrevived.traced (Session.traced_start hp hs)).trace r hr hproved
    obtain ⟨restored, taken, hran⟩ := hrevived.ran hp hs
    rw [horigin] at hran
    refine ⟨hproof, restored, taken, hran, ?_⟩
    rw [hstats, hran.budgeted.popped]

/-- Two states have two bits in common, and a proof of one step; the first is kept. -/
theorem best_partial_trace_first :
    ∃ (p : Prover) (origin s : Session) (r : Report) (taken : List State) (b : State),
      p.start ⟨["a", "c"], ["b", "d"]⟩ = .ok origin ∧ origin.Revived 0 s ∧ s.outcome = some r ∧
      r.status = .noProof ∧ taken.length = 4 ∧ s.search.best = some b ∧
      (∃ before after, taken = before ++ b :: after ∧ ∀ u ∈ after, u.betters b = false) ∧
      (∀ u ∈ taken, u.sharedBits ≤ b.sharedBits) ∧ r.proof = b.proof ∧
      r.proof = [⟨⟨.right, .expand⟩, 1⟩] := by
  have hrun : ∃ p, Prover.setAxioms {} [⟨["a"], ["b"]⟩] = .ok p ∧ ∃ origin,
      p.start ⟨["a", "c"], ["b", "d"]⟩ = .ok origin ∧ ∃ r,
      (origin.advance {} 9).2.2 = .reported r ∧ r.status = .noProof ∧ r.isProved = false ∧
      r.stats.popped = 4 ∧ r.proof = [⟨⟨.right, .expand⟩, 1⟩] :=
    ⟨_, by cbv, _, by cbv, _, by cbv, by cbv, by cbv, by cbv, by cbv⟩
  obtain ⟨p, hp, origin, hs, r, hr, hstatus, hunproved, hpopped, hproof⟩ := hrun
  have hentered : p.Entered _ := .setAxioms (.fresh _) hp
  have hrevived : origin.Revived 0 (origin.advance {} 9).2.1 := .advance {} 9 .start
  have houtcome : (origin.advance {} 9).2.1.outcome = some r := by
    rw [Session.advance_outcome, hr]
    rfl
  have hfresh : ∃ c, origin.search = start c p.limits := by
    obtain ⟨-, c, -, rfl⟩ := Prover.start_eq_ok.mp hs
    exact ⟨c, rfl⟩
  obtain ⟨c, hc⟩ := hfresh
  obtain ⟨hbest, hreported⟩ := best_partial_trace c p.limits
  obtain ⟨htrace, restored, taken, hran, hlength⟩ :=
    hreported hentered hs hc hrevived houtcome hunproved
  have hfour : taken.length = 4 := hlength.symm.trans hpopped
  have hsome : taken ≠ [] := List.ne_nil_of_length_pos (by omega)
  obtain ⟨b, before, after, hb, htaken, -, hafter, hcompare, -⟩ := hbest hran hsome
  refine ⟨p, origin, _, r, taken, b, hs, hrevived, houtcome, hstatus, hfour, hb,
    ⟨before, after, htaken, hafter⟩, fun u hu => (hcompare u hu).1, ?_, hproof⟩
  rw [htrace, bestProof, hb]
  rfl

/-- The sides of the theorem have 2 in common and no step of the proof. Two steps later
they have 3 in common, which has as many bits, and the search keeps the theorem. -/
theorem best_shares_less :
    ∃ (p : Prover) (origin : Session), Prover.setAxioms {} [⟨["a"], ["b"]⟩] = .ok p ∧
      p.start ⟨["a", "c"], ["a", "d"]⟩ = .ok origin ∧
      ∃ (taken : List State) (s : Search) (b t : State), origin.search.Ran false taken s ∧
        s.best = some b ∧ t ∈ taken ∧ b.shared = 2 ∧ t.shared = 3 ∧ b.proof = [] ∧
        t.proof = [⟨⟨.left, .expand⟩, 1⟩, ⟨⟨.right, .expand⟩, 1⟩] ∧ ¬ s.KeepsLargest taken ∧
        ∃ r, (origin.run {}).2.2 = .ok r ∧ r.status = .noProof ∧ r.proof = [] := by
  have hrun : ∃ p, Prover.setAxioms {} [⟨["a"], ["b"]⟩] = .ok p ∧ ∃ origin,
      p.start ⟨["a", "c"], ["a", "d"]⟩ = .ok origin ∧ ∃ b,
      (((origin.search.step {}).2.1.step {}).2.1.step {}).2.1.best = some b ∧ ∃ t,
      ((origin.search.step {}).2.1.step {}).2.1.upNext? = some t ∧ b.shared = 2 ∧
      t.shared = 3 ∧ b.proof = [] ∧ t.proof = [⟨⟨.left, .expand⟩, 1⟩, ⟨⟨.right, .expand⟩, 1⟩] ∧ ∃ r,
      (origin.advance {} 9).2.2 = .reported r ∧ r.status = .noProof ∧ r.proof = [] :=
    ⟨_, by cbv, _, by cbv, _, by cbv, _, by cbv, by cbv, by cbv, by cbv, by cbv, _, by cbv, by cbv,
      by cbv⟩
  obtain ⟨p, hp, origin, hs, b, hb, t, ht, hleast, hlargest, hshort, hlong, r, hr, hreport⟩ := hrun
  have htwice : ∃ taken, origin.search.Ran false taken
      ((origin.search.step {}).2.1.step {}).2.1 := ⟨_, (Ran.start.step {}).step {}⟩
  obtain ⟨taken, htwice⟩ := htwice
  have hin : t ∈ taken ++ ((origin.search.step {}).2.1.step {}).2.1.upNext?.toList := by
    rw [ht]
    simp
  refine ⟨p, origin, hp, hs, _, _, b, t, htwice.step {}, hb, hin, hleast, hlargest, hshort, hlong,
    ?_, r, Session.run_of_advance hr, hreport⟩
  intro hkept
  obtain ⟨b', -, hb', hmost⟩ := hkept
  obtain rfl : b = b' := Option.some.inj (hb.symm.trans hb')
  have hle := (hmost t hin).1
  omega

end Search

end ThueProver
