import ThueProver.Proofs.Registry

/-!
# Loading axioms at once and one by one

Axioms can be given to a prover as a list, which makes a fresh book and a fresh codebook,
or one after the other, which extends both where they are. The two ways ask for room in
different words: a list must not be longer than the limit, and for one more axiom the
book must be shorter than it. What is asked of the prover in between works on a copy.

The calls are spelled out here with the writes they make, as a caller sees them. Whatever
was loaded before plays no part, so all of it comes down to one prover that is given by
its axioms, `loaded`.
-/
namespace ThueProver
namespace Prover

/-- A call on a prover. -/
inductive Request where
  | setAxioms (axioms : List Equation)
  | addAxiom (e : Equation)
  | start (goal : Equation)
  | prove (worker : Worker) (goal : Equation)
  | callGraph (goal : Equation)

/-- What a call returns. Only calls that change the axioms are refused as such. -/
inductive Answer where
  | done
  | number (id : Nat)
  | refused (error : ProofError)
  | session (result : Except ProofError Session)
  | report (result : Except ProofError Report)
  | graph (result : Except ProofError CallGraph)

def Request.added? : Request → Option Equation
  | .addAxiom e => some e
  | _ => none

def registry (p : Prover) : Registry := ⟨p.book, p.codes⟩

def write (p : Prover) (r : Registry) : Prover := { p with book := r.book, codes := r.codes }

/-- The answer to a call and the prover it leaves behind. A list of axioms is coded into a
registry of its own, which replaces that of the prover at the end. One axiom is coded into
the registry of the prover, and what was written there stays also with an error. -/
def serve (p : Prover) : Request → Answer × Prover
  | .setAxioms axioms =>
      if p.limits.maxAxioms < axioms.length then
        (.refused (.tooManyAxioms p.limits.maxAxioms axioms.length), p)
      else
        match Registry.perform {} (.setAxioms axioms) with
        | (some error, _) => (.refused error, p)
        | (none, fresh) => (.done, p.write fresh)
  | .addAxiom e =>
      if p.limits.maxAxioms ≤ p.book.size then
        (.refused (.noRoomForAxiom p.limits.maxAxioms (p.book.size + 1)), p)
      else
        match p.registry.perform (.addAxiom e) with
        | (some error, written) => (.refused error, p.write written)
        | (none, written) => (.number p.book.nextId, p.write written)
  | .start goal => (.session (p.start goal), p)
  | .prove worker goal => (.report (p.prove worker goal), p)
  | .callGraph goal => (.graph (p.callGraph goal), p)

/-- The calls of a list with their answers, and what they leave behind. -/
def serveAll (p : Prover) : List Request → List (Request × Answer) × Prover
  | [] => ([], p)
  | request :: rest =>
      let (answer, p) := p.serve request
      let (log, p) := p.serveAll rest
      ((request, answer) :: log, p)

/-- The answers to the axioms that were added, in order. -/
def additions (log : List (Request × Answer)) : List Answer :=
  log.filterMap fun (request, answer) => request.added?.map fun _ => answer

variable {p q : Prover} {axioms xs : List Equation} {e : Equation} {id : Nat}
  {request : Request} {error : ProofError}

/-! ## The calls as operations on values -/

theorem serve_setAxioms (p : Prover) (axioms : List Equation) :
    p.serve (.setAxioms axioms) =
      match p.setAxioms axioms with
      | .error error => (.refused error, p)
      | .ok q => (.done, q) := by
  simp only [serve, setAxioms, Registry.perform_eq]
  split_ifs
  · rfl
  · cases RuleBook.ofEquations {} axioms <;> rfl

theorem serve_addAxiom (p : Prover) (e : Equation) :
    p.serve (.addAxiom e) =
      match p.addAxiom e with
      | .error error => (.refused error, p)
      | .ok (id, q) => (.number id, q) := by
  simp only [serve, addAxiom, registry, Registry.perform_eq]
  split_ifs
  · rfl
  · cases p.book.add p.codes e <;> rfl

/-- A call that is refused leaves the prover as it was. -/
theorem serve_of_refused (h : (p.serve request).1 = .refused error) : (p.serve request).2 = p := by
  cases request with
  | setAxioms axioms =>
      rw [serve_setAxioms] at h ⊢
      cases hset : p.setAxioms axioms with
      | error error => rfl
      | ok q =>
          rw [hset] at h
          cases h
  | addAxiom e =>
      rw [serve_addAxiom] at h ⊢
      cases hadd : p.addAxiom e with
      | error error => rfl
      | ok added =>
          rw [hadd] at h
          cases h
  | start goal | prove worker goal | callGraph goal => cases h

/-! ## What is loaded -/

/-- The prover with these axioms in place of its own. -/
def loaded (p : Prover) (axioms : List Equation) : Prover :=
  p.write (Registry.applied {} (.setAxioms axioms))

theorem size_loaded (p : Prover) (axioms : List Equation) :
    (p.loaded axioms).book.size = axioms.length :=
  (RuleBook.size_appendAll {} {} axioms).trans (Nat.zero_add _)

theorem nextId_loaded (p : Prover) (axioms : List Equation) :
    (p.loaded axioms).book.nextId = axioms.length + 1 :=
  (RuleBook.nextId_appendAll {} {} axioms).trans (Nat.add_comm _ _)

theorem loaded_concat (p : Prover) (xs : List Equation) (e : Equation) :
    p.loaded (xs ++ [e]) = (p.loaded xs).write ((p.loaded xs).registry.applied (.addAxiom e)) := by
  simp only [loaded, Registry.applied, RuleBook.appendAll_append]
  rfl

theorem setAxioms_eq_ok_iff :
    p.setAxioms axioms = .ok q ↔
      axioms.length ≤ p.limits.maxAxioms ∧ (∀ e ∈ axioms, e.Usable) ∧ p.loaded axioms = q := by
  unfold setAxioms
  split_ifs with hlimit
  · have hroom : ¬ axioms.length ≤ p.limits.maxAxioms := Nat.not_le_of_lt hlimit
    simp [hroom]
  · have hroom : axioms.length ≤ p.limits.maxAxioms := Nat.le_of_not_lt hlimit
    rw [RuleBook.ofEquations, ← @RuleBook.checkAll_eq_ok 1 axioms]
    cases RuleBook.checkAll 1 axioms with
    | error error => simp [Except.map]
    | ok _ =>
        simp only [Except.map, hroom, Except.ok.injEq, true_and]
        rfl

theorem addAxiom_eq_ok_iff :
    p.addAxiom e = .ok (id, q) ↔
      p.book.size < p.limits.maxAxioms ∧ e.Usable ∧ p.book.nextId = id ∧
        p.write (p.registry.applied (.addAxiom e)) = q := by
  unfold addAxiom
  split_ifs with hlimit
  · have hroom : ¬ p.book.size < p.limits.maxAxioms := Nat.not_lt_of_le hlimit
    simp [hroom]
  · have hroom : p.book.size < p.limits.maxAxioms := Nat.lt_of_not_le hlimit
    rw [RuleBook.add, ← @Equation.check_eq_ok e (.axiomNumber p.book.nextId)]
    cases e.check (.axiomNumber p.book.nextId) with
    | error error => simp [Except.map]
    | ok _ =>
        simp only [Except.map, hroom, Except.ok.injEq, Prod.mk.injEq, true_and]
        rfl

theorem addAxiom_loaded_eq_ok_iff :
    (p.loaded xs).addAxiom e = .ok (id, q) ↔
      xs.length < p.limits.maxAxioms ∧ e.Usable ∧ xs.length + 1 = id ∧
        p.loaded (xs ++ [e]) = q := by
  rw [addAxiom_eq_ok_iff, size_loaded, nextId_loaded, loaded_concat]
  rfl

/-- A list is refused for its length or for an equation that is not usable. -/
theorem setAxioms_refused_iff (p : Prover) (axioms : List Equation) :
    (∃ error, (p.serve (.setAxioms axioms)).1 = .refused error) ↔
      p.limits.maxAxioms < axioms.length ∨ ∃ e ∈ axioms, ¬ e.Usable := by
  rw [serve_setAxioms]
  cases hset : p.setAxioms axioms with
  | error error =>
      refine iff_of_true ⟨error, rfl⟩ ?_
      by_contra hfine
      simp only [not_or, Nat.not_lt, not_exists, not_and, not_not] at hfine
      cases hset.symm.trans (setAxioms_eq_ok_iff.mpr ⟨hfine.1, hfine.2, rfl⟩)
  | ok q =>
      obtain ⟨hroom, husable, -⟩ := setAxioms_eq_ok_iff.mp hset
      refine iff_of_false (by simp) ?_
      rintro (hlong | ⟨e, he, hflawed⟩)
      · exact absurd hroom (Nat.not_le_of_lt hlong)
      · exact hflawed (husable e he)

/-- One axiom is refused if it would be one too many or if it is not usable. -/
theorem addAxiom_refused_iff (p : Prover) (e : Equation) :
    (∃ error, (p.serve (.addAxiom e)).1 = .refused error) ↔
      p.limits.maxAxioms < p.book.size + 1 ∨ ¬ e.Usable := by
  rw [serve_addAxiom]
  cases hadd : p.addAxiom e with
  | error error =>
      refine iff_of_true ⟨error, rfl⟩ ?_
      by_contra hfine
      simp only [not_or, Nat.not_lt, not_not] at hfine
      cases hadd.symm.trans (addAxiom_eq_ok_iff.mpr ⟨hfine.1, hfine.2, rfl, rfl⟩)
  | ok added =>
      obtain ⟨id, q⟩ := added
      obtain ⟨hroom, husable, -⟩ := addAxiom_eq_ok_iff.mp hadd
      refine iff_of_false (by simp) ?_
      rintro (hfull | hflawed)
      · exact absurd hroom (Nat.not_lt_of_le (Nat.le_of_lt_succ hfull))
      · exact hflawed husable

/-! ## One by one -/

variable {p₀ p₁ : Prover} {rest : List Equation} {requests : List Request}

/-- An axiom that is added is loaded as if it had stood at the end of the list. -/
theorem setAxioms_concat (hxs : p.setAxioms xs = .ok p₀) (hadd : p₀.addAxiom e = .ok (id, p₁)) :
    xs.length + 1 = id ∧ p.setAxioms (xs ++ [e]) = .ok p₁ := by
  obtain ⟨-, husable, rfl⟩ := setAxioms_eq_ok_iff.mp hxs
  obtain ⟨hroom, he, hid, hloaded⟩ := addAxiom_loaded_eq_ok_iff.mp hadd
  refine ⟨hid, setAxioms_eq_ok_iff.mpr ⟨?_, ?_, hloaded⟩⟩
  · rw [List.length_append]
    exact hroom
  · simpa [or_imp, forall_and] using And.intro husable he

/-- An axiom of a list that can be loaded can be added to those before it. -/
theorem exists_addAxiom_of_setAxioms (hxs : p.setAxioms xs = .ok p₀)
    (hload : p.setAxioms (xs ++ e :: rest) = .ok q) : ∃ added, p₀.addAxiom e = .ok added := by
  obtain ⟨-, -, rfl⟩ := setAxioms_eq_ok_iff.mp hxs
  obtain ⟨hroom, husable, -⟩ := setAxioms_eq_ok_iff.mp hload
  have hlength : xs.length < p.limits.maxAxioms := by
    rw [List.length_append, List.length_cons] at hroom
    omega
  have he : e.Usable := husable e (List.mem_append_right _ List.mem_cons_self)
  exact ⟨_, addAxiom_loaded_eq_ok_iff.mpr ⟨hlength, he, rfl, rfl⟩⟩

/-- A list can only be loaded if its beginning can. -/
theorem exists_setAxioms_of_append (hload : p.setAxioms (xs ++ rest) = .ok q) :
    ∃ p₀, p.setAxioms xs = .ok p₀ := by
  obtain ⟨hroom, husable, -⟩ := setAxioms_eq_ok_iff.mp hload
  rw [List.length_append] at hroom
  exact ⟨_, setAxioms_eq_ok_iff.mpr
    ⟨by omega, fun e he => husable e (List.mem_append_left _ he), rfl⟩⟩

/-- Nothing but a change of the axioms leaves a trace on the prover. -/
theorem serve_keeps (hkept : ∀ axioms, request ≠ .setAxioms axioms)
    (hadded : request.added? = none) : (p.serve request).2 = p := by
  cases request with
  | setAxioms axioms => exact absurd rfl (hkept axioms)
  | addAxiom e => cases hadded
  | start goal | prove worker goal | callGraph goal => rfl

/-- Once some axioms are loaded, loading them with others is to add the others. The
induction is on the calls; each axiom that is added moves over to those loaded. -/
theorem setAxioms_append_eq_ok_iff (hxs : p.setAxioms xs = .ok p₀)
    (hkept : ∀ axioms, .setAxioms axioms ∉ requests) :
    p.setAxioms (xs ++ requests.filterMap Request.added?) = .ok q ↔
      additions (p₀.serveAll requests).1 =
          (List.range' (xs.length + 1) (requests.filterMap Request.added?).length).map .number ∧
        (p₀.serveAll requests).2 = q := by
  induction requests generalizing xs p₀ with
  | nil => simp [additions, serveAll, hxs]
  | cons request rest ih =>
      have hrest : ∀ axioms, .setAxioms axioms ∉ rest :=
        fun axioms haxioms => hkept axioms (List.mem_cons_of_mem _ haxioms)
      cases hadded : request.added? with
      | none =>
          have hsame : (p₀.serve request).2 = p₀ :=
            serve_keeps (fun axioms heq => hkept axioms (heq ▸ List.mem_cons_self)) hadded
          simpa [serveAll, additions, hadded, hsame] using ih hxs hrest
      | some e =>
          obtain rfl : request = .addAxiom e := by
            cases request <;> cases hadded
            rfl
          simp only [List.filterMap_cons_some hadded, List.length_cons, List.range'_succ,
            List.map_cons, serveAll, serve_addAxiom]
          cases hadd : p₀.addAxiom e with
          | error error =>
              refine iff_of_false ?_ (by simp [additions, hadded])
              intro hload
              obtain ⟨added, hfits⟩ := exists_addAxiom_of_setAxioms hxs hload
              cases hadd.symm.trans hfits
          | ok added =>
              obtain ⟨id, p₁⟩ := added
              obtain ⟨rfl, hnext⟩ := setAxioms_concat hxs hadd
              have hlater := ih hnext hrest
              rw [List.append_assoc, List.singleton_append] at hlater
              rw [hlater]
              simp [additions, hadded]

/-- Loading at once and one by one is the same. Axioms can be loaded together exactly if
the first of them can and each of the others is then added under the next number, and it
is the same prover that results, with all its codes and rules, whatever else was asked of
it in between. A call that changes the axioms is refused exactly if there would be too many
or one is not usable, and a call that is refused leaves the prover as it was. -/
theorem loaded_one_by_one (p : Prover) :
    (∀ (xs : List Equation) (requests : List Request),
      (∀ axioms, .setAxioms axioms ∉ requests) →
      let added := requests.filterMap Request.added?
      let first := p.serve (.setAxioms xs)
      let later := first.2.serveAll requests
      ∀ q, p.setAxioms (xs ++ added) = .ok q ↔
        first.1 = .done ∧
          additions later.1 = (List.range' (xs.length + 1) added.length).map .number ∧
          later.2 = q) ∧
    (∀ request error, (p.serve request).1 = .refused error → (p.serve request).2 = p) ∧
    (∀ axioms, (∃ error, (p.serve (.setAxioms axioms)).1 = .refused error) ↔
      p.limits.maxAxioms < axioms.length ∨ ∃ e ∈ axioms, ¬ e.Usable) ∧
    ∀ e, (∃ error, (p.serve (.addAxiom e)).1 = .refused error) ↔
      p.limits.maxAxioms < p.book.size + 1 ∨ ¬ e.Usable := by
  refine ⟨?_, fun request error => serve_of_refused, setAxioms_refused_iff p,
    addAxiom_refused_iff p⟩
  intro xs requests hkept added first later q
  simp only [first, later, serve_setAxioms]
  cases hset : p.setAxioms xs with
  | ok p₀ => simpa using setAxioms_append_eq_ok_iff hset hkept
  | error error =>
      refine iff_of_false ?_ (by simp)
      intro hload
      obtain ⟨p₀, hfits⟩ := exists_setAxioms_of_append hload
      cases hset.symm.trans hfits

/-- A proof and a call graph are asked for before and after the axiom that is added. -/
theorem loaded_one_by_one_asked_between :
    let between : List Request :=
      [.prove {} ⟨["a"], ["b"]⟩, .addAxiom ⟨["b"], ["c"]⟩, .callGraph ⟨["a"], ["c"]⟩]
    (∀ axioms, .setAxioms axioms ∉ between) ∧
      ∃ q, setAxioms {} ([⟨["a"], ["b"]⟩] ++ [⟨["b"], ["c"]⟩]) = .ok q ∧
        (serve {} (.setAxioms [⟨["a"], ["b"]⟩])).1 = .done ∧
        additions ((serve {} (.setAxioms [⟨["a"], ["b"]⟩])).2.serveAll between).1 = [.number 2] ∧
        ((serve {} (.setAxioms [⟨["a"], ["b"]⟩])).2.serveAll between).2 = q := by
  intro between
  have hkept : ∀ axioms, .setAxioms axioms ∉ between := by simp [between]
  have hload : setAxioms {} ([⟨["a"], ["b"]⟩] ++ [⟨["b"], ["c"]⟩]) =
      .ok (loaded {} [⟨["a"], ["b"]⟩, ⟨["b"], ["c"]⟩]) :=
    setAxioms_eq_ok_iff.mpr ⟨by decide, by decide, rfl⟩
  exact ⟨hkept, _, hload, ((loaded_one_by_one {}).1 [⟨["a"], ["b"]⟩] between hkept _).mp hload⟩

end Prover
end ThueProver
