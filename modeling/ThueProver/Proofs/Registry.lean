import ThueProver.Proofs.Coding
import ThueProver.Proofs.Moves

/-!
# Calls that write in place

A rule book and its codebook can be held together and written to in place: an
axiom is added, all axioms are replaced, or a theorem is coded. A call that fails
halfway would then leave behind what it had written. The calls are spelled out
here with each write where it happens, and the codebook handed on also with an
error. None of them writes before all of its equations have been checked, so the
operations on books and codebooks as values say all that the calls do.

From this follow the facts that others rely on, after any list of calls: numbers
are dense from 1, and every rule is coded by the codebook of the moment, however
much that has grown since the rule was entered.
-/
namespace ThueProver

/-- A rule book and the codebook its calls write to. -/
structure Registry where
  book : RuleBook := {}
  codes : Codebook := {}
  deriving DecidableEq, Repr

namespace Registry

inductive Request where
  | addAxiom (e : Equation)
  | setAxioms (axioms : List Equation)
  | setTheorem (e : Equation)
  deriving DecidableEq, Repr

/-- The equations of a request. -/
def Request.equations : Request → List Equation
  | .addAxiom e => [e]
  | .setAxioms axioms => axioms
  | .setTheorem e => [e]

/-- Codes an axiom and puts it at the end of the book. The codebook is what was
made of it, whether this succeeds or not. -/
def enter (book : RuleBook) (codes : Codebook) (e : Equation) :
    Except ProofError RuleBook × Codebook :=
  match e.check (.axiomNumber book.nextId) with
  | .error error => (.error error, codes)
  | .ok () =>
      let (left, codes) := codes.encode e.left
      let (right, codes) := codes.encode e.right
      let coded := CodedEquation.canonical ⟨left, right, e, false⟩
      (.ok { rules := book.rules ++ [⟨coded, book.nextId⟩], nextId := book.nextId + 1 }, codes)

/-- Enters axioms one by one and stops at the first error. What the axioms before
it wrote into the codebook stays there. -/
def enterAll (book : RuleBook) (codes : Codebook) :
    List Equation → Except ProofError RuleBook × Codebook
  | [] => (.ok book, codes)
  | e :: rest =>
      match enter book codes e with
      | (.error error, codes) => (.error error, codes)
      | (.ok book, codes) => enterAll book codes rest

/-- Codes the theorem; the book is not touched. -/
def enterTheorem (codes : Codebook) (e : Equation) : Except ProofError CodedEquation × Codebook :=
  match e.check .theoremToProve with
  | .error error => (.error error, codes)
  | .ok () =>
      let (left, codes) := codes.encode e.left
      let (right, codes) := codes.encode e.right
      (.ok (.canonical ⟨left, right, e, false⟩), codes)

/-- The error a request comes to, if any, and what it leaves behind. All axioms of
a list are checked before a fresh book is filled, which replaces the old one at
the end. -/
def perform (r : Registry) : Request → Option ProofError × Registry
  | .addAxiom e =>
      match enter r.book r.codes e with
      | (.error error, codes) => (some error, { r with codes })
      | (.ok book, codes) => (none, { book, codes })
  | .setAxioms axioms =>
      match RuleBook.checkAll 1 axioms with
      | .error error => (some error, r)
      | .ok () =>
          match enterAll {} r.codes axioms with
          | (.error error, codes) => (some error, { r with codes })
          | (.ok book, codes) => (none, { book, codes })
  | .setTheorem e =>
      match enterTheorem r.codes e with
      | (.error error, codes) => (some error, { r with codes })
      | (.ok _, codes) => (none, { r with codes })

/-- What a list of requests leaves behind. -/
def performAll (r : Registry) : List Request → Registry
  | [] => r
  | request :: rest => (r.perform request).2.performAll rest

/-! ## No call fails halfway -/

variable {book : RuleBook} {codes : Codebook} {r : Registry} {e : Equation}
  {axioms : List Equation} {request : Request}

theorem enter_of_usable (h : e.Usable) :
    enter book codes e = (.ok (book.append codes e).1, (book.append codes e).2) := by
  rw [enter, Equation.check_eq_ok.mpr h]
  rfl

/-- The checks made again while a book is filled cannot fail any more. -/
theorem enterAll_of_usable (h : ∀ e ∈ axioms, e.Usable) :
    enterAll book codes axioms =
      (.ok (book.appendAll codes axioms).1, (book.appendAll codes axioms).2) := by
  induction axioms generalizing book codes with
  | nil => rfl
  | cons e rest ih =>
      obtain ⟨he, hrest⟩ := List.forall_mem_cons.mp h
      rw [enterAll, enter_of_usable he]
      exact ih hrest

/-- The calls in place are the operations on values: `add`, `ofEquations` and
`codeTheorem` say what is left behind, and after an error that is what was there. -/
theorem perform_eq (r : Registry) (request : Request) :
    r.perform request =
      match request with
      | .addAxiom e =>
          match r.book.add r.codes e with
          | .error error => (some error, r)
          | .ok (book, codes) => (none, ⟨book, codes⟩)
      | .setAxioms axioms =>
          match RuleBook.ofEquations r.codes axioms with
          | .error error => (some error, r)
          | .ok (book, codes) => (none, ⟨book, codes⟩)
      | .setTheorem e =>
          match r.codes.codeTheorem e with
          | .error error => (some error, r)
          | .ok (_, codes) => (none, { r with codes }) := by
  cases request with
  | addAxiom e =>
      simp only [perform, enter, RuleBook.add]
      cases e.check (.axiomNumber r.book.nextId) <;> rfl
  | setAxioms axioms =>
      simp only [perform, RuleBook.ofEquations]
      cases hcheck : RuleBook.checkAll 1 axioms with
      | error error => rfl
      | ok _ =>
          simp only [enterAll_of_usable (RuleBook.checkAll_eq_ok.mp hcheck)]
          rfl
  | setTheorem e =>
      simp only [perform, enterTheorem, Codebook.codeTheorem]
      cases e.check .theoremToProve <;> rfl

/-- What a request makes of a registry if all its equations are usable. -/
def applied (r : Registry) : Request → Registry
  | .addAxiom e => ⟨(r.book.append r.codes e).1, (r.book.append r.codes e).2⟩
  | .setAxioms axioms =>
      ⟨(RuleBook.appendAll {} r.codes axioms).1, (RuleBook.appendAll {} r.codes axioms).2⟩
  | .setTheorem e => { r with codes := (r.codes.code e).2 }

theorem perform_of_usable (h : ∀ e ∈ request.equations, e.Usable) :
    r.perform request = (none, r.applied request) := by
  rw [perform_eq]
  cases request with
  | addAxiom e =>
      simp only [RuleBook.add, Equation.check_eq_ok.mpr (h e List.mem_cons_self)]
      rfl
  | setAxioms axioms =>
      have hcheck : RuleBook.checkAll 1 axioms = .ok () := RuleBook.checkAll_eq_ok.mpr h
      simp only [RuleBook.ofEquations, hcheck]
      rfl
  | setTheorem e =>
      simp only [Codebook.codeTheorem, Equation.check_eq_ok.mpr (h e List.mem_cons_self)]
      rfl

/-- One equation that is not usable is enough for an error, and the registry is
as it was. -/
theorem perform_of_flawed (h : ∃ e ∈ request.equations, ¬ e.Usable) :
    ∃ error, r.perform request = (some error, r) := by
  rw [perform_eq]
  obtain ⟨e, he, hflawed⟩ := h
  cases request with
  | addAxiom _ =>
      obtain rfl := List.mem_singleton.mp he
      cases hcheck : e.check (.axiomNumber r.book.nextId) with
      | error error => exact ⟨error, by simp only [RuleBook.add, hcheck]; rfl⟩
      | ok _ => exact absurd (Equation.check_eq_ok.mp hcheck) hflawed
  | setAxioms axioms =>
      cases hcheck : RuleBook.checkAll 1 axioms with
      | error error => exact ⟨error, by simp only [RuleBook.ofEquations, hcheck]; rfl⟩
      | ok _ => exact absurd (RuleBook.checkAll_eq_ok.mp hcheck e he) hflawed
  | setTheorem _ =>
      obtain rfl := List.mem_singleton.mp he
      cases hcheck : e.check .theoremToProve with
      | error error => exact ⟨error, by simp only [Codebook.codeTheorem, hcheck]; rfl⟩
      | ok _ => exact absurd (Equation.check_eq_ok.mp hcheck) hflawed

/-! ## What the book holds -/

/-- The book holds these axioms, numbered from 1, each with its larger product on
the left and coded by the codebook as it is now. -/
structure Holds (r : Registry) (axioms : List Equation) : Prop where
  entered : r.book.rules.map (·.entered) = axioms
  numbered : r.book.Numbered
  usable : ∀ rule ∈ r.book.rules, rule.tokens.Usable
  ordered : ∀ rule ∈ r.book.rules, rule.right ≤ rule.left
  coded : ∀ rule ∈ r.book.rules, rule.CodedBy r.codes

theorem holds_empty (codes : Codebook) : Holds { codes } [] where
  entered := rfl
  numbered := RuleBook.numbered_empty
  usable := by simp
  ordered := by simp
  coded := by simp

/-- A codebook that grows does not disturb the rules. -/
theorem Holds.grows (h : r.Holds axioms) (hgrows : r.codes.Grows codes) :
    Holds { r with codes } axioms :=
  ⟨h.entered, h.numbered, h.usable, h.ordered, fun rule hrule => (h.coded rule hrule).grows hgrows⟩

theorem usable_code (codes : Codebook) (h : e.Usable) : (codes.code e).1.tokens.Usable := by
  obtain ⟨hleft, hright, hleft', hright'⟩ := h
  unfold Codebook.code CodedEquation.canonical
  dsimp only
  split_ifs
  · exact ⟨hleft, hright, hleft', hright'⟩
  · exact ⟨hright, hleft, hright', hleft'⟩

theorem Holds.append (h : r.Holds axioms) (he : e.Usable) :
    (r.applied (.addAxiom e)).Holds (axioms ++ [e]) := by
  obtain ⟨hgrows, hcoded⟩ := r.codes.code_spec e
  have hnew : ∀ rule ∈ (r.book.append r.codes e).1.rules,
      rule ∈ r.book.rules ∨ rule.toCodedEquation = (r.codes.code e).1 := by
    intro rule hrule
    rcases List.mem_append.mp hrule with hrule | hrule
    · exact .inl hrule
    · rw [List.mem_singleton.mp hrule]
      exact .inr rfl
  constructor
  · simp [applied, RuleBook.append, h.entered]
  · exact RuleBook.numbered_append h.numbered r.codes e
  · intro rule hrule
    rcases hnew rule hrule with hold | heq
    · exact h.usable rule hold
    · exact heq ▸ usable_code r.codes he
  · intro rule hrule
    rcases hnew rule hrule with hold | heq
    · exact h.ordered rule hold
    · exact heq ▸ CodedEquation.canonical_ordered _
  · intro rule hrule
    rcases hnew rule hrule with hold | heq
    · exact (h.coded rule hold).grows hgrows
    · exact heq ▸ hcoded

theorem Holds.appendAll {new : List Equation} (h : Holds ⟨book, codes⟩ axioms)
    (hnew : ∀ e ∈ new, e.Usable) :
    Holds ⟨(book.appendAll codes new).1, (book.appendAll codes new).2⟩ (axioms ++ new) := by
  induction new generalizing book codes axioms with
  | nil => simpa [RuleBook.appendAll] using h
  | cons e rest ih =>
      obtain ⟨he, hrest⟩ := List.forall_mem_cons.mp hnew
      have hall := ih (h.append he) hrest
      rwa [List.append_assoc] at hall

/-- The axioms after a request that succeeds, given those before it. -/
def Request.revised (axioms : List Equation) : Request → List Equation
  | .addAxiom e => axioms ++ [e]
  | .setAxioms new => new
  | .setTheorem _ => axioms

/-- The axioms after a request: one equation that is not usable undoes it. -/
def Request.leaves (axioms : List Equation) (request : Request) : List Equation :=
  if ∀ e ∈ request.equations, e.Usable then request.revised axioms else axioms

theorem Holds.perform (h : r.Holds axioms) (request : Request) :
    (r.perform request).2.Holds (request.leaves axioms) := by
  unfold Request.leaves
  split_ifs with husable
  · rw [perform_of_usable husable]
    cases request with
    | addAxiom e => exact h.append (husable e List.mem_cons_self)
    | setAxioms new => exact (holds_empty r.codes).appendAll husable
    | setTheorem e => exact h.grows (r.codes.code_spec e).1
  · obtain ⟨error, herror⟩ := perform_of_flawed (r := r) (by simpa using husable)
    rw [herror]
    exact h

theorem Holds.performAll (h : r.Holds axioms) (requests : List Request) :
    (r.performAll requests).Holds (requests.foldl Request.leaves axioms) := by
  induction requests generalizing r axioms with
  | nil => exact h
  | cons request rest ih => exact ih (h.perform request)

/-- After any requests, on any codebook to begin with, the book holds the axioms
that were accepted since it was last replaced: they are numbered densely from 1 and
found by these numbers alone, the next number is the one after them, their sides are
usable and in canonical order, and their products are those of the codebook as it is
by then. The next request fails exactly if one of its equations is not usable, and
then nothing changes. -/
theorem performAll_sound (codes : Codebook) (requests : List Request) :
    let r := performAll { codes } requests
    r.book.rules.map (·.id) = List.range' 1 r.book.size ∧ r.book.nextId = r.book.size + 1 ∧
      r.book.rules.map (·.entered) = requests.foldl Request.leaves [] ∧
      (∀ id, 1 ≤ id → id ≤ r.book.size → r.book.get? id = r.book.rules[id - 1]?) ∧
      (∀ id, id = 0 ∨ r.book.size < id → r.book.get? id = none) ∧
      (∀ rule ∈ r.book.rules, rule.tokens.Usable ∧ rule.right ≤ rule.left ∧
        rule.canonical = rule.toCodedEquation ∧ rule.CodedBy r.codes) ∧
      ∀ request : Request,
        ((r.perform request).1.isSome ↔ ∃ e ∈ request.equations, ¬ e.Usable) ∧
        ((r.perform request).1.isSome → (r.perform request).2 = r) := by
  intro r
  have h : r.Holds (requests.foldl Request.leaves []) := (holds_empty codes).performAll requests
  refine ⟨h.numbered.map_id, h.numbered.nextId_eq, h.entered,
    fun id hpos _ => h.numbered.get?_eq hpos, ?_, ?_, ?_⟩
  · rintro id (rfl | hlarge)
    · rfl
    · rw [h.numbered.get?_eq (by omega)]
      exact List.getElem?_eq_none (by rw [RuleBook.size] at hlarge; omega)
  · intro rule hrule
    have hordered := h.ordered rule hrule
    exact ⟨h.usable rule hrule, hordered, CodedEquation.canonical_of_ordered hordered,
      h.coded rule hrule⟩
  · intro request
    by_cases husable : ∀ e ∈ request.equations, e.Usable
    · rw [perform_of_usable husable]
      simpa using husable
    · have hflawed : ∃ e ∈ request.equations, ¬ e.Usable := by simpa using husable
      obtain ⟨error, herror⟩ := perform_of_flawed (r := r) hflawed
      simp [herror, hflawed]

/-- A list that fails on its last axiom writes nothing. -/
example :
    let r := performAll {} [.setAxioms [⟨["a"], ["b"]⟩]]
    r.perform (.setAxioms [⟨["c"], ["d"]⟩, ⟨["e"], []⟩]) =
      (some (.malformed (.axiomNumber 2) .right .noTokens), r) := by
  decide

end Registry

end ThueProver
