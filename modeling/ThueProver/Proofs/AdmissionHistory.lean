import Mathlib.Algebra.BigOperators.Group.List.Basic
import Mathlib.Algebra.Ring.Nat
import Mathlib.Data.List.Infix
import Mathlib.Data.List.Perm.Basic
import Mathlib.Tactic.Common
import ThueProver.Admission

/-!
# What admission control has come to

Requests, releases, guards that are lifted in any order, and copies of gates follow
each other on one worker. What each of them came to is entered in a log, and what the
worker and the gates count can be read off from it: the branches in flight are those
admitted less those released, and a gate counts what was refused to it, to the gate it
was copied from, and to all copies of that one.

The count of the worker is one number for all gates, whatever their ceilings. It stays
below the largest of them, so where the ceilings are words it is a word as well, and a
sum that is none is below no ceiling.
-/
namespace ThueProver

namespace Desk

/-- Lifts the guard at a place, which releases its weight. -/
def dropAt (desk : Desk) (place : Nat) : Option Nat × Desk :=
  match desk.guards[place]? with
  | none => (none, desk)
  | some weight =>
      (some weight, { desk with guards := desk.guards.eraseIdx place }.release weight)

theorem dropOldest_eq (desk : Desk) : desk.dropOldest = desk.dropAt 0 := by
  unfold dropOldest dropAt
  cases hguards : desk.guards <;> rfl

theorem dropNewest_eq (desk : Desk) : desk.dropNewest = desk.dropAt (desk.guards.length - 1) := by
  unfold dropNewest dropAt
  rw [List.getLast?_eq_getElem?]
  cases desk.guards[desk.guards.length - 1]? with
  | none => rfl
  | some weight => simp only [List.eraseIdx_length_sub_one]

/-- What can be asked for on a worker. Gates and guards are named by their places. -/
inductive Op where
  | acquire (gate weight : Nat)
  | guard (gate weight : Nat)
  | release (weight : Nat)
  | drop (place : Nat)
  | copy (gate : Nat)

/-- What an operation came to. -/
inductive Entry where
  | admitted (gate weight : Nat) (guarded : Bool)
  | refused (gate weight : Nat)
  | released (weight : Nat) (guarded : Bool)
  | copied (gate : Nat)
  /-- There is no such gate, or no such guard. -/
  | missing
  deriving DecidableEq, Repr

def perform (desk : Desk) : Op → Desk × Entry
  | .acquire gate weight =>
      match desk.gates[gate]? with
      | none => (desk, .missing)
      | some g =>
          match desk.acquire g weight with
          | (true, desk) => (desk, .admitted gate weight false)
          | (false, desk) => (desk, .refused gate weight)
  | .guard gate weight =>
      match desk.gates[gate]? with
      | none => (desk, .missing)
      | some g =>
          match desk.guard g weight with
          | (true, desk) => (desk, .admitted gate weight true)
          | (false, desk) => (desk, .refused gate weight)
  | .release weight => (desk.release weight, .released weight false)
  | .drop place =>
      match desk.dropAt place with
      | (none, desk) => (desk, .missing)
      | (some weight, desk) => (desk, .released weight true)
  | .copy gate =>
      match desk.gates[gate]? with
      | none => (desk, .missing)
      | some g => (desk.copyGate g, .copied gate)

/-- The desk after some operations, and the log of them. -/
def run (desk : Desk) : List Op → Desk × List Entry
  | [] => (desk, [])
  | op :: ops =>
      (((desk.perform op).1.run ops).1, (desk.perform op).2 :: ((desk.perform op).1.run ops).2)

/-! ## What the log says -/

namespace Entry

/-- The branches that were taken up. -/
def taken : Entry → Nat
  | admitted _ weight _ => weight
  | _ => 0

/-- The branches that were given back. -/
def given : Entry → Nat
  | released weight _ => weight
  | _ => 0

/-- The weight of a request for which a guard was set up. -/
def guarded? : Entry → Option Nat
  | admitted _ weight true => some weight
  | _ => none

/-- The weight of a guard that was lifted. -/
def lifted? : Entry → Option Nat
  | released weight true => some weight
  | _ => none

/-- The origin of the gate that was added. -/
def added? (origins : List Nat) : Entry → Option Nat
  | copied gate => origins[gate]?
  | _ => none

/-- The weight of a request that was refused to a gate of this origin. -/
def refusal? (origins : List Nat) (origin : Nat) : Entry → Option Nat
  | refused gate weight => if origins[gate]? = some origin then some weight else none
  | _ => none

end Entry

def admitted (log : List Entry) : Nat := (log.map Entry.taken).sum

def released (log : List Entry) : Nat := (log.map Entry.given).sum

/-- The weights that guards were set up over, and those of guards that were lifted. -/
def guarded (log : List Entry) : List Nat := log.filterMap Entry.guarded?

def lifted (log : List Entry) : List Nat := log.filterMap Entry.lifted?

/-- For each gate the one of the first gates that it is, or that it goes back to if it
is a copy. -/
def origins (first : Nat) (log : List Entry) : List Nat :=
  log.foldl (fun origins entry => origins ++ (entry.added? origins).toList) (List.range first)

/-- The weights of all requests that were refused to gates of this origin. -/
def refusals (first : Nat) (log : List Entry) (origin : Nat) : List Nat :=
  log.filterMap (Entry.refusal? (origins first log) origin)

/-- The refusals of a gate as its tally has them. -/
def tallied (refused : List Nat) : Rejections := ⟨refused.length, refused.sum % wordBound⟩

@[simp] theorem admitted_concat (log : List Entry) (entry : Entry) :
    admitted (log ++ [entry]) = admitted log + entry.taken := by
  simp [admitted]

@[simp] theorem released_concat (log : List Entry) (entry : Entry) :
    released (log ++ [entry]) = released log + entry.given := by
  simp [released]

@[simp] theorem guarded_concat (log : List Entry) (entry : Entry) :
    guarded (log ++ [entry]) = guarded log ++ entry.guarded?.toList := by
  rw [guarded, List.filterMap_append, guarded, List.filterMap_cons]
  cases entry.guarded? <;> rfl

@[simp] theorem lifted_concat (log : List Entry) (entry : Entry) :
    lifted (log ++ [entry]) = lifted log ++ entry.lifted?.toList := by
  rw [lifted, List.filterMap_append, lifted, List.filterMap_cons]
  cases entry.lifted? <;> rfl

@[simp] theorem origins_concat (first : Nat) (log : List Entry) (entry : Entry) :
    origins first (log ++ [entry]) =
      origins first log ++ (entry.added? (origins first log)).toList := by
  simp [origins]

theorem tallied_concat (refused : List Nat) (weight : Nat) :
    tallied (refused ++ [weight]) = (tallied refused).record weight := by
  simp [tallied, Rejections.record, Nat.add_mod]

/-- Whatever is added to the origins, those of the gates in the log are the same. -/
theorem refusals_concat {first : Nat} {log : List Entry}
    (h : ∀ gate weight, .refused gate weight ∈ log → gate < (origins first log).length)
    (entry : Entry) (origin : Nat) :
    refusals first (log ++ [entry]) origin =
      refusals first log origin ++ (entry.refusal? (origins first log) origin).toList := by
  have hold : log.filterMap (Entry.refusal? (origins first (log ++ [entry])) origin) =
      refusals first log origin := by
    apply List.filterMap_congr
    intro earlier hearlier
    cases earlier with
    | refused gate weight =>
        rw [Entry.refusal?, Entry.refusal?, origins_concat,
          List.getElem?_append_left (h gate weight hearlier)]
    | _ => rfl
  rw [refusals, List.filterMap_append, hold]
  cases entry with
  | refused gate weight =>
      have hsame : origins first (log ++ [.refused gate weight]) = origins first log := by
        simp [Entry.added?]
      rw [hsame, List.filterMap_cons]
      cases Entry.refusal? (origins first log) origin (.refused gate weight) <;> rfl
  | _ => rfl

/-! ## What an operation can do -/

inductive Did (desk : Desk) : Desk → Entry → Prop
  | admitted {place : Nat} {gate : Gate} {weight : Nat} : desk.gates[place]? = some gate →
      desk.worker.inFlight + weight < gate.ceiling →
      Did desk { desk with worker.inFlight := desk.worker.inFlight + weight }
        (.admitted place weight false)
  | guarded {place : Nat} {gate : Gate} {weight : Nat} : desk.gates[place]? = some gate →
      desk.worker.inFlight + weight < gate.ceiling →
      Did desk { desk with
        worker.inFlight := desk.worker.inFlight + weight, guards := desk.guards ++ [weight] }
        (.admitted place weight true)
  | refused {place : Nat} {gate : Gate} {weight : Nat} : desk.gates[place]? = some gate →
      ¬ desk.worker.inFlight + weight < gate.ceiling →
      Did desk (desk.refuse gate weight) (.refused place weight)
  | released (weight : Nat) : Did desk (desk.release weight) (.released weight false)
  | lifted {place weight : Nat} : desk.guards[place]? = some weight →
      Did desk ({ desk with guards := desk.guards.eraseIdx place }.release weight)
        (.released weight true)
  | copied {place : Nat} {gate : Gate} : desk.gates[place]? = some gate →
      Did desk (desk.copyGate gate) (.copied place)
  | missing : Did desk desk .missing

variable {desk next : Desk} {entry : Entry} {place : Nat} {gate : Gate}

/-- A request is decided by the branches in flight. -/
theorem perform_acquire (h : desk.gates[place]? = some gate) (weight : Nat) :
    desk.perform (.acquire place weight) =
      if desk.worker.inFlight + weight < gate.ceiling then
        ({ desk with worker.inFlight := desk.worker.inFlight + weight },
          .admitted place weight false)
      else (desk.refuse gate weight, .refused place weight) := by
  simp only [perform, h, acquire, Worker.acquire?]
  split_ifs <;> rfl

theorem perform_guard (h : desk.gates[place]? = some gate) (weight : Nat) :
    desk.perform (.guard place weight) =
      if desk.worker.inFlight + weight < gate.ceiling then
        ({ desk with
          worker.inFlight := desk.worker.inFlight + weight, guards := desk.guards ++ [weight] },
          .admitted place weight true)
      else (desk.refuse gate weight, .refused place weight) := by
  simp only [perform, h, guard, acquire, Worker.acquire?]
  split_ifs <;> rfl

theorem did (desk : Desk) (op : Op) : desk.Did (desk.perform op).1 (desk.perform op).2 := by
  cases op with
  | acquire place weight =>
      cases hgate : desk.gates[place]? with
      | none =>
          simp only [perform, hgate]
          exact .missing
      | some gate =>
          rw [perform_acquire hgate]
          split_ifs with hroom
          · exact .admitted hgate hroom
          · exact .refused hgate hroom
  | guard place weight =>
      cases hgate : desk.gates[place]? with
      | none =>
          simp only [perform, hgate]
          exact .missing
      | some gate =>
          rw [perform_guard hgate]
          split_ifs with hroom
          · exact .guarded hgate hroom
          · exact .refused hgate hroom
  | release weight => exact .released weight
  | drop place =>
      cases hguard : desk.guards[place]? with
      | none =>
          simp only [perform, dropAt, hguard]
          exact .missing
      | some weight =>
          simp only [perform, dropAt, hguard]
          exact .lifted hguard
  | copy place =>
      cases hgate : desk.gates[place]? with
      | none =>
          simp only [perform, hgate]
          exact .missing
      | some gate =>
          simp only [perform, hgate]
          exact .copied hgate

/-! ## What every operation keeps -/

/-- The gates and their tallies as they are after the operations of a log. The tally of
a gate is found at the place of its origin. -/
structure Registered (ceilings : List Nat) (log : List Entry) (desk : Desk) : Prop where
  origin : desk.gates.map Gate.tally = origins ceilings.length log
  ceiling : ∀ gate ∈ desk.gates, ceilings[gate.tally]? = some gate.ceiling
  logged : ∀ place weight, .refused place weight ∈ log → place < desk.gates.length
  tallies : desk.tallies =
    (List.range ceilings.length).map fun origin => tallied (refusals ceilings.length log origin)

/-- The branches in flight as they are after the operations of a log, if no more was
ever released than had been admitted. -/
structure Balanced (ceilings : List Nat) (log : List Entry) (desk : Desk) : Prop where
  guards : (guarded log).Perm (lifted log ++ desk.guards)
  below : ∀ bound, 0 < bound → (∀ ceiling ∈ ceilings, ceiling ≤ bound) →
    desk.worker.inFlight < bound
  balance : (∀ earlier ∈ log.inits, released earlier ≤ admitted earlier) →
    desk.worker.inFlight + released log = admitted log

variable {ceilings : List Nat} {log : List Entry}

theorem registered_ofCeilings (ceilings : List Nat) :
    (ofCeilings ceilings).Registered ceilings [] := by
  refine ⟨?_, ?_, by simp, ?_⟩
  · simp [ofCeilings, origins, List.range_eq_range', ← List.zipIdx_map_snd]
  · intro gate hgate
    obtain ⟨⟨ceiling, index⟩, hmem, rfl⟩ := List.mem_map.mp hgate
    exact List.mem_zipIdx_iff_getElem?.mp hmem
  · simp only [refusals, List.filterMap_nil, List.map_const', List.length_range, ofCeilings]
    rfl

theorem balanced_ofCeilings (ceilings : List Nat) : (ofCeilings ceilings).Balanced ceilings [] :=
  ⟨.nil, fun _ hbound _ => hbound, fun _ => rfl⟩

theorem Registered.origin_of_gate (h : desk.Registered ceilings log)
    (hgate : desk.gates[place]? = some gate) :
    (origins ceilings.length log)[place]? = some gate.tally := by
  rw [← h.origin, List.getElem?_map, hgate]
  rfl

theorem Registered.refusals_concat (h : desk.Registered ceilings log) (entry : Entry)
    (origin : Nat) : refusals ceilings.length (log ++ [entry]) origin =
      refusals ceilings.length log origin ++
        (entry.refusal? (origins ceilings.length log) origin).toList := by
  apply Desk.refusals_concat
  intro place weight hmem
  rw [← h.origin, List.length_map]
  exact h.logged place weight hmem

/-- What is neither a refusal nor a copy leaves the gates and their tallies alone. -/
theorem Registered.unchanged (h : desk.Registered ceilings log) (hgates : next.gates = desk.gates)
    (htallies : next.tallies = desk.tallies) (hadded : ∀ origins, entry.added? origins = none)
    (hnone : ∀ place weight, entry ≠ .refused place weight) :
    next.Registered ceilings (log ++ [entry]) := by
  have hrefusal : ∀ origins origin, entry.refusal? origins origin = none := by
    intro origins origin
    cases entry with
    | refused place weight => exact absurd rfl (hnone place weight)
    | _ => rfl
  constructor
  · rw [hgates, h.origin, origins_concat, hadded, Option.toList_none, List.append_nil]
  · rw [hgates]
    exact h.ceiling
  · intro place weight hmem
    rw [hgates]
    rcases List.mem_append.mp hmem with hmem | hmem
    · exact h.logged place weight hmem
    · exact absurd (List.mem_singleton.mp hmem).symm (hnone place weight)
  · rw [htallies, h.tallies]
    apply List.map_congr_left
    intro origin _
    rw [h.refusals_concat, hrefusal, Option.toList_none, List.append_nil]

/-- A refusal is entered in the tally of the gate, and in no other one. -/
theorem Registered.refuse (h : desk.Registered ceilings log)
    (hgate : desk.gates[place]? = some gate) (weight : Nat) :
    (desk.refuse gate weight).Registered ceilings (log ++ [.refused place weight]) := by
  constructor
  · rw [origins_concat, Entry.added?, Option.toList_none, List.append_nil]
    · exact h.origin
    · simp
  · exact h.ceiling
  · intro other weight' hmem
    rcases List.mem_append.mp hmem with hmem | hmem
    · exact h.logged other weight' hmem
    · obtain ⟨rfl, -⟩ := Entry.refused.inj (List.mem_singleton.mp hmem)
      exact (List.getElem?_eq_some_iff.mp hgate).1
  · apply List.ext_getElem?
    intro origin
    rw [Desk.refuse, List.getElem?_modify, h.tallies, List.getElem?_map, List.getElem?_map]
    cases hrange : (List.range ceilings.length)[origin]? with
    | none => rfl
    | some found =>
        obtain ⟨-, rfl⟩ : origin < ceilings.length ∧ origin = found := by
          simpa [List.getElem?_eq_some_iff] using hrange
        simp only [Option.map_some, Option.map_eq_map]
        rw [h.refusals_concat, Entry.refusal?, h.origin_of_gate hgate]
        by_cases hsame : gate.tally = origin
        · rw [if_pos hsame, if_pos (congrArg some hsame), Option.toList_some, tallied_concat]
        · rw [if_neg hsame, if_neg fun heq => hsame (Option.some.inj heq), Option.toList_none,
            List.append_nil]

/-- A copy has the ceiling and the tally of the gate, and thus its origin. -/
theorem Registered.copyGate (h : desk.Registered ceilings log)
    (hgate : desk.gates[place]? = some gate) :
    (desk.copyGate gate).Registered ceilings (log ++ [.copied place]) := by
  constructor
  · rw [origins_concat, Entry.added?, h.origin_of_gate hgate, Desk.copyGate, List.map_append,
      h.origin]
    rfl
  · intro other hother
    rcases List.mem_append.mp hother with hother | hother
    · exact h.ceiling other hother
    · rw [List.mem_singleton.mp hother]
      exact h.ceiling gate (List.mem_of_getElem? hgate)
  · intro other weight hmem
    have hold : .refused other weight ∈ log := by simpa using hmem
    have hlt := h.logged other weight hold
    rw [Desk.copyGate, List.length_append]
    omega
  · rw [Desk.copyGate, h.tallies]
    apply List.map_congr_left
    intro origin _
    rw [h.refusals_concat]
    simp [Entry.refusal?]

theorem Registered.step (h : desk.Registered ceilings log) (hdid : desk.Did next entry) :
    next.Registered ceilings (log ++ [entry]) := by
  cases hdid with
  | admitted hgate hroom => exact h.unchanged rfl rfl (fun _ => rfl) (by simp)
  | guarded hgate hroom => exact h.unchanged rfl rfl (fun _ => rfl) (by simp)
  | refused hgate hfull => exact h.refuse hgate _
  | released weight => exact h.unchanged rfl rfl (fun _ => rfl) (by simp)
  | lifted hguard => exact h.unchanged rfl rfl (fun _ => rfl) (by simp)
  | copied hgate => exact h.copyGate hgate
  | missing => exact h.unchanged rfl rfl (fun _ => rfl) (by simp)

/-- The earlier parts of a log are earlier parts of it when it has gone on. -/
theorem covered_of_concat
    (h : ∀ earlier ∈ (log ++ [entry]).inits, released earlier ≤ admitted earlier) :
    (∀ earlier ∈ log.inits, released earlier ≤ admitted earlier) ∧
      released log + entry.given ≤ admitted log + entry.taken := by
  constructor
  · intro earlier hearlier
    apply h
    rw [List.mem_inits] at hearlier ⊢
    exact hearlier.trans (List.prefix_append log [entry])
  · rw [← released_concat, ← admitted_concat]
    apply h
    rw [List.mem_inits]

/-- A weight is taken up on a worker that has room for it, with a guard or without. -/
theorem Balanced.admit (h : desk.Balanced ceilings log) {weight : Nat} {guarded : Bool}
    (hceiling : gate.ceiling ∈ ceilings)
    (hroom : desk.worker.inFlight + weight < gate.ceiling)
    (hworker : next.worker.inFlight = desk.worker.inFlight + weight)
    (hguards : next.guards = if guarded then desk.guards ++ [weight] else desk.guards) :
    next.Balanced ceilings (log ++ [.admitted place weight guarded]) := by
  constructor
  · rw [hguards, guarded_concat, lifted_concat]
    cases guarded with
    | false => simpa [Entry.guarded?, Entry.lifted?] using h.guards
    | true => simpa [Entry.guarded?, Entry.lifted?] using h.guards.append_right [weight]
  · intro bound hbound hbelow
    rw [hworker]
    exact Nat.lt_of_lt_of_le hroom (hbelow _ hceiling)
  · intro hcovered
    obtain ⟨hearlier, -⟩ := covered_of_concat hcovered
    have hbalance := h.balance hearlier
    rw [hworker, released_concat, admitted_concat, Entry.given, Entry.taken]
    · omega
    · simp

/-- A weight is released that is in flight. -/
theorem Balanced.give (h : desk.Balanced ceilings log) {weight : Nat} {guarded : Bool}
    (hworker : next.worker.inFlight = desk.worker.inFlight - weight)
    (hguards : if guarded then desk.guards.Perm (weight :: next.guards)
      else next.guards = desk.guards) :
    next.Balanced ceilings (log ++ [.released weight guarded]) := by
  constructor
  · cases guarded with
    | false =>
        simp only [Bool.false_eq_true, if_false] at hguards
        simpa [Entry.guarded?, Entry.lifted?, hguards] using h.guards
    | true =>
        simp only [if_true] at hguards
        have hmoved := h.guards.trans (hguards.append_left _)
        simpa [Entry.guarded?, Entry.lifted?] using hmoved
  · intro bound hbound hbelow
    have hlt := h.below bound hbound hbelow
    omega
  · intro hcovered
    obtain ⟨hearlier, hlast⟩ := covered_of_concat hcovered
    have hbalance := h.balance hearlier
    simp only [released_concat, admitted_concat, Entry.given, Entry.taken] at hlast ⊢
    omega

theorem Balanced.unchanged (h : desk.Balanced ceilings log) (hworker : next.worker = desk.worker)
    (hguards : next.guards = desk.guards) (htaken : entry.taken = 0) (hgiven : entry.given = 0)
    (hguarded : entry.guarded? = none) (hlifted : entry.lifted? = none) :
    next.Balanced ceilings (log ++ [entry]) := by
  constructor
  · simpa [hguarded, hlifted, hguards] using h.guards
  · rw [hworker]
    exact h.below
  · intro hcovered
    rw [hworker, released_concat, admitted_concat, hgiven, htaken]
    exact h.balance (covered_of_concat hcovered).1

theorem Balanced.step (h : desk.Balanced ceilings log) (hregistered : desk.Registered ceilings log)
    (hdid : desk.Did next entry) : next.Balanced ceilings (log ++ [entry]) := by
  have hceiling : ∀ {place : Nat} {gate : Gate}, desk.gates[place]? = some gate →
      gate.ceiling ∈ ceilings := fun hgate =>
    List.mem_of_getElem? (hregistered.ceiling _ (List.mem_of_getElem? hgate))
  cases hdid with
  | admitted hgate hroom => exact h.admit (hceiling hgate) hroom rfl rfl
  | guarded hgate hroom => exact h.admit (hceiling hgate) hroom rfl rfl
  | refused hgate hfull => exact h.unchanged rfl rfl rfl rfl rfl rfl
  | released weight => exact h.give rfl rfl
  | @lifted place weight hguard =>
      refine h.give rfl ?_
      obtain ⟨hplace, rfl⟩ := List.getElem?_eq_some_iff.mp hguard
      exact (List.getElem_cons_eraseIdx_perm hplace).symm
  | copied hgate => exact h.unchanged rfl rfl rfl rfl rfl rfl
  | missing => exact h.unchanged rfl rfl rfl rfl rfl rfl

theorem run_kept (hregistered : desk.Registered ceilings log)
    (hbalanced : desk.Balanced ceilings log) (ops : List Op) :
    (desk.run ops).1.Registered ceilings (log ++ (desk.run ops).2) ∧
      (desk.run ops).1.Balanced ceilings (log ++ (desk.run ops).2) := by
  induction ops generalizing desk log with
  | nil =>
      simp only [run, List.append_nil]
      exact ⟨hregistered, hbalanced⟩
  | cons op ops ih =>
      have hdid := did desk op
      have hrest := ih (hregistered.step hdid) (hbalanced.step hregistered hdid)
      rwa [List.append_assoc] at hrest

theorem Registered.rejections (h : desk.Registered ceilings log) (hgate : gate ∈ desk.gates) :
    desk.rejections gate = tallied (refusals ceilings.length log gate.tally) := by
  have hlt : gate.tally < ceilings.length :=
    (List.getElem?_eq_some_iff.mp (h.ceiling gate hgate)).1
  rw [Desk.rejections, h.tallies, List.getElem?_map, List.getElem?_range hlt]
  rfl

/-- A refusal leaves the tallies of gates with another origin alone. -/
theorem Registered.rejections_refuse (h : desk.Registered ceilings log)
    (hgate : desk.gates[place]? = some gate) {other : Nat} {gate' : Gate}
    (hother : desk.gates[other]? = some gate')
    (hne : (origins ceilings.length log)[other]? ≠ (origins ceilings.length log)[place]?)
    (weight : Nat) : (desk.refuse gate weight).rejections gate' = desk.rejections gate' := by
  rw [h.origin_of_gate hgate, h.origin_of_gate hother] at hne
  have htally : gate.tally ≠ gate'.tally := fun heq => hne (congrArg some heq.symm)
  simp [Desk.rejections, Desk.refuse, htally]

/-- After any operations on one worker, with gates of any ceilings and their copies:
what is in flight is what was admitted less what was released, if never more was
released than had been admitted; it is below the largest ceiling; the guards not lifted
are those that were set up and not lifted; and a gate has the ceiling of the gate that
it goes back to, and counts all that was refused to that one and its copies, the sum of
the weights modulo 2^64. A further request is granted if and only if the branches in
flight stay below the ceiling of the gate, and a refusal changes nothing but the tally
of the gates with its origin. -/
theorem admissions_add_up (ceilings : List Nat) (ops : List Op) :
    let desk := ((ofCeilings ceilings).run ops).1
    let log := ((ofCeilings ceilings).run ops).2
    ((∀ earlier ∈ log.inits, released earlier ≤ admitted earlier) →
      desk.worker.inFlight + released log = admitted log) ∧
    (∀ bound, 0 < bound → (∀ ceiling ∈ ceilings, ceiling ≤ bound) →
      desk.worker.inFlight < bound) ∧
    (guarded log).Perm (lifted log ++ desk.guards) ∧
    ∀ (place : Nat) (gate : Gate), desk.gates[place]? = some gate →
      (∃ origin, (origins ceilings.length log)[place]? = some origin ∧
        ceilings[origin]? = some gate.ceiling ∧
        desk.rejections gate = tallied (refusals ceilings.length log origin)) ∧
      ∀ weight,
        desk.perform (.acquire place weight) =
          (if desk.worker.inFlight + weight < gate.ceiling then
            ({ desk with worker.inFlight := desk.worker.inFlight + weight },
              .admitted place weight false)
          else (desk.refuse gate weight, .refused place weight)) ∧
        desk.perform (.guard place weight) =
          (if desk.worker.inFlight + weight < gate.ceiling then
            ({ desk with
              worker.inFlight := desk.worker.inFlight + weight, guards := desk.guards ++ [weight] },
              .admitted place weight true)
          else (desk.refuse gate weight, .refused place weight)) ∧
        (∃ tallies, desk.refuse gate weight = { desk with tallies }) ∧
        ∀ (other : Nat) (gate' : Gate), desk.gates[other]? = some gate' →
          (origins ceilings.length log)[other]? ≠ (origins ceilings.length log)[place]? →
          (desk.refuse gate weight).rejections gate' = desk.rejections gate' := by
  intro desk log
  obtain ⟨hregistered, hbalanced⟩ :=
    run_kept (registered_ofCeilings ceilings) (balanced_ofCeilings ceilings) ops
  refine ⟨hbalanced.balance, hbalanced.below, hbalanced.guards, ?_⟩
  intro place gate hgate
  have hmem : gate ∈ desk.gates := List.mem_of_getElem? hgate
  constructor
  · exact ⟨gate.tally, hregistered.origin_of_gate hgate, hregistered.ceiling gate hmem,
      hregistered.rejections hmem⟩
  · intro weight
    refine ⟨perform_acquire hgate weight, perform_guard hgate weight, ⟨_, rfl⟩, ?_⟩
    intro other gate' hother hne
    exact hregistered.rejections_refuse hgate hother hne weight

/-- The older of two guards is lifted first. Two requests are refused to a gate and its
copy, and the sum of their weights is no word. -/
theorem admissions_add_up_mingled :
    let ops : List Op := [.guard 0 3, .guard 0 2, .copy 1, .acquire 2 9,
      .guard 1 (wordBound - 1), .drop 0]
    let desk := ((ofCeilings [10, 4]).run ops).1
    desk.worker.inFlight = 2 ∧ desk.worker.inFlight < wordBound ∧
      ∃ gate, desk.gates[2]? = some gate ∧ desk.rejections gate = ⟨2, 8⟩ ∧
        desk.perform (.acquire 2 2) = (desk.refuse gate 2, .refused 2 2) ∧
        ∃ first, desk.gates[0]? = some first ∧
          (desk.refuse gate 2).rejections first = desk.rejections first := by
  intro ops desk
  have hlog : ((ofCeilings [10, 4]).run ops).2 =
      [.admitted 0 3 true, .admitted 0 2 true, .copied 1, .refused 2 9,
        .refused 1 (wordBound - 1), .released 3 true] := by
    decide
  obtain ⟨hinFlight, hbelow, -, hgates⟩ := admissions_add_up [10, 4] ops
  rw [hlog] at hinFlight hgates
  have hflight : desk.worker.inFlight = 2 := by
    have hsum : desk.worker.inFlight + 3 = 5 := hinFlight (by decide)
    omega
  obtain ⟨⟨origin, horigin, hceiling, hrejections⟩, hmore⟩ := hgates 2 ⟨4, 1⟩ rfl
  obtain ⟨hacquire, -, -, hothers⟩ := hmore 2
  obtain rfl : 1 = origin := Option.some.inj horigin
  refine ⟨hflight, ?_, ⟨4, 1⟩, rfl, ?_, ?_, ⟨10, 0⟩, rfl, ?_⟩
  · apply hbelow
    all_goals decide
  · rw [hrejections]
    decide
  · rw [hacquire, if_neg]
    rw [show ((ofCeilings [10, 4]).run ops).1.worker.inFlight = 2 from hflight]
    decide
  · exact hothers 0 ⟨10, 0⟩ rfl (by decide)

end Desk

end ThueProver
