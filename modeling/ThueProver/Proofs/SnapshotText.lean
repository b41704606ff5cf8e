import ThueProver.Proofs.JsonShapes
import ThueProver.Snapshot

/-!
# Snapshots survive their text

A snapshot whose counts, limits and rule numbers are 64-bit words is read back
from its text unchanged. Products have no bound: they are written digit by digit
to base 2^32. No other snapshot is read from any text, so these are exactly the
snapshots that survive.

For each form two things are shown together, that it fits its schema and that
it is decoded to what was encoded; and for each form with numbers, that what is
decoded of a fitting value has words in their places.
-/
namespace ThueProver

theorem limbs_lt (n : Nat) : ∀ digit ∈ limbs n, digit < digitBound := by
  induction n using Nat.strongRecOn with
  | ind n ih =>
      intro digit hdigit
      unfold limbs at hdigit
      split_ifs at hdigit with hzero
      · cases hdigit
      · rcases List.mem_cons.mp hdigit with rfl | hdigit
        · exact Nat.mod_lt _ (by decide)
        · exact ih _ (Nat.div_lt_self (Nat.pos_of_ne_zero hzero) (by decide)) digit hdigit

theorem ofLimbs_limbs (n : Nat) : ofLimbs (limbs n) = n := by
  induction n using Nat.strongRecOn with
  | ind n ih =>
      unfold limbs
      split_ifs with hzero
      · exact hzero.symm
      · rw [ofLimbs, ih _ (Nat.div_lt_self (Nat.pos_of_ne_zero hzero) (by decide))]
        exact Nat.mod_add_div n digitBound

/-- The form fits the schema and is decoded to the value. -/
structure Carries {α : Type} (schema : Schema) (decode : Json → Option α) (v : Json) (x : α) :
    Prop where
  fits : schema.Fits v
  decodes : decode v = some x

theorem fits_list {item : Schema} {vs : List Json} (h : ∀ v ∈ vs, item.Fits v) :
    (Schema.list item).Fits (.list vs) := by
  rw [Schema.Fits]
  exact ⟨vs, rfl, h⟩

theorem fits_count {n : Nat} (h : n < wordBound) : Schema.count.Fits (.number n) := by
  rw [Schema.count, Schema.Fits]
  exact ⟨n, rfl, h, h⟩

theorem fits_pair {first second : Schema} {v w : Json} (hv : first.Fits v) (hw : second.Fits w) :
    (Schema.pair first second).Fits (.list [v, w]) := by
  rw [Schema.Fits]
  exact ⟨v, w, rfl, hv, hw⟩

theorem fits_record {fields : Fields} {ms : List (String × Json)} (hfit : fields.Fit ms)
    (hnodup : fields.names.Nodup) : (Schema.record fields).Fits (.record ms) := by
  rw [Schema.Fits]
  exact ⟨ms, rfl, hfit, hnodup⟩

theorem fit_cons {name : String} {schema : Schema} {fields : List (String × Schema)} {v : Json}
    {ms : List (String × Json)} (hv : schema.Fits v) (hms : (Fields.ofList fields).Fit ms) :
    (Fields.ofList ((name, schema) :: fields)).Fit ((name, v) :: ms) := by
  rw [Fields.ofList, Fields.Fit]
  exact ⟨v, ms, rfl, hv, hms⟩

theorem fit_nil : (Fields.ofList []).Fit [] := by
  rw [Fields.ofList, Fields.Fit]

theorem fit_cons_iff {name : String} {schema : Schema} {fields : List (String × Schema)}
    {ms : List (String × Json)} : (Fields.ofList ((name, schema) :: fields)).Fit ms ↔
      ∃ v tail, ms = (name, v) :: tail ∧ schema.Fits v ∧ (Fields.ofList fields).Fit tail := by
  rw [Fields.ofList, Fields.Fit]

theorem fit_nil_iff {ms : List (String × Json)} : (Fields.ofList []).Fit ms ↔ ms = [] := by
  rw [Fields.ofList, Fields.Fit]

theorem fits_record_iff {fields : Fields} {v : Json} : (Schema.record fields).Fits v ↔
    ∃ ms, v = .record ms ∧ fields.Fit ms ∧ fields.names.Nodup := by
  rw [Schema.Fits]

theorem fits_count_iff {v : Json} : Schema.count.Fits v ↔ ∃ n, v = .number n ∧ n < wordBound := by
  rw [Schema.count, Schema.Fits]
  simp only [and_self]

theorem fits_list_iff {item : Schema} {v : Json} :
    (Schema.list item).Fits v ↔ ∃ vs, v = .list vs ∧ ∀ w ∈ vs, item.Fits w := by
  rw [Schema.Fits]

/-- What each item is decoded to, the whole list holds. -/
theorem forall_of_mapM {α : Type} {decode : Json → Option α} {P : α → Prop} {vs : List Json}
    {xs : List α} (h : vs.mapM decode = some xs)
    (hitem : ∀ v ∈ vs, ∀ x, decode v = some x → P x) : ∀ x ∈ xs, P x := by
  induction vs generalizing xs with
  | nil =>
      obtain rfl := Option.some.inj h
      simp
  | cons v vs ih =>
      rw [List.mapM_cons] at h
      simp only [Option.bind_eq_bind, Option.bind_eq_some_iff] at h
      obtain ⟨x, hx, rest, hrest, heq⟩ := h
      obtain rfl := Option.some.inj heq
      rw [List.forall_mem_cons] at hitem ⊢
      exact ⟨hitem.1 x hx, ih hrest hitem.2⟩

/-- A list of forms is decoded item by item. -/
theorem mapM_of_decodes {α : Type} {encode : α → Json} {decode : Json → Option α} {xs : List α}
    (h : ∀ x ∈ xs, decode (encode x) = some x) : (xs.map encode).mapM decode = some xs := by
  induction xs with
  | nil => rfl
  | cons x xs ih =>
      have hrest := ih fun y hy => h y (List.mem_cons_of_mem _ hy)
      rw [List.map_cons, List.mapM_cons, h x List.mem_cons_self, hrest]
      rfl

/-- A list whose items are carried is carried. -/
theorem Carries.list {α : Type} {item : Schema} {encode : α → Json} {decode : Json → Option α}
    {xs : List α} (h : ∀ x ∈ xs, Carries item decode (encode x) x) :
    (Schema.list item).Fits (.list (xs.map encode)) ∧
      (xs.map encode).mapM decode = some xs := by
  refine ⟨fits_list ?_, mapM_of_decodes fun x hx => (h x hx).decodes⟩
  intro v hv
  obtain ⟨x, hx, rfl⟩ := List.mem_map.mp hv
  exact (h x hx).fits

theorem carries_texts (xs : List String) :
    Carries Schema.texts Json.texts? (Json.texts xs) xs := by
  have hitem : ∀ x ∈ xs, Carries .text Json.text? (.text x) x := by
    intro x _
    refine ⟨?_, rfl⟩
    rw [Schema.Fits]
    exact ⟨x, rfl⟩
  obtain ⟨hfits, hdecodes⟩ := Carries.list hitem
  exact ⟨hfits, hdecodes⟩

theorem carries_product (n : Nat) : Carries Schema.product Json.product? (Json.product n) n := by
  have hitem : ∀ digit ∈ limbs n,
      Carries (.natural digitBound) Json.number? (.number digit) digit := by
    intro digit hdigit
    have hlt := limbs_lt n digit hdigit
    have hword : digitBound ≤ wordBound := by decide
    refine ⟨?_, rfl⟩
    rw [Schema.Fits]
    exact ⟨digit, rfl, hlt, Nat.lt_of_lt_of_le hlt hword⟩
  obtain ⟨hfits, hdecodes⟩ := Carries.list hitem
  refine ⟨hfits, ?_⟩
  simp only [Json.product?, Json.product, Json.list?, Option.bind_eq_bind, Option.bind_some,
    hdecodes, ofLimbs_limbs]
  rfl

namespace Step

theorem carries {step : Step} (h : step.rule < wordBound) :
    Carries schema ofJson? step.toJson step := by
  have hname : ∀ op : Opcode, op.name ∈ Opcode.all.map (·.name) ∧
      Opcode.ofName? op.name = some op := by
    rintro ⟨side, direction⟩
    cases side <;> cases direction <;> decide
  constructor
  · refine fits_record (fit_cons ?_ (fit_cons (fits_count h) fit_nil)) (by decide)
    rw [Schema.Fits]
    exact ⟨_, rfl, (hname step.opcode).1⟩
  · simp only [toJson, ofJson?, (hname step.opcode).2]
    rfl

theorem bounded_of_fits {v : Json} {step : Step} (h : schema.Fits v)
    (hdecodes : ofJson? v = some step) : step.rule < wordBound := by
  simp only [schema, fits_record_iff, fit_cons_iff, fit_nil_iff, fits_count_iff] at h
  obtain ⟨_, rfl, ⟨opcode, _, rfl, hopcode, _, _, rfl, ⟨rule, rfl, hrule⟩, rfl⟩, -⟩ := h
  rw [Schema.Fits] at hopcode
  obtain ⟨name, rfl, -⟩ := hopcode
  obtain ⟨op, -, rfl⟩ := Option.map_eq_some_iff.mp hdecodes
  exact hrule

end Step

namespace Stats

/-- Every count is a 64-bit word. -/
structure Bounded (stats : Stats) : Prop where
  popped : stats.popped < wordBound
  expanded : stats.expanded < wordBound
  generated : stats.generated < wordBound
  duplicates : stats.duplicates < wordBound
  rejectedBatches : stats.rejectedBatches < wordBound
  droppedTransitions : stats.droppedTransitions < wordBound
  candidates : stats.candidates < wordBound

instance (stats : Stats) : Decidable stats.Bounded :=
  decidable_of_iff
    (stats.popped < wordBound ∧ stats.expanded < wordBound ∧ stats.generated < wordBound ∧
      stats.duplicates < wordBound ∧ stats.rejectedBatches < wordBound ∧
      stats.droppedTransitions < wordBound ∧ stats.candidates < wordBound)
    ⟨fun ⟨h₁, h₂, h₃, h₄, h₅, h₆, h₇⟩ => ⟨h₁, h₂, h₃, h₄, h₅, h₆, h₇⟩,
      fun ⟨h₁, h₂, h₃, h₄, h₅, h₆, h₇⟩ => ⟨h₁, h₂, h₃, h₄, h₅, h₆, h₇⟩⟩

theorem carries {stats : Stats} (h : stats.Bounded) :
    Carries schema ofJson? stats.toJson stats := by
  refine ⟨fits_record ?_ (by decide), rfl⟩
  exact fit_cons (fits_count h.popped) (fit_cons (fits_count h.expanded)
    (fit_cons (fits_count h.generated) (fit_cons (fits_count h.duplicates)
      (fit_cons (fits_count h.rejectedBatches) (fit_cons (fits_count h.droppedTransitions)
        (fit_cons (fits_count h.candidates) fit_nil))))))

theorem bounded_of_fits {v : Json} {stats : Stats} (h : schema.Fits v)
    (hdecodes : ofJson? v = some stats) : stats.Bounded := by
  simp only [schema, fits_record_iff, fit_cons_iff, fit_nil_iff, fits_count_iff] at h
  obtain ⟨_, rfl, ⟨_, _, rfl, ⟨_, rfl, h₁⟩, _, _, rfl, ⟨_, rfl, h₂⟩, _, _, rfl, ⟨_, rfl, h₃⟩,
    _, _, rfl, ⟨_, rfl, h₄⟩, _, _, rfl, ⟨_, rfl, h₅⟩, _, _, rfl, ⟨_, rfl, h₆⟩,
    _, _, rfl, ⟨_, rfl, h₇⟩, rfl⟩, -⟩ := h
  obtain rfl := Option.some.inj hdecodes
  exact ⟨h₁, h₂, h₃, h₄, h₅, h₆, h₇⟩

end Stats

namespace Limits

/-- Every number is a 64-bit word. -/
structure Bounded (limits : Limits) : Prop where
  maxFanout : limits.maxFanout < wordBound
  maxProofs : limits.maxProofs < wordBound
  maxStates : limits.maxStates < wordBound
  maxSearchTimeMs : limits.maxSearchTimeMs < wordBound
  maxAxioms : limits.maxAxioms < wordBound
  parallelThreshold : limits.parallelThreshold < wordBound

instance (limits : Limits) : Decidable limits.Bounded :=
  decidable_of_iff
    (limits.maxFanout < wordBound ∧ limits.maxProofs < wordBound ∧ limits.maxStates < wordBound ∧
      limits.maxSearchTimeMs < wordBound ∧ limits.maxAxioms < wordBound ∧
      limits.parallelThreshold < wordBound)
    ⟨fun ⟨h₁, h₂, h₃, h₄, h₅, h₆⟩ => ⟨h₁, h₂, h₃, h₄, h₅, h₆⟩,
      fun ⟨h₁, h₂, h₃, h₄, h₅, h₆⟩ => ⟨h₁, h₂, h₃, h₄, h₅, h₆⟩⟩

theorem carries {limits : Limits} (h : limits.Bounded) :
    Carries schema ofJson? limits.toJson limits := by
  have horder : limits.frontierOrder.name ∈ FrontierOrder.all.map (·.name) := by
    cases limits.frontierOrder <;> decide
  have hname : FrontierOrder.ofName? limits.frontierOrder.name = some limits.frontierOrder := by
    cases limits.frontierOrder <;> rfl
  constructor
  · refine fits_record ?_ (by decide)
    refine fit_cons (fits_count h.maxFanout) (fit_cons (fits_count h.maxProofs)
      (fit_cons (fits_count h.maxStates) (fit_cons (fits_count h.maxSearchTimeMs)
        (fit_cons (fits_count h.maxAxioms) (fit_cons (fits_count h.parallelThreshold)
          (fit_cons ?_ (fit_cons ?_ fit_nil)))))))
    · rw [Schema.Fits]
      exact ⟨_, rfl, horder⟩
    · rw [Schema.Fits]
      exact ⟨_, rfl⟩
  · simp only [toJson, ofJson?, hname]
    rfl

theorem bounded_of_fits {v : Json} {limits : Limits} (h : schema.Fits v)
    (hdecodes : ofJson? v = some limits) : limits.Bounded := by
  simp only [schema, fits_record_iff, fit_cons_iff, fit_nil_iff, fits_count_iff] at h
  obtain ⟨_, rfl, ⟨_, _, rfl, ⟨_, rfl, h₁⟩, _, _, rfl, ⟨_, rfl, h₂⟩, _, _, rfl, ⟨_, rfl, h₃⟩,
    _, _, rfl, ⟨_, rfl, h₄⟩, _, _, rfl, ⟨_, rfl, h₅⟩, _, _, rfl, ⟨_, rfl, h₆⟩,
    _, _, rfl, horder, _, _, rfl, hgraph, rfl⟩, -⟩ := h
  rw [Schema.Fits] at horder
  rw [Schema.Fits] at hgraph
  obtain ⟨name, rfl, -⟩ := horder
  obtain ⟨value, rfl⟩ := hgraph
  obtain ⟨order, -, rfl⟩ := Option.map_eq_some_iff.mp hdecodes
  exact ⟨h₁, h₂, h₃, h₄, h₅, h₆⟩

end Limits

theorem Equation.carries (e : Equation) : Carries schema ofJson? e.toJson e := by
  have hleft := carries_texts e.left
  have hright := carries_texts e.right
  refine ⟨fits_pair hleft.fits hright.fits, ?_⟩
  simp only [toJson, ofJson?, hleft.decodes, hright.decodes]
  rfl

namespace State

/-- The rule numbers of the proof are 64-bit words. -/
def Bounded (s : State) : Prop := ∀ step ∈ s.proof, step.rule < wordBound

instance (s : State) : Decidable s.Bounded :=
  inferInstanceAs (Decidable (∀ step ∈ s.proof, step.rule < wordBound))

theorem carries {s : State} (h : s.Bounded) : Carries schema ofJson? s.toJson s := by
  have hleft := carries_product s.left
  have hright := carries_product s.right
  obtain ⟨hfits, hproof⟩ := Carries.list fun step hstep => Step.carries (h step hstep)
  constructor
  · exact fits_record (fit_cons hleft.fits (fit_cons hright.fits (fit_cons hfits fit_nil)))
      (by decide)
  · simp only [toJson, ofJson?, hleft.decodes, hright.decodes, hproof]
    rfl

theorem bounded_of_fits {v : Json} {s : State} (h : schema.Fits v)
    (hdecodes : ofJson? v = some s) : s.Bounded := by
  simp only [schema, fits_record_iff, fit_cons_iff, fit_nil_iff, fits_list_iff] at h
  obtain ⟨_, rfl, ⟨left, _, rfl, -, right, _, rfl, -, _, _, rfl, ⟨steps, rfl, hsteps⟩, rfl⟩, -⟩ := h
  simp only [ofJson?, Option.bind_eq_bind, Option.bind_eq_some_iff] at hdecodes
  obtain ⟨_, -, _, -, proof, hproof, heq⟩ := hdecodes
  obtain rfl := Option.some.inj heq
  exact forall_of_mapM hproof fun w hw step hstep => Step.bounded_of_fits (hsteps w hw) hstep

end State

namespace Snapshot

/-- All its numbers but the products are 64-bit words. -/
structure Bounded (s : Snapshot) : Prop where
  pending : ∀ t ∈ s.pending, t.Bounded
  best : ∀ t, s.best = some t → t.Bounded
  stats : s.stats.Bounded
  rejected : s.rejected < wordBound
  limits : s.limits.Bounded

instance (s : Snapshot) : Decidable s.Bounded :=
  decidable_of_iff
    ((∀ t ∈ s.pending, t.Bounded) ∧ (∀ t ∈ s.best, t.Bounded) ∧ s.stats.Bounded ∧
      s.rejected < wordBound ∧ s.limits.Bounded)
    ⟨fun ⟨h₁, h₂, h₃, h₄, h₅⟩ => ⟨h₁, h₂, h₃, h₄, h₅⟩,
      fun ⟨h₁, h₂, h₃, h₄, h₅⟩ => ⟨h₁, h₂, h₃, h₄, h₅⟩⟩

theorem carries_pair (pair : Nat × Nat) :
    Carries (.pair .product .product) pairOfJson? (pairToJson pair) pair := by
  have hleft := carries_product pair.1
  have hright := carries_product pair.2
  refine ⟨fits_pair hleft.fits hright.fits, ?_⟩
  simp only [pairToJson, pairOfJson?, hleft.decodes, hright.decodes]
  rfl

theorem carries_best {best : Option State} (h : ∀ t, best = some t → t.Bounded) :
    Carries (.optional State.schema) bestOfJson? ((best.map (·.toJson)).getD .null) best := by
  cases best with
  | none =>
      refine ⟨?_, rfl⟩
      rw [Schema.Fits]
      exact .inl rfl
  | some t =>
      have ht := State.carries (h t rfl)
      constructor
      · rw [Schema.Fits]
        exact .inr ⟨by simp [State.toJson], ht.fits⟩
      · have hdecodes := ht.decodes
        rw [State.toJson] at hdecodes
        simp only [Option.map_some, Option.getD_some, State.toJson, bestOfJson?, hdecodes]

theorem carries {s : Snapshot} (h : s.Bounded) : Carries schema ofJson? s.toJson s := by
  have hsymbols := carries_texts s.symbols
  have haxioms := Carries.list fun e (_ : e ∈ s.axioms) => Equation.carries e
  have hgoal := Equation.carries s.goal
  have hpending := Carries.list fun t ht => State.carries (h.pending t ht)
  have hvisited := Carries.list fun pair (_ : pair ∈ s.visited) => carries_pair pair
  have hbest := carries_best h.best
  have hstats := Stats.carries h.stats
  have hlimits := Limits.carries h.limits
  constructor
  · refine fits_record ?_ (by decide)
    exact fit_cons hsymbols.fits (fit_cons haxioms.1 (fit_cons hgoal.fits
      (fit_cons hpending.1 (fit_cons hvisited.1 (fit_cons hbest.fits (fit_cons hstats.fits
        (fit_cons (fits_count h.rejected) (fit_cons hlimits.fits fit_nil))))))))
  · simp only [toJson, ofJson?, hsymbols.decodes, haxioms.2, hgoal.decodes, hpending.2,
      hvisited.2, hbest.decodes, hstats.decodes, hlimits.decodes]
    rfl

/-- A snapshot is read back from its text. -/
theorem parse_of_bounded {s : Snapshot} (h : s.Bounded) : parse s.render = .ok s := by
  have hcarries := carries h
  have hread : schema.readWhole s.render = .ok s.toJson :=
    Schema.readWhole_render hcarries.fits
  simp only [parse, hread, hcarries.decodes]

theorem bounded_of_fits {v : Json} {s : Snapshot} (h : schema.Fits v)
    (hdecodes : ofJson? v = some s) : s.Bounded := by
  simp only [schema, fits_record_iff, fit_cons_iff, fit_nil_iff, fits_list_iff, fits_count_iff] at h
  obtain ⟨_, rfl, ⟨_, _, rfl, -, _, _, rfl, ⟨axioms, rfl, -⟩, _, _, rfl, -,
    _, _, rfl, ⟨pending, rfl, hpending⟩, _, _, rfl, ⟨visited, rfl, -⟩, best, _, rfl, hbest,
    stats, _, rfl, hstats, _, _, rfl, ⟨rejected, rfl, hrejected⟩, limits, _, rfl, hlimits,
    rfl⟩, -⟩ := h
  simp only [ofJson?, Option.bind_eq_bind, Option.bind_eq_some_iff] at hdecodes
  obtain ⟨_, -, _, -, _, -, states, hstates, _, -, state, hstate, counts, hcounts, limits', hlimits',
    heq⟩ := hdecodes
  obtain rfl := Option.some.inj heq
  refine ⟨?_, ?_, Stats.bounded_of_fits hstats hcounts, hrejected,
    Limits.bounded_of_fits hlimits hlimits'⟩
  · exact forall_of_mapM hstates fun w hw t ht => State.bounded_of_fits (hpending w hw) ht
  · intro t ht
    obtain rfl : state = some t := ht
    rw [Schema.Fits] at hbest
    rcases hbest with rfl | ⟨-, hbest⟩
    · cases hstate
    · unfold bestOfJson? at hstate
      split at hstate
      · cases hstate
      · obtain ⟨u, hu, heq⟩ := Option.map_eq_some_iff.mp hstate
        obtain rfl := Option.some.inj heq
        exact State.bounded_of_fits hbest hu

theorem distinct_schema : schema.Distinct := by
  simp [schema, Schema.Distinct, Fields.ofList, Fields.Distinct, Fields.names, State.schema,
    Step.schema, Stats.schema, Limits.schema, Equation.schema, Schema.texts, Schema.product,
    Schema.count]

/-- What is read from a text, whatever text that is, has words for its numbers. -/
theorem bounded_of_parse {text : String} {s : Snapshot} (h : parse text = .ok s) : s.Bounded := by
  unfold parse at h
  split at h
  · cases h
  next v hv =>
    have hfits := Schema.fits_of_readWhole distinct_schema hv
    split at h
    · cases h
    next hdecodes =>
      obtain rfl := Except.ok.inj h
      exact bounded_of_fits hfits hdecodes

/-- The snapshots that are read back from their text are exactly those whose
counts, limits and rule numbers are words. -/
theorem parse_render_iff (s : Snapshot) : parse s.render = .ok s ↔ s.Bounded :=
  ⟨bounded_of_parse, parse_of_bounded⟩

end Snapshot

/-- A session that is written out is the one its snapshot stands for. -/
theorem Session.ofText_render {snapshot : Snapshot} (h : snapshot.Bounded) :
    ofText snapshot.render = ofSnapshot snapshot := by
  simp only [ofText, Snapshot.parse_of_bounded h, bind, Except.bind]

end ThueProver
