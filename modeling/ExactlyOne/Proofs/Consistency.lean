import ExactlyOne.Proofs.Verdict
import ExactlyOne.Proofs.Visit

/-!
# Which violations could come about

A violation names the outcomes in its scenario, and the route to its object takes branches. Those
that its own check went into agree with the scenario. Those on the way to the check need not: the
check starts from an empty scenario. So a violation is possible just if the branches on the way to
its check contradict neither one another nor the scenario.
-/
namespace ExactlyOne

/-- The step is a branch at a condition whose outcome a scenario fixes so. -/
def Scenario.Fixes (s : Scenario) : Step → Prop
  | .branch (some c) outcome => s.get? c = some outcome
  | _ => False

theorem Scenario.Fixes.selectedBy {s : Scenario} {step : Step} {σ : Assignment}
    (h : s.Fixes step) (hs : s.ContainedIn σ) : step.SelectedBy σ := by
  cases step with
  | branch condition outcome =>
    cases condition with
    | none => exact h.elim
    | some c => exact hs c outcome h
  | key name => trivial
  | index position => trivial

/-- The branches of a route contradict neither one another nor a scenario. -/
def Compatible (steps : List Step) (s : Scenario) : Prop :=
  ∀ c b, .branch (some c) b ∈ steps → .branch (some c) (!b) ∉ steps ∧ s.get? c ≠ some (!b)

/-- Some assignment has the outcomes of a scenario and goes along with a route. -/
def Possible (s : Scenario) (steps : List Step) : Prop :=
  ∃ σ, s.ContainedIn σ ∧ ∀ step ∈ steps, step.SelectedBy σ

/-- The branch that a route takes at a condition it meets, and the outcome of a scenario else. -/
def assignmentAlong (s : Scenario) (steps : List Step) : Assignment := fun c =>
  if .branch (some c) true ∈ steps then true
  else if .branch (some c) false ∈ steps then false
  else s.completion c

theorem Compatible.containedIn {s : Scenario} {steps : List Step} (h : Compatible steps s) :
    s.ContainedIn (assignmentAlong s steps) := by
  intro c b hb
  by_cases ht : Step.branch (some c) true ∈ steps
  · have := (h c true ht).2
    cases b <;> simp_all [assignmentAlong]
  · by_cases hf : Step.branch (some c) false ∈ steps
    · have := (h c false hf).2
      cases b <;> simp_all [assignmentAlong]
    · simpa [assignmentAlong, ht, hf] using s.containedIn_completion c b hb

theorem Compatible.selectedBy {s : Scenario} {steps : List Step} (h : Compatible steps s)
    (hn : ∀ b, .branch none b ∉ steps) {step : Step} (hm : step ∈ steps) :
    step.SelectedBy (assignmentAlong s steps) := by
  cases step with
  | key name => trivial
  | index position => trivial
  | branch condition outcome =>
    cases condition with
    | none => exact absurd hm (hn outcome)
    | some c =>
      cases outcome with
      | true => simp [Step.SelectedBy, assignmentAlong, hm]
      | false =>
        have ht : Step.branch (some c) true ∉ steps := (h c false hm).1
        simp [Step.SelectedBy, assignmentAlong, hm, ht]

theorem Possible.compatible {s : Scenario} {steps : List Step} (h : Possible s steps) :
    Compatible steps s := by
  obtain ⟨σ, hs, hsel⟩ := h
  intro c b hb
  have hc : σ c = b := hsel _ hb
  constructor
  · intro hnb
    have hc' : σ c = !b := hsel _ hnb
    simp [hc] at hc'
  · intro hg
    have hc' := hs c _ hg
    simp [hc] at hc'

theorem possible_append_iff {s : Scenario} {before after : List Step}
    (hn : ∀ b, .branch none b ∉ before) (ha : ∀ step ∈ after, s.Fixes step) :
    Possible s (before ++ after) ↔ Compatible before s := by
  constructor
  · rintro ⟨σ, hs, hsel⟩
    exact Possible.compatible ⟨σ, hs, fun step h => hsel step (List.mem_append_left _ h)⟩
  · intro h
    refine ⟨assignmentAlong s before, h.containedIn, fun step hm => ?_⟩
    rcases List.mem_append.mp hm with hm | hm
    · exact h.selectedBy hn hm
    · exact (ha step hm).selectedBy h.containedIn

namespace Property

theorem WellFormed.named {value o : Property} {steps : List Step} (hw : value.WellFormed)
    (h : Leads value steps o) : ∀ b, Step.branch none b ∉ steps := by
  induction h with
  | here => simp
  | key hm _ ih => simpa using ih (hw.entry hm)
  | index hi _ ih => simpa using ih (hw.item (List.mem_of_getElem? hi))
  | branch hb _ ih =>
    intro b hm
    rcases List.mem_cons.mp hm with he | hm
    · have hsome := hw.1
      rw [← (Step.branch.inj he).1] at hsome
      simp at hsome
    · exact ih (hw.branch hb) b hm

/-- A variant is at the end of a route of branches that its scenario fixes. -/
theorem exists_route_to_variant {value : Property} {location : Location} {group : List String}
    {limits : Limits} {vs : List Variant} (h : value.expand location group limits = .ok vs)
    {variant : Variant} (hv : variant ∈ vs) :
    ∃ steps entries, Leads value steps (.object entries) ∧
      variant.location = location.follow steps ∧ ∀ step ∈ steps, variant.scenario.Fixes step := by
  obtain ⟨σ, hσ⟩ : ∃ σ, variant.scenario.ContainedIn σ :=
    ⟨_, variant.scenario.containedIn_completion⟩
  obtain ⟨entries, ho, -, -, hl⟩ := exists_selected_of_mem h hv hσ
  obtain ⟨steps, hleads, hfollows, hfollow⟩ := leads_selected σ location value
  refine ⟨steps, entries, ho ▸ hleads, hl.trans hfollow, fun step hm => ?_⟩
  obtain ⟨c, hc, rfl⟩ := hfollows step hm
  exact get?_of_mem_conditions h hv hσ (List.mem_append_left _ hc)

theorem exists_variant_of_violation {value : Property} {location : Location} {group : List String}
    {limits : Limits} {v : Violation}
    (h : .violation v ∈ value.checkGroup limits location group) :
    ∃ vs variant, value.expand location group limits = .ok vs ∧ variant ∈ vs ∧
      v.location = location ∧ v.objectLocation = variant.location ∧
      v.scenario = variant.scenario := by
  cases he : value.expand location group limits with
  | error o => simp [checkGroup_of_error he] at h
  | ok vs =>
    simp only [checkGroup_of_ok he, List.mem_map, List.mem_filterMap, Finding.violation.injEq,
      exists_eq_right] at h
    obtain ⟨variant, hm, hv⟩ := h
    obtain ⟨-, rfl⟩ := violation?_eq_some_iff.mp hv
    exact ⟨vs, variant, rfl, hm, rfl, rfl, rfl⟩

end Property

namespace Template

open Property

/-- Every conditional in the properties of a resource is well-formed. -/
def WellFormed (template : Json) : Prop :=
  ∀ name type resource, IsResource template name type resource →
    (propertiesOf resource).WellFormed

/-- A violation is at the end of a route. It can come about just if the part of the route that
leads to its check contradicts neither itself nor the scenario: what the check went into does not
matter, since the scenario fixes it so. -/
theorem violation_possible_iff {limits : Limits} {catalog : Catalog} {template : Json}
    {v : Violation} (hw : WellFormed template)
    (h : .violation v ∈ findings limits catalog template) :
    ∃ name type resource before after entries, IsResource template name type resource ∧
      Leads (propertiesOf resource) (before ++ after) (.object entries) ∧
      v.location = (propertiesLocation name).follow before ∧
      v.objectLocation = (propertiesLocation name).follow (before ++ after) ∧
      (∀ step ∈ after, v.scenario.Fixes step) ∧
      (Possible v.scenario (before ++ after) ↔ Compatible before v.scenario) := by
  obtain ⟨name, type, resource, before, value, group, hr, hb, hf⟩ :=
    exists_check_of_mem_findings h
  obtain ⟨vs, variant, he, hm, hloc, hobj, hs⟩ := exists_variant_of_violation hf
  obtain ⟨after, entries, ha, hva, hfix⟩ := exists_route_to_variant he hm
  rw [← hs] at hfix
  refine ⟨name, type, resource, before, after, entries, hr, hb.append ha, hloc, ?_, hfix,
    possible_append_iff ((hw _ _ _ hr).named hb) hfix⟩
  rw [hobj, hva, Location.follow_append]

def chosenTwice : Json :=
  .object [("Type", .text "AWS::Lambda::Function"), ("Properties", .object [("Fn::If", .array
    [.text "C",
      .object [("Code", .object [("Fn::If", .array
        [.text "C", .object [("ZipFile", .text "x")], .object []])])],
      .object [("Ref", .text "AWS::NoValue")]])])]

def chosenTwiceTemplate : Json := .object [("Resources", .object [("Fn", chosenTwice)])]

def chosenTwiceViolation : Violation where
  location := ((propertiesLocation "Fn").branch true).key "Code"
  objectLocation := (((propertiesLocation "Fn").branch true).key "Code").branch false
  group := ["ImageUri", "S3Bucket", "ZipFile"]
  scenario := Scenario.empty.assign "C" false
  count := 0

theorem propertiesOf_chosenTwice : propertiesOf chosenTwice = .choice "C"
    (.object [("Code", .choice "C" (.object [("ZipFile", .scalar (.text "x"))]) (.object []))])
    .removed := rfl

theorem eq_chosenTwice {name type : String} {resource : Json}
    (h : IsResource chosenTwiceTemplate name type resource) :
    name = "Fn" ∧ resource = chosenTwice := by
  obtain ⟨⟨resources, hr, hm⟩, -⟩ := h
  obtain rfl : [("Fn", chosenTwice)] = resources := Option.some.inj hr
  simpa using hm

theorem chosenTwice_wellFormed : WellFormed chosenTwiceTemplate := by
  intro name type resource h
  obtain ⟨-, rfl⟩ := eq_chosenTwice h
  rw [propertiesOf_chosenTwice]
  simp [choice, Property.WellFormed, WellFormedBranch, WellFormedEntries, condition?, parts]

theorem chosenTwiceViolation_found :
    .violation chosenTwiceViolation ∈ findings {} .bundled chosenTwiceTemplate := by
  decide

def chosenTwiceRoute : List Step :=
  [.branch (some "C") true, .key "Code", .branch (some "C") false]

theorem chosenTwiceRoute_leads :
    Leads (propertiesOf chosenTwice) chosenTwiceRoute (.object []) := by
  rw [propertiesOf_chosenTwice]
  exact .choice (.key List.mem_cons_self (.choice (.here _)))

/-- A violation that no assignment has: with `C` being `false` there are no properties, and so
the route to its object is cut off. -/
theorem exists_impossible_violation :
    WellFormed chosenTwiceTemplate ∧
    .violation chosenTwiceViolation ∈ findings {} .bundled chosenTwiceTemplate ∧
    (Leads (propertiesOf chosenTwice) chosenTwiceRoute (.object []) ∧
      (propertiesLocation "Fn").follow chosenTwiceRoute = chosenTwiceViolation.objectLocation) ∧
    ∀ name type resource steps entries, IsResource chosenTwiceTemplate name type resource →
      Leads (propertiesOf resource) steps (.object entries) →
      (propertiesLocation name).follow steps = chosenTwiceViolation.objectLocation →
      ¬ Possible chosenTwiceViolation.scenario steps := by
  refine ⟨chosenTwice_wellFormed, chosenTwiceViolation_found, ⟨chosenTwiceRoute_leads, rfl⟩, ?_⟩
  rintro name type resource steps entries hr hl - ⟨σ, hs, hsel⟩
  obtain ⟨-, rfl⟩ := eq_chosenTwice hr
  have hc : σ "C" = false := hs "C" false rfl
  rw [propertiesOf_chosenTwice] at hl
  cases hl with
  | @branch _ _ _ _ outcome w rest _ hb hrest =>
    have ho : σ "C" = outcome := hsel _ List.mem_cons_self
    rw [← ho, hc] at hb
    obtain rfl : .removed = w := Option.some.inj hb
    cases hrest

theorem chosenTwice_violation_split :
    WellFormed chosenTwiceTemplate ∧
    .violation chosenTwiceViolation ∈ findings {} .bundled chosenTwiceTemplate ∧
    ∃ name type resource before after entries,
      IsResource chosenTwiceTemplate name type resource ∧
      Leads (propertiesOf resource) (before ++ after) (.object entries) ∧
      chosenTwiceViolation.location = (propertiesLocation name).follow before ∧
      chosenTwiceViolation.objectLocation = (propertiesLocation name).follow (before ++ after) ∧
      (∀ step ∈ after, chosenTwiceViolation.scenario.Fixes step) ∧
      (Possible chosenTwiceViolation.scenario (before ++ after) ↔
        Compatible before chosenTwiceViolation.scenario) :=
  ⟨chosenTwice_wellFormed, chosenTwiceViolation_found,
    violation_possible_iff chosenTwice_wellFormed chosenTwiceViolation_found⟩

end Template

end ExactlyOne
