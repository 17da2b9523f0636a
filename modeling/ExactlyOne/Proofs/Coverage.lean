import ExactlyOne.Proofs.Verdict
import ExactlyOne.Proofs.Visit

/-!
# No object that breaks a rule is passed over

Whatever route leads to an object of a registered type, under an assignment that goes along with
it: if the object does not have exactly one of the keys of a group, the findings show it, or they
show that this group could not be checked at a place on the route.
-/
namespace ExactlyOne

namespace Template

open Property

variable {limits : Limits} {catalog : Catalog} {template : Json} {σ : Assignment}
  {name type : String} {resource : Json} {steps : List Step} {group : List String}

/-- A group that the catalog has for what is found at the end of a route. -/
inductive Registered (catalog : Catalog) (type : String) (steps : List Step)
    (group : List String) : Prop where
  | resource : (∀ step ∈ steps, step.isBranch = true) → group ∈ catalog.resourceGroups type →
      Registered catalog type steps group
  | nested : (∃ step ∈ steps, step.isKey = true) →
      group ∈ catalog.propertyGroups (typeAlong type steps) → Registered catalog type steps group

theorem hasPropertyType_of_mem_groups (h : group ∈ catalog.propertyGroups type) :
    catalog.hasPropertyType type = true := by
  cases hf : Entries.find? type (catalog.types .properties) with
  | none => simp [Catalog.propertyGroups, Catalog.groups, hf] at h
  | some groups => simp [Catalog.hasPropertyType, Catalog.hasType, Entries.contains, hf]

theorem exists_check_on_route (limits : Limits) {o : Property}
    (hr : IsResource template name type resource) (hl : Leads (propertiesOf resource) steps o)
    (ho : ∃ entries, o = .object entries) (hg : Registered catalog type steps group) :
    ∃ before after v, steps = before ++ after ∧ Leads (propertiesOf resource) before v ∧
      Leads v after o ∧ Step.Keyless after ∧
      ∀ f ∈ v.checkGroup limits ((propertiesLocation name).follow before) group,
        f ∈ findings limits catalog template := by
  cases hg with
  | resource hb hm =>
    have hk : Step.Keyless steps := fun step hs => Step.isKey_of_isBranch (hb step hs)
    exact ⟨[], steps, _, rfl, .here _, hl, hk, fun f hf => hr.mem_findings hm hf⟩
  | nested hk hm =>
    obtain ⟨before, after, v, rfl, hv⟩ := exists_visitOn catalog false type
      (propertiesLocation name) hl ho
      (fun _ => hasPropertyType_of_mem_groups hm)
      (fun hn => by
        obtain ⟨step, hs, hk⟩ := hk
        simp [hn step hs] at hk)
    exact ⟨before, after, v, rfl, hv.reached, hv.beyond, hv.keyless, fun f hf =>
      mem_findings_nested (hr.mem_visits (List.mem_cons_of_mem _ hv.visited)) hm hf⟩

/-- Of an object on a keyless route that the assignment goes along, a check reports the rule that
it breaks, or the group cannot be checked. -/
theorem checkGroup_reports_or_fails (limits : Limits) {v : Property}
    {entries : List (String × Property)} (hl : Leads v steps (.object entries))
    (hs : ∀ step ∈ steps, step.SelectedBy σ) (hk : Step.Keyless steps)
    (hc : presentCount σ group entries ≠ 1) (location : Location) :
    (∃ s : Scenario, s.ContainedIn σ ∧
      .violation ⟨location, location.follow steps, group, s, presentCount σ group entries⟩ ∈
        v.checkGroup limits location group) ∨
    ∃ o, v.checkGroup limits location group = [.obstacle o] := by
  cases he : v.expand location group limits with
  | error o => exact Or.inr ⟨o, checkGroup_of_error he⟩
  | ok vs =>
    rcases hl.selected_or_list ⟨entries, rfl⟩ hs hk location with ⟨ho, hloc⟩ | ⟨items, hi⟩
    · obtain ⟨s, hcont, hf⟩ := checkGroup_filter_object he ho
      rw [if_neg hc, hloc] at hf
      have hm := List.mem_singleton_self (Finding.violation
        ⟨location, location.follow steps, group, s, presentCount σ group entries⟩)
      rw [← hf] at hm
      exact Or.inl ⟨s, hcont, (List.mem_filter.mp hm).1⟩
    · rcases selected_of_expandFrom he (Scenario.empty_containedIn σ) with h | ⟨_, h⟩ <;>
        simp [h] at hi

/-- An object that is not right under an assignment shows in the findings, or its group failed to
be checked at a place on the route to it. -/
theorem findings_miss_no_violation {entries : List (String × Property)}
    (hr : IsResource template name type resource)
    (hl : Leads (propertiesOf resource) steps (.object entries))
    (hs : ∀ step ∈ steps, step.SelectedBy σ) (hg : Registered catalog type steps group)
    (hc : presentCount σ group entries ≠ 1) :
    (∃ v, .violation v ∈ findings limits catalog template ∧ v.group = group ∧
      v.objectLocation = (propertiesLocation name).follow steps ∧ v.scenario.ContainedIn σ ∧
      v.count = presentCount σ group entries) ∨
    ∃ o before after v, .obstacle o ∈ findings limits catalog template ∧
      steps = before ++ after ∧ Leads (propertiesOf resource) before v ∧
      Leads v after (.object entries) ∧
      v.checkGroup limits ((propertiesLocation name).follow before) group = [.obstacle o] := by
  obtain ⟨before, after, v, rfl, hb, ha, hk, hfound⟩ :=
    exists_check_on_route limits hr hl ⟨entries, rfl⟩ hg
  have hsa : ∀ step ∈ after, step.SelectedBy σ := fun step h => hs step (by simp [h])
  rcases checkGroup_reports_or_fails limits ha hsa hk hc
    ((propertiesLocation name).follow before) with ⟨s, hcont, hm⟩ | ⟨o, ho⟩
  · refine Or.inl ⟨_, hfound _ hm, rfl, ?_, hcont, rfl⟩
    exact (Location.follow_append ..).symm
  · exact Or.inr ⟨o, before, after, v, hfound _ (by simp [ho]), rfl, hb, ha, ho⟩

/-- A nested property that is a list in one branch of a conditional and an object in the other. -/
def listInBranch : Json :=
  .object [("Type", .text "AWS::Lambda::Function"), ("Properties", .object
    [("Code", .object [("Fn::If", .array [.text "Listed",
      .array [.object [("ZipFile", .text "x")], .object []],
      .object [("ZipFile", .text "x")]])])])]

theorem listInBranch_covered :
    let template : Json := .object [("Resources", .object [("Fn", listInBranch)])]
    let steps := [.key "Code", .branch (some "Listed") true, .index 1]
    let group := ["ImageUri", "S3Bucket", "ZipFile"]
    let σ : Assignment := fun _ => true
    IsResource template "Fn" "AWS::Lambda::Function" listInBranch ∧
    Leads (propertiesOf listInBranch) steps (.object []) ∧ (∀ step ∈ steps, step.SelectedBy σ) ∧
    Registered .bundled "AWS::Lambda::Function" steps group ∧ presentCount σ group [] ≠ 1 ∧
    ((∃ v, .violation v ∈ findings {} .bundled template ∧ v.group = group ∧
      v.objectLocation = (propertiesLocation "Fn").follow steps ∧ v.scenario.ContainedIn σ ∧
      v.count = presentCount σ group []) ∨
    ∃ o before after v, .obstacle o ∈ findings {} .bundled template ∧
      steps = before ++ after ∧ Leads (propertiesOf listInBranch) before v ∧
      Leads v after (.object []) ∧
      v.checkGroup {} ((propertiesLocation "Fn").follow before) group = [.obstacle o]) := by
  intro template steps group σ
  have hr : IsResource template "Fn" "AWS::Lambda::Function" listInBranch :=
    ⟨⟨_, rfl, List.mem_cons_self⟩, rfl⟩
  have hl : Leads (propertiesOf listInBranch) steps (.object []) :=
    .key List.mem_cons_self (.choice (.index rfl (.here _)))
  have hs : ∀ step ∈ steps, step.SelectedBy σ := by simp [steps, Step.SelectedBy, σ]
  have hg : Registered .bundled "AWS::Lambda::Function" steps group :=
    .nested ⟨_, List.mem_cons_self, rfl⟩ (by decide)
  have hc : presentCount σ group [] ≠ 1 := by decide
  exact ⟨hr, hl, hs, hg, hc, findings_miss_no_violation hr hl hs hg hc⟩

end Template

end ExactlyOne
