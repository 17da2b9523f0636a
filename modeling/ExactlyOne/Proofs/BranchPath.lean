import ExactlyOne.Proofs.Cover
import ExactlyOne.Proofs.Recording
import ExactlyOne.Proofs.Route

/-!
# The branches to an object agree with the scenario

The location of a variant goes on from the checked one by the branches that lead to its object. A
condition may come again among them: its branch is then taken without fixing it anew, and the
location still grows. So the location has every branch, and the scenario begins with the conditions
of the branches, each at its first place.
-/
namespace ExactlyOne

theorem Location.segments_follow_branches (location : Location) (chain : List (String × Bool)) :
    (location.follow (Step.branches chain)).segments = location.segments ++
      chain.flatMap fun e => [.key conditionalKey, .index (branchIndex e.2)] := by
  induction chain generalizing location with
  | nil => simp [Step.branches, follow]
  | cons e rest ih =>
    have hstep : location.follow (Step.branches (e :: rest)) =
        (location.branch e.2).follow (Step.branches rest) := rfl
    rw [hstep, ih]
    simp [branch, key, index, child]

namespace Property

variable {location : Location} {group : List String} {limits : Limits} {value : Property}
  {vs : List Variant} {v : Variant}

theorem conditions_chainOf (σ : Assignment) (value : Property) :
    (chainOf σ value).map Prod.fst = chainConditions σ value := by
  rw [chainOf, List.map_map]
  exact List.map_id _

/-- The chain of well-formed conditionals that leads from a value to the object of a variant, with
the outcome of the branch that is taken at each. -/
structure ChainTo (v : Variant) (value : Property) (location : Location)
    (chain : List (String × Bool)) : Prop where
  leads : ∃ entries, Leads value (Step.branches chain) (.object entries)
  segments : v.location.segments = location.segments ++
    chain.flatMap fun e => [.key conditionalKey, .index (if e.2 then 1 else 2)]
  fixed : ∀ e ∈ chain, v.scenario.get? e.1 = some e.2
  first : (chain.map Prod.fst).eraseDups <+: v.scenario.conditions

/-- The location of a variant is made of the branches to its object, and its scenario begins with
their conditions. -/
theorem exists_chain_to_variant (h : value.expand location group limits = .ok vs) (hv : v ∈ vs) :
    ∃ chain, ChainTo v value location chain := by
  obtain ⟨σ, hσ⟩ : ∃ σ, v.scenario.ContainedIn σ := ⟨_, v.scenario.containedIn_completion⟩
  obtain ⟨entries, ho, -, hs, hl⟩ := exists_selected_of_mem h hv hσ
  obtain ⟨hleads, hfollow⟩ := leads_branches σ location value
  refine ⟨chainOf σ value, ⟨entries, ho ▸ hleads⟩, ?_, ?_, ?_⟩
  · rw [hl, hfollow, Location.segments_follow_branches]
    rfl
  · intro e he
    obtain ⟨c, hc, rfl⟩ := List.mem_map.mp he
    exact get?_of_mem_conditions h hv hσ (List.mem_append_left _ hc)
  · rw [conditions_chainOf, hs, Scenario.conditions_record_empty, conditionsOfVariant,
      List.eraseDups_append]
    exact List.prefix_append ..

/-- The condition of the outermost conditional comes again inside the second one. -/
def useAgain : Property :=
  choice "Use"
    (choice "Large"
      (choice "Use" (.object [("A", choice "Old" (.scalar .null) .removed)]) (.list []))
      (choice "Old" (.object []) .removed))
    .removed

theorem useAgain_chain :
    (useAgain.expand .root ["A"] {}).map (List.map fun v => (v.location, v.scenario.assignments)) =
      .ok [
        (.follow .root (Step.branches [("Use", true), ("Large", true), ("Use", true)]),
          [("Use", true), ("Large", true), ("Old", true)]),
        (.follow .root (Step.branches [("Use", true), ("Large", true), ("Use", true)]),
          [("Use", true), ("Large", true), ("Old", false)]),
        (.follow .root (Step.branches [("Use", true), ("Large", false), ("Old", true)]),
          [("Use", true), ("Large", false), ("Old", true)])] ∧
    ∃ vs, useAgain.expand .root ["A"] {} = .ok vs ∧
      ∀ v ∈ vs, ∃ chain, ChainTo v useAgain .root chain := by
  obtain ⟨vs, h⟩ : ∃ vs, useAgain.expand .root ["A"] {} = .ok vs := ⟨_, rfl⟩
  exact ⟨rfl, vs, h, fun v hv => exists_chain_to_variant h hv⟩

end Property

end ExactlyOne
