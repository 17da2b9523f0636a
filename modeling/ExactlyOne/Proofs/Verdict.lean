import Mathlib.Tactic.ByContra
import ExactlyOne.Finding
import ExactlyOne.Proofs.Cover

/-!
# A check agrees with trying every assignment

Evaluation under one assignment at a time says whether an object has exactly one of the keys of a
group. Where nothing keeps the group from being checked, `Property.checkGroup` reports the
assignments for which it has not, each in just one violation.
-/
namespace ExactlyOne

def Finding.AppliesUnder (σ : Assignment) : Finding → Prop
  | .violation v => v.scenario.ContainedIn σ
  | .obstacle _ => False

instance (σ : Assignment) (f : Finding) : Decidable (f.AppliesUnder σ) :=
  match f with
  | .violation v => inferInstanceAs (Decidable (v.scenario.ContainedIn σ))
  | .obstacle _ => inferInstanceAs (Decidable False)

namespace Property

variable {σ : Assignment} {limits : Limits} {location : Location} {group : List String}
  {value : Property}

/-- How many names of a group are keys of an object under an assignment. -/
def presentCount (σ : Assignment) (group : List String) (entries : List (String × Property)) :
    Nat :=
  group.countP fun g => Entries.contains g (evaluateEntries σ entries)

/-- The rule of a group under one assignment: the object is removed or has just one of the keys. -/
def Obeys (σ : Assignment) (group : List String) (value : Property) : Prop :=
  evaluate σ value = none ∨
    ∃ entries, evaluate σ value = some (.object entries) ∧
      group.countP (Entries.contains · entries) = 1

theorem checkGroup_of_ok {vs : List Variant} (h : value.expand location group limits = .ok vs) :
    value.checkGroup limits location group =
      (vs.filterMap (·.violation? location group)).map .violation := by
  simp only [checkGroup, h]

theorem checkGroup_of_error {o : Obstacle} (h : value.expand location group limits = .error o) :
    value.checkGroup limits location group = [.obstacle o] := by
  simp only [checkGroup, h]

theorem mem_checkGroup_obstacle_iff {o : Obstacle} :
    .obstacle o ∈ value.checkGroup limits location group ↔
      value.expand location group limits = .error o := by
  cases he : value.expand location group limits with
  | ok vs => simp [checkGroup_of_ok he]
  | error e => simp [checkGroup_of_error he, eq_comm]

theorem expand_ok_of_isViolation
    (h : ∀ f ∈ value.checkGroup limits location group, f.isViolation = true) :
    ∃ vs, value.expand location group limits = .ok vs := by
  cases he : value.expand location group limits with
  | ok vs => exact ⟨vs, rfl⟩
  | error o =>
    have := h (.obstacle o) (by simp [checkGroup_of_error he])
    simp [Finding.isViolation] at this

theorem violation?_eq_some_iff {variant : Variant} {v : Violation} :
    variant.violation? location group = some v ↔ variant.count group ≠ 1 ∧
      v = ⟨location, variant.location, group, variant.scenario, variant.count group⟩ := by
  unfold Variant.violation?
  by_cases hc : variant.count group = 1
  · simp [hc]
  · simp [hc, eq_comm]

theorem violations_filter (location : Location) (group : List String) (vs : List Variant)
    (σ : Assignment) :
    ((vs.filterMap (·.violation? location group)).filter fun v => v.scenario.ContainedIn σ) =
      (vs.filter fun v => v.scenario.ContainedIn σ).filterMap (·.violation? location group) := by
  induction vs with
  | nil => rfl
  | cons variant rest ih =>
    cases hv : variant.violation? location group with
    | none => by_cases hc : variant.scenario.ContainedIn σ <;> simp [hv, hc, ih]
    | some v =>
      have hs : v.scenario = variant.scenario := by rw [(violation?_eq_some_iff.mp hv).2]
      by_cases hc : variant.scenario.ContainedIn σ <;> simp [hv, hs, hc, ih]

theorem checkGroup_filter {vs : List Variant}
    (h : value.expand location group limits = .ok vs) (σ : Assignment) :
    ((value.checkGroup limits location group).filter fun f => f.AppliesUnder σ) =
      ((variantUnder? σ group .empty location value).toList.filterMap
        (·.violation? location group)).map .violation := by
  rw [checkGroup_of_ok h, List.filter_map, ← expand_filter h σ, ← violations_filter]
  rfl

theorem count_variantUnder {variant : Variant} {entries : List (String × Property)}
    (ho : selected σ value = .object entries)
    (h : variantUnder? σ group .empty location value = some variant) :
    variant.count group = presentCount σ group entries := by
  refine List.countP_congr fun g hg => ?_
  simp only [Entries.contains, (variantUnder?_depicts ho h).evaluated g hg]

theorem checkGroup_filter_object {vs : List Variant} {entries : List (String × Property)}
    (h : value.expand location group limits = .ok vs) (ho : selected σ value = .object entries) :
    ∃ s : Scenario, s.ContainedIn σ ∧
      ((value.checkGroup limits location group).filter fun f => f.AppliesUnder σ) =
        if presentCount σ group entries = 1 then []
        else [.violation ⟨location, selectedLocation σ location value, group, s,
          presentCount σ group entries⟩] := by
  obtain ⟨variant, hv⟩ : ∃ v, variantUnder? σ group .empty location value = some v :=
    ⟨_, variantUnder?_object ho⟩
  have hc := count_variantUnder ho hv
  refine ⟨variant.scenario, ?_, ?_⟩
  · have hm : variant ∈ vs.filter fun v => v.scenario.ContainedIn σ := by
      simp [expand_filter h σ, hv]
    simpa using (List.mem_filter.mp hm).2
  · have hl := location_of_variantUnder? ho hv
    rw [checkGroup_filter h σ, hv]
    by_cases h1 : presentCount σ group entries = 1 <;>
      simp [Variant.violation?, hc, h1, hl]

theorem checkGroup_filter_removed {vs : List Variant}
    (h : value.expand location group limits = .ok vs) (hr : selected σ value = .removed) :
    ((value.checkGroup limits location group).filter fun f => f.AppliesUnder σ) = [] := by
  simp [checkGroup_filter h σ, variantUnder?_removed hr]

theorem evaluate_of_selected_object {entries : List (String × Property)}
    (h : selected σ value = .object entries) :
    evaluate σ value = some (.object (evaluateEntries σ entries)) := by
  rw [← evaluate_selected, h, evaluate]

theorem evaluate_of_selected_removed (h : selected σ value = .removed) :
    evaluate σ value = none := by
  rw [← evaluate_selected, h, evaluate]

theorem obeys_iff_presentCount {entries : List (String × Property)}
    (h : selected σ value = .object entries) :
    Obeys σ group value ↔ presentCount σ group entries = 1 := by
  simp [Obeys, evaluate_of_selected_object h, presentCount]

/-- Findings judge an assignment rightly: silent if the rule holds under it, and else with one
violation that has the number of keys and the place of the object. -/
structure JudgedUnder (σ : Assignment) (findings : List Finding) (location : Location)
    (group : List String) (value : Property) : Prop where
  silent : Obeys σ group value → (findings.filter fun f => f.AppliesUnder σ) = []
  reported : ¬ Obeys σ group value → ∃ entries v,
    evaluate σ value = some (.object entries) ∧
    (findings.filter fun f => f.AppliesUnder σ) = [.violation v] ∧
    v.count = group.countP (Entries.contains · entries) ∧
    v.objectLocation = selectedLocation σ location value ∧ v.location = location ∧ v.group = group

theorem checkGroup_judged {vs : List Variant} (h : value.expand location group limits = .ok vs)
    (σ : Assignment) :
    JudgedUnder σ (value.checkGroup limits location group) location group value := by
  rcases selected_of_expandFrom h (Scenario.empty_containedIn σ) with hr | ⟨entries, ho⟩
  · exact ⟨fun _ => checkGroup_filter_removed h hr,
      fun hn => absurd (Or.inl (evaluate_of_selected_removed hr)) hn⟩
  · obtain ⟨s, -, hf⟩ := checkGroup_filter_object h ho
    constructor
    · intro h1
      rw [hf, if_pos ((obeys_iff_presentCount ho).mp h1)]
    · intro h1
      rw [if_neg (h1 ∘ (obeys_iff_presentCount ho).mpr)] at hf
      exact ⟨_, _, evaluate_of_selected_object ho, hf, rfl, rfl, rfl, rfl⟩

theorem exists_appliesUnder (f : Finding) (hf : f.isViolation = true) :
    ∃ σ, f.AppliesUnder σ := by
  cases f with
  | violation v => exact ⟨v.scenario.completion, v.scenario.containedIn_completion⟩
  | obstacle o => simp [Finding.isViolation] at hf

/-- A check that meets no obstacle judges every assignment as evaluation does, and it is empty
just if the rule holds under all of them. -/
theorem checkGroup_agrees_with_assignments
    (h : ∀ f ∈ value.checkGroup limits location group, f.isViolation = true) :
    (∀ σ, JudgedUnder σ (value.checkGroup limits location group) location group value) ∧
    (value.checkGroup limits location group = [] ↔ ∀ σ, Obeys σ group value) := by
  obtain ⟨vs, hok⟩ := expand_ok_of_isViolation h
  refine ⟨checkGroup_judged hok, fun he σ => ?_, fun hall => ?_⟩
  · by_contra hn
    obtain ⟨_, v, -, hf, -⟩ := (checkGroup_judged hok σ).reported hn
    simp [he] at hf
  · refine List.eq_nil_iff_forall_not_mem.mpr fun f hf => ?_
    obtain ⟨σ, hσ⟩ := exists_appliesUnder f (h f hf)
    have hs := (checkGroup_judged hok σ).silent (hall σ)
    have hm : f ∈ (value.checkGroup limits location group).filter fun f => f.AppliesUnder σ :=
      List.mem_filter.mpr ⟨hf, decide_eq_true hσ⟩
    simp [hs] at hm

/-- One key depends on a condition that the value of the other key meets under a second one. -/
def overlap : Property :=
  .object [("A", choice "One" (.scalar (.text "a")) .removed),
    ("B", choice "Two" (.scalar (.text "b")) (choice "One" .removed (.scalar (.text "b"))))]

theorem overlap_checked :
    (∀ f ∈ overlap.checkGroup {} .root ["A", "B"], f.isViolation = true) ∧
    (∀ σ, JudgedUnder σ (overlap.checkGroup {} .root ["A", "B"]) .root ["A", "B"] overlap) ∧
    (overlap.checkGroup {} .root ["A", "B"] = [] ↔ ∀ σ, Obeys σ ["A", "B"] overlap) := by
  have h : ∀ f ∈ overlap.checkGroup {} .root ["A", "B"], f.isViolation = true := by decide
  exact ⟨h, checkGroup_agrees_with_assignments h⟩

end Property

end ExactlyOne
