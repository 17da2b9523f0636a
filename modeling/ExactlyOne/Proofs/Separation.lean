import Mathlib.Data.List.Nodup
import ExactlyOne.Proofs.Verdict

/-!
# The violations of one check are different from one another

No assignment contains the scenarios of two variants of one expansion. So two violations of a group
never have the same scenario, in whatever order the scenarios fix their conditions.
-/
namespace ExactlyOne

namespace Scenario

variable {s t : Scenario} {σ : Assignment}

def Excludes (s t : Scenario) : Prop := ∀ σ, s.ContainedIn σ → ¬ t.ContainedIn σ

theorem get?_of_sameOutcomes (h : s.sameOutcomes t = true) {c : String} {b : Bool}
    (hs : s.get? c = some b) : t.get? c = some b := by
  obtain ⟨-, hall⟩ := Bool.and_eq_true_iff.mp h
  have he := List.all_eq_true.mp hall (c, b) (Entries.mem_of_find? hs)
  exact eq_of_beq he

theorem mem_assignments_iff (hs : s.Tidy) {a : String × Bool} :
    a ∈ s.assignments ↔ s.get? a.1 = some a.2 :=
  ⟨Entries.find?_of_mem hs, Entries.mem_of_find?⟩

/-- Scenarios without repetition are the same if they fix the same outcomes. -/
theorem sameOutcomes_of_get? (hs : s.Tidy) (ht : t.Tidy) (h : ∀ c, s.get? c = t.get? c) :
    s.sameOutcomes t = true := by
  have hp : s.assignments.Perm t.assignments := by
    rw [List.perm_ext_iff_of_nodup (List.Nodup.of_map _ hs) (List.Nodup.of_map _ ht)]
    intro a
    rw [mem_assignments_iff hs, mem_assignments_iff ht, h]
  have hall : ∀ a ∈ s.assignments, t.get? a.1 = some a.2 := fun a ha =>
    (h a.1).symm.trans ((mem_assignments_iff hs).mp ha)
  simpa [sameOutcomes, size, hp.length_eq] using hall

theorem ContainedIn.of_sameOutcomes (ht : t.ContainedIn σ) (h : s.sameOutcomes t = true) :
    s.ContainedIn σ :=
  fun c b hs => ht c b (get?_of_sameOutcomes h hs)

theorem Excludes.not_sameOutcomes (h : s.Excludes t) : ¬ s.sameOutcomes t = true := by
  intro hsame
  have ht := t.containedIn_completion
  exact h _ (ht.of_sameOutcomes hsame) ht

end Scenario

/-- Equality of violations; the order in which their scenarios fix conditions does not count. -/
structure Violation.Same (v w : Violation) : Prop where
  location : v.location = w.location
  objectLocation : v.objectLocation = w.objectLocation
  group : v.group = w.group
  scenario : v.scenario.sameOutcomes w.scenario = true
  count : v.count = w.count

def Finding.violation? : Finding → Option Violation
  | .violation v => some v
  | .obstacle _ => none

def violationsIn (findings : List Finding) : List Violation :=
  findings.filterMap Finding.violation?

theorem mem_violationsIn {v : Violation} {findings : List Finding} :
    v ∈ violationsIn findings ↔ .violation v ∈ findings := by
  unfold violationsIn
  rw [List.mem_filterMap]
  constructor
  · rintro ⟨f, hf, hv⟩
    cases f with
    | violation w => exact Option.some.inj hv ▸ hf
    | obstacle o => cases hv
  · intro h
    exact ⟨_, h, rfl⟩

theorem violationsIn_flatMap {α : Type} (xs : List α) (f : α → List Finding) :
    violationsIn (xs.flatMap f) = xs.flatMap fun x => violationsIn (f x) :=
  List.filterMap_flatMap

namespace Property

variable {limits : Limits} {location : Location} {group : List String} {value : Property}
  {v : Violation}

theorem violationsIn_checkGroup {vs : List Variant}
    (h : value.expand location group limits = .ok vs) :
    violationsIn (value.checkGroup limits location group) =
      vs.filterMap (·.violation? location group) := by
  rw [checkGroup_of_ok h, violationsIn, List.filterMap_map]
  exact List.filterMap_some

theorem of_mem_checkGroup (h : .violation v ∈ value.checkGroup limits location group) :
    v.location = location ∧ v.group = group := by
  cases he : value.expand location group limits with
  | error o => simp [checkGroup_of_error he] at h
  | ok vs =>
    rw [← mem_violationsIn, violationsIn_checkGroup he, List.mem_filterMap] at h
    obtain ⟨variant, -, hv⟩ := h
    obtain ⟨-, rfl⟩ := violation?_eq_some_iff.mp hv
    exact ⟨rfl, rfl⟩

theorem expand_pairwise_excludes {vs : List Variant}
    (h : value.expand location group limits = .ok vs) :
    vs.Pairwise fun v w => v.scenario.Excludes w.scenario := by
  rw [List.pairwise_iff_forall_sublist]
  intro v w hvw σ hv hw
  have hs := hvw.filter fun v => v.scenario.ContainedIn σ
  rw [expand_filter h σ] at hs
  have hlen := hs.length_le
  cases hu : variantUnder? σ group .empty location value <;> simp [hu, hv, hw] at hlen

theorem checkGroup_distinct (limits : Limits) (location : Location) (group : List String)
    (value : Property) :
    (violationsIn (value.checkGroup limits location group)).Pairwise fun v w => ¬ v.Same w := by
  cases he : value.expand location group limits with
  | error o =>
    rw [checkGroup_of_error he]
    exact .nil
  | ok vs =>
    rw [violationsIn_checkGroup he, List.pairwise_filterMap]
    refine (expand_pairwise_excludes he).imp ?_
    intro variant other hex v hv w hw hsame
    obtain ⟨-, rfl⟩ := violation?_eq_some_iff.mp hv
    obtain ⟨-, rfl⟩ := violation?_eq_some_iff.mp hw
    exact hex.not_sameOutcomes hsame.scenario

theorem of_mem_check {groups : List (List String)}
    (h : .violation v ∈ value.check limits location groups) : v.location = location := by
  obtain ⟨group, -, h⟩ := List.mem_flatMap.mp h
  exact (of_mem_checkGroup h).1

theorem check_distinct {groups : List (List String)} (hn : groups.Nodup) :
    (violationsIn (value.check limits location groups)).Pairwise fun v w => ¬ v.Same w := by
  rw [check, violationsIn_flatMap, List.pairwise_flatMap]
  refine ⟨fun group _ => checkGroup_distinct .., hn.imp ?_⟩
  intro group other hne v hv w hw hsame
  have hg := (of_mem_checkGroup (mem_violationsIn.mp hv)).2
  have ho := (of_mem_checkGroup (mem_violationsIn.mp hw)).2
  exact hne (hg.symm.trans (hsame.group.trans ho))

end Property

end ExactlyOne
