import Mathlib.Data.List.Perm.Basic
import ExactlyOne.Proofs.Ample
import ExactlyOne.Proofs.Ceiling
import ExactlyOne.Proofs.Rearrangement
import ExactlyOne.Proofs.Separation

/-!
# The order of keys does not change the verdict

An assignment leaves the same variant of two rearranged values, but for the order in which its
scenario fixes conditions. No two variants of one expansion are alike in this way, so both
expansions have the same number of variants. Since the number only grows on the way, a limit that
one of them keeps within the other one keeps within too.
-/
namespace ExactlyOne

/-- What a violation says of a variant, with its scenario as a function. -/
def Variant.outline (group : List String) (variant : Variant) :
    Location × (String → Option Bool) × Nat :=
  (variant.location, variant.scenario.get?, variant.count group)

/-- Two variants that make the same violation of a group, if they make any. -/
structure Variant.Alike (group : List String) (v w : Variant) : Prop where
  location : v.location = w.location
  scenario : v.scenario.sameOutcomes w.scenario = true
  count : v.count group = w.count group

theorem Variant.alike_of_outline {group : List String} {v w : Variant}
    (h : v.outline group = w.outline group) (hv : v.scenario.Tidy) (hw : w.scenario.Tidy) :
    Variant.Alike group v w := by
  obtain ⟨hl, hrest⟩ := Prod.mk.inj h
  obtain ⟨hs, hc⟩ := Prod.mk.inj hrest
  have hget : ∀ c, v.scenario.get? c = w.scenario.get? c := fun c => congrFun hs c
  exact ⟨hl, Scenario.sameOutcomes_of_get? hv hw hget, hc⟩

theorem Variant.forall₂_alike {group : List String} {vs us : List Variant}
    (h : vs.map (Variant.outline group) = us.map (Variant.outline group))
    (hv : ∀ v ∈ vs, v.scenario.Tidy) (hu : ∀ u ∈ us, u.scenario.Tidy) :
    List.Forall₂ (Variant.Alike group) vs us := by
  induction vs generalizing us with
  | nil =>
    obtain rfl : us = [] := List.map_eq_nil_iff.mp h.symm
    exact .nil
  | cons v vs ih =>
    cases us with
    | nil => cases h
    | cons u us =>
      obtain ⟨hhead, htail⟩ := List.cons.inj h
      obtain ⟨hv, hvs⟩ := List.forall_mem_cons.mp hv
      obtain ⟨hu, hus⟩ := List.forall_mem_cons.mp hu
      exact .cons (Variant.alike_of_outline hhead hv hu) (ih htail hvs hus)

theorem Variant.Alike.violation? {group : List String} {v w : Variant}
    (h : Variant.Alike group v w) (location : Location) :
    Option.Rel Violation.Same (v.violation? location group) (w.violation? location group) := by
  unfold Variant.violation?
  by_cases hc : v.count group = 1
  · simp only [hc, ← h.count, if_true]
    exact .none
  · simp only [hc, ← h.count, if_false]
    exact .some ⟨rfl, h.location, rfl, h.scenario, rfl⟩

namespace Property

variable {σ : Assignment} {v w value : Property} {location : Location} {group : List String}
  {limits other : Limits} {vs ws : List Variant}

/-! ## The variants of one expansion -/

theorem variantUnder?_eq_none {s : Scenario} (h : ∀ es, selected σ value ≠ .object es) :
    variantUnder? σ group s location value = none := by
  unfold variantUnder?
  cases hs : selected σ value with
  | object es => exact absurd hs (h es)
  | _ => rfl

theorem mem_outlines_iff (h : value.expand location group limits = .ok vs)
    {p : Location × (String → Option Bool) × Nat} :
    p ∈ vs.map (Variant.outline group) ↔
      ∃ σ, (variantUnder? σ group .empty location value).map (Variant.outline group) = some p := by
  constructor
  · intro hp
    obtain ⟨variant, hm, rfl⟩ := List.mem_map.mp hp
    obtain ⟨σ, -, hu⟩ := exists_assignment_of_mem h hm
    exact ⟨σ, by rw [hu, Option.map_some]⟩
  · rintro ⟨σ, hp⟩
    obtain ⟨variant, hu, rfl⟩ := Option.map_eq_some_iff.mp hp
    exact List.mem_map_of_mem (mem_of_variantUnder? h hu).1

theorem nodup_outlines (h : value.expand location group limits = .ok vs) :
    (vs.map (Variant.outline group)).Nodup := by
  rw [List.Nodup, List.pairwise_map]
  refine (expand_pairwise_excludes h).imp ?_
  intro v w hex heq
  have hget : v.scenario.get? = w.scenario.get? := congrArg (fun p => p.2.1) heq
  have hv := v.scenario.containedIn_completion
  have hw : w.scenario.ContainedIn v.scenario.completion := by
    intro c b hb
    exact hv c b (by rw [hget, hb])
  exact hex _ hv hw

/-! ## Rearranged objects -/

namespace Rearranged

theorem presentCount_eq {es fs : List (String × Property)}
    (h : Rearranged (.object es) (.object fs)) :
    presentCount σ group es = presentCount σ group fs := by
  have hone : ∀ {es fs}, Rearranged (.object es) (.object fs) → ∀ g,
      Entries.contains g (evaluateEntries σ es) = true →
      Entries.contains g (evaluateEntries σ fs) = true := by
    intro es fs h g hg
    obtain ⟨x, hx, hsome⟩ := contains_evaluateEntries.mp hg
    obtain ⟨fs', hfs, hentry⟩ := h.exists_entry rfl
    obtain rfl := object.inj hfs
    obtain ⟨y, hy, hxy⟩ := hentry g x hx
    exact contains_evaluateEntries.mpr ⟨y, hy, hxy.isSome_evaluate ▸ hsome⟩
  apply List.countP_congr
  intro g _
  exact ⟨hone h g, hone h.symm g⟩

theorem mem_conditionsOfGroup {es fs : List (String × Property)}
    (h : Rearranged (.object es) (.object fs)) {c : String}
    (hc : c ∈ conditionsMetEntries σ (groupEntries group es)) :
    c ∈ conditionsMetEntries σ (groupEntries group fs) := by
  obtain ⟨⟨key, x⟩, he, hx⟩ := mem_conditionsMetEntries.mp hc
  obtain ⟨hm, hk⟩ := List.mem_filter.mp he
  obtain ⟨fs', hfs, hentry⟩ := h.exists_entry rfl
  obtain rfl := object.inj hfs
  obtain ⟨y, hy, hxy⟩ := hentry key x hm
  exact mem_conditionsMetEntries.mpr
    ⟨(key, y), List.mem_filter.mpr ⟨hy, hk⟩, hxy.mem_conditionsMet.mp hx⟩

theorem outline_eq_of_object (h : Rearranged v w) {es : List (String × Property)}
    {a b : Variant} (hv : Property.selected σ v = .object es)
    (ha : variantUnder? σ group .empty location v = some a)
    (hb : variantUnder? σ group .empty location w = some b) :
    a.outline group = b.outline group := by
  obtain ⟨fs, hw, -⟩ := h.selected.exists_entry hv
  have hobj : Rearranged (.object es) (.object fs) := hv ▸ hw ▸ h.selected
  have hlocation : a.location = b.location := by
    rw [location_of_variantUnder? hv ha, location_of_variantUnder? hw hb, h.selectedLocation_eq]
  have hscenario : a.scenario.get? = b.scenario.get? := by
    funext c
    have hmem : c ∈ conditionsMetEntries σ (groupEntries group es) ↔
        c ∈ conditionsMetEntries σ (groupEntries group fs) :=
      ⟨hobj.mem_conditionsOfGroup, hobj.symm.mem_conditionsOfGroup⟩
    rw [(variantUnder?_depicts hv ha).fixed, (variantUnder?_depicts hw hb).fixed]
    simp only [List.mem_append, h.chainConditions_eq, hmem]
  have hcount : a.count group = b.count group := by
    rw [count_variantUnder hv ha, count_variantUnder hw hb, hobj.presentCount_eq]
  rw [Variant.outline, Variant.outline, hlocation, hscenario, hcount]

theorem outline_variantUnder? (h : Rearranged v w) (σ : Assignment) (group : List String)
    (location : Location) :
    (variantUnder? σ group .empty location v).map (Variant.outline group) =
      (variantUnder? σ group .empty location w).map (Variant.outline group) := by
  by_cases hv : ∃ es, Property.selected σ v = .object es
  · obtain ⟨es, hv⟩ := hv
    obtain ⟨fs, hw, -⟩ := h.selected.exists_entry hv
    obtain ⟨a, ha⟩ : ∃ a, variantUnder? σ group .empty location v = some a :=
      ⟨_, variantUnder?_object hv⟩
    obtain ⟨b, hb⟩ : ∃ b, variantUnder? σ group .empty location w = some b :=
      ⟨_, variantUnder?_object hw⟩
    rw [ha, hb, Option.map_some, Option.map_some, h.outline_eq_of_object hv ha hb]
  · have hw : ∀ fs, Property.selected σ w ≠ .object fs := by
      intro fs hw
      obtain ⟨es, hes, -⟩ := h.symm.selected.exists_entry hw
      exact hv ⟨es, hes⟩
    rw [variantUnder?_eq_none fun es hes => hv ⟨es, hes⟩, variantUnder?_eq_none hw]

theorem outlines_perm (h : Rearranged v w) (hv : v.expand location group limits = .ok vs)
    (hw : w.expand location group other = .ok ws) :
    (vs.map (Variant.outline group)).Perm (ws.map (Variant.outline group)) := by
  rw [List.perm_ext_iff_of_nodup (nodup_outlines hv) (nodup_outlines hw)]
  intro p
  rw [mem_outlines_iff hv, mem_outlines_iff hw]
  simp only [h.outline_variantUnder?]

/-! ## Both are expanded, or neither is -/

theorem clear (h : Rearranged v w) (hv : v.expand location group limits = .ok vs)
    {steps : List Step} {o : Property} (hm : MeetsUnder σ group w steps o) :
    Clear limits 0 (Step.aroundObject steps) steps o := by
  obtain ⟨o', hm', ho⟩ := h.symm.meets hm
  obtain ⟨hdepth, hflaw⟩ := clear_of_expand hv hm'
  exact ⟨hdepth, fun flaw hf => hflaw flaw (ho.flawed hf)⟩

theorem exists_expand_unlimited (h : Rearranged v w)
    (hv : v.expand location group limits = .ok vs) :
    ∃ large ws, w.expand location group large = .ok ws :=
  exists_expand_of_flawless fun _ _ _ hm => (h.clear hv hm).2

theorem exists_expand (h : Rearranged v w) (hv : v.expand location group limits = .ok vs) :
    ∃ ws, w.expand location group limits = .ok ws := by
  by_cases hempty : v = .object []
  · rw [h.eq_empty hempty, ← hempty]
    exact ⟨vs, hv⟩
  · obtain ⟨large, ws, hw⟩ := h.exists_expand_unlimited hv
    have hlen : ws.length ≤ limits.maxVariants := by
      have hle := expand_length_le hv hempty
      have heq := (h.outlines_perm hv hw).length_eq
      simp only [List.length_map] at heq
      omega
    have hdepth : ∀ σ steps o, MeetsUnder σ group w steps o → steps.length ≤ limits.maxDepth := by
      intro σ steps o hm
      have hclear := (h.clear hv hm).1
      omega
    exact ⟨ws, expand_of_within hw hlen hdepth⟩

/-- The variants of the second value, in a suitable order, are those of the first one. -/
theorem exists_alike (h : Rearranged v w) (hv : v.expand location group limits = .ok vs)
    (hw : w.expand location group limits = .ok ws) :
    ∃ us, us.Perm ws ∧ List.Forall₂ (Variant.Alike group) vs us := by
  have hperm := h.outlines_perm hv hw
  obtain ⟨us, hus, hp⟩ : Relation.Comp (· = List.map (Variant.outline group) ·) List.Perm
      (vs.map (Variant.outline group)) ws := by
    rw [List.eq_map_comp_perm]
    exact hperm
  refine ⟨us, hp, Variant.forall₂_alike hus (fun _ => tidy_of_mem hv) ?_⟩
  intro u hu
  exact tidy_of_mem hw (hp.mem_iff.mp hu)

theorem violations_perm (h : Rearranged v w) (hv : v.expand location group limits = .ok vs)
    (hw : w.expand location group limits = .ok ws) :
    ∃ found, found.Perm (violationsIn (w.checkGroup limits location group)) ∧
      List.Forall₂ Violation.Same (violationsIn (v.checkGroup limits location group)) found := by
  obtain ⟨us, hp, halike⟩ := h.exists_alike hv hw
  rw [violationsIn_checkGroup hv, violationsIn_checkGroup hw]
  refine ⟨us.filterMap (·.violation? location group), hp.filterMap _, ?_⟩
  exact List.rel_filterMap (fun _ _ ha => ha.violation? location) halike

/-- A check of rearranged values meets an obstacle in both or in neither. Where it meets none, it
finds the same violations, though perhaps in another order. -/
theorem checkGroup_agrees (h : Rearranged v w) (location : Location) (group : List String)
    (limits : Limits) :
    ((∃ o, .obstacle o ∈ v.checkGroup limits location group) ↔
      ∃ o, .obstacle o ∈ w.checkGroup limits location group) ∧
    ((∀ o, .obstacle o ∉ v.checkGroup limits location group) →
      ∃ found, found.Perm (violationsIn (w.checkGroup limits location group)) ∧
        List.Forall₂ Violation.Same (violationsIn (v.checkGroup limits location group)) found) := by
  simp only [mem_checkGroup_obstacle_iff]
  cases hv : v.expand location group limits with
  | ok vs =>
    obtain ⟨ws, hw⟩ := h.exists_expand hv
    refine ⟨by simp [hw], fun _ => h.violations_perm hv hw⟩
  | error e =>
    cases hw : w.expand location group limits with
    | ok ws =>
      obtain ⟨vs, hv'⟩ := h.symm.exists_expand hw
      cases hv.symm.trans hv'
    | error e' => simp

end Rearranged

/-- Two keys that are there under conditions of their own; the value of the second one is an
object. -/
def twoChosen : Property :=
  .object [("A", choice "C" (.scalar .null) .removed),
    ("B", choice "D" (.object [("X", .scalar .null), ("Y", .list [])]) .removed)]

def twoChosenReordered : Property :=
  .object [("B", choice "D" (.object [("Y", .list []), ("X", .scalar .null)]) .removed),
    ("A", choice "C" (.scalar .null) .removed)]

theorem twoChosen_rearranged : Rearranged twoChosen twoChosenReordered := by
  have hvalue : Rearranged (.object [("X", .scalar .null), ("Y", .list [])])
      (.object [("Y", .list []), ("X", .scalar .null)]) := .entries (.swap _ _ _)
  have hchoice := hvalue.whenTrue (some "D") (some .removed) 3
  exact (hchoice.entry [("A", choice "C" (.scalar .null) .removed)] [] "B").trans
    (.entries (.swap _ _ _))

theorem twoChosen_agrees :
    Rearranged twoChosen twoChosenReordered ∧
    (∀ o, .obstacle o ∉ twoChosen.checkGroup {} .root ["A", "B"]) ∧
    violationsIn (twoChosen.checkGroup {} .root ["A", "B"]) ≠
      violationsIn (twoChosenReordered.checkGroup {} .root ["A", "B"]) ∧
    ((∃ o, .obstacle o ∈ twoChosen.checkGroup {} .root ["A", "B"]) ↔
      ∃ o, .obstacle o ∈ twoChosenReordered.checkGroup {} .root ["A", "B"]) ∧
    ∃ found,
      found.Perm (violationsIn (twoChosenReordered.checkGroup {} .root ["A", "B"])) ∧
      List.Forall₂ Violation.Same (violationsIn (twoChosen.checkGroup {} .root ["A", "B"]))
        found := by
  have hno : ∀ o, .obstacle o ∉ twoChosen.checkGroup {} .root ["A", "B"] := by
    obtain ⟨vs, h⟩ : ∃ vs, twoChosen.expand .root ["A", "B"] {} = .ok vs := ⟨_, rfl⟩
    intro o ho
    cases h.symm.trans (mem_checkGroup_obstacle_iff.mp ho)
  obtain ⟨hiff, hsame⟩ := twoChosen_rearranged.checkGroup_agrees .root ["A", "B"] {}
  exact ⟨twoChosen_rearranged, hno, by decide, hiff, hsame hno⟩

end Property

end ExactlyOne
