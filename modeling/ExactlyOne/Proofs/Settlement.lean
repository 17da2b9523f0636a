import ExactlyOne.Proofs.Recording
import ExactlyOne.Proofs.Traversal

/-!
# Resolving and settling agree

A value of the group is resolved under the scenario that was reached before it, and all that later
keys fix leaves it as it is: settling it under the final scenario gives the same. Any other value is
settled under the scenario reached before it, which is the part of the final one that the
conditionals around the object and the values of the group in front of it have fixed.
-/
namespace ExactlyOne

namespace Property

variable {σ τ : Assignment} {focus : Focus} {location : Location} {depth : Nat}
  {s final : Scenario} {group : List String} {limits : Limits} {value : Property}
  {entries : List (String × Property)} {vs : List Variant} {v : Variant}

/-! ## Settling under a scenario that fixes enough -/

theorem settle_choice_of_fixed {c : String} {t f : Property} {b : Bool} (h : s.get? c = some b) :
    settle s (choice c t f) = settle s (branchFor b t f) := by
  rw [choice, settle, h]
  cases b <;> rfl

theorem settle_malformed {condition : Option String} {whenTrue whenFalse : Option Property}
    {arity : Nat} (hm : Malformed condition whenTrue whenFalse arity) :
    settle s (.conditional condition whenTrue whenFalse arity) =
      some (.conditional condition whenTrue whenFalse arity) := by
  rw [settle]
  exact hm

theorem settleItems_eq_evaluateItems {items : List Property}
    (h : ∀ item ∈ items, settle s item = evaluate σ item) :
    settleItems s items = evaluateItems σ items := by
  induction items with
  | nil => rw [settleItems, evaluateItems]
  | cons item rest ih =>
    obtain ⟨hi, hr⟩ := List.forall_mem_cons.mp h
    rw [settleItems, evaluateItems, hi, ih hr]

theorem settleEntries_eq_evaluateEntries
    (h : ∀ entry ∈ entries, settle s entry.2 = evaluate σ entry.2) :
    settleEntries s entries = evaluateEntries σ entries := by
  induction entries with
  | nil => rw [settleEntries, evaluateEntries]
  | cons entry rest ih =>
    obtain ⟨he, hr⟩ := List.forall_mem_cons.mp h
    rw [settleEntries, evaluateEntries, he, ih hr]

/-- Settling is evaluation where every condition is fixed that evaluation comes to. -/
theorem settle_eq_evaluate (h : ∀ c ∈ conditionsMet σ value, s.get? c = some (σ c)) :
    settle s value = evaluate σ value := by
  induction value using Property.induction with
  | scalar v => rw [settle, evaluate]
  | removed => rw [settle, evaluate]
  | malformed condition whenTrue whenFalse arity hm _ =>
    rw [settle_malformed hm, evaluate_malformed hm]
  | choice c t f ih =>
    rw [conditionsMet_choice] at h
    obtain ⟨hc, hrest⟩ := List.forall_mem_cons.mp h
    rw [settle_choice_of_fixed hc, evaluate_choice]
    exact ih (σ c) hrest
  | list items ih =>
    have hi : ∀ item ∈ items, settle s item = evaluate σ item := by
      intro item hm
      refine ih item hm fun c hc => h c ?_
      rw [conditionsMet]
      exact mem_conditionsMetItems.mpr ⟨item, hm, hc⟩
    rw [settle, evaluate, settleItems_eq_evaluateItems hi]
  | object entries ih =>
    have he : ∀ entry ∈ entries, settle s entry.2 = evaluate σ entry.2 := by
      intro entry hm
      refine ih entry hm fun c hc => h c ?_
      rw [conditionsMet]
      exact mem_conditionsMetEntries.mpr ⟨entry, hm, hc⟩
    rw [settle, evaluate, settleEntries_eq_evaluateEntries he]

/-! ## What was met before an entry -/

/-- The conditions that are met before the entry at a position: around the object, and in the values
of the group in front of it. -/
def conditionsBefore (σ : Assignment) (group : List String) (value : Property)
    (entries : List (String × Property)) (position : Nat) : List String :=
  chainConditions σ value ++ conditionsMetEntries σ (groupEntries group (entries.take position))

/-- The entries with each value settled under the scenario for its key and position; the removed
ones are left out. -/
def settleEach (scenarioFor : String → Nat → Scenario) (entries : List (String × Property)) :
    List (String × Property) :=
  entries.zipIdx.filterMap fun e => (settle (scenarioFor e.1.1 e.2) e.1.2).map (e.1.1, ·)

theorem settleEach_cons (scenarioFor : String → Nat → Scenario) (key : String) (value : Property)
    (rest : List (String × Property)) :
    settleEach scenarioFor ((key, value) :: rest) =
      ((settle (scenarioFor key 0) value).map (key, ·)).toList ++
        settleEach (fun key i => scenarioFor key (i + 1)) rest := by
  rw [settleEach, List.zipIdx_cons, List.zipIdx_succ, List.filterMap_cons, List.filterMap_map]
  cases settle (scenarioFor key 0) value <;> rfl

theorem conditionsMetEntries_append (xs ys : List (String × Property)) :
    conditionsMetEntries σ (xs ++ ys) = conditionsMetEntries σ xs ++ conditionsMetEntries σ ys := by
  induction xs with
  | nil => simp [conditionsMetEntries]
  | cons x rest ih => simp [conditionsMetEntries, ih]

theorem conditionsBefore_succ {i : Nat} {key : String} {x : Property}
    (hi : entries[i]? = some (key, x)) (hk : key ∈ group) :
    conditionsBefore σ group value entries (i + 1) =
      conditionsBefore σ group value entries i ++ conditionsMet σ x := by
  simp [conditionsBefore, List.take_add_one, hi, groupEntries, hk, conditionsMetEntries_append,
    conditionsMetEntries]

theorem exists_conditions_after (group : List String) (ho : selected σ value = .object entries)
    (i : Nat) :
    ∃ after, conditionsOfVariant σ group value =
      conditionsBefore σ group value entries i ++ after := by
  refine ⟨conditionsMetEntries σ (groupEntries group (entries.drop i)), ?_⟩
  have hsplit : groupEntries group (entries.take i) ++ groupEntries group (entries.drop i) =
      groupEntries group entries := by
    rw [groupEntries, groupEntries, ← List.filter_append, List.take_append_drop]
    rfl
  simp only [conditionsOfVariant, ho, entries?, Option.getD_some, conditionsBefore,
    List.append_assoc, ← conditionsMetEntries_append, hsplit]

/-- The entries of a variant are settled, those of the group under any scenario that fixes all that
was met in them. -/
theorem variantEntries_eq_settleEach
    (h : ∀ c ∈ conditionsMetEntries σ (groupEntries group entries), final.get? c = some (σ c)) :
    variantEntries σ group s entries = settleEach (fun key i => if key ∈ group then final else
      s.record σ (conditionsMetEntries σ (groupEntries group (entries.take i)))) entries := by
  induction entries generalizing s with
  | nil => rfl
  | cons entry rest ih =>
    obtain ⟨key, x⟩ := entry
    rw [settleEach_cons]
    by_cases hk : key ∈ group
    · have hgroup : groupEntries group ((key, x) :: rest) =
          (key, x) :: groupEntries group rest := by
        simp [groupEntries, hk]
      rw [hgroup, conditionsMetEntries] at h
      have hx : settle final x = evaluate σ x :=
        settle_eq_evaluate fun c hc => h c (List.mem_append_left _ hc)
      have hrest := ih (s := s.record σ (conditionsMet σ x)) fun c hc =>
        h c (List.mem_append_right _ hc)
      simp only [variantEntries, hk, if_true, hx, hrest]
      simp [groupEntries, hk, conditionsMetEntries, Scenario.record_append]
    · have hgroup : groupEntries group ((key, x) :: rest) = groupEntries group rest := by
        simp [groupEntries, hk]
      rw [hgroup] at h
      simp only [variantEntries, hk, if_false, ih h]
      simp [groupEntries, hk, conditionsMetEntries]

/-! ## Where resolving began -/

theorem mem_of_determines {step : Scenario → Except Obstacle (List Resolution)}
    {outcome : Scenario → Resolution} (hd : Determines σ step outcome) {rs : List Resolution}
    (h : step s = .ok rs) (hs : s.ContainedIn σ) : outcome s ∈ rs := by
  have hu := hd s rs h
  rw [if_pos hs] at hu
  have hm : outcome s ∈ under σ rs := by simp [hu]
  exact (List.mem_filter.mp hm).1

theorem exists_expandFrom_selected (h : expandFrom focus location depth s value = .ok vs)
    (hs : s.ContainedIn σ) :
    ∃ vs', expandFrom focus (selectedLocation σ location value)
      (depth + (chainConditions σ value).length) (s.record σ (chainConditions σ value))
      (selected σ value) = .ok vs' := by
  induction value using Property.induction generalizing location depth s vs with
  | scalar v => exact absurd h expandFrom_scalar
  | list items _ => exact absurd h expandFrom_list
  | malformed condition whenTrue whenFalse arity hm _ => exact absurd h (expandFrom_malformed hm)
  | removed => exact ⟨vs, h⟩
  | object entries _ => exact ⟨vs, h⟩
  | choice c t f ih =>
    obtain ⟨vs', hb⟩ := exists_expandFrom_branch h hs
    obtain ⟨vs'', hsel⟩ := ih (σ c) hb (hs.assign c)
    rw [selected_choice, selectedLocation_choice, chainConditions_choice, Scenario.record_cons,
      List.length_cons, Nat.add_comm _ 1, ← Nat.add_assoc]
    exact ⟨vs'', hsel⟩

theorem exists_resolve_before {partials out : List (Scenario × List (String × Property))}
    (h : expandEntries focus location depth partials entries = .ok out)
    {p : Scenario × List (String × Property)} (hp : p ∈ partials) (hs : p.1.ContainedIn σ)
    {i : Nat} {key : String} {x : Property} (hi : entries[i]? = some (key, x))
    (hk : key ∈ focus.group) :
    ∃ rs, resolve focus (location.key key) depth
      (p.1.record σ (conditionsMetEntries σ (groupEntries focus.group (entries.take i)))) x =
        .ok rs := by
  induction entries generalizing partials p i with
  | nil => simp at hi
  | cons entry rest ih =>
    obtain ⟨next, hn, -, h⟩ := expandEntries_cons h
    cases i with
    | zero =>
      obtain rfl : entry = (key, x) := by simpa using hi
      obtain ⟨rs, hrs⟩ := exists_run_of_appendEach hn hp
      simp only [expandValue, hk, if_true] at hrs
      exact ⟨rs, hrs⟩
    | succ i =>
      -- of the results of this entry the assignment keeps the one that goes on from `p`
      have hunder := appendEach_under (expandValue_under (σ := σ) entry.1 entry.2) hn
      have hmem : p ∈ under σ partials := List.mem_filter.mpr ⟨hp, decide_eq_true hs⟩
      obtain ⟨hnext, hcontained⟩ := List.mem_filter.mp (hunder ▸ List.mem_map_of_mem hmem)
      have hlater := ih h hnext (of_decide_eq_true hcontained) (by simpa using hi)
      by_cases hg : entry.1 ∈ focus.group
      · simpa [hg, groupEntries, conditionsMetEntries, Scenario.record_append] using hlater
      · simpa [hg, groupEntries] using hlater

/-! ## The entries of a variant -/

theorem selected_congr (h : ∀ c ∈ chainConditions σ value, τ c = σ c) :
    selected τ value = selected σ value ∧ chainConditions τ value = chainConditions σ value := by
  induction value using Property.induction with
  | scalar v => exact ⟨rfl, rfl⟩
  | list items _ => exact ⟨rfl, rfl⟩
  | object entries _ => exact ⟨rfl, rfl⟩
  | removed => exact ⟨rfl, rfl⟩
  | malformed condition whenTrue whenFalse arity hm _ =>
    rw [selected_malformed hm, selected_malformed hm, chainConditions_malformed hm,
      chainConditions_malformed hm]
    exact ⟨rfl, rfl⟩
  | choice c t f ih =>
    rw [chainConditions_choice] at h
    obtain ⟨hc, hrest⟩ := List.forall_mem_cons.mp h
    obtain ⟨hs, hch⟩ := ih (σ c) hrest
    rw [selected_choice, selected_choice, chainConditions_choice, chainConditions_choice, hc, hs,
      hch]
    exact ⟨rfl, rfl⟩

/-- A variant has the entries of an object with their values settled: those of the group under its
whole scenario, which is what resolving them gave under the scenario reached before, and any other
under the scenario reached before it. -/
structure SettledFrom (v : Variant) (focus : Focus) (depth : Nat)
    (entries : List (String × Property)) (reached : Nat → Scenario) : Prop where
  started : ∀ i, (reached i).StartOf v.scenario
  entries_eq : v.entries =
    settleEach (fun key i => if key ∈ focus.group then v.scenario else reached i) entries
  resolved : ∀ i key x, entries[i]? = some (key, x) → key ∈ focus.group → ∃ rs,
    resolve focus (v.location.key key) depth (reached i) x = .ok rs ∧
      (reached (i + 1), settle v.scenario x) ∈ rs

section

variable (h : value.expand location group limits = .ok vs) (hv : v ∈ vs)
  (hσ : v.scenario.ContainedIn σ) (ho : selected σ value = .object entries)

include h hv hσ ho

theorem get?_of_met_in_group {key : String} {x : Property} (hx : (key, x) ∈ entries)
    (hk : key ∈ group) {c : String} (hc : c ∈ conditionsMet σ x) :
    v.scenario.get? c = some (σ c) := by
  have hentry : (key, x) ∈ groupEntries group entries :=
    List.mem_filter.mpr ⟨hx, decide_eq_true hk⟩
  refine get?_of_mem_conditions h hv hσ ?_
  simp only [conditionsOfVariant, ho, entries?, Option.getD_some]
  exact List.mem_append_right _ (mem_conditionsMetEntries.mpr ⟨(key, x), hentry, hc⟩)

theorem restrict_conditionsBefore (i : Nat) :
    v.scenario.restrict (conditionsBefore σ group value entries i) =
      Scenario.empty.record σ (conditionsBefore σ group value entries i) := by
  obtain ⟨-, -, -, hs, -⟩ := exists_selected_of_mem h hv hσ
  obtain ⟨after, hafter⟩ := exists_conditions_after group ho i
  rw [hs, hafter, Scenario.restrict_record_empty]

theorem startOf_conditionsBefore (i : Nat) :
    (v.scenario.restrict (conditionsBefore σ group value entries i)).StartOf v.scenario := by
  obtain ⟨-, -, -, hs, -⟩ := exists_selected_of_mem h hv hσ
  obtain ⟨after, hafter⟩ := exists_conditions_after group ho i
  rw [restrict_conditionsBefore h hv hσ ho, hs, hafter, Scenario.record_append]
  exact Scenario.startOf_record ((Scenario.empty_containedIn σ).record _) after

theorem entries_eq_settleEach :
    v.entries = settleEach (fun key i => if key ∈ group then v.scenario else
      v.scenario.restrict (conditionsBefore σ group value entries i)) entries := by
  obtain ⟨entries', ho', he, -, -⟩ := exists_selected_of_mem h hv hσ
  obtain rfl := object.inj (ho.symm.trans ho')
  have hfixed : ∀ c ∈ conditionsMetEntries σ (groupEntries group entries),
      v.scenario.get? c = some (σ c) := by
    intro c hc
    obtain ⟨⟨key, x⟩, hx, hc⟩ := mem_conditionsMetEntries.mp hc
    obtain ⟨hx, hk⟩ := List.mem_filter.mp hx
    exact get?_of_met_in_group h hv hσ ho hx (of_decide_eq_true hk) hc
  rw [he, variantEntries_eq_settleEach hfixed]
  simp only [restrict_conditionsBefore h hv hσ ho]
  simp only [conditionsBefore, Scenario.record_append]

theorem exists_resolve_reached {i : Nat} {key : String} {x : Property}
    (hi : entries[i]? = some (key, x)) (hk : key ∈ group) :
    ∃ rs, resolve ⟨group, limits⟩ (v.location.key key) ((chainConditions σ value).length + 1)
        (v.scenario.restrict (conditionsBefore σ group value entries i)) x = .ok rs ∧
      (v.scenario.restrict (conditionsBefore σ group value entries (i + 1)),
        settle v.scenario x) ∈ rs := by
  have hempty := Scenario.empty_containedIn σ
  obtain ⟨-, -, -, -, hl⟩ := exists_selected_of_mem h hv hσ
  obtain ⟨vs', hobject⟩ := exists_expandFrom_selected h hempty
  rw [ho, Nat.zero_add, ← hl] at hobject
  obtain ⟨partials, hp, -⟩ := expandFrom_object hobject
  obtain ⟨rs, hrs⟩ := exists_resolve_before hp List.mem_cons_self (hempty.record _) hi hk
  have hmem := mem_of_determines (resolve_under (σ := σ) x _ _) hrs
    ((hempty.record _).record _)
  have hsettle : settle v.scenario x = evaluate σ x := settle_eq_evaluate fun c hc =>
    get?_of_met_in_group h hv hσ ho (List.mem_of_getElem? hi) hk hc
  rw [restrict_conditionsBefore h hv hσ ho, restrict_conditionsBefore h hv hσ ho,
    conditionsBefore_succ hi hk, hsettle]
  simp only [conditionsBefore, Scenario.record_append]
  exact ⟨rs, hrs, hmem⟩

theorem settledFrom_of_selected :
    SettledFrom v ⟨group, limits⟩ ((chainConditions σ value).length + 1) entries fun i =>
      v.scenario.restrict (conditionsBefore σ group value entries i) :=
  ⟨startOf_conditionsBefore h hv hσ ho, entries_eq_settleEach h hv hσ ho,
    fun _ _ _ hi hk => exists_resolve_reached h hv hσ ho hi hk⟩

end

/-- A variant is made of an object at the end of the conditionals around it, with every value
settled under the part of the scenario that its place in the document gives. -/
theorem exists_object_settled (h : value.expand location group limits = .ok vs) (hv : v ∈ vs) :
    ∃ chain entries, Leads value (Step.branches chain) (.object entries) ∧
      v.location = location.follow (Step.branches chain) ∧
      ∀ σ, v.scenario.ContainedIn σ →
        SettledFrom v ⟨group, limits⟩ (chain.length + 1) entries fun i =>
          v.scenario.restrict (conditionsBefore σ group value entries i) := by
  obtain ⟨τ, hτ⟩ : ∃ τ, v.scenario.ContainedIn τ := ⟨_, v.scenario.containedIn_completion⟩
  obtain ⟨entries, ho, -, -, hl⟩ := exists_selected_of_mem h hv hτ
  obtain ⟨hleads, hfollow⟩ := leads_branches τ location value
  refine ⟨chainOf τ value, entries, ho ▸ hleads, hl.trans hfollow, fun σ hσ => ?_⟩
  have hagree : ∀ c ∈ chainConditions τ value, σ c = τ c := by
    intro c hc
    exact hσ c (τ c) (get?_of_mem_conditions h hv hτ (List.mem_append_left _ hc))
  obtain ⟨hsel, hchain⟩ := selected_congr hagree
  have hlen : (chainOf τ value).length = (chainConditions σ value).length := by
    rw [chainOf, List.length_map, hchain]
  rw [hlen]
  exact settledFrom_of_selected h hv hσ (hsel.trans ho)

/-- One key outside the group stands in front of the conditions that its value asks for, the other
one behind them. -/
def tagsAround : Property :=
  choice "Use"
    (.object [
      ("Tags", choice "Large" (.scalar .null) .removed),
      ("A", choice "Large" (.list [choice "Old" .removed (.scalar .null)]) .removed),
      ("Labels", choice "Large" .removed (choice "Open" (.scalar .null) .removed)),
      ("B", choice "Old" (.scalar (.text "b")) .removed)])
    .removed

theorem tagsAround_settled :
    (tagsAround.expand .root ["A", "B"] {}).map
        (List.map fun v => (Entries.keys v.entries, v.scenario.assignments)) =
      .ok [(["Tags", "A", "B"], [("Use", true), ("Large", true), ("Old", true)]),
        (["Tags", "A"], [("Use", true), ("Large", true), ("Old", false)]),
        (["Tags", "Labels", "B"], [("Use", true), ("Large", false), ("Old", true)]),
        (["Tags", "Labels"], [("Use", true), ("Large", false), ("Old", false)])] ∧
    ∃ vs, tagsAround.expand .root ["A", "B"] {} = .ok vs ∧ ∀ v ∈ vs, ∃ chain entries,
      Leads tagsAround (Step.branches chain) (.object entries) ∧
      v.location = Location.root.follow (Step.branches chain) ∧
      ∀ σ, v.scenario.ContainedIn σ →
        SettledFrom v ⟨["A", "B"], {}⟩ (chain.length + 1) entries fun i =>
          v.scenario.restrict (conditionsBefore σ ["A", "B"] tagsAround entries i) := by
  obtain ⟨vs, h⟩ : ∃ vs, tagsAround.expand .root ["A", "B"] {} = .ok vs := ⟨_, rfl⟩
  exact ⟨rfl, vs, h, fun v hv => exists_object_settled h hv⟩

end Property

end ExactlyOne
