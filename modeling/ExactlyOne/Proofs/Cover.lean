import ExactlyOne.Proofs.Evaluation
import ExactlyOne.Proofs.Expansion

/-!
# The variants of an object cover all assignments exactly

Under any assignment a successful expansion leaves the one variant that evaluation gives, and none
where the object is removed. The step lemmas say it for a starting scenario of any length: of the
results that grew from it, just one is contained in an assignment that contains the start.
-/
namespace ExactlyOne

namespace Property

variable {σ : Assignment} {focus : Focus} {location : Location} {depth position : Nat}
  {s : Scenario}

def under {α : Type} (σ : Assignment) (results : List (Scenario × α)) : List (Scenario × α) :=
  results.filter fun r => r.1.ContainedIn σ

theorem under_append {α : Type} (xs ys : List (Scenario × α)) :
    under σ (xs ++ ys) = under σ xs ++ under σ ys := List.filter_append ..

theorem under_map {α β : Type} (f : Scenario × α → β) (xs : List (Scenario × α)) :
    under σ (xs.map fun x => (x.1, f x)) = (under σ xs).map fun x => (x.1, f x) :=
  List.filter_map

theorem under_singleton {α : Type} (x : α) :
    under σ [(s, x)] = if s.ContainedIn σ then [(s, x)] else [] := by
  simp [under, List.filter_cons]

/-- What a step gives from a scenario on, seen under an assignment. -/
def Determines (σ : Assignment) (step : Scenario → Except Obstacle (List Resolution))
    (outcome : Scenario → Resolution) : Prop :=
  ∀ s rs, step s = .ok rs → under σ rs = if s.ContainedIn σ then [outcome s] else []

theorem appendEach_under {α : Type} {step : Scenario → Except Obstacle (List Resolution)}
    {outcome : Scenario → Resolution} (hstep : Determines σ step outcome) {item : Property → α}
    {partials next : List (Scenario × List α)} (h : appendEach step item partials = .ok next) :
    under σ next = (under σ partials).map fun p =>
      ((outcome p.1).1, p.2 ++ ((outcome p.1).2.map item).toList) := by
  induction partials generalizing next with
  | nil =>
    simp only [appendEach, Except.ok.injEq] at h
    simp [← h, under]
  | cons p rest ih =>
    obtain ⟨rs, later, hs, hl, rfl⟩ := appendEach_cons_eq_ok.mp h
    rw [under_append, under_map, hstep _ _ hs, ih hl]
    by_cases hp : p.1.ContainedIn σ <;> simp [under, hp]

/-- The spec of resolving a value, at every location and depth. -/
def ResolvesUnder (σ : Assignment) (focus : Focus) (value : Property) : Prop :=
  ∀ location depth, Determines σ (fun s => resolve focus location depth s value)
    fun s => (s.record σ (conditionsMet σ value), evaluate σ value)

theorem resolveItems_under {items : List Property}
    (hi : ∀ item ∈ items, ResolvesUnder σ focus item)
    {partials out : List (Scenario × List Property)}
    (h : resolveItems focus location depth position partials items = .ok out) :
    under σ out = (under σ partials).map fun p =>
      (p.1.record σ (conditionsMetItems σ items), p.2 ++ evaluateItems σ items) := by
  induction items generalizing position partials with
  | nil =>
    simp only [resolveItems, Except.ok.injEq] at h
    simp [← h, conditionsMetItems, evaluateItems]
  | cons item rest ih =>
    obtain ⟨next, hn, _, h⟩ := resolveItems_cons h
    have hstep := hi item List.mem_cons_self (location.index position) depth
    rw [ih (fun i hr => hi i (List.mem_cons_of_mem _ hr)) h, appendEach_under hstep hn]
    simp [conditionsMetItems, evaluateItems, Scenario.record_append]

theorem resolveEntries_under {entries : List (String × Property)}
    (he : ∀ entry ∈ entries, ResolvesUnder σ focus entry.2)
    {partials out : List (Scenario × List (String × Property))}
    (h : resolveEntries focus location depth partials entries = .ok out) :
    under σ out = (under σ partials).map fun p =>
      (p.1.record σ (conditionsMetEntries σ entries), p.2 ++ evaluateEntries σ entries) := by
  induction entries generalizing partials with
  | nil =>
    simp only [resolveEntries, Except.ok.injEq] at h
    simp [← h, conditionsMetEntries, evaluateEntries]
  | cons entry rest ih =>
    obtain ⟨next, hn, _, h⟩ := resolveEntries_cons h
    have hstep := he entry List.mem_cons_self (location.key entry.1) depth
    rw [ih (fun e hr => he e (List.mem_cons_of_mem _ hr)) h, appendEach_under hstep hn]
    simp [conditionsMetEntries, evaluateEntries, Scenario.record_append]

theorem fork_filter {α : Type} {p : α → Bool} {c : String} (hc : s.get? c = none)
    {yes no xs ys : List α}
    (hy : yes.filter p = if (s.assign c true).ContainedIn σ then xs else [])
    (hn : no.filter p = if (s.assign c false).ContainedIn σ then ys else []) :
    (yes ++ no).filter p = if s.ContainedIn σ then (if σ c then xs else ys) else [] := by
  rw [List.filter_append, hy, hn]
  simp only [Scenario.assign_containedIn hc]
  by_cases hs : s.ContainedIn σ <;> cases hb : σ c <;> simp [hs]

theorem resolve_under (value : Property) : ResolvesUnder σ focus value := by
  induction value using Property.induction with
  | scalar v =>
    intro location depth s rs h
    rw [resolve_scalar h, under_singleton]
    simp [conditionsMet, evaluate]
  | list items ih =>
    intro location depth s rs h
    obtain ⟨partials, hp, rfl⟩ := resolve_list h
    rw [under_map, resolveItems_under ih hp, under_singleton]
    by_cases hs : s.ContainedIn σ <;> simp [hs, conditionsMet, evaluate]
  | object entries ih =>
    intro location depth s rs h
    obtain ⟨partials, hp, rfl⟩ := resolve_object h
    rw [under_map, resolveEntries_under ih hp, under_singleton]
    by_cases hs : s.ContainedIn σ <;> simp [hs, conditionsMet, evaluate]
  | choice c t f ih =>
    intro location depth s rs h
    rw [evaluate_choice, conditionsMet_choice]
    rcases resolve_choice h with ⟨b, hc, h⟩ | ⟨hc, yes, no, hy, hn, -, rfl⟩
    · have hr := ih b _ _ _ _ h
      by_cases hs : s.ContainedIn σ
      · simpa [hs c b hc, Scenario.assign_eq_self hc] using hr
      · simpa [hs] using hr
    · rw [under, fork_filter hc (ih true _ _ _ _ hy) (ih false _ _ _ _ hn)]
      cases hb : σ c <;> simp [hb]
  | malformed condition whenTrue whenFalse arity hm _ =>
    intro location depth s rs h
    exact absurd h (resolve_malformed hm)
  | removed =>
    intro location depth s rs h
    rw [resolve_removed h, under_singleton]
    simp [conditionsMet, evaluate]

/-! ## Variants -/

theorem expandValue_under (key : String) (value : Property) :
    Determines σ (expandValue focus location depth key value) fun s =>
      if key ∈ focus.group then (s.record σ (conditionsMet σ value), evaluate σ value)
      else (s, settle s value) := by
  intro s rs h
  by_cases hk : key ∈ focus.group
  · simp only [expandValue, hk, if_true] at h ⊢
    exact resolve_under value _ _ s rs h
  · simp only [expandValue, hk, if_false, Except.ok.injEq] at h ⊢
    rw [← h, under_singleton]

theorem expandEntries_under {entries : List (String × Property)}
    {partials out : List (Scenario × List (String × Property))}
    (h : expandEntries focus location depth partials entries = .ok out) :
    under σ out = (under σ partials).map fun p =>
      (p.1.record σ (conditionsMetEntries σ (groupEntries focus.group entries)),
        p.2 ++ variantEntries σ focus.group p.1 entries) := by
  induction entries generalizing partials with
  | nil =>
    simp only [expandEntries, Except.ok.injEq] at h
    simp [← h, groupEntries, conditionsMetEntries, variantEntries]
  | cons entry rest ih =>
    obtain ⟨next, hn, _, h⟩ := expandEntries_cons h
    rw [ih h, appendEach_under (expandValue_under entry.1 entry.2) hn]
    by_cases hk : entry.1 ∈ focus.group
    · simp [hk, groupEntries, conditionsMetEntries, variantEntries, Scenario.record_append]
    · simp [hk, groupEntries, variantEntries]

theorem selected_of_expandFrom {value : Property} {vs : List Variant}
    (h : expandFrom focus location depth s value = .ok vs) (hs : s.ContainedIn σ) :
    selected σ value = .removed ∨ ∃ entries, selected σ value = .object entries := by
  induction value using Property.induction generalizing location depth s vs with
  | scalar v => exact absurd h expandFrom_scalar
  | list items _ => exact absurd h expandFrom_list
  | object entries _ => exact Or.inr ⟨entries, rfl⟩
  | malformed condition whenTrue whenFalse arity hm _ => exact absurd h (expandFrom_malformed hm)
  | removed => exact Or.inl rfl
  | choice c t f ih =>
    rw [selected_choice]
    rcases expandFrom_choice h with ⟨b, hc, h⟩ | ⟨hc, yes, no, hy, hn, -, -⟩
    · rw [hs c b hc]
      exact ih b h hs
    · cases hb : σ c
      · exact ih false hn ((Scenario.assign_containedIn hc).mpr ⟨hs, hb⟩)
      · exact ih true hy ((Scenario.assign_containedIn hc).mpr ⟨hs, hb⟩)

/-- Of the variants grown from a scenario an assignment that contains it leaves just its own. -/
theorem expandFrom_filter {value : Property} {vs : List Variant}
    (h : expandFrom focus location depth s value = .ok vs) :
    (vs.filter fun v => v.scenario.ContainedIn σ) =
      if s.ContainedIn σ then (variantUnder? σ focus.group s location value).toList else [] := by
  induction value using Property.induction generalizing location depth s vs with
  | scalar v => exact absurd h expandFrom_scalar
  | list items _ => exact absurd h expandFrom_list
  | malformed condition whenTrue whenFalse arity hm _ => exact absurd h (expandFrom_malformed hm)
  | removed =>
    have hu : variantUnder? σ focus.group s location .removed = none := variantUnder?_removed rfl
    simp [expandFrom_removed h, hu]
  | object entries _ =>
    obtain ⟨partials, hp, rfl⟩ := expandFrom_object h
    have hu := expandEntries_under (σ := σ) hp
    rw [under_singleton] at hu
    rw [List.filter_map]
    change (under σ partials).map _ = _
    rw [hu]
    by_cases hs : s.ContainedIn σ <;>
      simp [hs, variantUnder?, selected, entries?, chainConditions, conditionsOfVariant,
        selectedLocation]
  | choice c t f ih =>
    rw [variantUnder?_choice]
    rcases expandFrom_choice h with ⟨b, hc, h⟩ | ⟨hc, yes, no, hy, hn, -, rfl⟩
    · have hf := ih b h
      by_cases hs : s.ContainedIn σ
      · rw [hs c b hc, Scenario.assign_eq_self hc]
        exact hf
      · simpa [hs] using hf
    · rw [fork_filter hc (ih true hy) (ih false hn)]
      cases σ c <;> rfl

theorem expand_filter {value : Property} {group : List String} {limits : Limits}
    {vs : List Variant} (h : value.expand location group limits = .ok vs) (σ : Assignment) :
    (vs.filter fun v => v.scenario.ContainedIn σ) =
      (variantUnder? σ group .empty location value).toList := by
  rw [expandFrom_filter h, if_pos (Scenario.empty_containedIn σ)]

theorem variantUnder?_of_mem {value : Property} {group : List String} {limits : Limits}
    {vs : List Variant} (h : value.expand location group limits = .ok vs) {v : Variant}
    (hv : v ∈ vs) (hc : v.scenario.ContainedIn σ) :
    variantUnder? σ group .empty location value = some v := by
  have hm : v ∈ vs.filter fun v' => v'.scenario.ContainedIn σ :=
    List.mem_filter.mpr ⟨hv, decide_eq_true hc⟩
  rwa [expand_filter h, Option.mem_toList] at hm

theorem mem_of_variantUnder? {value : Property} {group : List String} {limits : Limits}
    {vs : List Variant} (h : value.expand location group limits = .ok vs) {v : Variant}
    (hv : variantUnder? σ group .empty location value = some v) :
    v ∈ vs ∧ v.scenario.ContainedIn σ := by
  have hf := expand_filter h σ
  rw [hv] at hf
  have hm : v ∈ vs.filter fun v => v.scenario.ContainedIn σ := by simp [hf]
  obtain ⟨hvs, hc⟩ := List.mem_filter.mp hm
  exact ⟨hvs, of_decide_eq_true hc⟩

theorem exists_assignment_of_mem {value : Property} {group : List String} {limits : Limits}
    {vs : List Variant} (h : value.expand location group limits = .ok vs) {v : Variant}
    (hv : v ∈ vs) :
    ∃ σ, v.scenario.ContainedIn σ ∧ variantUnder? σ group .empty location value = some v := by
  have hc := v.scenario.containedIn_completion
  exact ⟨_, hc, variantUnder?_of_mem h hv hc⟩

theorem exists_selected_of_mem {value : Property} {group : List String} {limits : Limits}
    {vs : List Variant} (h : value.expand location group limits = .ok vs) {v : Variant}
    (hv : v ∈ vs) (hc : v.scenario.ContainedIn σ) :
    ∃ entries, selected σ value = .object entries ∧
      v.entries =
        variantEntries σ group (Scenario.empty.record σ (chainConditions σ value)) entries ∧
      v.scenario = Scenario.empty.record σ (conditionsOfVariant σ group value) ∧
      v.location = selectedLocation σ location value := by
  have hu := variantUnder?_of_mem h hv hc
  rcases selected_of_expandFrom h (Scenario.empty_containedIn σ) with hr | ⟨entries, ho⟩
  · simp [variantUnder?_removed hr] at hu
  · obtain rfl := Option.some.inj ((variantUnder?_object ho).symm.trans hu)
    exact ⟨entries, ho, rfl, rfl, rfl⟩

theorem get?_of_mem_conditions {value : Property} {group : List String} {limits : Limits}
    {vs : List Variant} (h : value.expand location group limits = .ok vs) {v : Variant}
    (hv : v ∈ vs) (hc : v.scenario.ContainedIn σ) {c : String}
    (hm : c ∈ conditionsOfVariant σ group value) : v.scenario.get? c = some (σ c) := by
  obtain ⟨entries, -, -, hs, -⟩ := exists_selected_of_mem h hv hc
  rw [hs, Scenario.get?_record, if_pos hm]

theorem tidy_of_mem {value : Property} {group : List String} {limits : Limits}
    {vs : List Variant} (h : value.expand location group limits = .ok vs) {v : Variant}
    (hv : v ∈ vs) : v.scenario.Tidy := by
  obtain ⟨entries, -, -, hs, -⟩ := exists_selected_of_mem h hv v.scenario.containedIn_completion
  have hempty : Scenario.empty.Tidy := List.nodup_nil
  rw [hs]
  exact hempty.record _ _

/-- A variant is what an object with these entries is under an assignment: it has the evaluated
entries of the group, and its scenario fixes just the conditions that were met. -/
structure Depicts (v : Variant) (σ : Assignment) (group : List String) (value : Property)
    (entries : List (String × Property)) : Prop where
  evaluated : ∀ g ∈ group,
    Entries.find? g v.entries = Entries.find? g (evaluateEntries σ entries)
  entrywise : (Entries.keys entries).Nodup → ∀ g ∈ group,
    Entries.find? g v.entries = (Entries.find? g entries).bind (evaluate σ)
  fixed : ∀ c, v.scenario.get? c =
    if c ∈ chainConditions σ value ++ conditionsMetEntries σ (groupEntries group entries)
    then some (σ c) else none

theorem variantUnder?_depicts {group : List String} {value : Property} {v : Variant}
    {entries : List (String × Property)} (ho : selected σ value = .object entries)
    (h : variantUnder? σ group .empty location value = some v) :
    Depicts v σ group value entries := by
  obtain rfl := Option.some.inj ((variantUnder?_object ho).symm.trans h)
  refine ⟨fun g hg => find?_variantEntries hg _ _, fun hn g hg => ?_, fun c => ?_⟩
  · exact (find?_variantEntries hg _ _).trans (find?_evaluateEntries hn g)
  · simp only [Scenario.get?_record, conditionsOfVariant, ho, entries?, Option.getD_some,
      Scenario.get?_empty]

/-- Every assignment is met by just one variant, which is the object as the assignment leaves it,
or by none if it removes the object. -/
theorem expand_covers_assignments {value : Property} {location : Location} {group : List String}
    {limits : Limits} {vs : List Variant} (h : value.expand location group limits = .ok vs)
    (σ : Assignment) :
    (selected σ value = .removed ∧ ∀ v ∈ vs, ¬ v.scenario.ContainedIn σ) ∨
    ∃ entries v, selected σ value = .object entries ∧
      (vs.filter fun v => v.scenario.ContainedIn σ) = [v] ∧ Depicts v σ group value entries := by
  have hf := expand_filter h σ
  rcases selected_of_expandFrom h (Scenario.empty_containedIn σ) with hr | ⟨entries, ho⟩
  · refine Or.inl ⟨hr, fun v hv hc => ?_⟩
    have hm : v ∈ vs.filter fun v => v.scenario.ContainedIn σ := by simp [hv, hc]
    simp [hf, variantUnder?_removed hr] at hm
  · obtain ⟨v, hv⟩ : ∃ v, variantUnder? σ group .empty location value = some v :=
      ⟨_, variantUnder?_object ho⟩
    rw [hv] at hf
    exact Or.inr ⟨entries, v, ho, hf, variantUnder?_depicts ho hv⟩

/-- Two keys share a condition with each other and one of them holds it inside a list. -/
def sharedCondition : Property :=
  choice "Use"
    (.object [("A", choice "Large" (.scalar (.text "a")) .removed),
      ("B", .list [choice "Large" .removed (.scalar (.text "b")), .scalar .null])])
    .removed

theorem sharedCondition_covered :
    ∃ vs, sharedCondition.expand .root ["A", "B"] {} = .ok vs ∧ ∀ σ,
      (selected σ sharedCondition = .removed ∧ ∀ v ∈ vs, ¬ v.scenario.ContainedIn σ) ∨
      ∃ entries v, selected σ sharedCondition = .object entries ∧
        (vs.filter fun v => v.scenario.ContainedIn σ) = [v] ∧
        Depicts v σ ["A", "B"] sharedCondition entries := by
  obtain ⟨vs, h⟩ : ∃ vs, sharedCondition.expand .root ["A", "B"] {} = .ok vs := ⟨_, rfl⟩
  exact ⟨vs, h, expand_covers_assignments h⟩

end Property

end ExactlyOne
