import Mathlib.Logic.Relation
import ExactlyOne.Proofs.Ceiling

/-!
# What an expansion holds on the way

An expansion is a run that calls further runs: of the branches of a conditional, of the keys of the
group, of entries and of items. Every run holds lists of results while it goes on, and none of them
is longer than the list in which the whole expansion ends. So it is enough for the limits to allow
the variants and the depth of the runs: nothing in between passes them.
-/
namespace ExactlyOne

theorem Scenario.ContainedIn.get?_ne {s : Scenario} {σ : Assignment} (h : s.ContainedIn σ)
    (c : String) : s.get? c ≠ some !(σ c) := by
  intro hc
  have hσ := h c _ hc
  cases hb : σ c <;> simp [hb] at hσ

namespace Property

variable {σ : Assignment} {focus : Focus} {location : Location} {depth : Nat} {s : Scenario}
  {value o : Property} {steps : List Step} {group : List String} {limits other : Limits}

/-- A run: around the object it is one of `expandFrom`, and below the keys of the group one of
`resolve`. -/
structure Call where
  around : Bool
  location : Location
  depth : Nat
  scenario : Scenario
  value : Property

namespace Call

def first (value : Property) (location : Location) : Call := ⟨true, location, 0, .empty, value⟩

def count (focus : Focus) (call : Call) : Except Obstacle Nat :=
  if call.around then
    (expandFrom focus call.location call.depth call.scenario call.value).map List.length
  else (resolve focus call.location call.depth call.scenario call.value).map List.length

/-- One run makes another one. In front of the key, entry or item that it is for, the scenario was
reached by the stages before. -/
inductive Makes (focus : Focus) : Call → Call → Prop where
  | branch {around location depth s c t f b} : s.get? c ≠ some !b →
      Makes focus ⟨around, location, depth, s, choice c t f⟩
        ⟨around, location.branch b, depth + 1, s.assign c b, branchFor b t f⟩
  | key {location depth s before key value after reached p} : key ∈ focus.group →
      expandEntries focus location (depth + 1) [(s, [])] before = .ok reached → p ∈ reached →
      Makes focus ⟨true, location, depth, s, .object (before ++ (key, value) :: after)⟩
        ⟨false, location.key key, depth + 1, p.1, value⟩
  | entry {location depth s before key value after reached p} :
      resolveEntries focus location (depth + 1) [(s, [])] before = .ok reached → p ∈ reached →
      Makes focus ⟨false, location, depth, s, .object (before ++ (key, value) :: after)⟩
        ⟨false, location.key key, depth + 1, p.1, value⟩
  | item {location depth s before item after reached p} :
      resolveItems focus location (depth + 1) 0 [(s, [])] before = .ok reached → p ∈ reached →
      Makes focus ⟨false, location, depth, s, .list (before ++ item :: after)⟩
        ⟨false, location.index before.length, depth + 1, p.1, item⟩

def Visits (focus : Focus) : Call → Call → Prop := Relation.ReflTransGen (Makes focus)

/-- A run holds a list of a length: in the end its results, and before that what some of its stages
have reached. -/
inductive Holds (focus : Focus) : Call → Nat → Prop where
  | results {call n} : call.count focus = .ok n → Holds focus call n
  | keys {location depth s before after reached} :
      expandEntries focus location (depth + 1) [(s, [])] before = .ok reached →
      Holds focus ⟨true, location, depth, s, .object (before ++ after)⟩ reached.length
  | entries {location depth s before after reached} :
      resolveEntries focus location (depth + 1) [(s, [])] before = .ok reached →
      Holds focus ⟨false, location, depth, s, .object (before ++ after)⟩ reached.length
  | items {location depth s before after reached} :
      resolveItems focus location (depth + 1) 0 [(s, [])] before = .ok reached →
      Holds focus ⟨false, location, depth, s, .list (before ++ after)⟩ reached.length

theorem count_around_eq_ok {n : Nat} :
    count focus ⟨true, location, depth, s, value⟩ = .ok n ↔
      ∃ vs, expandFrom focus location depth s value = .ok vs ∧ vs.length = n := by
  simp only [count, if_true]
  cases expandFrom focus location depth s value <;> simp [Except.map]

theorem count_below_eq_ok {n : Nat} :
    count focus ⟨false, location, depth, s, value⟩ = .ok n ↔
      ∃ rs, resolve focus location depth s value = .ok rs ∧ rs.length = n := by
  simp only [count, Bool.false_eq_true, if_false]
  cases resolve focus location depth s value <;> simp [Except.map]

/-! ## No list is longer than the one in the end -/

theorem count_choice {around : Bool} {c : String} {t f : Property} {n : Nat}
    (h : count focus ⟨around, location, depth, s, choice c t f⟩ = .ok n) {b : Bool}
    (hb : s.get? c ≠ some !b) :
    ∃ m, count focus ⟨around, location.branch b, depth + 1, s.assign c b, branchFor b t f⟩ = .ok m ∧
      m ≤ n := by
  cases around with
  | true =>
    obtain ⟨vs, hvs, rfl⟩ := count_around_eq_ok.mp h
    rw [expandFrom_choice_eq (expandFrom_eq_ok_depth hvs)] at hvs
    obtain ⟨ws, hws, hle⟩ := exists_branch_length_le hvs hb
    exact ⟨_, count_around_eq_ok.mpr ⟨ws, hws, rfl⟩, hle⟩
  | false =>
    obtain ⟨rs, hrs, rfl⟩ := count_below_eq_ok.mp h
    rw [resolve_choice_eq (resolve_eq_ok_depth hrs)] at hrs
    obtain ⟨qs, hqs, hle⟩ := exists_branch_length_le hrs hb
    exact ⟨_, count_below_eq_ok.mpr ⟨qs, hqs, rfl⟩, hle⟩

/-- A run that is made by another one succeeds if that does, with as many results at most. -/
theorem Makes.count_le {a b : Call} (h : Makes focus a b) {n : Nat} (ha : a.count focus = .ok n) :
    ∃ m, b.count focus = .ok m ∧ m ≤ n := by
  cases h with
  | branch hb => exact count_choice ha hb
  | key hk hr hp =>
    obtain ⟨vs, hvs, rfl⟩ := count_around_eq_ok.mp ha
    obtain ⟨partials, hall, rfl⟩ := expandFrom_object hvs
    rw [expandEntries_eq_runStages] at hr hall
    obtain ⟨rs, hrs, hle⟩ := exists_run_length_le determined_runGroup hall hr hp
    simp only [runGroup, expandValue, hk, if_true] at hrs
    rw [List.length_map]
    exact ⟨_, count_below_eq_ok.mpr ⟨rs, hrs, rfl⟩, hle⟩
  | entry hr hp =>
    obtain ⟨qs, hqs, rfl⟩ := count_below_eq_ok.mp ha
    obtain ⟨partials, hall, rfl⟩ := resolve_object hqs
    rw [resolveEntries_eq_runStages] at hr hall
    obtain ⟨rs, hrs, hle⟩ := exists_run_length_le determined_runEntry hall hr hp
    rw [List.length_map]
    exact ⟨_, count_below_eq_ok.mpr ⟨rs, hrs, rfl⟩, hle⟩
  | item hr hp =>
    obtain ⟨qs, hqs, rfl⟩ := count_below_eq_ok.mp ha
    obtain ⟨partials, hall, rfl⟩ := resolve_list hqs
    rw [resolveItems_eq_runStages] at hr hall
    rw [List.zipIdx_append, List.zipIdx_cons, Nat.zero_add] at hall
    obtain ⟨rs, hrs, hle⟩ := exists_run_length_le determined_runItem hall hr hp
    rw [List.length_map]
    exact ⟨_, count_below_eq_ok.mpr ⟨rs, hrs, rfl⟩, hle⟩

theorem Visits.count_le {a b : Call} (h : Visits focus a b) {n : Nat}
    (ha : a.count focus = .ok n) : ∃ m, b.count focus = .ok m ∧ m ≤ n := by
  induction h with
  | refl => exact ⟨n, ha, Nat.le_refl n⟩
  | tail _ hmakes ih =>
    obtain ⟨m, hm, hle⟩ := ih
    obtain ⟨k, hk, hkm⟩ := hmakes.count_le hm
    exact ⟨k, hk, Nat.le_trans hkm hle⟩

theorem Visits.depth_le {a b : Call} (h : Visits focus a b) {n : Nat}
    (ha : a.count focus = .ok n) : b.depth ≤ focus.limits.maxDepth := by
  obtain ⟨m, hm, -⟩ := h.count_le ha
  obtain ⟨around, location, depth, s, value⟩ := b
  cases around with
  | true =>
    obtain ⟨vs, hvs, -⟩ := count_around_eq_ok.mp hm
    exact expandFrom_eq_ok_depth hvs
  | false =>
    obtain ⟨rs, hrs, -⟩ := count_below_eq_ok.mp hm
    exact resolve_eq_ok_depth hrs

theorem Holds.le {a : Call} {m : Nat} (h : Holds focus a m) {n : Nat}
    (ha : a.count focus = .ok n) : m ≤ n := by
  cases h with
  | results hm =>
    obtain rfl : m = n := Except.ok.inj (hm.symm.trans ha)
    exact Nat.le_refl m
  | keys hr =>
    obtain ⟨vs, hvs, rfl⟩ := count_around_eq_ok.mp ha
    obtain ⟨partials, hall, rfl⟩ := expandFrom_object hvs
    rw [expandEntries_eq_runStages] at hr hall
    rw [List.length_map]
    exact length_le_of_stages_before determined_runGroup hall hr
  | entries hr =>
    obtain ⟨qs, hqs, rfl⟩ := count_below_eq_ok.mp ha
    obtain ⟨partials, hall, rfl⟩ := resolve_object hqs
    rw [resolveEntries_eq_runStages] at hr hall
    rw [List.length_map]
    exact length_le_of_stages_before determined_runEntry hall hr
  | items hr =>
    obtain ⟨qs, hqs, rfl⟩ := count_below_eq_ok.mp ha
    obtain ⟨partials, hall, rfl⟩ := resolve_list hqs
    rw [resolveItems_eq_runStages] at hr hall
    rw [List.zipIdx_append] at hall
    rw [List.length_map]
    exact length_le_of_stages_before determined_runItem hall hr

/-! ## What an assignment comes to is visited -/

theorem add_length_cons {α : Type} (n : Nat) (x : α) (xs : List α) :
    n + (x :: xs).length = n + 1 + xs.length := by
  rw [List.length_cons]
  omega

theorem exists_split_of_getElem? {items : List Property} {i : Nat} {item : Property}
    (h : items[i]? = some item) :
    ∃ before after, items = before ++ item :: after ∧ before.length = i := by
  obtain ⟨hi, rfl⟩ := List.getElem?_eq_some_iff.mp h
  refine ⟨items.take i, items.drop (i + 1), ?_, List.length_take_of_le (Nat.le_of_lt hi)⟩
  rw [List.getElem_cons_drop, List.take_append_drop]

theorem exists_visit_below {rs : List Resolution}
    (h : resolve focus location depth s value = .ok rs) (hs : s.ContainedIn σ)
    (hr : Reaches σ value steps o) :
    ∃ s', Visits focus ⟨false, location, depth, s, value⟩
      ⟨false, location.follow steps, depth + steps.length, s', o⟩ := by
  induction value using Property.induction generalizing location depth s rs steps with
  | scalar v =>
    cases hr.leads
    exact ⟨s, .refl⟩
  | removed =>
    cases hr.leads
    exact ⟨s, .refl⟩
  | malformed condition whenTrue whenFalse arity hm _ => exact absurd h (resolve_malformed hm)
  | choice c t f ih =>
    rcases hr.choice_cases with ⟨rfl, rfl⟩ | ⟨rest, rfl, hrest⟩
    · exact ⟨s, .refl⟩
    · obtain ⟨rs', hb⟩ := exists_resolve_branch h hs
      obtain ⟨s', hv⟩ := ih (σ c) hb (hs.assign c) hrest
      rw [add_length_cons]
      exact ⟨s', .head (.branch (hs.get?_ne c)) hv⟩
  | list items ih =>
    rcases hr.list_cases with ⟨rfl, rfl⟩ | ⟨i, item, rest, hi, rfl, hrest⟩
    · exact ⟨s, .refl⟩
    · obtain ⟨before, after, rfl, rfl⟩ := exists_split_of_getElem? hi
      obtain ⟨partials, hall, -⟩ := resolve_list h
      rw [resolveItems_eq_runStages, List.zipIdx_append, List.zipIdx_cons, Nat.zero_add] at hall
      obtain ⟨reached, p, rs', hb, hp, hc, hrs⟩ :=
        exists_reached_stage hall determined_runItem (reached_singleton.mpr hs)
      rw [← resolveItems_eq_runStages] at hb
      obtain ⟨s', hv⟩ := ih item (by simp) hrs hc hrest
      rw [add_length_cons]
      exact ⟨s', .head (.item hb hp) hv⟩
  | object entries ih =>
    rcases hr.object_cases with ⟨rfl, rfl⟩ | ⟨key, value, rest, hm, rfl, hrest⟩
    · exact ⟨s, .refl⟩
    · obtain ⟨before, after, rfl⟩ := List.append_of_mem hm
      obtain ⟨partials, hall, -⟩ := resolve_object h
      rw [resolveEntries_eq_runStages] at hall
      obtain ⟨reached, p, rs', hb, hp, hc, hrs⟩ :=
        exists_reached_stage hall determined_runEntry (reached_singleton.mpr hs)
      rw [← resolveEntries_eq_runStages] at hb
      obtain ⟨s', hv⟩ := ih (key, value) hm hrs hc hrest
      rw [add_length_cons]
      exact ⟨s', .head (.entry hb hp) hv⟩

theorem exists_visit {vs : List Variant} (h : expandFrom focus location depth s value = .ok vs)
    (hs : s.ContainedIn σ) (hm : MeetsUnder σ focus.group value steps o) :
    ∃ around s', Visits focus ⟨true, location, depth, s, value⟩
      ⟨around, location.follow steps, depth + steps.length, s', o⟩ := by
  obtain ⟨hr, hf⟩ := hm
  induction value using Property.induction generalizing location depth s vs steps with
  | scalar v => exact absurd h expandFrom_scalar
  | list items _ => exact absurd h expandFrom_list
  | malformed condition whenTrue whenFalse arity hm _ => exact absurd h (expandFrom_malformed hm)
  | removed =>
    cases hr.leads
    exact ⟨true, s, .refl⟩
  | choice c t f ih =>
    rcases hr.choice_cases with ⟨rfl, rfl⟩ | ⟨rest, rfl, hrest⟩
    · exact ⟨true, s, .refl⟩
    · obtain ⟨vs', hb⟩ := exists_expandFrom_branch h hs
      obtain ⟨around, s', hv⟩ := ih (σ c) hb (hs.assign c) hrest hf
      rw [add_length_cons]
      exact ⟨around, s', .head (.branch (hs.get?_ne c)) hv⟩
  | object entries _ =>
    rcases hr.object_cases with ⟨rfl, rfl⟩ | ⟨key, value, rest, hm, rfl, hrest⟩
    · exact ⟨true, s, .refl⟩
    · obtain ⟨before, after, rfl⟩ := List.append_of_mem hm
      obtain ⟨partials, hall, -⟩ := expandFrom_object h
      rw [expandEntries_eq_runStages] at hall
      obtain ⟨reached, p, rs, hb, hp, hc, hrs⟩ :=
        exists_reached_stage hall determined_runGroup (reached_singleton.mpr hs)
      have hk : key ∈ focus.group := hf
      simp only [runGroup, expandValue, hk, if_true] at hrs
      rw [← expandEntries_eq_runStages] at hb
      obtain ⟨s', hv⟩ := exists_visit_below hrs hc hrest
      rw [add_length_cons]
      exact ⟨false, s', .head (.key hk hb hp) hv⟩

end Call

open Call

/-- What an expansion gives under some limits is longer than any list that it holds on the way, and
it gives the same under all limits that allow its variants and the depth of its runs. -/
theorem expand_gives_up_only_at_end {vs : List Variant}
    (h : value.expand location group other = .ok vs) :
    (∀ call, Visits ⟨group, other⟩ (first value location) call →
      ∀ n, Holds ⟨group, other⟩ call n → n ≤ vs.length) ∧
    ∀ limits, vs.length ≤ limits.maxVariants →
      (∀ call, Visits ⟨group, other⟩ (first value location) call →
        call.depth ≤ limits.maxDepth) →
      value.expand location group limits = .ok vs := by
  have hfirst : (first value location).count ⟨group, other⟩ = .ok vs.length :=
    count_around_eq_ok.mpr ⟨vs, h, rfl⟩
  constructor
  · intro call hvisit n hn
    obtain ⟨m, hm, hle⟩ := hvisit.count_le hfirst
    exact Nat.le_trans (hn.le hm) hle
  · intro limits hlen hdepth
    apply expand_of_within h hlen
    intro σ steps o hm
    obtain ⟨around, s', hv⟩ := exists_visit h (Scenario.empty_containedIn σ) hm
    have hle := hdepth _ hv
    rwa [Nat.zero_add] at hle

/-- Both keys depend on one condition, and the list of the first one has another condition too. -/
def listOfChoices : Property :=
  choice "Use"
    (.object [
      ("A", .list [choice "C" (.scalar .null) .removed,
        choice "D" (.list []) (choice "C" .removed (.scalar .null))]),
      ("B", choice "D" .removed (.scalar .null))])
    .removed

theorem listOfChoices_not_given_up :
    ∃ vs, listOfChoices.expand .root ["A", "B"] ⟨4096, 5⟩ = .ok vs ∧ vs.length = 4 ∧
      (∀ call, Visits ⟨["A", "B"], ⟨4096, 5⟩⟩ (first listOfChoices .root) call →
        call.depth ≤ 5 ∧ ∀ n, Holds ⟨["A", "B"], ⟨4096, 5⟩⟩ call n → n ≤ 4) ∧
      listOfChoices.expand .root ["A", "B"] ⟨4, 5⟩ = .ok vs := by
  obtain ⟨vs, h, hlen⟩ : ∃ vs, listOfChoices.expand .root ["A", "B"] ⟨4096, 5⟩ = .ok vs ∧
    vs.length = 4 := ⟨_, rfl, rfl⟩
  obtain ⟨hheld, hgives⟩ := expand_gives_up_only_at_end h
  have hdepth : ∀ call, Visits ⟨["A", "B"], ⟨4096, 5⟩⟩ (first listOfChoices .root) call →
      call.depth ≤ 5 := by
    intro call hvisit
    exact hvisit.depth_le (count_around_eq_ok.mpr ⟨vs, h, rfl⟩)
  refine ⟨vs, h, hlen, ?_, hgives ⟨4, 5⟩ (Nat.le_of_eq hlen) hdepth⟩
  intro call hvisit
  exact ⟨hdepth call hvisit, fun n hn => hlen ▸ hheld call hvisit n hn⟩

end Property

end ExactlyOne
