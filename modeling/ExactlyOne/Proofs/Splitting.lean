import ExactlyOne.Proofs.Ample
import ExactlyOne.Proofs.Place

/-!
# Lists that conditionals choose

A list is checked item by item, and so is a list in a branch of a conditional, which is then gone
through branch by branch. A list further down, behind a second conditional, does not make the first
one be split: if the second one stands in its place under some assignment, the list is taken for an
object. So the items of all lists are checked just if every conditional that is not split becomes a
list under no assignment.
-/
namespace ExactlyOne

namespace Property

variable {σ : Assignment} {group : List String} {value o : Property} {steps : List Step}

/-- Made of conditionals, lists, removed values and objects. -/
inductive Composed : Property → Prop where
  | object (entries) : Composed (.object entries)
  | removed : Composed .removed
  | list {items} : (∀ item ∈ items, Composed item) → Composed (.list items)
  | conditional {condition whenTrue whenFalse arity} :
      (∀ outcome v, branch? outcome whenTrue whenFalse = some v → Composed v) →
      Composed (.conditional condition whenTrue whenFalse arity)

theorem Composed.choice {c : String} {t f : Property} (ht : t.Composed) (hf : f.Composed) :
    (choice c t f).Composed := by
  refine .conditional fun outcome v hb => ?_
  cases outcome
  · exact Option.some.inj hb ▸ hf
  · exact Option.some.inj hb ▸ ht

theorem Composed.of_leads (hc : value.Composed) (h : Leads value steps o)
    (ha : Step.aroundObject steps = true) : o.Composed := by
  induction h with
  | here => exact hc
  | key _ _ _ => simp [Step.aroundObject, Step.isBranch] at ha
  | index _ _ _ => simp [Step.aroundObject, Step.isBranch] at ha
  | branch hb _ ih =>
    cases hc with
    | conditional hbranch => exact ih (hbranch _ _ hb) ha

theorem selected_of_reaches (h : Reaches σ value steps o)
    (ha : Step.aroundObject steps = true) : selected σ value = selected σ o := by
  induction value using Property.induction generalizing steps with
  | scalar v => cases h.leads; rfl
  | removed => cases h.leads; rfl
  | list items _ =>
    rcases h.list_cases with ⟨-, rfl⟩ | ⟨i, item, rest, -, rfl, -⟩
    · rfl
    · simp [Step.aroundObject, Step.isBranch] at ha
  | object entries _ =>
    rcases h.object_cases with ⟨-, rfl⟩ | ⟨key, value, rest, -, rfl, -⟩
    · rfl
    · simp [Step.aroundObject, Step.isBranch] at ha
  | malformed condition whenTrue whenFalse arity hm _ =>
    obtain ⟨-, rfl⟩ := h.malformed_cases hm
    rfl
  | choice c t f ih =>
    rcases h.choice_cases with ⟨-, rfl⟩ | ⟨rest, rfl, hrest⟩
    · rfl
    · rw [selected_choice]
      exact ih _ hrest ha

theorem exists_meetsUnder_selected (σ : Assignment) (group : List String) (value : Property) :
    ∃ steps, MeetsUnder σ group value steps (selected σ value) ∧
      Step.aroundObject steps = true := by
  obtain ⟨steps, hl, hf, -⟩ := leads_selected σ .root value
  refine ⟨steps, ⟨⟨hl, fun step hm => ?_⟩, ?_⟩, ?_⟩
  · obtain ⟨c, -, rfl⟩ := hf step hm
    exact rfl
  · clear hl
    induction steps with
    | nil => trivial
    | cons step rest ih =>
      obtain ⟨hstep, hrest⟩ := List.forall_mem_cons.mp hf
      obtain ⟨c, -, rfl⟩ := hstep
      exact ih hrest
  · refine List.all_eq_true.mpr fun step hm => ?_
    obtain ⟨c, -, rfl⟩ := hf step hm
    rfl

/-! ## A list in the place of an object -/

variable {location place : Location} {limits : Limits}

/-- A list is found in the place of an object only if an assignment selects it. -/
theorem exists_selected_list
    (h : value.expand location group limits = .error (.structural place (.notObject .list))) :
    ∃ σ items, selected σ value = .list items := by
  obtain ⟨σ, steps, o, hm, hb⟩ := exists_blamed_of_expand h
  cases hb with
  | flaw hf =>
    generalize hk : Flaw.notObject .list = flaw at hf
    cases hf with
    | malformed _ => cases hk
    | scalar v _ => cases v <;> cases hk
    | list items ha => exact ⟨σ, items, selected_of_reaches hm.toReaches ha⟩

/-- A composed value that an assignment makes a list is not taken for an object, unless a limit
stops the expansion before. -/
theorem expand_finds_list (hw : value.WellFormed) (hc : value.Composed) {items : List Property}
    (hs : selected σ value = .list items)
    (hl : ∀ place g most measure,
      value.expand location group limits ≠ .error (.limit place g most measure)) :
    ∃ place,
      value.expand location group limits = .error (.structural place (.notObject .list)) := by
  obtain ⟨steps, hm, ha⟩ := exists_meetsUnder_selected σ group value
  cases h : value.expand location group limits with
  | ok vs =>
    rw [hs] at hm
    exact absurd (.list items ha) ((clear_of_expand h hm).2 _)
  | error e =>
    obtain ⟨σ', steps', o, hm', hb⟩ := exists_blamed_of_expand h
    cases hb with
    | nesting _ => exact absurd h (hl _ _ _ _)
    | variants => exact absurd h (hl _ _ _ _)
    | flaw hf =>
      cases hf with
      | malformed hp => exact absurd hp (hw.of_leads hm'.leads).parts_ne_error
      | scalar v ha' => cases hc.of_leads hm'.leads ha'
      | list items ha' => exact ⟨_, rfl⟩

end Property

namespace Template

open Property

variable {catalog : Catalog} {type type' : String} {location place : Location}
  {value v : Property} {limits : Limits} {template : Json} {f : Finding} {visit : Visit}

/-- Each conditional that is visited as one value becomes a list under no assignment. -/
inductive ListsInReach : Property → Prop where
  | scalar (json) : ListsInReach (.scalar json)
  | object (entries) : ListsInReach (.object entries)
  | removed : ListsInReach .removed
  | list {items} : (∀ item ∈ items, ListsInReach item) → ListsInReach (.list items)
  | split {condition whenTrue whenFalse arity} : hasListBranch whenTrue whenFalse = true →
      (∀ outcome w, branch? outcome whenTrue whenFalse = some w → ListsInReach w) →
      ListsInReach (.conditional condition whenTrue whenFalse arity)
  | whole {condition whenTrue whenFalse arity} : hasListBranch whenTrue whenFalse = false →
      (∀ σ items, selected σ (.conditional condition whenTrue whenFalse arity) ≠ .list items) →
      ListsInReach (.conditional condition whenTrue whenFalse arity)

/-- A finding of the checks that are made at a place for its own type. -/
def FoundAt (limits : Limits) (catalog : Catalog) (type : String) (location : Location)
    (value : Property) (f : Finding) : Prop :=
  ∃ v place, .nested type v place ∈ visitsOf catalog true type location value ∧
    f ∈ (Visit.nested type v place).findings limits catalog

theorem FoundAt.of_item {items : List Property} {i : Nat} {item : Property}
    (hi : items[i]? = some item)
    (h : FoundAt limits catalog type (location.index i) item f) :
    FoundAt limits catalog type location (.list items) f := by
  obtain ⟨v, place, hv, hf⟩ := h
  refine ⟨v, place, mem_visitsOfItems.mpr ⟨i, item, hi, ?_⟩, hf⟩
  rwa [Nat.zero_add]

theorem FoundAt.of_branch {condition : Option String} {whenTrue whenFalse : Option Property}
    {arity : Nat} (hl : hasListBranch whenTrue whenFalse = true) {outcome : Bool} {w : Property}
    (hb : branch? outcome whenTrue whenFalse = some w)
    (h : FoundAt limits catalog type (location.branch outcome) w f) :
    FoundAt limits catalog type location (.conditional condition whenTrue whenFalse arity) f := by
  obtain ⟨v, place, hv, hf⟩ := h
  refine ⟨v, place, mem_visitsOf_conditional.mpr (Or.inr ⟨outcome, w, hb, ?_⟩), hf⟩
  rwa [hl]

theorem IsPlace.mem_findings (hp : IsPlace catalog template type location value)
    (h : FoundAt limits catalog type location value f) : f ∈ findings limits catalog template := by
  obtain ⟨v, place, hv, hf⟩ := h
  exact Template.mem_findings.mpr ⟨_, hp.mem_visits hv, hf⟩

theorem IsPlace.wellFormed (hp : IsPlace catalog template type location value)
    (hw : WellFormed template) : value.WellFormed := by
  induction hp with
  | property hr hl hm _ => exact ((hw _ _ _ hr).of_leads hl).entry hm
  | element _ hi ih => exact ih.item (List.mem_of_getElem? hi)

/-! ## Which values are checked as one -/

theorem ListsInReach.selected_ne (hr : ListsInReach value)
    (h : .nested type v place ∈ visitsOf catalog true type location value) (σ : Assignment)
    (items : List Property) : selected σ v ≠ .list items := by
  induction hr generalizing location with
  | scalar w =>
    simp only [visitsOf, if_true, List.mem_singleton] at h
    cases h
    exact Property.noConfusion
  | removed => simp [visitsOf] at h
  | object entries =>
    rcases mem_visitsOf_object.mp h with ⟨-, he⟩ | h
    · cases he
      exact Property.noConfusion
    · exact absurd (length_lt_of_mem_visitsOfEntries h) (Nat.lt_irrefl _)
  | list _ ih =>
    obtain ⟨i, item, hi, h⟩ := mem_visitsOfItems.mp h
    exact ih item (List.mem_of_getElem? hi) h
  | split hl _ ih =>
    rcases mem_visitsOf_conditional.mp h with ⟨-, hl', -⟩ | ⟨outcome, w, hb, h⟩
    · rw [hl] at hl'
      cases hl'
    · rw [hl] at h
      exact ih outcome w hb h
  | whole hl hs =>
    rcases mem_visitsOf_conditional.mp h with ⟨-, -, he⟩ | ⟨outcome, w, hb, h⟩
    · cases he
      exact hs σ items
    · rw [hl] at h
      exact absurd (length_lt_of_not_due h) (Nat.lt_irrefl _)

theorem listsInReach_of_not_found {group : List String} (hg : group ∈ catalog.propertyGroups type)
    (hw : value.WellFormed) (hc : value.Composed)
    (h : ∀ limits f, FoundAt limits catalog type location value f →
      ∀ place, f ≠ .obstacle (.structural place (.notObject .list))) : ListsInReach value := by
  induction hc generalizing location with
  | object entries => exact .object entries
  | removed => exact .removed
  | @list items _ ih =>
    refine .list fun item hm => ?_
    obtain ⟨i, hi⟩ := List.mem_iff_getElem?.mp hm
    exact ih item hm (hw.item hm) fun limits f hf => h limits f (hf.of_item hi)
  | @conditional condition whenTrue whenFalse arity hbranch ih =>
    cases hl : hasListBranch whenTrue whenFalse with
    | true =>
      refine .split hl fun outcome w hb => ?_
      exact ih outcome w hb (hw.branch hb) fun limits f hf => h limits f (hf.of_branch hl hb)
    | false =>
      refine .whole hl fun σ items hs => ?_
      obtain ⟨limits, hlim⟩ := exists_limits_not_reached group location
        (.conditional condition whenTrue whenFalse arity)
      obtain ⟨place, he⟩ := expand_finds_list hw (.conditional hbranch) hs hlim
      refine h limits _ ⟨_, location, mem_visitsOf_conditional.mpr (Or.inl ⟨rfl, hl, rfl⟩), ?_⟩
        place rfl
      exact List.mem_flatMap.mpr ⟨group, hg, mem_checkGroup_obstacle_iff.mpr he⟩

/-- For a composed value of a well-formed template no check of its type finds a list in the place of
an object, whatever the limits, just if the lists of the value are in reach or no group is
registered. -/
theorem list_never_found_iff (hw : WellFormed template)
    (hp : IsPlace catalog template type location value) (hc : value.Composed) :
    (∀ limits f, FoundAt limits catalog type location value f →
      f ∈ findings limits catalog template) ∧
    ((∀ limits f, FoundAt limits catalog type location value f →
        ∀ place, f ≠ .obstacle (.structural place (.notObject .list))) ↔
      catalog.propertyGroups type = [] ∨ ListsInReach value) := by
  refine ⟨fun limits f hf => hp.mem_findings hf, ?_, ?_⟩
  · intro h
    cases hg : catalog.propertyGroups type with
    | nil => exact Or.inl rfl
    | cons group rest =>
      have hgroup : group ∈ catalog.propertyGroups type := by simp [hg]
      exact Or.inr (listsInReach_of_not_found hgroup (hp.wellFormed hw) hc h)
  · rintro hr limits f ⟨v, place, hv, hf⟩ place' rfl
    obtain ⟨group, hgroup, hf⟩ := List.mem_flatMap.mp hf
    rcases hr with hg | hr
    · simp [hg] at hgroup
    · obtain ⟨σ, items, hs⟩ := exists_selected_list (mem_checkGroup_obstacle_iff.mp hf)
      exact hr.selected_ne hv σ items hs

/-! ## A list behind one conditional, and behind two -/

theorem functionTemplate_wellFormed {code : Json} (h : (ofJson code).WellFormed) :
    WellFormed (functionTemplate code) := by
  rintro name type resource ⟨⟨resources, hr, hm⟩, -⟩
  obtain rfl : [("Fn", functionOf code)] = resources := Option.some.inj hr
  obtain ⟨-, rfl⟩ := Prod.mk.inj (List.mem_singleton.mp hm)
  exact ⟨h, trivial⟩

def inlineCode : Property := .object [("ZipFile", .scalar (.text "x"))]

theorem inlineCode_composed : inlineCode.Composed := .object _

def listOrNothing : Json :=
  .object [("Fn::If", .array [.text "A",
    .array [.object [("Fn::If", .array [.text "B", .object [("ZipFile", .text "x")],
      .object [("Ref", .text "AWS::NoValue")]])]],
    .object [("Ref", .text "AWS::NoValue")]])]

theorem listOrNothing_never_found :
    let value := choice "A" (.list [choice "B" inlineCode .removed]) .removed
    WellFormed (functionTemplate listOrNothing) ∧
    IsPlace .bundled (functionTemplate listOrNothing) codeType codeLocation value ∧
    value.Composed ∧
    (∀ limits f, FoundAt limits .bundled codeType codeLocation value f →
      f ∈ findings limits .bundled (functionTemplate listOrNothing)) ∧
    ((∀ limits f, FoundAt limits .bundled codeType codeLocation value f →
        ∀ place, f ≠ .obstacle (.structural place (.notObject .list))) ↔
      Catalog.bundled.propertyGroups codeType = [] ∨ ListsInReach value) := by
  intro value
  have hw : WellFormed (functionTemplate listOrNothing) := functionTemplate_wellFormed (by
    show value.WellFormed
    simp [value, choice, inlineCode, Property.WellFormed, WellFormedBranch, WellFormedItems,
      WellFormedEntries, condition?, parts])
  have hp := isPlace_code listOrNothing
  have hitem : (choice "B" inlineCode .removed).Composed := .choice inlineCode_composed .removed
  have hc : value.Composed :=
    .choice (.list (List.forall_mem_singleton.mpr hitem)) .removed
  exact ⟨hw, hp, hc, list_never_found_iff hw hp hc⟩

/-- A conditional that chooses between a conditional and an object; the second conditional chooses
between a list and an object. -/
def listBehindTwo : Json :=
  .object [("Fn::If", .array [.text "A",
    .object [("Fn::If", .array [.text "B", .array [.object [("ZipFile", .text "x")]],
      .object [("ZipFile", .text "x")]])],
    .object [("ZipFile", .text "x")]])]

/-- The list behind two conditionals is taken for an object, although each of its items is right. -/
theorem exists_list_taken_for_object :
    let value := choice "A" (choice "B" (.list [inlineCode]) inlineCode) inlineCode
    WellFormed (functionTemplate listBehindTwo) ∧
    IsPlace .bundled (functionTemplate listBehindTwo) codeType codeLocation value ∧
    value.Composed ∧
    FoundAt {} .bundled codeType codeLocation value
      (.obstacle (.structural ((codeLocation.branch true).branch true) (.notObject .list))) := by
  intro value
  have hw : WellFormed (functionTemplate listBehindTwo) := functionTemplate_wellFormed (by
    show value.WellFormed
    simp [value, choice, inlineCode, Property.WellFormed, WellFormedBranch, WellFormedItems,
      WellFormedEntries, condition?, parts])
  have hlist : (Property.list [inlineCode]).Composed :=
    .list (List.forall_mem_singleton.mpr inlineCode_composed)
  have hc : value.Composed :=
    .choice (.choice hlist inlineCode_composed) inlineCode_composed
  have hv : Visit.nested codeType value codeLocation ∈
      visitsOf .bundled true codeType codeLocation value :=
    mem_visitsOf_conditional.mpr (Or.inl ⟨rfl, rfl, rfl⟩)
  exact ⟨hw, isPlace_code listBehindTwo, hc, value, codeLocation, hv, by decide⟩

end Template

end ExactlyOne
