import ExactlyOne.Proofs.DocumentOrder

/-!
# The name of a nested type and the keys that lead to it

The keys on the way to a value are joined with points, and a key may hold points itself. So the name
of a type does not tell its keys, but it does tell the parts of its keys between their points: two
checks of one type stand behind the same parts, and behind the same keys if no key holds a point.
-/
namespace ExactlyOne

namespace Step

def key? : Step → Option String
  | .key name => some name
  | _ => none

def keys (steps : List Step) : List String := steps.filterMap key?

end Step

/-! ## Parts between points -/

namespace Template

def dotted (keys : List (List Char)) : List Char := keys.flatMap ('.' :: ·)

/-- What a key has before, between and behind its points. -/
def partsOf (key : String) : List (List Char) := key.toList.splitOn '.'

def partsAlong (steps : List Step) : List (List Char) := (Step.keys steps).flatMap partsOf

variable {type : String} {steps steps' : List Step}

theorem toList_typeAlong (type : String) (steps : List Step) :
    (typeAlong type steps).toList =
      type.toList ++ dotted ((Step.keys steps).map String.toList) := by
  induction steps generalizing type with
  | nil => simp [typeAlong, Step.keys, dotted]
  | cons step rest ih =>
    cases step with
    | key name =>
      rw [typeAlong, ih]
      simp [nestedType, Step.keys, Step.key?, dotted]
    | index position => exact ih type
    | branch condition outcome => exact ih type

theorem typeAlong_eq_iff_dotted : typeAlong type steps = typeAlong type steps' ↔
    dotted ((Step.keys steps).map String.toList) =
      dotted ((Step.keys steps').map String.toList) := by
  rw [← String.toList_inj, toList_typeAlong, toList_typeAlong, List.append_cancel_left_eq]

/-- Splitting undoes joining, but for the points that the keys hold. -/
theorem splitOn_append_dotted (first : List Char) (keys : List (List Char)) :
    (first ++ dotted keys).splitOn '.' =
      first.splitOn '.' ++ keys.flatMap (List.splitOn '.') := by
  induction keys generalizing first with
  | nil => simp [dotted]
  | cons key rest ih =>
    have hdotted : dotted (key :: rest) = '.' :: (key ++ dotted rest) := rfl
    rw [hdotted, List.splitOn_append_cons_self, ih, List.flatMap_cons]

theorem splitOn_dotted (keys : List (List Char)) :
    (dotted keys).splitOn '.' = [] :: keys.flatMap (List.splitOn '.') :=
  splitOn_append_dotted [] keys

theorem dotted_cons (part : List Char) (parts : List (List Char)) :
    dotted (part :: parts) = '.' :: ['.'].intercalate (part :: parts) := by
  induction parts generalizing part with
  | nil => simp [dotted]
  | cons next rest ih =>
    rw [List.intercalate_cons_cons, List.append_assoc, List.singleton_append, ← ih next]
    rfl

theorem dotted_splitOn (key : List Char) : dotted (key.splitOn '.') = '.' :: key := by
  obtain ⟨part, parts, hparts⟩ := List.exists_cons_of_ne_nil (List.splitOn_ne_nil '.' key)
  rw [hparts, dotted_cons, ← hparts, List.intercalate_splitOn]

theorem dotted_flatMap_splitOn (keys : List (List Char)) :
    dotted (keys.flatMap (List.splitOn '.')) = dotted keys := by
  induction keys with
  | nil => rfl
  | cons key rest ih =>
    rw [List.flatMap_cons, dotted, List.flatMap_append]
    exact congrArg₂ _ (dotted_splitOn key) ih

/-- The names of two types below one resource are equal just if their keys have the same parts. -/
theorem typeAlong_eq_iff : typeAlong type steps = typeAlong type steps' ↔
    partsAlong steps = partsAlong steps' := by
  have hparts : ∀ steps, partsAlong steps =
      ((Step.keys steps).map String.toList).flatMap (List.splitOn '.') := by
    intro steps
    rw [List.flatMap_map]
    rfl
  rw [typeAlong_eq_iff_dotted, hparts, hparts]
  constructor
  · intro h
    have hsplit := congrArg (List.splitOn '.') h
    rw [splitOn_dotted, splitOn_dotted] at hsplit
    exact (List.cons.inj hsplit).2
  · intro h
    rw [← dotted_flatMap_splitOn, h, dotted_flatMap_splitOn]

theorem partsAlong_of_no_point (h : ∀ key ∈ Step.keys steps, '.' ∉ key.toList) :
    partsAlong steps = (Step.keys steps).map String.toList := by
  have hpart : ∀ key ∈ Step.keys steps, partsOf key = [key.toList] := fun key hk =>
    List.splitOn_eq_singleton (h key hk)
  rw [partsAlong, List.flatMap_congr hpart, List.map_eq_flatMap]

end Template

/-! ## A location has one route -/

namespace Location

variable {location : Location} {steps steps' : List Step}

theorem follow_cons_ne (location : Location) (step : Step) (rest : List Step) :
    location.follow (step :: rest) ≠ location := by
  intro h
  have hsize := size_follow location (step :: rest)
  rw [h, List.length_cons] at hsize
  omega

theorem segment_eq_of_follow_eq (location : Location) {s t : Segment}
    (h : (location.child s).follow steps = (location.child t).follow steps') : s = t :=
  (covers_follow _ steps).child_unique (h ▸ covers_follow _ steps')

theorem outcome_eq_of_follow_eq {b b' : Bool}
    (h : (location.branch b).follow steps = (location.branch b').follow steps') : b = b' := by
  have hindex := segment_eq_of_follow_eq (location.key conditionalKey) h
  cases b <;> cases b' <;> simp [branchIndex] at hindex ⊢

end Location

namespace Property

variable {document : Json} {location : Location} {value v v' : Property} {steps steps' : List Step}

theorem Leads.route_unique (hg : GroundedAt document location value) (h : Leads value steps v)
    (h' : Leads value steps' v') (he : location.follow steps = location.follow steps') :
    steps = steps' := by
  -- on the first route: where both go on, the location tells that they go on alike
  induction h generalizing location steps' with
  | here =>
    cases steps' with
    | nil => rfl
    | cons step rest => exact absurd he.symm (Location.follow_cons_ne location step rest)
  | @key entries name w steps o hm _ ih =>
    cases h' with
    | here => exact absurd he (Location.follow_cons_ne location _ _)
    | @key _ name' w' rest' _ hm' hl' =>
      obtain rfl : name = name' := Segment.key.inj (Location.segment_eq_of_follow_eq _ he)
      obtain rfl := (hg.key hm).unique (hg.key hm')
      rw [ih (hg.key hm) hl' he]
  | @index items i w steps o hi _ ih =>
    cases h' with
    | here => exact absurd he (Location.follow_cons_ne location _ _)
    | @index _ i' w' rest' _ hi' hl' =>
      obtain rfl : i = i' := Segment.index.inj (Location.segment_eq_of_follow_eq _ he)
      obtain rfl := Option.some.inj (hi.symm.trans hi')
      rw [ih (hg.index hi) hl' he]
  | @branch condition whenTrue whenFalse arity outcome w steps o hb _ ih =>
    cases h' with
    | here => exact absurd he (Location.follow_cons_ne location _ _)
    | @branch _ _ _ _ outcome' w' rest' _ hb' hl' =>
      obtain rfl : outcome = outcome' := Location.outcome_eq_of_follow_eq he
      obtain rfl := Option.some.inj (hb.symm.trans hb')
      rw [ih (hg.branch hb) hl' he]

end Property

namespace Template

open Property

variable {catalog : Catalog} {template : Json}
  {name name' resourceType resourceType' type type' : String}
  {resource resource' : Json} {steps steps' : List Step}

/-! ## Checks of a type -/

theorem name_eq_of_follow_eq (h : (propertiesLocation name).follow steps =
    (propertiesLocation name').follow steps') : name = name' := by
  have hbelow : ∀ name steps, ((Location.root.key "Resources").key name).Covers
      ((propertiesLocation name).follow steps) := fun name steps =>
    (Location.covers_child _ _).trans (Location.covers_follow _ steps)
  exact Segment.key.inj ((hbelow name steps).child_unique (h ▸ hbelow name' steps'))

theorem IsResource.unique (hu : template.UniqueKeys)
    (h : IsResource template name resourceType resource)
    (h' : IsResource template name resourceType' resource') :
    resource = resource' ∧ resourceType = resourceType' := by
  obtain ⟨⟨resources, hr, hm⟩, ht⟩ := h
  obtain ⟨⟨resources', hr', hm'⟩, ht'⟩ := h'
  obtain rfl := Option.some.inj (hr.symm.trans hr')
  obtain ⟨listing, hl, he⟩ := Option.bind_eq_some_iff.mp hr
  obtain rfl : listing = .object resources := by
    cases listing <;> simp_all [Json.entries?]
  have hnodup := (hu.get? hl).nodup
  obtain rfl : resource = resource' :=
    Option.some.inj ((Entries.find?_of_mem hnodup hm).symm.trans (Entries.find?_of_mem hnodup hm'))
  exact ⟨rfl, Option.some.inj (ht.symm.trans ht')⟩

theorem IsResource.route_unique (hu : template.UniqueKeys)
    (hr : IsResource template name resourceType resource) {v v' : Property}
    (h : Leads (propertiesOf resource) steps v) (h' : Leads (propertiesOf resource) steps' v')
    (he : (propertiesLocation name).follow steps = (propertiesLocation name).follow steps') :
    steps = steps' := by
  rcases hr.groundedAt_or_absent hu with hg | ⟨-, hp⟩
  · exact h.route_unique hg h' he
  · -- there is no way into the object that stands for absent properties
    rw [hp] at h h'
    cases h with
    | here =>
      cases h' with
      | here => rfl
      | key hm => simp at hm
    | key hm => simp at hm

/-- The check of a nested type is run at the end of a route through a resource of some type. -/
def ChecksAlong (catalog : Catalog) (template : Json) (resourceType : String) (steps : List Step)
    (type : String) : Prop :=
  ∃ name resource value, IsResource template name resourceType resource ∧
    Leads (propertiesOf resource) steps value ∧
    .nested type value ((propertiesLocation name).follow steps) ∈ visits catalog template

theorem ChecksAlong.type_eq (hu : template.UniqueKeys)
    (h : ChecksAlong catalog template resourceType steps type) :
    type = typeAlong resourceType steps := by
  obtain ⟨name, resource, value, hr, hl, hv⟩ := h
  rcases mem_visits_cases hv with hv | ⟨name', hv⟩ | ⟨name', resourceType', resource', hr', hv⟩
  · cases hv
  · cases hv
  · simp only [List.mem_cons, reduceCtorEq, false_or] at hv
    obtain ⟨steps', v, hl', he⟩ := exists_route_of_mem_visitsOf hv
    injection he with htype hvalue hlocation
    obtain rfl := name_eq_of_follow_eq hlocation
    obtain ⟨rfl, rfl⟩ := hr.unique hu hr'
    rw [htype, hr.route_unique hu hl hl' hlocation]

/-- A value is checked as what lies behind some keys just if the keys that lead to it have the same
parts between points. So two checks in resources of one type are checks of the same nested type just
if the parts agree, and where no key holds a point, just if the keys are the same. -/
theorem checked_type_eq_iff (hu : template.UniqueKeys)
    (h : ChecksAlong catalog template resourceType steps type)
    (h' : ChecksAlong catalog template resourceType steps' type') :
    (∀ other, type = typeAlong resourceType other ↔ partsAlong steps = partsAlong other) ∧
    (type = type' ↔ partsAlong steps = partsAlong steps') ∧
    ((∀ key ∈ Step.keys steps ++ Step.keys steps', '.' ∉ key.toList) →
      (type = type' ↔ Step.keys steps = Step.keys steps')) := by
  have hnamed : ∀ other, type = typeAlong resourceType other ↔
      partsAlong steps = partsAlong other := by
    intro other
    rw [h.type_eq hu, typeAlong_eq_iff]
  have hparts : type = type' ↔ partsAlong steps = partsAlong steps' := by
    rw [h'.type_eq hu, hnamed]
  refine ⟨hnamed, hparts, fun hpoint => ?_⟩
  obtain ⟨hleft, hright⟩ := List.forall_mem_append.mp hpoint
  rw [hparts, partsAlong_of_no_point hleft, partsAlong_of_no_point hright,
    List.map_inj_right (fun _ _ => String.toList_inj.mp)]

def innerCatalog : Catalog where
  resourceTypes := []
  propertyTypes := [("AWS::Test::Thing.Outer.Inner", [["Left", "Right"]])]

def thing (properties : List (String × Json)) : Json :=
  .object [("Type", .text "AWS::Test::Thing"), ("Properties", .object properties)]

/-- One resource has the property in a list, and another one has it under a condition. -/
def innerTwice : Json :=
  .object [("Resources", .object [
    ("Listed", thing [("Outer", .array [.object [("Inner", .object [])]])]),
    ("Chosen", thing [("Outer", .object [("Fn::If", .array
      [.text "C", .object [("Inner", .object [])], .object [("Ref", .text "AWS::NoValue")]])])])])]

theorem innerTwice_same_keys :
    let steps := [.key "Outer", .index 0, .key "Inner"]
    let steps' := [.key "Outer", .branch (some "C") true, .key "Inner"]
    let type := "AWS::Test::Thing.Outer.Inner"
    innerTwice.UniqueKeys ∧
    ChecksAlong innerCatalog innerTwice "AWS::Test::Thing" steps type ∧
    ChecksAlong innerCatalog innerTwice "AWS::Test::Thing" steps' type ∧
    (∀ key ∈ Step.keys steps ++ Step.keys steps', '.' ∉ key.toList) ∧
    partsAlong steps = partsAlong steps' ∧ Step.keys steps = Step.keys steps' := by
  intro steps steps' type
  have hu : innerTwice.UniqueKeys := by
    simp [innerTwice, thing, Json.UniqueKeys, Json.UniqueKeysItems, Json.UniqueKeysEntries,
      Entries.keys]
  have h : ChecksAlong innerCatalog innerTwice "AWS::Test::Thing" steps type :=
    ⟨"Listed", _, _, ⟨⟨_, rfl, List.mem_cons_self⟩, rfl⟩,
      .key List.mem_cons_self (.index rfl (.key List.mem_cons_self (.here _))),
      List.mem_of_getElem? (i := 1) rfl⟩
  have h' : ChecksAlong innerCatalog innerTwice "AWS::Test::Thing" steps' type :=
    ⟨"Chosen", _, _, ⟨⟨_, rfl, List.mem_cons_of_mem _ List.mem_cons_self⟩, rfl⟩,
      .key List.mem_cons_self (.branch rfl (.key List.mem_cons_self (.here _))),
      List.mem_of_getElem? (i := 3) rfl⟩
  have hpoint : ∀ key ∈ Step.keys steps ++ Step.keys steps', '.' ∉ key.toList := by
    decide
  obtain ⟨-, hparts, hkeys⟩ := checked_type_eq_iff hu h h'
  exact ⟨hu, h, h', hpoint, hparts.mp rfl, (hkeys hpoint).mp rfl⟩

/-- One resource has the property and, beside it, a property with a point in its key. -/
def pointInKey : Json :=
  .object [("Resources", .object [("R", thing [
    ("Outer", .object [("Inner", .object [])]), ("Outer.Inner", .object [])])])]

theorem exists_keys_sharing_type :
    ∃ catalog template resourceType type steps steps', template.UniqueKeys ∧
      ChecksAlong catalog template resourceType steps type ∧
      ChecksAlong catalog template resourceType steps' type ∧
      Step.keys steps ≠ Step.keys steps' := by
  refine ⟨innerCatalog, pointInKey, "AWS::Test::Thing", "AWS::Test::Thing.Outer.Inner",
    [.key "Outer", .key "Inner"], [.key "Outer.Inner"], ?_, ?_, ?_, by decide⟩
  · simp [pointInKey, thing, Json.UniqueKeys, Json.UniqueKeysEntries, Entries.keys]
  · exact ⟨"R", _, _, ⟨⟨_, rfl, List.mem_cons_self⟩, rfl⟩,
      .key List.mem_cons_self (.key List.mem_cons_self (.here _)),
      List.mem_of_getElem? (i := 1) rfl⟩
  · exact ⟨"R", _, _, ⟨⟨_, rfl, List.mem_cons_self⟩, rfl⟩,
      .key (List.mem_cons_of_mem _ List.mem_cons_self) (.here _), List.mem_of_getElem? (i := 2) rfl⟩

end Template

end ExactlyOne
