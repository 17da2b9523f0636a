import ExactlyOne.Proofs.Grounding

/-!
# Places where the type of a nested property is checked

A registered property is checked at its value, or at the elements of the value if that is a list. A
malformed conditional there is reported as such unless it has a list in a branch: then only the
branches are gone into, and the conditional is not mentioned.
-/
namespace ExactlyOne

def Visit.location? : Visit → Option Location
  | .noResources => none
  | .untypedResource _ => none
  | .resource name _ _ => some (Template.propertiesLocation name)
  | .nested _ _ location => some location

namespace Template

open Property

variable {limits : Limits} {catalog : Catalog} {template : Json} {type : String}
  {location : Location} {value : Property} {visit : Visit} {f : Finding}

/-- A registered property in a resource, or an element of its possibly nested list. -/
inductive IsPlace (catalog : Catalog) (template : Json) : String → Location → Property → Prop where
  | property {name resourceType resource steps entries key value} :
      IsResource template name resourceType resource →
      Leads (propertiesOf resource) steps (.object entries) → (key, value) ∈ entries →
      catalog.hasPropertyType (nestedType (typeAlong resourceType steps) key) = true →
      IsPlace catalog template (nestedType (typeAlong resourceType steps) key)
        (((propertiesLocation name).follow steps).key key) value
  | element {type location items i item} :
      IsPlace catalog template type location (.list items) → items[i]? = some item →
      IsPlace catalog template type (location.index i) item

theorem IsPlace.mem_visits (h : IsPlace catalog template type location value)
    (hv : visit ∈ visitsOf catalog true type location value) : visit ∈ visits catalog template := by
  induction h with
  | @property name resourceType resource steps entries key value hr hl hm hreg =>
    obtain ⟨due, hdue⟩ := exists_due_of_leads hl catalog false resourceType
      (propertiesLocation name)
    refine hr.mem_visits (List.mem_cons_of_mem _ (hdue visit ?_))
    exact mem_visitsOf_object.mpr (Or.inr (mem_visitsOfEntries.mpr
      ⟨key, value, hm, by rw [hreg]; exact hv⟩))
  | @element type location items i item _ hi ih =>
    refine ih (mem_visitsOfItems.mpr ⟨i, item, hi, ?_⟩)
    rw [Nat.zero_add]
    exact hv

theorem IsPlace.groundedAt (h : IsPlace catalog template type location value)
    (hu : template.UniqueKeys) : GroundedAt template location value := by
  induction h with
  | @property name resourceType resource steps entries key value hr hl hm hreg =>
    rcases hr.groundedAt_or_absent hu with hg | ⟨-, hp⟩
    · exact (hg.follow hl).key hm
    · rw [hp] at hl
      cases hl with
      | here => simp at hm
      | key hk => simp at hk
  | element _ hi ih => exact ih.index hi

theorem size_propertiesLocation (name : String) : (propertiesLocation name).size = 3 := rfl

theorem IsPlace.size_lt (h : IsPlace catalog template type location value) : 3 < location.size := by
  induction h with
  | @property name resourceType resource steps entries key value _ _ _ _ =>
    have hs := Location.size_follow (propertiesLocation name) (steps ++ [.key key])
    rw [Location.follow_append, size_propertiesLocation, List.length_append] at hs
    exact Nat.lt_of_lt_of_le (by simp) hs
  | @element type location items i item _ _ ih =>
    have hs := Location.size_follow location [.index i]
    exact Nat.lt_of_lt_of_le ih (Nat.le_trans (Nat.le_add_right _ _) hs)

theorem groundedAt_of_mem_visits (hu : template.UniqueKeys)
    (h : .nested type value location ∈ visits catalog template) :
    GroundedAt template location value := by
  rcases mem_visits_cases h with h | ⟨name, h⟩ | ⟨name, type', resource, hr, h⟩
  · cases h
  · cases h
  · simp only [List.mem_cons, reduceCtorEq, false_or] at h
    rcases hr.groundedAt_or_absent hu with hg | ⟨-, hp⟩
    · obtain ⟨steps, v, hl, he⟩ := exists_route_of_mem_visitsOf h
      cases he
      exact hg.follow hl
    · simp [hp, visitsOf, visitsOfEntries] at h

/-! ## Malformed conditionals -/

variable {condition : Option String} {whenTrue whenFalse : Option Property} {arity : Nat}
  {m : Malformation} {flaw : Flaw}

theorem expand_malformed (hm : parts condition whenTrue whenFalse arity = .error m)
    (location : Location) (group : List String) (limits : Limits) :
    expand (.conditional condition whenTrue whenFalse arity) location group limits =
      .error (.structural location (.malformed m)) := by
  obtain ⟨hmal, rfl⟩ := parts_eq_error_iff.mp hm
  exact expandFrom_malformed_eq (Nat.zero_le _) hmal

/-- A malformed conditional that is checked as one value is reported for what is wrong with it. -/
theorem IsPlace.malformed_found
    (hp : IsPlace catalog template type location
      (.conditional condition whenTrue whenFalse arity))
    (hm : parts condition whenTrue whenFalse arity = .error m)
    (hl : hasListBranch whenTrue whenFalse = false) {group : List String}
    (hg : group ∈ catalog.propertyGroups type) :
    .obstacle (.structural location (.malformed m)) ∈ findings limits catalog template := by
  have hv := hp.mem_visits (mem_visitsOf_conditional.mpr (Or.inl ⟨rfl, hl, rfl⟩))
  exact mem_findings_nested hv hg
    (mem_checkGroup_obstacle_iff.mpr (expand_malformed hm location group limits))

/-- The check of an enclosing value reports a flaw at a location. -/
def FoundFromAbove (limits : Limits) (catalog : Catalog) (template : Json) (location : Location)
    (flaw : Flaw) : Prop :=
  ∃ visit ∈ visits catalog template, ∃ above, visit.location? = some above ∧
    above.size < location.size ∧
    .obstacle (.structural location flaw) ∈ visit.findings limits catalog

theorem structural_at_or_below {place : Location} {group : List String}
    (h : .obstacle (.structural location flaw) ∈ value.checkGroup limits place group) :
    place = location ∨ place.size < location.size := by
  obtain ⟨σ, steps, o, -, hb⟩ := exists_blamed_of_expand (mem_checkGroup_obstacle_iff.mp h)
  cases hb with
  | flaw _ =>
    cases steps with
    | nil => exact Or.inl rfl
    | cons step rest =>
      have hs := Location.size_follow place (step :: rest)
      rw [List.length_cons] at hs
      exact Or.inr (by omega)

theorem hasListBranch_of_mem_visits {place : Location}
    (h : .nested type (.conditional condition whenTrue whenFalse arity) place ∈
      visits catalog template) : hasListBranch whenTrue whenFalse = false := by
  rcases mem_visits_cases h with h | ⟨name, h⟩ | ⟨name, type', resource, -, h⟩
  · cases h
  · cases h
  · simp only [List.mem_cons, reduceCtorEq, false_or] at h
    exact hasListBranch_of_mem_visitsOf h

theorem exists_flawed_of_mem_findings (hu : template.UniqueKeys)
    (h : .obstacle (.structural location flaw) ∈ findings limits catalog template) :
    ∃ w, GroundedAt template location w ∧ Flawed true w flaw := by
  obtain ⟨name, type, resource, steps, value, group, hr, hl, hf⟩ := exists_check_of_mem_findings h
  have he := mem_checkGroup_obstacle_iff.mp hf
  rcases hr.groundedAt_or_absent hu with hg | ⟨-, hp⟩
  · obtain ⟨σ, below, w, hm, hb⟩ := exists_blamed_of_expand he
    cases hb with
    | flaw hflaw => exact ⟨w, (hg.follow hl).follow hm.leads, hflaw.expected⟩
  · rw [hp] at hl
    cases hl with
    | here =>
      rw [expand_empty_object] at he
      cases he
    | key hm => simp at hm

theorem IsPlace.flaw_eq (hp : IsPlace catalog template type location
      (.conditional condition whenTrue whenFalse arity))
    (hm : parts condition whenTrue whenFalse arity = .error m) (hu : template.UniqueKeys)
    (h : .obstacle (.structural location flaw) ∈ findings limits catalog template) :
    flaw = .malformed m := by
  obtain ⟨w, hg, hflaw⟩ := exists_flawed_of_mem_findings hu h
  obtain rfl := hg.unique (hp.groundedAt hu)
  cases hflaw with
  | malformed hm' => rw [Except.error.inj (hm'.symm.trans hm)]

/-- A malformed conditional at a place is reported just if it has no list in a branch, or if the
check of an enclosing value comes to it. The report says what is wrong with it. -/
theorem malformed_reported_iff (hu : template.UniqueKeys)
    (hp : IsPlace catalog template type location
      (.conditional condition whenTrue whenFalse arity))
    (hm : parts condition whenTrue whenFalse arity = .error m)
    (hg : catalog.propertyGroups type ≠ []) :
    (∀ flaw, .obstacle (.structural location flaw) ∈ findings limits catalog template →
      flaw = .malformed m) ∧
    (.obstacle (.structural location (.malformed m)) ∈ findings limits catalog template ↔
      hasListBranch whenTrue whenFalse = false ∨
        FoundFromAbove limits catalog template location (.malformed m)) := by
  obtain ⟨group, hgroup⟩ := List.exists_mem_of_ne_nil _ hg
  refine ⟨fun flaw h => hp.flaw_eq hm hu h, ?_, ?_⟩
  · intro h
    obtain ⟨visit, hv, hf⟩ := mem_findings.mp h
    cases visit with
    | noResources => simp [Visit.findings] at hf
    | untypedResource name => simp [Visit.findings] at hf
    | resource name resourceType properties => exact Or.inr ⟨_, hv, _, rfl, hp.size_lt, hf⟩
    | nested type' v place =>
      obtain ⟨group', -, hc⟩ := List.mem_flatMap.mp hf
      rcases structural_at_or_below hc with rfl | hlt
      · -- A visit at this very location is to the conditional, and as one value.
        obtain rfl := (groundedAt_of_mem_visits hu hv).unique (hp.groundedAt hu)
        exact Or.inl (hasListBranch_of_mem_visits hv)
      · exact Or.inr ⟨_, hv, place, rfl, hlt, hf⟩
  · rintro (hl | ⟨visit, hv, above, -, -, hf⟩)
    · exact hp.malformed_found hm hl hgroup
    · exact mem_findings.mpr ⟨visit, hv, hf⟩

/-! ## A function and its code -/

def functionOf (code : Json) : Json :=
  .object [("Type", .text "AWS::Lambda::Function"), ("Properties", .object [("Code", code)])]

def functionTemplate (code : Json) : Json :=
  .object [("Resources", .object [("Fn", functionOf code)])]

def codeType : String := "AWS::Lambda::Function.Code"

def codeLocation : Location := (propertiesLocation "Fn").key "Code"

theorem isResource_functionOf (code : Json) :
    IsResource (functionTemplate code) "Fn" "AWS::Lambda::Function" (functionOf code) :=
  ⟨⟨_, rfl, List.mem_cons_self⟩, rfl⟩

theorem isPlace_code (code : Json) :
    IsPlace .bundled (functionTemplate code) codeType codeLocation (ofJson code) :=
  .property (isResource_functionOf code) (.here _) List.mem_cons_self (by decide)

theorem propertyGroups_code : Catalog.bundled.propertyGroups codeType ≠ [] := by decide

theorem functionTemplate_uniqueKeys {code : Json} (h : code.UniqueKeys) :
    (functionTemplate code).UniqueKeys := by
  simp [functionTemplate, functionOf, Json.UniqueKeys, Json.UniqueKeysEntries, Entries.keys, h]

def oneBranch (code : Json) : Json := .object [("Fn::If", .array [.text "C", code])]

def objectBranch : Json := oneBranch (.object [("ZipFile", .text "x")])

theorem objectBranch_reported :
    let template := functionTemplate objectBranch
    let code := ofJson (.object [("ZipFile", .text "x")])
    template.UniqueKeys ∧
    IsPlace .bundled template codeType codeLocation (.conditional (some "C") (some code) none 2) ∧
    parts (some "C") (some code) none 2 = .error (.argumentCount 2) ∧
    Catalog.bundled.propertyGroups codeType ≠ [] ∧
    (∀ flaw, .obstacle (.structural codeLocation flaw) ∈ findings {} .bundled template →
      flaw = .malformed (.argumentCount 2)) ∧
    (.obstacle (.structural codeLocation (.malformed (.argumentCount 2))) ∈
        findings {} .bundled template ↔
      hasListBranch (some code) none = false ∨
        FoundFromAbove {} .bundled template codeLocation (.malformed (.argumentCount 2))) := by
  intro template code
  have hu : template.UniqueKeys := functionTemplate_uniqueKeys (by
    simp [objectBranch, oneBranch, Json.UniqueKeys, Json.UniqueKeysItems, Json.UniqueKeysEntries,
      Entries.keys])
  have hp := isPlace_code objectBranch
  have hm : parts (some "C") (some code) none 2 = .error (.argumentCount 2) := rfl
  exact ⟨hu, hp, hm, propertyGroups_code, malformed_reported_iff hu hp hm propertyGroups_code⟩

def listBranch : Json := oneBranch (.array [.object [("ZipFile", .text "x")]])

/-- A malformed conditional at a place that no finding mentions: there is no finding at all. -/
theorem exists_malformed_unreported :
    let template := functionTemplate listBranch
    let code := ofJson (.array [.object [("ZipFile", .text "x")]])
    template.UniqueKeys ∧
    IsPlace .bundled template codeType codeLocation (.conditional (some "C") (some code) none 2) ∧
    parts (some "C") (some code) none 2 = .error (.argumentCount 2) ∧
    Catalog.bundled.propertyGroups codeType ≠ [] ∧
    findings {} .bundled template = [] := by
  intro template code
  have hu : template.UniqueKeys := functionTemplate_uniqueKeys (by
    simp [listBranch, oneBranch, Json.UniqueKeys, Json.UniqueKeysItems, Json.UniqueKeysEntries,
      Entries.keys])
  exact ⟨hu, isPlace_code listBranch, rfl, propertyGroups_code, by decide⟩

end Template

end ExactlyOne
