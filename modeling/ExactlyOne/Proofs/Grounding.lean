import ExactlyOne.Property.Document
import ExactlyOne.Proofs.Traversal
import ExactlyOne.Proofs.Visit
import ExactlyOne.Proofs.Consistency

/-!
# Locations lead to values of the document

A location is read in a document key by key and index by index. Where a property value was lowered
from a document, any route through the value is also a way through the document, although the
conditionals in the value stand for objects and lists there.
-/
namespace ExactlyOne

namespace Json

def child? : Json → Segment → Option Json
  | .object entries, .key name => Entries.find? name entries
  | .array items, .index position => items[position]?
  | _, _ => none

/-- The value that a location names, read from the root of a document. -/
def valueAt? (document : Json) (location : Location) : Option Json :=
  location.segments.foldlM child? document

theorem valueAt?_child (document : Json) (location : Location) (segment : Segment) :
    document.valueAt? (location.child segment) =
      (document.valueAt? location).bind (child? · segment) := by
  simp only [valueAt?, Location.child, List.foldlM_append]
  cases location.segments.foldlM child? document <;> simp

theorem child?_key (value : Json) (name : String) : value.child? (.key name) = value.get? name := by
  cases value <;> rfl

theorem valueAt?_key (document : Json) (location : Location) (name : String) :
    document.valueAt? (location.key name) = (document.valueAt? location).bind (get? name) := by
  simp only [Location.key, valueAt?_child, child?_key]

theorem UniqueKeys.item {items : List Json} {item : Json} (h : UniqueKeys (.array items))
    (hi : item ∈ items) : item.UniqueKeys := by
  rw [UniqueKeys] at h
  induction items with
  | nil => simp at hi
  | cons first rest ih =>
    rcases List.mem_cons.mp hi with rfl | hi
    · exact h.1
    · exact ih h.2 hi

theorem UniqueKeys.nodup {entries : List (String × Json)} (h : UniqueKeys (.object entries)) :
    (Entries.keys entries).Nodup := by
  rw [UniqueKeys] at h
  exact h.1

theorem UniqueKeys.entry {entries : List (String × Json)} {entry : String × Json}
    (h : UniqueKeys (.object entries)) (he : entry ∈ entries) : entry.2.UniqueKeys := by
  rw [UniqueKeys] at h
  have hm := h.2
  clear h
  induction entries with
  | nil => simp at he
  | cons first rest ih =>
    rcases List.mem_cons.mp he with rfl | he
    · exact hm.1
    · exact ih he hm.2

theorem UniqueKeys.get? {value w : Json} {name : String} (h : value.UniqueKeys)
    (hg : value.get? name = some w) : w.UniqueKeys := by
  cases value with
  | object entries => exact h.entry (Entries.mem_of_find? hg)
  | _ => simp [Json.get?] at hg

end Json

namespace Property

/-! ## What a value was lowered from -/

theorem ofJson_eq_list {j : Json} {items : List Property} (h : ofJson j = .list items) :
    ∃ values, j = .array values ∧ items = values.map ofJson := by
  unfold ofJson at h
  split at h
  · rw [ofItems_eq_map] at h
    exact ⟨_, rfl, (list.inj h).symm⟩
  · split at h <;> split at h <;> cases h
  · cases h
  · cases h

theorem ofJson_eq_object {j : Json} {entries : List (String × Property)}
    (h : ofJson j = .object entries) :
    ∃ members, j = .object members ∧ entries = members.map fun (key, v) => (key, ofJson v) := by
  unfold ofJson at h
  split at h
  · cases h
  · split at h <;> split at h <;> cases h
    exact ⟨_, rfl, rfl⟩
  · rw [ofEntries_eq_map] at h
    exact ⟨_, rfl, (object.inj h).symm⟩
  · cases h

theorem ofJson_eq_conditional {j : Json} {condition : Option String}
    {whenTrue whenFalse : Option Property} {arity : Nat}
    (h : ofJson j = .conditional condition whenTrue whenFalse arity) {outcome : Bool}
    {w : Property} (hb : branch? outcome whenTrue whenFalse = some w) :
    ∃ arguments v, j = .object [(conditionalKey, .array arguments)] ∧
      arguments[Location.branchIndex outcome]? = some v ∧ w = ofJson v := by
  unfold ofJson at h
  split at h
  · cases h
  · split at h
    · rename_i hkey
      subst hkey
      split at h
      · rename_i arguments
        cases h
        rw [ofArgument_eq, ofArgument_eq] at hb
        cases outcome
        · obtain ⟨v, hv, rfl⟩ := Option.map_eq_some_iff.mp hb
          exact ⟨arguments, v, rfl, hv, rfl⟩
        · obtain ⟨v, hv, rfl⟩ := Option.map_eq_some_iff.mp hb
          exact ⟨arguments, v, rfl, hv, rfl⟩
      · cases h
        cases outcome <;> cases hb
    · split at h <;> cases h
  · cases h
  · cases h

/-- What stands at a location of a document lowers to a property value. -/
def GroundedAt (document : Json) (location : Location) (value : Property) : Prop :=
  ∃ v, document.valueAt? location = some v ∧ v.UniqueKeys ∧ ofJson v = value

variable {document : Json} {location : Location}

theorem GroundedAt.unique {value other : Property} (h : GroundedAt document location value)
    (k : GroundedAt document location other) : value = other := by
  obtain ⟨v, hv, -, rfl⟩ := h
  obtain ⟨w, hw, -, rfl⟩ := k
  rw [Option.some.inj (hv.symm.trans hw)]

theorem GroundedAt.key {entries : List (String × Property)}
    (h : GroundedAt document location (.object entries)) {name : String} {w : Property}
    (hm : (name, w) ∈ entries) : GroundedAt document (location.key name) w := by
  obtain ⟨v, hv, hu, ho⟩ := h
  obtain ⟨members, rfl, rfl⟩ := ofJson_eq_object ho
  obtain ⟨⟨key, member⟩, hmem, he⟩ := List.mem_map.mp hm
  cases he
  refine ⟨member, ?_, hu.entry hmem, rfl⟩
  rw [Location.key, Json.valueAt?_child, hv]
  exact Entries.find?_of_mem hu.nodup hmem

theorem GroundedAt.index {items : List Property}
    (h : GroundedAt document location (.list items)) {i : Nat} {w : Property}
    (hi : items[i]? = some w) : GroundedAt document (location.index i) w := by
  obtain ⟨v, hv, hu, ho⟩ := h
  obtain ⟨values, rfl, rfl⟩ := ofJson_eq_list ho
  rw [List.getElem?_map] at hi
  obtain ⟨item, hitem, rfl⟩ := Option.map_eq_some_iff.mp hi
  refine ⟨item, ?_, hu.item (List.mem_of_getElem? hitem), rfl⟩
  rw [Location.index, Json.valueAt?_child, hv]
  exact hitem

theorem GroundedAt.branch {condition : Option String} {whenTrue whenFalse : Option Property}
    {arity : Nat}
    (h : GroundedAt document location (.conditional condition whenTrue whenFalse arity))
    {outcome : Bool} {w : Property} (hb : branch? outcome whenTrue whenFalse = some w) :
    GroundedAt document (location.branch outcome) w := by
  obtain ⟨v, hv, hu, ho⟩ := h
  obtain ⟨arguments, argument, rfl, ha, rfl⟩ := ofJson_eq_conditional ho hb
  have huniq : argument.UniqueKeys :=
    (hu.entry List.mem_cons_self).item (List.mem_of_getElem? ha)
  refine ⟨argument, ?_, huniq, rfl⟩
  rw [Location.branch, Location.index, Json.valueAt?_child, Location.key, Json.valueAt?_child, hv]
  simpa [Json.child?, Entries.find?] using ha

theorem GroundedAt.follow {value o : Property} {steps : List Step}
    (h : GroundedAt document location value) (hl : Leads value steps o) :
    GroundedAt document (location.follow steps) o := by
  induction hl generalizing location with
  | here => exact h
  | key hm _ ih => exact ih (h.key hm)
  | index hi _ ih => exact ih (h.index hi)
  | branch hb _ ih => exact ih (h.branch hb)

end Property

namespace Template

open Property

variable {template : Json} {name type : String} {resource : Json} {limits : Limits}
  {catalog : Catalog} {f : Finding}

theorem IsResource.groundedAt_or_absent (hr : IsResource template name type resource)
    (hu : template.UniqueKeys) :
    GroundedAt template (propertiesLocation name) (propertiesOf resource) ∨
      (resource.get? "Properties" = none ∧ propertiesOf resource = .object []) := by
  obtain ⟨⟨resources, hres, hm⟩, -⟩ := hr
  obtain ⟨section_, hs, he⟩ := Option.bind_eq_some_iff.mp hres
  obtain rfl : section_ = .object resources := by
    cases section_ <;> simp_all [Json.entries?]
  have hsu : (Json.object resources).UniqueKeys := hu.get? hs
  have hru : resource.UniqueKeys := hsu.entry hm
  cases hp : resource.get? "Properties" with
  | none => exact Or.inr ⟨rfl, by simp [propertiesOf, hp]⟩
  | some properties =>
    refine Or.inl ⟨properties, ?_, hru.get? hp, by simp [propertiesOf, hp]⟩
    have hfind : (Json.object resources).get? name = some resource :=
      Entries.find?_of_mem hsu.nodup hm
    have hroot : template.valueAt? .root = some template := rfl
    rw [propertiesLocation, Json.valueAt?_key, Json.valueAt?_key, Json.valueAt?_key, hroot]
    simp only [Option.bind_some, hs, hfind, hp]

/-- The violation stands where the properties of a resource would be that has none. -/
def OfAbsentProperties (template : Json) (v : Violation) : Prop :=
  ∃ name type resource, IsResource template name type resource ∧
    resource.get? "Properties" = none ∧ v.location = propertiesLocation name ∧
    v.objectLocation = propertiesLocation name

/-- The locations of a finding lead to values of the template, and these are as the finding says:
an object for a violation, and for a structural obstacle a value with the flaw. -/
def LocatedIn (template : Json) : Finding → Prop
  | .violation v =>
    (∃ outcomes : List Bool, v.objectLocation = outcomes.foldl Location.branch v.location) ∧
    (OfAbsentProperties template v ∨
      (∃ j, template.valueAt? v.location = some j) ∧
      ∃ j entries, template.valueAt? v.objectLocation = some j ∧ ofJson j = .object entries)
  | .obstacle (.structural location flaw) =>
    ∃ j, template.valueAt? location = some j ∧ Flawed true (ofJson j) flaw
  | .obstacle (.limit location _ _ _) => ∃ j, template.valueAt? location = some j

theorem exists_outcomes_of_fixes {s : Scenario} {steps : List Step}
    (h : ∀ step ∈ steps, s.Fixes step) (location : Location) :
    ∃ outcomes : List Bool, location.follow steps = outcomes.foldl Location.branch location := by
  induction steps generalizing location with
  | nil => exact ⟨[], rfl⟩
  | cons step rest ih =>
    obtain ⟨hstep, hrest⟩ := List.forall_mem_cons.mp h
    cases step with
    | branch condition outcome =>
      obtain ⟨outcomes, ho⟩ := ih hrest (location.branch outcome)
      exact ⟨outcome :: outcomes, ho⟩
    | key name => exact hstep.elim
    | index position => exact hstep.elim

variable {location : Location} {value : Property} {group : List String}

theorem locatedIn_of_groundedAt (hg : GroundedAt template location value)
    (hf : f ∈ value.checkGroup limits location group) : LocatedIn template f := by
  cases f with
  | violation v =>
    obtain ⟨vs, variant, he, hm, hloc, hobj, -⟩ := exists_variant_of_violation hf
    obtain ⟨steps, entries, hl, hv, hfix⟩ := exists_route_to_variant he hm
    obtain ⟨outcomes, ho⟩ := exists_outcomes_of_fixes hfix location
    obtain ⟨j, hj, -, hobject⟩ := hg.follow hl
    obtain ⟨w, hw, -⟩ := hg
    rw [LocatedIn, hobj, hloc, hv]
    exact ⟨⟨outcomes, ho⟩, Or.inr ⟨⟨w, hw⟩, j, entries, hj, hobject⟩⟩
  | obstacle o =>
    obtain ⟨σ, steps, w, hm, hb⟩ := exists_blamed_of_expand (mem_checkGroup_obstacle_iff.mp hf)
    obtain ⟨j, hj, -, rfl⟩ := hg.follow hm.leads
    cases hb with
    | flaw hflaw => exact ⟨j, hj, hflaw.expected⟩
    | nesting _ => exact ⟨j, hj⟩
    | variants => exact ⟨j, hj⟩

theorem locatedIn_of_absent (hr : IsResource template name type resource)
    (hp : resource.get? "Properties" = none)
    (hf : f ∈ checkGroup limits (.object []) (propertiesLocation name) group) :
    LocatedIn template f := by
  have he := expand_empty_object (propertiesLocation name) group limits
  cases f with
  | violation v =>
    obtain ⟨vs, variant, hvs, hm, hloc, hobj, -⟩ := exists_variant_of_violation hf
    obtain rfl := Except.ok.inj (he.symm.trans hvs)
    obtain rfl := List.mem_singleton.mp hm
    exact ⟨⟨[], hobj.trans hloc.symm⟩, Or.inl ⟨name, type, resource, hr, hp, hloc, hobj⟩⟩
  | obstacle o =>
    rw [mem_checkGroup_obstacle_iff, he] at hf
    cases hf

/-- Every finding is located in the template. -/
theorem findings_located (hu : template.UniqueKeys)
    (h : f ∈ findings limits catalog template) : LocatedIn template f := by
  obtain ⟨name, type, resource, steps, value, group, hr, hl, hf⟩ := exists_check_of_mem_findings h
  rcases hr.groundedAt_or_absent hu with hg | ⟨habsent, hp⟩
  · exact locatedIn_of_groundedAt (hg.follow hl) hf
  · rw [hp] at hl
    cases hl with
    | here => exact locatedIn_of_absent hr habsent hf
    | key hm => simp at hm

/-- A list whose first item is removed and whose second one is a text in a branch. -/
def textInList : Json :=
  .object [("Resources", .object [("Fn", .object [("Type", .text "AWS::Lambda::Function"),
    ("Properties", .object [("Code", .array [.object [("Ref", .text "AWS::NoValue")],
      .object [("Fn::If", .array
        [.text "Inline", .object [("ZipFile", .text "x")], .text "y"])]])])])])]

theorem textInList_located :
    let place := (((propertiesLocation "Fn").key "Code").index 1).branch false
    let found := Finding.obstacle (.structural place (.notObject .text))
    textInList.UniqueKeys ∧ found ∈ findings {} .bundled textInList ∧
      LocatedIn textInList found := by
  intro place found
  have hu : textInList.UniqueKeys := by
    simp [textInList, Json.UniqueKeys, Json.UniqueKeysItems, Json.UniqueKeysEntries, Entries.keys]
  have hf : found ∈ findings {} .bundled textInList := by decide
  exact ⟨hu, hf, findings_located hu hf⟩

end Template

end ExactlyOne
