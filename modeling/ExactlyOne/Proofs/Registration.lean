import Mathlib.Data.List.Basic
import Mathlib.Data.List.Flatten
import ExactlyOne.Proofs.Place

/-!
# Registering more types

A catalog that has further names besides those of another one makes further visits, and the visits
of the other catalog stay what they were: they are those of names that the other one has. So each
finding stays, and stays in its place among the others.
-/
namespace ExactlyOne

/-- Every type of the first catalog has the same groups in the second one. -/
def Catalog.ExtendedBy (catalog other : Catalog) : Prop :=
  ∀ part type groups, Entries.find? type (catalog.types part) = some groups →
    Entries.find? type (other.types part) = some groups

namespace Catalog

variable {catalog other : Catalog}

theorem ExtendedBy.hasPropertyType (h : catalog.ExtendedBy other) {type : String}
    (ht : catalog.hasPropertyType type = true) : other.hasPropertyType type = true := by
  obtain ⟨groups, hg⟩ := Option.isSome_iff_exists.mp ht
  exact Option.isSome_iff_exists.mpr ⟨groups, h .properties type groups hg⟩

theorem ExtendedBy.hasPropertyType_eq (h : catalog.ExtendedBy other) (type : String) :
    catalog.hasPropertyType type =
      (other.hasPropertyType type && catalog.hasPropertyType type) := by
  cases ht : catalog.hasPropertyType type with
  | false => simp
  | true => simp [h.hasPropertyType ht]

theorem extendedBy_register {part : Section} {type : String} (groups : List Group)
    (h : catalog.hasType part type = false) :
    catalog.ExtendedBy (catalog.register part type groups) := by
  intro other name registered hf
  by_cases hp : other = part
  · subst hp
    have hne : name ≠ type := by
      rintro rfl
      simp [hasType, Entries.contains, hf] at h
    cases other <;> exact (Entries.find?_insert_of_ne hne _ _).trans hf
  · cases other <;> cases part <;> first | exact absurd rfl hp | exact hf

theorem ExtendedBy.groups_sublist (h : catalog.ExtendedBy other) (part : Section)
    (type : String) : (catalog.groups part type).Sublist (other.groups part type) := by
  cases hf : Entries.find? type (catalog.types part) with
  | none => simp [groups, hf]
  | some registered => simp [groups, hf, h part type registered hf]

end Catalog

/-- The visit is none to a nested property, or to one whose type the catalog has. -/
def Visit.known (catalog : Catalog) : Visit → Bool
  | .nested type _ _ => catalog.hasPropertyType type
  | _ => true

namespace Template

open Property

variable {catalog other : Catalog}

theorem filter_visitHere (due : Bool) (type : String) (value : Property) (location : Location) :
    (if due then [Visit.nested type value location] else []).filter (Visit.known catalog) =
      if due && catalog.hasPropertyType type then [Visit.nested type value location] else [] := by
  cases due <;> cases ht : catalog.hasPropertyType type <;> simp [Visit.known, ht]

/-- Below a value the visits of a catalog are those of the extended one that it knows. The value is
due for the first one if it is for the second one and its type is known. -/
theorem visitsOf_eq_filter (h : catalog.ExtendedBy other) (value : Property) (due : Bool)
    (type : String) (location : Location) :
    visitsOf catalog (due && catalog.hasPropertyType type) type location value =
      (visitsOf other due type location value).filter (Visit.known catalog) := by
  induction value using Property.induction_branches generalizing due type location with
  | scalar v => simp only [visitsOf, filter_visitHere]
  | removed => simp only [visitsOf, List.filter_nil]
  | list items ih =>
    simp only [visitsOf, visitsOfItems_eq_flatMap, List.filter_flatMap]
    exact List.flatMap_congr fun x hx => ih x.1 (List.fst_mem_of_mem_zipIdx hx) due type _
  | object entries ih =>
    simp only [visitsOf, visitsOfEntries_eq_flatMap, List.filter_append, filter_visitHere,
      List.filter_flatMap]
    refine congrArg _ (List.flatMap_congr fun entry hm => ?_)
    rw [← ih entry hm, ← h.hasPropertyType_eq]
  | conditional condition whenTrue whenFalse arity ih =>
    have hbranch : ∀ outcome apart, visitsOfBranch catalog (apart && catalog.hasPropertyType type)
          type (location.branch outcome) (branch? outcome whenTrue whenFalse) =
        (visitsOfBranch other apart type (location.branch outcome)
          (branch? outcome whenTrue whenFalse)).filter (Visit.known catalog) := by
      intro outcome apart
      cases hw : branch? outcome whenTrue whenFalse with
      | none => rfl
      | some w => exact ih outcome w hw apart type _
    -- Known and due at once: the order of the three tests makes no difference.
    have hapart : (due && catalog.hasPropertyType type && hasListBranch whenTrue whenFalse) =
        (due && hasListBranch whenTrue whenFalse && catalog.hasPropertyType type) :=
      Bool.and_right_comm ..
    have hhere : (due && catalog.hasPropertyType type &&
          !(due && hasListBranch whenTrue whenFalse && catalog.hasPropertyType type)) =
        (due && !(due && hasListBranch whenTrue whenFalse) && catalog.hasPropertyType type) := by
      cases due <;> cases catalog.hasPropertyType type <;> simp
    simp only [visitsOf, List.filter_append, filter_visitHere, hapart, hhere]
    exact congrArg₂ _ (congrArg _ (hbranch true _)) (hbranch false _)

theorem visitsOfResource_eq_filter (h : catalog.ExtendedBy other) (name : String)
    (resource : Json) : visitsOfResource catalog name resource =
      (visitsOfResource other name resource).filter (Visit.known catalog) := by
  unfold visitsOfResource
  cases ht : (resource.get? "Type").bind Json.text? with
  | none => rfl
  | some type =>
    simp only [List.filter_cons, Visit.known, if_true]
    exact congrArg _ (visitsOf_eq_filter h (propertiesOf resource) false type _)

theorem visits_eq_filter (h : catalog.ExtendedBy other) (template : Json) :
    visits catalog template = (visits other template).filter (Visit.known catalog) := by
  unfold visits
  cases hr : (template.get? "Resources").bind Json.entries? with
  | none => rfl
  | some resources =>
    simp only [List.filter_flatMap]
    exact List.flatMap_congr fun entry _ => visitsOfResource_eq_filter h entry.1 entry.2

theorem visit_findings_sublist (h : catalog.ExtendedBy other) (limits : Limits) (visit : Visit) :
    (visit.findings limits catalog).Sublist (visit.findings limits other) := by
  cases visit with
  | noResources => exact .refl _
  | untypedResource name => exact .refl _
  | resource name type properties => exact (h.groups_sublist .resources type).flatMap _
  | nested type value location => exact (h.groups_sublist .properties type).flatMap _

/-- With more types registered there are the findings that there were, in the order that they
had, and perhaps others among them. -/
theorem findings_sublist_of_extendedBy (h : catalog.ExtendedBy other) (limits : Limits)
    (template : Json) :
    (findings limits catalog template).Sublist (findings limits other template) := by
  have hvisits : (visits catalog template).Sublist (visits other template) := by
    rw [visits_eq_filter h]
    exact List.filter_sublist
  have hfindings := List.Sublist.flatMap_right (visits other template)
    fun visit _ => visit_findings_sublist h limits visit
  exact (hvisits.flatMap _).trans hfindings

def sourceCatalog : Catalog where
  resourceTypes := []
  propertyTypes := [(nestedType codeType "Source", [["Bucket", "Image"]])]

/-- A list of codes, the second one chosen by a condition, with two sources that lack a key. -/
def sourcesInList : Json :=
  functionTemplate (.array [
    .object [("Source", .object [("Bucket", .text "b")])],
    .object [("Fn::If", .array [.text "C",
      .array [.object [("Source", .object [])]],
      .object [("ZipFile", .text "x"), ("Source", .object [])]])]])

theorem sourcesInList_findings_sublist :
    let extended := sourceCatalog.register .properties codeType [["Source", "ZipFile"]]
    sourceCatalog.ExtendedBy extended ∧
    (findings {} sourceCatalog sourcesInList).length = 2 ∧
    (findings {} extended sourcesInList).length = 3 ∧
    (findings {} sourceCatalog sourcesInList).Sublist (findings {} extended sourcesInList) := by
  intro extended
  have h : sourceCatalog.ExtendedBy extended := Catalog.extendedBy_register _ (by decide)
  exact ⟨h, by decide, by decide, findings_sublist_of_extendedBy h {} sourcesInList⟩

end Template

end ExactlyOne
