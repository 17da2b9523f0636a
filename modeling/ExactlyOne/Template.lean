import ExactlyOne.Catalog
import ExactlyOne.Finding
import ExactlyOne.Property.Document

/-!
Templates: which of their values are checked, and what is found.

`Template.visits` lists, in the order of the document, the places that a check comes to: every
resource, and every nested property of a registered type. The findings of a template are the
findings of its visits, one after the other.
-/

namespace ExactlyOne

inductive Visit where
  | noResources
  | untypedResource (name : String)
  | resource (name type : String) (properties : Property)
  | nested (type : String) (value : Property) (location : Location)
  deriving Repr

namespace Template

def propertiesLocation (name : String) : Location :=
  ((Location.root.key "Resources").key name).key "Properties"

def nestedType (type key : String) : String := type ++ "." ++ key

/-- A conditional with such a branch cannot be checked as one object. -/
def hasListBranch (whenTrue whenFalse : Option Property) : Bool :=
  whenTrue.any Property.isList || whenFalse.any Property.isList

mutual

/-- The visits to a value of a named type and below it. The value is `due` if the type is
registered and the value has not been visited yet: then a list is visited item by item, a
conditional with a list in a branch is visited branch by branch, and anything else at once. -/
def visitsOf (catalog : Catalog) (due : Bool) (type : String) (location : Location) :
    Property → List Visit
  | .scalar value => if due then [.nested type (.scalar value) location] else []
  | .list items => visitsOfItems catalog due type location 0 items
  | .object entries =>
    (if due then [.nested type (.object entries) location] else []) ++
      visitsOfEntries catalog type location entries
  | .conditional condition whenTrue whenFalse arity =>
    let apart := due && hasListBranch whenTrue whenFalse
    (if due && !apart then
        [.nested type (.conditional condition whenTrue whenFalse arity) location]
      else []) ++
      visitsOfBranch catalog apart type (location.branch true) whenTrue ++
      visitsOfBranch catalog apart type (location.branch false) whenFalse
  | .removed => []

def visitsOfBranch (catalog : Catalog) (due : Bool) (type : String) (location : Location) :
    Option Property → List Visit
  | none => []
  | some value => visitsOf catalog due type location value

def visitsOfItems (catalog : Catalog) (due : Bool) (type : String) (location : Location)
    (position : Nat) : List Property → List Visit
  | [] => []
  | item :: rest =>
    visitsOf catalog due type (location.index position) item ++
      visitsOfItems catalog due type location (position + 1) rest

def visitsOfEntries (catalog : Catalog) (type : String) (location : Location) :
    List (String × Property) → List Visit
  | [] => []
  | (key, value) :: rest =>
    visitsOf catalog (catalog.hasPropertyType (nestedType type key)) (nestedType type key)
        (location.key key) value ++
      visitsOfEntries catalog type location rest

end

/-- A resource without properties has an object without keys. -/
def propertiesOf (resource : Json) : Property :=
  ((resource.get? "Properties").map Property.ofJson).getD (.object [])

def visitsOfResource (catalog : Catalog) (name : String) (resource : Json) : List Visit :=
  match (resource.get? "Type").bind Json.text? with
  | none => [.untypedResource name]
  | some type =>
    .resource name type (propertiesOf resource) ::
      visitsOf catalog false type (propertiesLocation name) (propertiesOf resource)

def visits (catalog : Catalog) (template : Json) : List Visit :=
  match (template.get? "Resources").bind Json.entries? with
  | none => [.noResources]
  | some resources =>
    resources.flatMap fun (name, resource) => visitsOfResource catalog name resource

end Template

def Visit.findings (limits : Limits) (catalog : Catalog) : Visit → List Finding
  | .noResources => []
  | .untypedResource _ => []
  | .resource name type properties =>
    properties.check limits (Template.propertiesLocation name) (catalog.resourceGroups type)
  | .nested type value location => value.check limits location (catalog.propertyGroups type)

def Template.findings (limits : Limits) (catalog : Catalog) (template : Json) : List Finding :=
  (Template.visits catalog template).flatMap (Visit.findings limits catalog)

end ExactlyOne
