import ExactlyOne.Json.Value

/-!
Catalogs of groups: for a type of resource or of nested property, the groups of keys of which
exactly one should be present.

A nested property type is named by the resource type and the keys that lead to the property, with
points between them.
-/

namespace ExactlyOne

/-- The names of keys of which exactly one should be present. -/
abbrev Group := List String

structure Catalog where
  resourceTypes : List (String × List Group)
  propertyTypes : List (String × List Group)
  deriving DecidableEq, Repr

inductive Section where
  | resources
  | properties
  deriving DecidableEq, Repr

namespace Section

def key : Section → String
  | .resources => "ResourceTypes"
  | .properties => "PropertyTypes"

def ofKey? (key : String) : Option Section :=
  if key = Section.resources.key then some .resources
  else if key = Section.properties.key then some .properties
  else none

theorem ofKey?_key (s : Section) : ofKey? s.key = some s := by
  cases s <;> decide

end Section

namespace Catalog

def empty : Catalog := ⟨[], []⟩

def types (catalog : Catalog) : Section → List (String × List Group)
  | .resources => catalog.resourceTypes
  | .properties => catalog.propertyTypes

def groups (catalog : Catalog) (part : Section) (type : String) : List Group :=
  (Entries.find? type (catalog.types part)).getD []

def hasType (catalog : Catalog) (part : Section) (type : String) : Bool :=
  Entries.contains type (catalog.types part)

def resourceGroups (catalog : Catalog) (type : String) : List Group :=
  catalog.groups .resources type

def propertyGroups (catalog : Catalog) (type : String) : List Group :=
  catalog.groups .properties type

def hasPropertyType (catalog : Catalog) (type : String) : Bool := catalog.hasType .properties type

/-- Registers the groups of a type; those it had before are given up. -/
def register (catalog : Catalog) (part : Section) (type : String) (groups : List Group) :
    Catalog :=
  match part with
  | .resources =>
    { catalog with resourceTypes := Entries.insert type groups catalog.resourceTypes }
  | .properties =>
    { catalog with propertyTypes := Entries.insert type groups catalog.propertyTypes }

def size (catalog : Catalog) : Nat := catalog.resourceTypes.length + catalog.propertyTypes.length

def isEmpty (catalog : Catalog) : Bool := catalog.size == 0

def groupToJson (group : Group) : Json := .array (group.map .text)

def groupsToJson (groups : List Group) : Json := .array (groups.map groupToJson)

def typesToJson (types : List (String × List Group)) : Json :=
  .object (types.map fun (type, groups) => (type, groupsToJson groups))

def toJson (catalog : Catalog) : Json :=
  .object [(Section.resources.key, typesToJson catalog.resourceTypes),
    (Section.properties.key, typesToJson catalog.propertyTypes)]

/-- The catalog that is used where no other is given. -/
def bundled : Catalog where
  resourceTypes := [
    ("AWS::AutoScaling::AutoScalingGroup",
      [["InstanceId", "LaunchConfigurationName", "LaunchTemplate", "MixedInstancesPolicy"]]),
    ("AWS::EC2::NetworkAclEntry", [["CidrBlock", "Ipv6CidrBlock"]]),
    ("AWS::EC2::SecurityGroupEgress",
      [["CidrIp", "CidrIpv6", "DestinationPrefixListId", "DestinationSecurityGroupId"]]),
    ("AWS::EC2::SecurityGroupIngress",
      [["CidrIp", "CidrIpv6", "SourcePrefixListId", "SourceSecurityGroupId",
        "SourceSecurityGroupName"]])]
  propertyTypes := [
    ("AWS::AutoScaling::AutoScalingGroup.LaunchTemplate",
      [["LaunchTemplateId", "LaunchTemplateName"]]),
    ("AWS::Lambda::Function.Code", [["ImageUri", "S3Bucket", "ZipFile"]])]

end Catalog

end ExactlyOne
