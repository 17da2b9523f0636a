import ExactlyOne.Proofs.Reading

/-!
# Types that stand once

A section of a catalog lists its types in order, and no type twice. An empty catalog is so, a type
that is registered keeps it so, and so does whatever a reader finds in a text: a type that comes
again there takes the place of the first one.
-/
namespace ExactlyOne

namespace Entries

variable {α : Type}

theorem foldl_insert_eq_append {entries pairs : List (String × α)}
    (h : (keys (entries ++ pairs)).Nodup) :
    pairs.foldl (fun entries (key, value) => insert key value entries) entries =
      entries ++ pairs := by
  induction pairs generalizing entries with
  | nil => exact (List.append_nil entries).symm
  | cons pair rest ih =>
    obtain ⟨key, value⟩ := pair
    have hnew : find? key entries = none := by
      refine find?_eq_none_iff.mpr fun hmem => ?_
      rw [keys, List.map_append, List.nodup_append] at h
      exact h.2.2 _ hmem _ List.mem_cons_self rfl
    rw [List.append_cons] at h ⊢
    change rest.foldl _ (insert key value entries) = _
    rw [insert_eq_append hnew]
    exact ih h

theorem ofPairs_eq_self {pairs : List (String × α)} (h : (keys pairs).Nodup) :
    ofPairs pairs = pairs :=
  foldl_insert_eq_append h

theorem nodup_keys_ofPairs (pairs : List (String × α)) : (keys (ofPairs pairs)).Nodup := by
  have hfold : ∀ entries : List (String × α), (keys entries).Nodup → (keys
      (pairs.foldl (fun entries (key, value) => insert key value entries) entries)).Nodup := by
    induction pairs with
    | nil => exact fun entries h => h
    | cons pair rest ih => exact fun entries h => ih _ (nodup_keys_insert h)
  exact hfold [] List.nodup_nil

end Entries

namespace Catalog

open Json

/-- Every type stands once in its section. -/
def UniqueTypes (catalog : Catalog) : Prop := ∀ part, (Entries.keys (catalog.types part)).Nodup

theorem uniqueTypes_empty : empty.UniqueTypes := by
  intro part
  cases part <;> exact List.nodup_nil

theorem UniqueTypes.register {catalog : Catalog} (h : catalog.UniqueTypes) (part : Section)
    (type : String) (groups : List Group) : (catalog.register part type groups).UniqueTypes := by
  intro other
  match part, other with
  | .resources, .resources => exact Entries.nodup_keys_insert (h .resources)
  | .resources, .properties => exact h .properties
  | .properties, .resources => exact h .resources
  | .properties, .properties => exact Entries.nodup_keys_insert (h .properties)

theorem nodup_of_readTypes {s rest : List UInt8} {types : List (String × List Group)}
    (h : readTypes s = .ok (types, rest)) : (Entries.keys types).Nodup := by
  obtain ⟨t, -, ⟨-, rfl⟩ | ⟨first, -, entries, -, rfl⟩⟩ := readMap_eq_ok_iff.mp h
  · exact List.nodup_nil
  · exact Entries.nodup_keys_ofPairs entries

theorem uniqueTypes_none : Sections.none.catalog.UniqueTypes := uniqueTypes_empty

theorem UniqueTypes.set {sections : Sections} (h : sections.catalog.UniqueTypes)
    {types : List (String × List Group)} (ht : (Entries.keys types).Nodup) (part : Section) :
    (sections.set types part).catalog.UniqueTypes := by
  intro other
  match part, other with
  | .resources, .resources | .properties, .properties => exact ht
  | .resources, .properties => exact h .properties
  | .properties, .resources => exact h .resources

theorem uniqueTypes_of_readMembers {fuel : Nat} {sections found : Sections} {s rest : List UInt8}
    (h : readMembers fuel sections s = .ok (found, rest)) (hu : sections.catalog.UniqueTypes) :
    found.catalog.UniqueTypes := by
  induction fuel generalizing sections s with
  | zero => cases h
  | succ fuel ih =>
    obtain ⟨key, text, -, after, t, hmember, hrest⟩ := readMembers_eq_ok_iff.mp h
    have hafter : after.catalog.UniqueTypes := by
      obtain ⟨_, -, ⟨-, -, rfl⟩ | ⟨part, -, -, types, htypes, rfl⟩⟩ :=
        readMember_eq_ok_iff.mp hmember
      · exact hu
      · exact hu.set (nodup_of_readTypes htypes) part
    obtain ⟨-, rfl⟩ | ⟨next, -, hnext⟩ := hrest
    · exact hafter
    · exact ih hnext hafter

/-- The catalogs that a reader makes have every type once. -/
theorem uniqueTypes_of_parseBytes {bytes : List UInt8} {catalog : Catalog}
    (h : parseBytes bytes = .ok catalog) : catalog.UniqueTypes := by
  rw [parseBytes] at h
  obtain ⟨⟨read, rest⟩, hread, rfl⟩ : ∃ r, readCatalog bytes = .ok r ∧ r.1 = catalog := by
    cases hr : readCatalog bytes <;> rw [hr] at h <;> cases h
    exact ⟨_, rfl, rfl⟩
  obtain ⟨sections, t, rfl, ⟨-, hs⟩ | ⟨-, ⟨-, rfl⟩ | ⟨first, -, hm⟩⟩⟩ :=
    readCatalog_eq_ok_iff.mp hread
  · obtain ⟨-, rfl⟩ | ⟨_, -, resources, _, hresources, h⟩ := readSections_eq_ok_iff.mp hs
    · exact uniqueTypes_none
    · have hfirst := uniqueTypes_none.set (nodup_of_readTypes hresources) .resources
      obtain ⟨-, rfl⟩ | ⟨_, -, properties, _, hproperties, -, rfl⟩ := h
      · exact hfirst
      · exact hfirst.set (nodup_of_readTypes hproperties) .properties
  · exact uniqueTypes_none
  · exact uniqueTypes_of_readMembers hm uniqueTypes_none

end Catalog

end ExactlyOne
