/-!
Entries with keys, in the order in which the keys first came.

A list of pairs is the type itself; `Entries.insert` keeps every key at most once
(`nodup_keys_insert`), a new key at the end and a known key in its place.
-/

namespace ExactlyOne

namespace Entries

variable {α : Type}

def keys (entries : List (String × α)) : List String := entries.map Prod.fst

/-- A known key keeps its place and takes the new value. -/
def insert (key : String) (value : α) : List (String × α) → List (String × α)
  | [] => [(key, value)]
  | (k, v) :: rest => if k = key then (k, value) :: rest else (k, v) :: insert key value rest

def find? (key : String) : List (String × α) → Option α
  | [] => none
  | (k, v) :: rest => if k = key then some v else find? key rest

def contains (key : String) (entries : List (String × α)) : Bool := (find? key entries).isSome

/-- Of a repeated key the first place and the last value count. -/
def ofPairs (pairs : List (String × α)) : List (String × α) :=
  pairs.foldl (fun entries (key, value) => insert key value entries) []

attribute [local simp] insert find?

@[simp] theorem find?_nil (key : String) : find? key ([] : List (String × α)) = none := rfl

theorem find?_insert_self (key : String) (value : α) (entries : List (String × α)) :
    find? key (insert key value entries) = some value := by
  induction entries with
  | nil => simp
  | cons e rest ih => by_cases h : e.1 = key <;> simp [h, ih]

theorem find?_insert_of_ne {key other : String} (h : other ≠ key) (value : α)
    (entries : List (String × α)) :
    find? other (insert key value entries) = find? other entries := by
  induction entries with
  | nil => simp [Ne.symm h]
  | cons e rest ih =>
    by_cases hk : e.1 = key
    · have : e.1 ≠ other := fun he => h (he.symm.trans hk)
      simp [hk, Ne.symm h]
    · by_cases ho : e.1 = other
      · subst ho
        simp [h]
      · simp [hk, ho, ih]

theorem mem_keys_insert {key k : String} {value : α} {entries : List (String × α)} :
    k ∈ keys (insert key value entries) ↔ k = key ∨ k ∈ keys entries := by
  induction entries with
  | nil => simp [keys]
  | cons e rest ih =>
    by_cases h : e.1 = key
    · simp [keys, h]
    · simp only [keys] at ih
      simp only [insert, h, if_false, keys, List.map_cons, List.mem_cons, ih]
      constructor <;> rintro (h | h | h) <;> simp [h]

theorem nodup_keys_insert {key : String} {value : α} {entries : List (String × α)}
    (h : (keys entries).Nodup) : (keys (insert key value entries)).Nodup := by
  induction entries with
  | nil => simp [keys]
  | cons e rest ih =>
    have hr : (keys rest).Nodup := (List.nodup_cons.1 h).2
    have hn : e.1 ∉ keys rest := (List.nodup_cons.1 h).1
    by_cases hk : e.1 = key
    · simpa [keys, hk] using h
    · simp only [insert, hk, if_false, keys, List.map_cons, List.nodup_cons]
      exact ⟨fun hm => (mem_keys_insert.1 hm).elim hk hn, ih hr⟩

theorem insert_eq_self {key : String} {value : α} {entries : List (String × α)}
    (h : find? key entries = some value) : insert key value entries = entries := by
  induction entries with
  | nil => simp at h
  | cons e rest ih =>
    by_cases hk : e.1 = key
    · simp only [find?, hk, if_true, Option.some.injEq] at h
      simp [← hk, ← h]
    · simp only [find?, hk, if_false] at h
      simp [hk, ih h]

theorem find?_eq_none_iff {key : String} {entries : List (String × α)} :
    find? key entries = none ↔ key ∉ keys entries := by
  induction entries with
  | nil => simp [keys]
  | cons e rest ih =>
    have hkeys : key ∈ keys (e :: rest) ↔ key = e.1 ∨ key ∈ keys rest := List.mem_cons
    by_cases hk : e.1 = key
    · simp [hkeys, hk]
    · simp [hkeys, hk, Ne.symm hk, ih]

theorem insert_eq_append {key : String} {entries : List (String × α)}
    (h : find? key entries = none) (value : α) :
    insert key value entries = entries ++ [(key, value)] := by
  induction entries with
  | nil => rfl
  | cons e rest ih =>
    by_cases hk : e.1 = key
    · simp [hk] at h
    · simp only [find?, hk, if_false] at h
      simp [hk, ih h]

theorem mem_of_find? {key : String} {value : α} {entries : List (String × α)}
    (h : find? key entries = some value) : (key, value) ∈ entries := by
  induction entries with
  | nil => simp at h
  | cons e rest ih =>
    by_cases hk : e.1 = key
    · simp only [find?, hk, if_true, Option.some.injEq] at h
      simp [← hk, ← h]
    · simp only [find?, hk, if_false] at h
      exact List.mem_cons_of_mem _ (ih h)

theorem exists_find?_of_mem {key : String} {value : α} {entries : List (String × α)}
    (h : (key, value) ∈ entries) : ∃ v, find? key entries = some v := by
  induction entries with
  | nil => simp at h
  | cons e rest ih =>
    by_cases hk : e.1 = key
    · exact ⟨e.2, by simp [hk]⟩
    · rcases List.mem_cons.mp h with rfl | h
      · exact absurd rfl hk
      · simpa [hk] using ih h

theorem find?_of_mem {key : String} {value : α} {entries : List (String × α)}
    (hn : (keys entries).Nodup) (h : (key, value) ∈ entries) :
    find? key entries = some value := by
  induction entries with
  | nil => simp at h
  | cons e rest ih =>
    obtain ⟨hne, hr⟩ := List.nodup_cons.mp hn
    rcases List.mem_cons.mp h with rfl | h
    · simp
    · have hk : e.1 ≠ key := fun he => hne (he ▸ List.mem_map_of_mem h)
      simpa [hk] using ih hr h

theorem find?_append (key : String) (first second : List (String × α)) :
    find? key (first ++ second) = (find? key first).or (find? key second) := by
  induction first with
  | nil => simp
  | cons e rest ih => by_cases hk : e.1 = key <;> simp [hk, ih]

end Entries

end ExactlyOne
