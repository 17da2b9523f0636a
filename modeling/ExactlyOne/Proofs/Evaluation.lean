import ExactlyOne.Variant
import ExactlyOne.Proofs.Conditional

/-!
# Values under an assignment of outcomes to all conditions

`Property.evaluate` decides every conditional of a value, and `Property.conditionsMet` lists the
conditions that it comes to. `Property.variantUnder?` is the one variant that an object has under
an assignment. None of them forks or searches.
-/
namespace ExactlyOne

/-- An outcome for every condition. -/
abbrev Assignment := String → Bool

namespace Scenario

def ContainedIn (s : Scenario) (σ : Assignment) : Prop :=
  ∀ c b, s.get? c = some b → σ c = b

theorem containedIn_iff_assignments {s : Scenario} {σ : Assignment} :
    (∀ e ∈ s.assignments, s.get? e.1 = some (σ e.1)) ↔ s.ContainedIn σ := by
  constructor
  · intro h c b hb
    have he := h _ (Entries.mem_of_find? hb)
    exact Option.some.inj (he.symm.trans hb)
  · intro h e he
    obtain ⟨b, hb⟩ := Entries.exists_find?_of_mem he
    change s.get? e.1 = some b at hb
    rw [hb, h _ _ hb]

instance (s : Scenario) (σ : Assignment) : Decidable (s.ContainedIn σ) :=
  decidable_of_iff _ containedIn_iff_assignments

theorem empty_containedIn (σ : Assignment) : empty.ContainedIn σ := by
  intro c b h
  simp at h

def completion (s : Scenario) : Assignment := fun c => (s.get? c).getD false

theorem containedIn_completion (s : Scenario) : s.ContainedIn s.completion := by
  intro c b h
  simp [completion, h]

theorem assign_containedIn {s : Scenario} {σ : Assignment} {c : String} {b : Bool}
    (h : s.get? c = none) : (s.assign c b).ContainedIn σ ↔ s.ContainedIn σ ∧ σ c = b := by
  constructor
  · intro hs
    refine ⟨?_, hs c b (get?_assign_self s c b)⟩
    intro d e hd
    have hne : d ≠ c := by rintro rfl; simp [h] at hd
    exact hs d e (by rwa [get?_assign_of_ne s hne])
  · rintro ⟨hs, hc⟩ d e hd
    by_cases hdc : d = c
    · subst d
      rw [get?_assign_self] at hd
      exact hc.trans (Option.some.inj hd)
    · rw [get?_assign_of_ne s hdc] at hd
      exact hs d e hd

theorem ContainedIn.assign {s : Scenario} {σ : Assignment} (h : s.ContainedIn σ) (c : String) :
    (s.assign c (σ c)).ContainedIn σ := by
  cases hc : s.get? c with
  | none => exact (assign_containedIn hc).mpr ⟨h, rfl⟩
  | some b => rwa [h c b hc, assign_eq_self hc]

/-- Fixes conditions, in order, with the outcomes of an assignment. -/
def record (σ : Assignment) (s : Scenario) (conditions : List String) : Scenario :=
  conditions.foldl (fun s c => s.assign c (σ c)) s

@[simp] theorem record_nil (σ : Assignment) (s : Scenario) : s.record σ [] = s := rfl

@[simp] theorem record_cons (σ : Assignment) (s : Scenario) (c : String) (cs : List String) :
    s.record σ (c :: cs) = (s.assign c (σ c)).record σ cs := rfl

theorem record_append (σ : Assignment) (s : Scenario) (cs ds : List String) :
    s.record σ (cs ++ ds) = (s.record σ cs).record σ ds := List.foldl_append

theorem ContainedIn.record {s : Scenario} {σ : Assignment} (h : s.ContainedIn σ)
    (cs : List String) : (s.record σ cs).ContainedIn σ := by
  induction cs generalizing s with
  | nil => exact h
  | cons c cs ih => exact ih (h.assign c)

theorem get?_record (σ : Assignment) (s : Scenario) (cs : List String) (c : String) :
    (s.record σ cs).get? c = if c ∈ cs then some (σ c) else s.get? c := by
  induction cs generalizing s with
  | nil => simp
  | cons d cs ih =>
    rw [record_cons, ih]
    by_cases hd : c = d
    · subst d
      simp [get?_assign_self]
    · simp [hd, get?_assign_of_ne s hd]

/-- No condition is fixed twice. -/
def Tidy (s : Scenario) : Prop := (Entries.keys s.assignments).Nodup

theorem Tidy.record {s : Scenario} (h : s.Tidy) (σ : Assignment) (cs : List String) :
    (s.record σ cs).Tidy := by
  induction cs generalizing s with
  | nil => exact h
  | cons c cs ih => exact ih (s := s.assign c (σ c)) (Entries.nodup_keys_insert h)

end Scenario

namespace Property

/-! ## Evaluation -/

mutual

/-- The value with the branch of the assignment in place of every conditional; nothing if it is
removed. Removed items and entries are left out, and malformed conditionals stay. -/
def evaluate (σ : Assignment) : Property → Option Property
  | .scalar value => some (.scalar value)
  | .list items => some (.list (evaluateItems σ items))
  | .object entries => some (.object (evaluateEntries σ entries))
  | .conditional (some c) (some t) (some f) 3 => if σ c then evaluate σ t else evaluate σ f
  | .conditional condition whenTrue whenFalse arity =>
    some (.conditional condition whenTrue whenFalse arity)
  | .removed => none

def evaluateItems (σ : Assignment) : List Property → List Property
  | [] => []
  | item :: rest => (evaluate σ item).toList ++ evaluateItems σ rest

def evaluateEntries (σ : Assignment) : List (String × Property) → List (String × Property)
  | [] => []
  | (key, value) :: rest => ((evaluate σ value).map (key, ·)).toList ++ evaluateEntries σ rest

end

mutual

/-- The conditions that evaluation comes to, in the order of the document and each time anew. -/
def conditionsMet (σ : Assignment) : Property → List String
  | .scalar _ => []
  | .list items => conditionsMetItems σ items
  | .object entries => conditionsMetEntries σ entries
  | .conditional (some c) (some t) (some f) 3 =>
    c :: (if σ c then conditionsMet σ t else conditionsMet σ f)
  | .conditional .. => []
  | .removed => []

def conditionsMetItems (σ : Assignment) : List Property → List String
  | [] => []
  | item :: rest => conditionsMet σ item ++ conditionsMetItems σ rest

def conditionsMetEntries (σ : Assignment) : List (String × Property) → List String
  | [] => []
  | (_, value) :: rest => conditionsMet σ value ++ conditionsMetEntries σ rest

end

/-! ## The object that the conditionals around it leave -/

def selected (σ : Assignment) : Property → Property
  | .conditional (some c) (some t) (some f) 3 => if σ c then selected σ t else selected σ f
  | value => value

def selectedLocation (σ : Assignment) (location : Location) : Property → Location
  | .conditional (some c) (some t) (some f) 3 =>
    if σ c then selectedLocation σ (location.branch true) t
    else selectedLocation σ (location.branch false) f
  | _ => location

def chainConditions (σ : Assignment) : Property → List String
  | .conditional (some c) (some t) (some f) 3 =>
    c :: (if σ c then chainConditions σ t else chainConditions σ f)
  | _ => []

/-! ## The variant of an object -/

def groupEntries (group : List String) (entries : List (String × Property)) :
    List (String × Property) :=
  entries.filter (·.1 ∈ group)

/-- The conditions that decide which variant an assignment gives. -/
def conditionsOfVariant (σ : Assignment) (group : List String) (value : Property) : List String :=
  chainConditions σ value ++
    conditionsMetEntries σ (groupEntries group (((selected σ value).entries?).getD []))

/-- The entries of the variant: those of the group evaluated, any other settled under the scenario
of what was met before it. -/
def variantEntries (σ : Assignment) (group : List String) (s : Scenario) :
    List (String × Property) → List (String × Property)
  | [] => []
  | (key, value) :: rest =>
    if key ∈ group then
      ((evaluate σ value).map (key, ·)).toList ++
        variantEntries σ group (s.record σ (conditionsMet σ value)) rest
    else ((settle s value).map (key, ·)).toList ++ variantEntries σ group s rest

def variantUnder? (σ : Assignment) (group : List String) (s : Scenario) (location : Location)
    (value : Property) : Option Variant :=
  (selected σ value).entries?.map fun entries =>
    ⟨variantEntries σ group (s.record σ (chainConditions σ value)) entries,
      s.record σ (conditionsOfVariant σ group value), selectedLocation σ location value⟩

/-! ## Laws -/

variable {σ : Assignment}

attribute [local simp] evaluate conditionsMet selected selectedLocation chainConditions
  evaluateEntries variantEntries

theorem evaluate_choice (c : String) (t f : Property) :
    evaluate σ (choice c t f) = evaluate σ (branchFor (σ c) t f) := by
  cases hc : σ c <;> simp [choice, branchFor, hc]

theorem conditionsMet_choice (c : String) (t f : Property) :
    conditionsMet σ (choice c t f) = c :: conditionsMet σ (branchFor (σ c) t f) := by
  cases hc : σ c <;> simp [choice, branchFor, hc]

theorem selected_choice (c : String) (t f : Property) :
    selected σ (choice c t f) = selected σ (branchFor (σ c) t f) := by
  cases hc : σ c <;> simp [choice, branchFor, hc]

theorem selectedLocation_choice (location : Location) (c : String) (t f : Property) :
    selectedLocation σ location (choice c t f) =
      selectedLocation σ (location.branch (σ c)) (branchFor (σ c) t f) := by
  cases hc : σ c <;> simp [choice, branchFor, hc]

theorem chainConditions_choice (c : String) (t f : Property) :
    chainConditions σ (choice c t f) = c :: chainConditions σ (branchFor (σ c) t f) := by
  cases hc : σ c <;> simp [choice, branchFor, hc]

section

variable {condition : Option String} {whenTrue whenFalse : Option Property} {arity : Nat}
  (hm : Malformed condition whenTrue whenFalse arity)

include hm

theorem evaluate_malformed :
    evaluate σ (.conditional condition whenTrue whenFalse arity) =
      some (.conditional condition whenTrue whenFalse arity) := by
  rw [evaluate]
  exact hm

theorem conditionsMet_malformed :
    conditionsMet σ (.conditional condition whenTrue whenFalse arity) = [] := by
  rw [conditionsMet]
  exact hm

theorem chainConditions_malformed :
    chainConditions σ (.conditional condition whenTrue whenFalse arity) = [] := by
  rw [chainConditions]
  exact hm.ne_choice

theorem selected_malformed :
    selected σ (.conditional condition whenTrue whenFalse arity) =
      .conditional condition whenTrue whenFalse arity := by
  rw [selected]
  exact hm.ne_choice

theorem selectedLocation_malformed (location : Location) :
    selectedLocation σ location (.conditional condition whenTrue whenFalse arity) = location := by
  rw [selectedLocation]
  exact hm.ne_choice

end

theorem variantUnder?_choice (group : List String) (s : Scenario) (location : Location)
    (c : String) (t f : Property) :
    variantUnder? σ group s location (choice c t f) =
      variantUnder? σ group (s.assign c (σ c)) (location.branch (σ c)) (branchFor (σ c) t f) := by
  simp only [variantUnder?, conditionsOfVariant, selected_choice, selectedLocation_choice,
    chainConditions_choice, List.cons_append, Scenario.record_cons]

theorem variantUnder?_object {group : List String} {s : Scenario} {location : Location}
    {value : Property} {entries : List (String × Property)}
    (h : selected σ value = .object entries) :
    variantUnder? σ group s location value =
      some ⟨variantEntries σ group (s.record σ (chainConditions σ value)) entries,
        s.record σ (conditionsOfVariant σ group value), selectedLocation σ location value⟩ := by
  simp only [variantUnder?, h, entries?, Option.map_some]

theorem location_of_variantUnder? {group : List String} {s : Scenario} {location : Location}
    {value : Property} {entries : List (String × Property)} {variant : Variant}
    (ho : selected σ value = .object entries)
    (h : variantUnder? σ group s location value = some variant) :
    variant.location = selectedLocation σ location value := by
  rw [← Option.some.inj ((variantUnder?_object ho).symm.trans h)]

theorem variantUnder?_removed {group : List String} {s : Scenario} {location : Location}
    {value : Property} (h : selected σ value = .removed) :
    variantUnder? σ group s location value = none := by
  simp only [variantUnder?, h, entries?, Option.map_none]

theorem evaluate_selected (value : Property) :
    evaluate σ (selected σ value) = evaluate σ value := by
  induction value using Property.induction with
  | choice c t f ih => rw [selected_choice, evaluate_choice, ih]
  | malformed condition whenTrue whenFalse arity hm _ => rw [selected_malformed hm]
  | scalar v => rfl
  | list items _ => rfl
  | object entries _ => rfl
  | removed => rfl

theorem find?_evaluateEntries {entries : List (String × Property)}
    (h : (Entries.keys entries).Nodup) (g : String) :
    Entries.find? g (evaluateEntries σ entries) = (Entries.find? g entries).bind (evaluate σ) := by
  induction entries with
  | nil => simp
  | cons entry rest ih =>
    obtain ⟨hn, hr⟩ := List.nodup_cons.mp h
    rw [evaluateEntries, Entries.find?_append, ih hr]
    by_cases hk : entry.1 = g
    · have hg : Entries.find? g rest = none := by
        cases hf : Entries.find? g rest with
        | none => rfl
        | some v => exact absurd (List.mem_map_of_mem (Entries.mem_of_find? hf)) (hk ▸ hn)
      cases hv : evaluate σ entry.2 <;> simp [Entries.find?, hk, hv, hg]
    · cases hv : evaluate σ entry.2 <;> simp [Entries.find?, hk]

theorem mem_conditionsMetItems {items : List Property} {c : String} :
    c ∈ conditionsMetItems σ items ↔ ∃ item ∈ items, c ∈ conditionsMet σ item := by
  induction items with
  | nil => simp [conditionsMetItems]
  | cons item rest ih => simp [conditionsMetItems, ih]

theorem mem_conditionsMetEntries {entries : List (String × Property)} {c : String} :
    c ∈ conditionsMetEntries σ entries ↔ ∃ entry ∈ entries, c ∈ conditionsMet σ entry.2 := by
  induction entries with
  | nil => simp [conditionsMetEntries]
  | cons entry rest ih =>
    simp only [conditionsMetEntries, List.mem_append, ih, List.mem_cons, or_and_right, exists_or,
      exists_eq_left]

theorem contains_evaluateEntries {entries : List (String × Property)} {g : String} :
    Entries.contains g (evaluateEntries σ entries) = true ↔
      ∃ x, (g, x) ∈ entries ∧ (evaluate σ x).isSome = true := by
  induction entries with
  | nil => simp [evaluateEntries, Entries.contains]
  | cons entry rest ih =>
    rw [Entries.contains] at ih ⊢
    rw [evaluateEntries, Entries.find?_append, Option.isSome_or, Bool.or_eq_true, ih]
    obtain ⟨key, value⟩ := entry
    by_cases hk : key = g
    · subst hk
      cases hv : evaluate σ value <;> simp [Entries.find?, hv, or_and_right, exists_or]
    · cases hv : evaluate σ value <;> simp [Entries.find?, hk, Ne.symm hk]

theorem find?_variantEntries {group : List String} {g : String} (hg : g ∈ group) (s : Scenario)
    (entries : List (String × Property)) :
    Entries.find? g (variantEntries σ group s entries) =
      Entries.find? g (evaluateEntries σ entries) := by
  induction entries generalizing s with
  | nil => simp
  | cons entry rest ih =>
    by_cases hk : entry.1 ∈ group
    · simp only [variantEntries, hk, if_true, evaluateEntries, Entries.find?_append, ih]
    · have hne : entry.1 ≠ g := fun h => hk (h ▸ hg)
      simp only [variantEntries, hk, if_false, evaluateEntries, Entries.find?_append, ih]
      cases settle s entry.2 <;> cases evaluate σ entry.2 <;> simp [Entries.find?, hne]

end Property

end ExactlyOne
