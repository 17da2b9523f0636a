import ExactlyOne.Property

/-!
# Conditionals, well-formed and malformed

What the parts of a conditional make of it, and an induction principle for values that keeps the
well-formed ones apart: for those it speaks of the branch of each outcome.
-/
namespace ExactlyOne

namespace Property

def Malformed (condition : Option String) (whenTrue whenFalse : Option Property) (arity : Nat) :
    Prop :=
  ∀ c t f, condition = some c → whenTrue = some t → whenFalse = some f → arity = 3 → False

theorem choice_or_malformed (condition : Option String) (whenTrue whenFalse : Option Property)
    (arity : Nat) :
    (∃ c t f, condition = some c ∧ whenTrue = some t ∧ whenFalse = some f ∧ arity = 3) ∨
      Malformed condition whenTrue whenFalse arity := by
  by_cases h : ∃ c t f, condition = some c ∧ whenTrue = some t ∧ whenFalse = some f ∧ arity = 3
  · exact Or.inl h
  · exact Or.inr fun c t f hc ht hf hn => h ⟨c, t, f, hc, ht, hf, hn⟩

theorem Malformed.ne_choice {condition : Option String} {whenTrue whenFalse : Option Property}
    {arity : Nat} (h : Malformed condition whenTrue whenFalse arity) (c : String)
    (t f : Property) : conditional condition whenTrue whenFalse arity ≠ choice c t f := by
  intro he
  obtain ⟨hc, ht, hf, hn⟩ := conditional.inj he
  exact h c t f hc ht hf hn

theorem parts_eq_error_iff {condition : Option String} {whenTrue whenFalse : Option Property}
    {arity : Nat} {m : Malformation} :
    parts condition whenTrue whenFalse arity = .error m ↔
      Malformed condition whenTrue whenFalse arity ∧ m = malformation condition whenTrue arity := by
  unfold parts
  split
  · simp only [reduceCtorEq, false_iff, not_and]
    intro hm
    exact (hm _ _ _ rfl rfl rfl rfl).elim
  · rename_i h
    simp only [Except.error.injEq, eq_comm, iff_and_self]
    rintro - c t f rfl rfl rfl rfl
    exact h c t f rfl rfl rfl rfl

def branchFor (outcome : Bool) (t f : Property) : Property := if outcome then t else f

def branch? (outcome : Bool) (whenTrue whenFalse : Option Property) : Option Property :=
  if outcome then whenTrue else whenFalse

theorem branch?_some (outcome : Bool) (t f : Property) :
    branch? outcome (some t) (some f) = some (branchFor outcome t f) := by
  cases outcome <;> rfl

def condition? (condition : Option String) (whenTrue whenFalse : Option Property) (arity : Nat) :
    Option String :=
  match parts condition whenTrue whenFalse arity with
  | .ok (c, _, _) => some c
  | .error _ => none

theorem condition?_choice (c : String) (t f : Property) :
    condition? (some c) (some t) (some f) 3 = some c := rfl

theorem condition?_malformed {condition : Option String} {whenTrue whenFalse : Option Property}
    {arity : Nat} (h : Malformed condition whenTrue whenFalse arity) :
    condition? condition whenTrue whenFalse arity = none := by
  cases hp : parts condition whenTrue whenFalse arity with
  | error m => simp only [condition?, hp]
  | ok p =>
    obtain ⟨hc, ht, hf, hn⟩ := parts_eq_ok_iff.mp hp
    exact (h _ _ _ hc ht hf hn).elim

/-- Induction that does not ask whether a conditional is well-formed. -/
@[elab_as_elim]
theorem induction_branches {motive : Property → Prop}
    (scalar : ∀ v, motive (.scalar v))
    (list : ∀ items, (∀ item ∈ items, motive item) → motive (.list items))
    (object : ∀ entries, (∀ entry ∈ entries, motive entry.2) → motive (.object entries))
    (conditional : ∀ condition whenTrue whenFalse arity,
      (∀ outcome v, branch? outcome whenTrue whenFalse = some v → motive v) →
      motive (.conditional condition whenTrue whenFalse arity))
    (removed : motive .removed) (value : Property) : motive value := by
  refine @Property.rec motive (fun items => ∀ item ∈ items, motive item)
    (fun entries => ∀ entry ∈ entries, motive entry.2)
    (fun branch => ∀ v, branch = some v → motive v) (fun entry => motive entry.2)
    scalar list object ?_ removed ?_ ?_ ?_ ?_ ?_ ?_ ?_ value
  · intro condition whenTrue whenFalse arity ht hf
    refine conditional condition whenTrue whenFalse arity fun outcome => ?_
    cases outcome
    · exact hf
    · exact ht
  · simp
  · intro item rest hi hr
    exact List.forall_mem_cons.mpr ⟨hi, hr⟩
  · simp
  · intro entry rest he hr
    exact List.forall_mem_cons.mpr ⟨he, hr⟩
  · simp
  · intro v hv w hw
    exact Option.some.inj hw ▸ hv
  · intro key v hv
    exact hv

@[elab_as_elim]
theorem induction {motive : Property → Prop}
    (scalar : ∀ v, motive (.scalar v))
    (list : ∀ items, (∀ item ∈ items, motive item) → motive (.list items))
    (object : ∀ entries, (∀ entry ∈ entries, motive entry.2) → motive (.object entries))
    (choice : ∀ c t f, (∀ outcome, motive (branchFor outcome t f)) → motive (choice c t f))
    (malformed : ∀ condition whenTrue whenFalse arity,
      Malformed condition whenTrue whenFalse arity →
      (∀ outcome v, branch? outcome whenTrue whenFalse = some v → motive v) →
      motive (.conditional condition whenTrue whenFalse arity))
    (removed : motive .removed) (value : Property) : motive value := by
  refine induction_branches scalar list object ?_ removed value
  intro condition whenTrue whenFalse arity hb
  rcases choice_or_malformed condition whenTrue whenFalse arity with h | h
  · obtain ⟨c, t, f, rfl, rfl, rfl, rfl⟩ := h
    exact choice c t f fun outcome => hb outcome _ (branch?_some outcome t f)
  · exact malformed condition whenTrue whenFalse arity h hb

/-! ## Values without malformed conditionals -/

mutual

/-- Every conditional in the value is well-formed. -/
def WellFormed : Property → Prop
  | .list items => WellFormedItems items
  | .object entries => WellFormedEntries entries
  | .conditional condition whenTrue whenFalse arity =>
    (condition? condition whenTrue whenFalse arity).isSome = true ∧
      WellFormedBranch whenTrue ∧ WellFormedBranch whenFalse
  | _ => True

def WellFormedBranch : Option Property → Prop
  | none => True
  | some value => WellFormed value

def WellFormedItems : List Property → Prop
  | [] => True
  | item :: rest => WellFormed item ∧ WellFormedItems rest

def WellFormedEntries : List (String × Property) → Prop
  | [] => True
  | (_, value) :: rest => WellFormed value ∧ WellFormedEntries rest

end

theorem WellFormed.item {items : List Property} {item : Property} (h : WellFormed (.list items))
    (hi : item ∈ items) : item.WellFormed := by
  rw [WellFormed] at h
  induction items with
  | nil => simp at hi
  | cons first rest ih =>
    rcases List.mem_cons.mp hi with rfl | hi
    · exact h.1
    · exact ih h.2 hi

theorem WellFormed.entry {entries : List (String × Property)} {entry : String × Property}
    (h : WellFormed (.object entries)) (he : entry ∈ entries) : entry.2.WellFormed := by
  rw [WellFormed] at h
  induction entries with
  | nil => simp at he
  | cons first rest ih =>
    rcases List.mem_cons.mp he with rfl | he
    · exact h.1
    · exact ih h.2 he

theorem WellFormed.branch {condition : Option String} {whenTrue whenFalse : Option Property}
    {arity : Nat} {outcome : Bool} {value : Property}
    (h : WellFormed (.conditional condition whenTrue whenFalse arity))
    (hb : branch? outcome whenTrue whenFalse = some value) : value.WellFormed := by
  obtain ⟨-, ht, hf⟩ := h
  cases outcome
  · obtain rfl : whenFalse = some value := hb
    exact hf
  · obtain rfl : whenTrue = some value := hb
    exact ht

theorem WellFormed.parts_ne_error {condition : Option String}
    {whenTrue whenFalse : Option Property} {arity : Nat} {m : Malformation}
    (h : WellFormed (.conditional condition whenTrue whenFalse arity)) :
    parts condition whenTrue whenFalse arity ≠ .error m := by
  intro hm
  have hsome := h.1
  rw [condition?_malformed (parts_eq_error_iff.mp hm).1] at hsome
  cases hsome

end Property

end ExactlyOne
