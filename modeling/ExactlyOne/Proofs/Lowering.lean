import ExactlyOne.Property.Document

/-!
# Documents as the lowering sees them

Every document is a scalar, a list, an object that stands for itself, a removed value or a
conditional, which has its parts in a list or has none. What is proved along the lowering has these
cases, and so have the values that the lowering comes to: it does not look at the condition of a
conditional, nor behind its third argument.
-/
namespace ExactlyOne

namespace Json

def isScalar : Json → Bool
  | .array _ => false
  | .object _ => false
  | _ => true

@[reducible] def conditionalOf (argument : Json) : Json := .object [(conditionalKey, argument)]

@[reducible] def removal : Json :=
  .object [(Property.referenceKey, .text Property.removedName)]

/-- An object with these entries stands for itself. -/
def Plain (entries : List (String × Json)) : Prop :=
  (∀ argument, .object entries ≠ conditionalOf argument) ∧ .object entries ≠ removal

theorem conditionalOf_or_plain (entries : List (String × Json)) :
    (∃ argument, .object entries = conditionalOf argument) ∨ .object entries = removal ∨
      Plain entries := by
  by_cases hc : ∃ argument, .object entries = conditionalOf argument
  · exact Or.inl hc
  · by_cases hr : .object entries = removal
    · exact Or.inr (Or.inl hr)
    · exact Or.inr (Or.inr ⟨not_exists.mp hc, hr⟩)

/-- Induction over a document, with what lists and objects hold. -/
@[elab_as_elim]
theorem induction {motive : Json → Prop}
    (scalar : ∀ v, v.isScalar → motive v)
    (array : ∀ items, (∀ item ∈ items, motive item) → motive (.array items))
    (object : ∀ entries, (∀ entry ∈ entries, motive entry.2) → motive (.object entries))
    (v : Json) : motive v := by
  refine @Json.rec motive (fun items => ∀ item ∈ items, motive item)
    (fun entries => ∀ entry ∈ entries, motive entry.2) (fun entry => motive entry.2)
    (scalar _ rfl) (fun _ => scalar _ rfl) (fun _ => scalar _ rfl) (fun _ => scalar _ rfl)
    array object ?_ ?_ ?_ ?_ ?_ v
  · simp
  · intro item rest hi hr
    exact List.forall_mem_cons.mpr ⟨hi, hr⟩
  · simp
  · intro entry rest he hr
    exact List.forall_mem_cons.mpr ⟨he, hr⟩
  · intro key v hv
    exact hv

/-- Induction along the lowering. The list of a conditional is no value of its own, so what is known
of it is known of the arguments. -/
@[elab_as_elim]
theorem induction_lowering {motive : Json → Prop}
    (scalar : ∀ v, v.isScalar → motive v)
    (array : ∀ items, (∀ item ∈ items, motive item) → motive (.array items))
    (plain : ∀ entries, Plain entries → (∀ entry ∈ entries, motive entry.2) →
      motive (.object entries))
    (removal : motive removal)
    (listed : ∀ arguments, (∀ argument ∈ arguments, motive argument) →
      motive (conditionalOf (.array arguments)))
    (unlisted : ∀ argument, (∀ arguments, argument ≠ .array arguments) →
      motive (conditionalOf argument))
    (v : Json) : motive v := by
  -- the list of the arguments is one step of the syntax, so its items are carried along
  have hboth : motive v ∧ ∀ items, v = .array items → ∀ item ∈ items, motive item := by
    induction v using induction with
    | scalar v hv =>
      refine ⟨scalar v hv, ?_⟩
      rintro items rfl
      cases hv
    | array items ih =>
      refine ⟨array items fun item hi => (ih item hi).1, ?_⟩
      intro arguments h
      obtain rfl := Json.array.inj h
      exact fun item hi => (ih item hi).1
    | object entries ih =>
      refine ⟨?_, fun items h => nomatch h⟩
      rcases conditionalOf_or_plain entries with ⟨argument, h⟩ | h | h
      · obtain rfl := Json.object.inj h
        by_cases hl : ∃ arguments, argument = .array arguments
        · obtain ⟨arguments, rfl⟩ := hl
          exact listed arguments ((ih _ List.mem_cons_self).2 arguments rfl)
        · exact unlisted argument (not_exists.mp hl)
      · exact h ▸ removal
      · exact plain entries h fun entry he => (ih entry he).1
  exact hboth.1

/-! ## What the lowering meets -/

/-- The values in a document that the lowering comes to. -/
inductive Meets : Json → Json → Prop where
  | here (v : Json) : Meets v v
  | item {items : List Json} {v o : Json} : v ∈ items → Meets v o → Meets (.array items) o
  | member {entries : List (String × Json)} {name : String} {v o : Json} :
      Plain entries → (name, v) ∈ entries → Meets v o → Meets (.object entries) o
  | argument {arguments : List Json} {n : Nat} {v o : Json} :
      arguments[n]? = some v → n = 1 ∨ n = 2 → Meets v o →
      Meets (conditionalOf (.array arguments)) o

/-- The arguments of all conditionals that the lowering meets are of some kind. -/
def ConditionalsMet (P : Json → Prop) (v : Json) : Prop :=
  ∀ argument, Meets v (conditionalOf argument) → P argument

variable {P : Json → Prop}

theorem conditionalsMet_of_isScalar {v : Json} (h : v.isScalar) : ConditionalsMet P v := by
  intro argument hm
  cases hm <;> cases h

theorem conditionalsMet_array {items : List Json} :
    ConditionalsMet P (.array items) ↔ ∀ item ∈ items, ConditionalsMet P item := by
  constructor
  · intro h item hi argument hm
    exact h argument (.item hi hm)
  · intro h argument hm
    cases hm with
    | item hi hm => exact h _ hi argument hm

theorem conditionalsMet_plain {entries : List (String × Json)} (hp : Plain entries) :
    ConditionalsMet P (.object entries) ↔ ∀ entry ∈ entries, ConditionalsMet P entry.2 := by
  constructor
  · intro h entry he argument hm
    exact h argument (.member hp he hm)
  · intro h argument hm
    cases hm with
    | here => exact absurd rfl (hp.1 argument)
    | member _ he hm => exact h _ he argument hm
    | argument => exact absurd rfl (hp.1 _)

theorem removal_ne_conditionalOf (argument : Json) : removal ≠ conditionalOf argument := by
  simp [conditionalKey, Property.referenceKey]

theorem conditionalsMet_removal : ConditionalsMet P removal := by
  intro argument hm
  generalize ho : conditionalOf argument = o at hm
  generalize hr : removal = v at hm
  cases hm with
  | here => exact absurd (hr.trans ho.symm) (removal_ne_conditionalOf argument)
  | item => cases hr
  | member hp => exact absurd hr.symm hp.2
  | argument => exact absurd hr (removal_ne_conditionalOf _)

theorem conditionalsMet_unlisted {argument : Json} (h : ∀ arguments, argument ≠ .array arguments) :
    ConditionalsMet P (conditionalOf argument) ↔ P argument := by
  constructor
  · intro hc
    exact hc argument (.here _)
  · intro hp other hm
    cases hm with
    | here => exact hp
    | member hplain => exact absurd rfl (hplain.1 _)
    | argument => exact absurd rfl (h _)

theorem conditionalsMet_listed {arguments : List Json} :
    ConditionalsMet P (conditionalOf (.array arguments)) ↔ P (.array arguments) ∧
      (∀ v ∈ arguments[1]?, ConditionalsMet P v) ∧ (∀ v ∈ arguments[2]?, ConditionalsMet P v) := by
  constructor
  · intro h
    exact ⟨h _ (.here _), fun v hv other hm => h other (.argument hv (Or.inl rfl) hm),
      fun v hv other hm => h other (.argument hv (Or.inr rfl) hm)⟩
  · rintro ⟨hp, hfirst, hsecond⟩ other hm
    cases hm with
    | here => exact hp
    | member hplain => exact absurd rfl (hplain.1 _)
    | argument hv hn hm =>
      rcases hn with rfl | rfl
      · exact hfirst _ hv other hm
      · exact hsecond _ hv other hm

end Json

namespace Property

open Json

/-! ## The lowering in each of the cases -/

theorem ofJson_of_isScalar {v : Json} (h : v.isScalar) : ofJson v = .scalar v := by
  cases v <;> first | rfl | cases h

theorem ofJson_array (items : List Json) : ofJson (.array items) = .list (items.map ofJson) := by
  rw [ofJson, ofItems_eq_map]

theorem ofJson_plain {entries : List (String × Json)} (h : Plain entries) :
    ofJson (.object entries) = .object (entries.map fun entry => (entry.1, ofJson entry.2)) := by
  rcases entries with _ | ⟨⟨key, v⟩, _ | ⟨second, rest⟩⟩
  · rfl
  · have hkey : key ≠ conditionalKey := by
      rintro rfl
      exact h.1 v rfl
    have hremoved : isRemoved key v = false := by
      cases hr : isRemoved key v with
      | false => rfl
      | true =>
        obtain ⟨rfl, hv⟩ : key = referenceKey ∧ v.text? = some removedName := by
          simpa [isRemoved] using hr
        cases v <;> simp [text?] at hv
        exact absurd (by rw [hv]) h.2
    rw [ofJson.eq_def]
    simp only [if_neg hkey, hremoved, Bool.false_eq_true, if_false, List.map_cons, List.map_nil]
  · simp [ofJson, ofEntries_eq_map]

theorem ofJson_removal : ofJson removal = .removed := rfl

def conditionOf (arguments : List Json) : Option String := arguments.head?.bind text?

theorem ofJson_listed (arguments : List Json) :
    ofJson (conditionalOf (.array arguments)) = .conditional (conditionOf arguments)
      (arguments[1]?.map ofJson) (arguments[2]?.map ofJson) arguments.length := by
  simp [ofJson, ofArgument_eq, conditionOf]

theorem ofJson_unlisted {argument : Json} (h : ∀ arguments, argument ≠ .array arguments) :
    ofJson (conditionalOf argument) = .conditional none none none 0 := by
  cases argument with
  | array arguments => exact absurd rfl (h arguments)
  | _ => simp [ofJson]

end Property

end ExactlyOne
