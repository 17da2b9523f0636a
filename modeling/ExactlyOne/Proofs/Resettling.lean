import Mathlib.Data.List.Basic
import ExactlyOne.Proofs.Settlement

/-!
# Settling in steps

What one scenario leaves open in a value, a later one that keeps its outcomes may still decide. The
conditionals that are kept stand as they were written, with nothing inside them touched, so settling
along scenarios that grow ends where the last of them would have led at once.
-/
namespace ExactlyOne

namespace Scenario

variable {s t : Scenario}

/-- Every outcome that the first scenario fixes stands in the second one as well. -/
def KeptIn (s t : Scenario) : Prop := ∀ c b, s.get? c = some b → t.get? c = some b

theorem KeptIn.refl (s : Scenario) : s.KeptIn s := fun _ _ h => h

theorem keptIn_assign {c : String} (h : s.get? c = none) (b : Bool) : s.KeptIn (s.assign c b) := by
  intro d e hd
  have hne : d ≠ c := by
    rintro rfl
    rw [h] at hd
    cases hd
  rwa [get?_assign_of_ne s hne]

end Scenario

namespace Property

variable {s t : Scenario}

theorem settle_choice_of_open {c : String} {yes no : Property} (h : s.get? c = none) :
    settle s (choice c yes no) = some (choice c yes no) := by
  rw [choice, settle, h]
  rfl

theorem settleItems_eq_filterMap (items : List Property) :
    settleItems s items = items.filterMap (settle s) := by
  induction items with
  | nil => rw [settleItems, List.filterMap_nil]
  | cons item rest ih =>
    rw [settleItems, ih, List.filterMap_cons]
    cases settle s item <;> rfl

def settleEntry (s : Scenario) (entry : String × Property) : Option (String × Property) :=
  (settle s entry.2).map (entry.1, ·)

theorem settleEntries_eq_filterMap (entries : List (String × Property)) :
    settleEntries s entries = entries.filterMap (settleEntry s) := by
  induction entries with
  | nil => rw [settleEntries, List.filterMap_nil]
  | cons entry rest ih =>
    rw [settleEntries, ih, List.filterMap_cons, settleEntry]
    cases settle s entry.2 <;> rfl

theorem settleEntry_bind {entry : String × Property}
    (h : (settle s entry.2).bind (settle t) = settle t entry.2) :
    (settleEntry s entry).bind (settleEntry t) = settleEntry t entry := by
  rw [settleEntry, settleEntry, ← h]
  cases settle s entry.2 <;> rfl

/-- To settle a value, and what is left of it under a later scenario that keeps the outcomes of the
first, is to settle it under the later one at once. A value that is removed stays removed. -/
theorem settle_bind_settle (h : s.KeptIn t) (value : Property) :
    (settle s value).bind (settle t) = settle t value := by
  induction value using Property.induction with
  | scalar v => rw [settle, settle, Option.bind_some, settle]
  | removed => rw [settle, settle, Option.bind_none]
  | malformed condition whenTrue whenFalse arity hm _ =>
    rw [settle_malformed hm, Option.bind_some]
  | choice c yes no ih =>
    cases hc : s.get? c with
    | none => rw [settle_choice_of_open hc, Option.bind_some]
    | some b =>
      rw [settle_choice_of_fixed hc, settle_choice_of_fixed (h c b hc)]
      exact ih b
  | list items ih =>
    have hitems : (items.filterMap (settle s)).filterMap (settle t) =
        items.filterMap (settle t) := by
      rw [List.filterMap_filterMap]
      exact List.filterMap_congr ih
    rw [settle, settle, Option.bind_some, settle]
    simp only [settleItems_eq_filterMap, hitems]
  | object entries ih =>
    have hentries : (entries.filterMap (settleEntry s)).filterMap (settleEntry t) =
        entries.filterMap (settleEntry t) := by
      rw [List.filterMap_filterMap]
      exact List.filterMap_congr fun entry hm => settleEntry_bind (ih entry hm)
    rw [settle, settle, Option.bind_some, settle]
    simp only [settleEntries_eq_filterMap, hentries]

/-- A list in which one conditional is decided by each of two scenarios, one by none and one is
malformed. -/
def decidedInTurn : Property :=
  .object [("Tags", .list [choice "A" (choice "B" .removed (.scalar .null)) .removed,
      choice "C" (choice "A" (.scalar .null) .removed) .removed,
      .conditional (some "A") (some .removed) none 2]),
    ("Gone", choice "A" .removed (.scalar .null))]

theorem decidedInTurn_settled :
    let s : Scenario := ⟨[("A", true)]⟩
    let t : Scenario := s.assign "B" false
    s.KeptIn t ∧ (settle s decidedInTurn).bind (settle t) = settle t decidedInTurn ∧
    (settle t decidedInTurn).bind (settle t) = settle t decidedInTurn ∧
    settle t decidedInTurn = some (.object [("Tags", .list [.scalar .null,
      choice "C" (choice "A" (.scalar .null) .removed) .removed,
      .conditional (some "A") (some .removed) none 2])]) := by
  intro s t
  have hkept : s.KeptIn t := Scenario.keptIn_assign rfl false
  have htwice := settle_bind_settle (Scenario.KeptIn.refl t) decidedInTurn
  exact ⟨hkept, settle_bind_settle hkept decidedInTurn, htwice, rfl⟩

end Property

end ExactlyOne
