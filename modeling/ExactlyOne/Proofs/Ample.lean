import ExactlyOne.Proofs.Operations
import ExactlyOne.Proofs.Traversal

/-!
# Limits that are large enough

Above some bound the limits make no difference: an expansion has one outcome for all of them, and it
is not a limit that stops it. The bound is put together from those of the parts, operation by
operation.
-/
namespace ExactlyOne

/-- From some bound on the limits make no difference to a run, and none of them stops it. -/
def Unhindered {β : Type} (run : Limits → Except Obstacle β) : Prop :=
  ∃ n r, (∀ limits, n ≤ limits.maxVariants → n ≤ limits.maxDepth → run limits = r) ∧
    ∀ place group most measure, r ≠ .error (.limit place group most measure)

namespace Unhindered

variable {β γ : Type}

theorem ok (b : β) : Unhindered fun _ => .ok b := ⟨0, .ok b, by simp⟩

theorem structural (location : Location) (flaw : Flaw) :
    Unhindered (β := β) fun _ => .error (.structural location flaw) :=
  ⟨0, .error (.structural location flaw), by simp⟩

theorem congr {run inner : Limits → Except Obstacle β} (h : Unhindered inner) (n : Nat)
    (heq : ∀ limits : Limits, n ≤ limits.maxDepth → run limits = inner limits) :
    Unhindered run := by
  obtain ⟨m, r, hr, hl⟩ := h
  refine ⟨max n m, r, fun limits hv hd => ?_, hl⟩
  rw [heq limits (by omega)]
  exact hr limits (by omega) (by omega)

theorem bind {run : Limits → Except Obstacle β} {next : Limits → β → Except Obstacle γ}
    (h : Unhindered run) (hn : ∀ a, Unhindered fun limits => next limits a) :
    Unhindered fun limits => run limits >>= next limits := by
  obtain ⟨m, r, hr, hl⟩ := h
  cases r with
  | error e =>
    refine ⟨m, .error e, fun limits hv hd => ?_, ?_⟩
    · show run limits >>= next limits = _
      rw [hr limits hv hd]
      rfl
    · intro place group most measure he
      cases he
      exact hl place group most measure rfl
  | ok a =>
    obtain ⟨k, r', hr', hl'⟩ := hn a
    refine ⟨max m k, r', fun limits hv hd => ?_, hl'⟩
    show run limits >>= next limits = _
    rw [hr limits (by omega) (by omega)]
    exact hr' limits (by omega) (by omega)

theorem bounded (group : List String) (location : Location) (xs : List β) :
    Unhindered fun limits => Focus.bounded ⟨group, limits⟩ location xs := by
  refine ⟨xs.length, .ok xs, fun limits hv _ => ?_, by simp⟩
  exact Property.bounded_eq_ok.mpr ⟨hv, rfl⟩

theorem compositional : Compositional Unhindered where
  ok := ok
  structural := structural
  bind := bind
  bounded := bounded
  enter h hwithin _ := h.congr _ hwithin

end Unhindered

namespace Property

theorem exists_limits_not_reached (group : List String) (location : Location)
    (value : Property) :
    ∃ limits, ∀ place g most measure,
      value.expand location group limits ≠ .error (.limit place g most measure) := by
  obtain ⟨n, r, hr, hl⟩ := Unhindered.compositional.expand group location value
  have hn : value.expand location group ⟨n, n⟩ = r := hr ⟨n, n⟩ (Nat.le_refl n) (Nat.le_refl n)
  exact ⟨⟨n, n⟩, hn ▸ hl⟩

/-- Where no assignment comes to a flaw, some limits are large enough for an expansion. -/
theorem exists_expand_of_flawless {group : List String} {location : Location} {value : Property}
    (h : ∀ σ steps o, MeetsUnder σ group value steps o →
      ∀ flaw, ¬ Flawed (Step.aroundObject steps) o flaw) :
    ∃ large vs, value.expand location group large = .ok vs := by
  obtain ⟨large, hlarge⟩ := exists_limits_not_reached group location value
  cases hres : value.expand location group large with
  | ok vs => exact ⟨large, vs, hres⟩
  | error e =>
    obtain ⟨σ, steps, o, hm, hb⟩ := exists_blamed_of_expand hres
    cases hb with
    | flaw hf => exact absurd hf (h σ steps o hm _)
    | nesting => exact (hlarge _ _ _ _ hres).elim
    | variants => exact (hlarge _ _ _ _ hres).elim

end Property

end ExactlyOne
