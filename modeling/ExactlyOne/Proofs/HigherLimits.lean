import ExactlyOne.Proofs.Operations

/-!
# Higher limits

A limit stops an expansion; it never changes what one comes to. Under higher limits the same runs
are made in the same order, and each of them does what it did before for as long as that was not
stopped. So variants stay as they were, and a flaw that was found first is still found first.
-/
namespace ExactlyOne

variable {α : Type}

def Stopped (x : Except Obstacle α) : Prop :=
  ∃ place group most measure, x = .error (.limit place group most measure)

/-- The first run has the outcome of the second one, unless that was stopped. -/
def Upholds (y x : Except Obstacle α) : Prop := Stopped x ∨ y = x

namespace Upholds

variable {β : Type} {x y : Except Obstacle α}

theorem refl (x : Except Obstacle α) : Upholds x x := Or.inr rfl

theorem of_limit {place : Location} {group : List String} {most : Nat} {measure : Measure} :
    Upholds y (.error (.limit place group most measure)) := Or.inl ⟨_, _, _, _, rfl⟩

theorem bind {k k' : α → Except Obstacle β} (h : Upholds y x) (hk : ∀ a, Upholds (k' a) (k a)) :
    Upholds (y >>= k') (x >>= k) := by
  rcases h with ⟨place, group, most, measure, rfl⟩ | rfl
  · exact of_limit
  · cases y with
    | error e => exact refl _
    | ok a => exact hk a

section

variable {limits higher : Limits}

theorem bounded (hv : limits.maxVariants ≤ higher.maxVariants) (group : List String)
    (location : Location) (xs : List α) :
    Upholds (Focus.bounded ⟨group, higher⟩ location xs)
      (Focus.bounded ⟨group, limits⟩ location xs) := by
  unfold Focus.bounded
  by_cases h : limits.maxVariants < xs.length
  · simp only [h, if_true]
    exact of_limit
  · have hhigher : ¬ higher.maxVariants < xs.length := by omega
    simp only [h, hhigher, if_false]
    exact refl _

theorem enter (hd : limits.maxDepth ≤ higher.maxDepth) {run inner : Limits → Except Obstacle α}
    {group : List String} {location : Location} {depth : Nat}
    (h : Upholds (inner higher) (inner limits))
    (hwithin : ∀ limits : Limits, depth ≤ limits.maxDepth → run limits = inner limits)
    (hbeyond : ∀ limits : Limits, limits.maxDepth < depth →
      run limits = .error (Focus.tooDeep ⟨group, limits⟩ location)) :
    Upholds (run higher) (run limits) := by
  rcases Nat.lt_or_ge limits.maxDepth depth with hdeep | hlow
  · rw [hbeyond limits hdeep]
    exact of_limit
  · -- a run that the lower limit of depth lets begin may begin under the higher one
    have hhigh : depth ≤ higher.maxDepth := Nat.le_trans hlow hd
    rw [hwithin limits hlow, hwithin higher hhigh]
    exact h

theorem compositional (hv : limits.maxVariants ≤ higher.maxVariants)
    (hd : limits.maxDepth ≤ higher.maxDepth) :
    Compositional fun run => Upholds (run higher) (run limits) where
  ok _ := refl _
  structural _ _ := refl _
  bind := bind
  bounded := bounded hv
  enter := enter hd

end

end Upholds

namespace Property

variable {limits higher : Limits}

section

variable (hv : limits.maxVariants ≤ higher.maxVariants) (hd : limits.maxDepth ≤ higher.maxDepth)

include hv hd

/-- Variants and flaws are what they were under all higher limits; only an expansion that a limit
stopped can end in another way. -/
theorem expand_upheld_by_higher_limits (value : Property) (location : Location)
    (group : List String) :
    (∀ vs, value.expand location group limits = .ok vs →
      value.expand location group higher = .ok vs) ∧
    (∀ place flaw, value.expand location group limits = .error (.structural place flaw) →
      value.expand location group higher = .error (.structural place flaw)) ∧
    (value.expand location group higher ≠ value.expand location group limits →
      Stopped (value.expand location group limits)) := by
  have hup : Upholds (value.expand location group higher) (value.expand location group limits) :=
    (Upholds.compositional hv hd).expand group location value
  refine ⟨?_, ?_, ?_⟩
  · intro vs h
    rcases hup with ⟨_, _, _, _, hs⟩ | heq
    · cases hs.symm.trans h
    · exact heq.trans h
  · intro place flaw h
    rcases hup with ⟨_, _, _, _, hs⟩ | heq
    · cases hs.symm.trans h
    · exact heq.trans h
  · exact fun hne => hup.resolve_right hne

end

/-- The first key has a flaw, the second is deep, and the third is there under a condition. -/
def flawDepthChoice : Property :=
  .object [("Flaw", .conditional none none none 0), ("Deep", .list [.list [.scalar .null]]),
    ("Choice", choice "Use" (.scalar .null) .removed)]

theorem flawDepthChoice_upheld :
    (4 ≤ 4096 ∧ 2 ≤ 64) ∧
    (∃ vs, flawDepthChoice.expand .root ["Choice"] ⟨4, 2⟩ = .ok vs ∧
      flawDepthChoice.expand .root ["Choice"] ⟨4096, 64⟩ = .ok vs) ∧
    flawDepthChoice.expand .root ["Flaw", "Deep"] ⟨4096, 64⟩ =
      .error (.structural (.key .root "Flaw") (.malformed (.argumentCount 0))) ∧
    Stopped (flawDepthChoice.expand .root ["Deep"] ⟨4, 2⟩) := by
  have hv : (⟨4, 2⟩ : Limits).maxVariants ≤ (⟨4096, 64⟩ : Limits).maxVariants := by decide
  have hd : (⟨4, 2⟩ : Limits).maxDepth ≤ (⟨4096, 64⟩ : Limits).maxDepth := by decide
  have hup := expand_upheld_by_higher_limits hv hd flawDepthChoice .root
  obtain ⟨vs, hchoice⟩ : ∃ vs, flawDepthChoice.expand .root ["Choice"] ⟨4, 2⟩ = .ok vs := ⟨_, rfl⟩
  have hdeep : flawDepthChoice.expand .root ["Deep"] ⟨4096, 64⟩ ≠
      flawDepthChoice.expand .root ["Deep"] ⟨4, 2⟩ := by
    obtain ⟨vs, hvs⟩ : ∃ vs, flawDepthChoice.expand .root ["Deep"] ⟨4096, 64⟩ = .ok vs := ⟨_, rfl⟩
    obtain ⟨o, ho⟩ : ∃ o, flawDepthChoice.expand .root ["Deep"] ⟨4, 2⟩ = .error o := ⟨_, rfl⟩
    simp [hvs, ho]
  exact ⟨⟨hv, hd⟩, ⟨vs, hchoice, (hup _).1 vs hchoice⟩, (hup _).2.1 _ _ rfl, (hup _).2.2 hdeep⟩

end Property

end ExactlyOne
