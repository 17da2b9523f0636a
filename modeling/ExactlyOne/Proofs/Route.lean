import ExactlyOne.Template
import ExactlyOne.Proofs.Evaluation
import ExactlyOne.Proofs.Expansion

/-!
# Routes through a value, and the visits along them

A route is the list of keys, indexes and branches that lead from a value down to another one. It
gives the location and the name of the type that the visits of a template use, and it names the
conditions that it crosses. Every visit lies on a route, and every route to a registered place has
a visit on it.
-/
namespace ExactlyOne

/-- One step down. A branch has the condition of its conditional, if that is well-formed. -/
inductive Step where
  | key (name : String)
  | index (position : Nat)
  | branch (condition : Option String) (outcome : Bool)
  deriving DecidableEq, Repr

namespace Step

def isKey : Step → Bool
  | .key _ => true
  | _ => false

def isBranch : Step → Bool
  | .branch .. => true
  | _ => false

theorem isKey_of_isBranch {step : Step} (h : step.isBranch = true) : step.isKey = false := by
  cases step with
  | branch condition outcome => rfl
  | index position => rfl
  | key name => simp [isBranch] at h

def Keyless (steps : List Step) : Prop := ∀ step ∈ steps, step.isKey = false

theorem Keyless.cons {step : Step} {rest : List Step} (h : step.isKey = false)
    (hr : Keyless rest) : Keyless (step :: rest) := List.forall_mem_cons.mpr ⟨h, hr⟩

/-- The assignment goes along with the step; no assignment goes into a malformed conditional. -/
def SelectedBy (σ : Assignment) : Step → Prop
  | .branch (some c) outcome => σ c = outcome
  | .branch none _ => False
  | _ => True

def branches (chain : List (String × Bool)) : List Step :=
  chain.map fun e => .branch (some e.1) e.2

end Step

def Location.step (location : Location) : Step → Location
  | .key name => location.key name
  | .index position => location.index position
  | .branch _ outcome => location.branch outcome

def Location.follow (location : Location) (steps : List Step) : Location :=
  steps.foldl Location.step location

theorem Location.follow_append (location : Location) (xs ys : List Step) :
    location.follow (xs ++ ys) = (location.follow xs).follow ys := List.foldl_append

theorem Location.size_follow (location : Location) (steps : List Step) :
    location.size + steps.length ≤ (location.follow steps).size := by
  induction steps generalizing location with
  | nil => exact Nat.le_refl _
  | cons step rest ih =>
    have hstep : location.size + 1 ≤ (location.step step).size := by
      cases step <;> simp [step, key, index, branch, child, size]
    have hrest := ih (location.step step)
    simp only [follow, List.length_cons, List.foldl_cons] at hrest ⊢
    omega

/-- The name of the type at the end of a route: only keys add to it. -/
def Template.typeAlong (type : String) : List Step → String
  | [] => type
  | .key name :: rest => typeAlong (nestedType type name) rest
  | _ :: rest => typeAlong type rest

theorem Template.typeAlong_keyless {type : String} {steps : List Step}
    (h : Step.Keyless steps) : typeAlong type steps = type := by
  induction steps with
  | nil => rfl
  | cons step rest ih =>
    have hr := ih fun s hs => h s (List.mem_cons_of_mem _ hs)
    cases step with
    | key name => exact absurd (h (.key name) List.mem_cons_self) (by simp [Step.isKey])
    | index position => exact hr
    | branch condition outcome => exact hr

theorem Template.length_typeAlong (type : String) (steps : List Step) :
    type.length ≤ (typeAlong type steps).length := by
  induction steps generalizing type with
  | nil => exact Nat.le_refl _
  | cons step rest ih =>
    cases step with
    | key name =>
      refine Nat.le_trans ?_ (ih (nestedType type name))
      simp only [nestedType, String.length_append]
      omega
    | index position => exact ih type
    | branch condition outcome => exact ih type

namespace Property

/-- A route leads from a value down to another one. -/
inductive Leads : Property → List Step → Property → Prop where
  | here (v) : Leads v [] v
  | key {entries name w steps o} : (name, w) ∈ entries → Leads w steps o →
      Leads (.object entries) (.key name :: steps) o
  | index {items position w steps o} : items[position]? = some w → Leads w steps o →
      Leads (.list items) (.index position :: steps) o
  | branch {condition whenTrue whenFalse arity outcome w steps o} :
      branch? outcome whenTrue whenFalse = some w → Leads w steps o →
      Leads (.conditional condition whenTrue whenFalse arity)
        (.branch (condition? condition whenTrue whenFalse arity) outcome :: steps) o

theorem WellFormed.of_leads {value o : Property} {steps : List Step} (hw : value.WellFormed)
    (h : Leads value steps o) : o.WellFormed := by
  induction h with
  | here => exact hw
  | key hm _ ih => exact ih (hw.entry hm)
  | index hi _ ih => exact ih (hw.item (List.mem_of_getElem? hi))
  | branch hb _ ih => exact ih (hw.branch hb)

theorem Leads.append {u v w : Property} {xs ys : List Step} (h : Leads u xs v)
    (k : Leads v ys w) : Leads u (xs ++ ys) w := by
  induction h with
  | here => exact k
  | key hm _ ih => exact .key hm (ih k)
  | index hi _ ih => exact .index hi (ih k)
  | branch hb _ ih => exact .branch hb (ih k)

theorem Leads.choice {c : String} {t f o : Property} {outcome : Bool} {steps : List Step}
    (h : Leads (branchFor outcome t f) steps o) :
    Leads (choice c t f) (.branch (some c) outcome :: steps) o := by
  rw [← condition?_choice c t f]
  exact .branch (branch?_some outcome t f) h

variable {σ : Assignment}

/-! ## The route that the conditionals around an object make -/

def chainOf (σ : Assignment) (value : Property) : List (String × Bool) :=
  (chainConditions σ value).map fun c => (c, σ c)

theorem chainOf_choice (c : String) (t f : Property) :
    chainOf σ (choice c t f) = (c, σ c) :: chainOf σ (branchFor (σ c) t f) := by
  rw [chainOf, chainConditions_choice, List.map_cons, chainOf]

theorem leads_branches (σ : Assignment) (location : Location) (value : Property) :
    Leads value (Step.branches (chainOf σ value)) (selected σ value) ∧
      selectedLocation σ location value = location.follow (Step.branches (chainOf σ value)) := by
  induction value using Property.induction generalizing location with
  | scalar v => exact ⟨.here _, rfl⟩
  | list items _ => exact ⟨.here _, rfl⟩
  | object entries _ => exact ⟨.here _, rfl⟩
  | removed => exact ⟨.here _, rfl⟩
  | malformed condition whenTrue whenFalse arity hm _ =>
    rw [selected_malformed hm, selectedLocation_malformed hm, chainOf, chainConditions_malformed hm]
    exact ⟨.here _, rfl⟩
  | choice c t f ih =>
    rw [selected_choice, selectedLocation_choice, chainOf_choice]
    obtain ⟨hl, he⟩ := ih (σ c) (location.branch (σ c))
    exact ⟨hl.choice, he⟩

/-- The steps of a route are branches that an assignment takes at conditions from a list. -/
def Follows (σ : Assignment) (conditions : List String) (steps : List Step) : Prop :=
  ∀ step ∈ steps, ∃ c ∈ conditions, step = .branch (some c) (σ c)

theorem leads_selected (σ : Assignment) (location : Location) (value : Property) :
    ∃ steps, Leads value steps (selected σ value) ∧ Follows σ (chainConditions σ value) steps ∧
      selectedLocation σ location value = location.follow steps := by
  obtain ⟨hl, he⟩ := leads_branches σ location value
  refine ⟨_, hl, fun step hm => ?_, he⟩
  simp only [Step.branches, chainOf, List.map_map, List.mem_map] at hm
  obtain ⟨c, hc, rfl⟩ := hm
  exact ⟨c, hc, rfl⟩

/-- A route without keys that an assignment goes along either is made of the conditionals around
its end, or enters a list below them. -/
theorem Leads.selected_or_list {value o : Property} {steps : List Step} (h : Leads value steps o)
    (ho : ∃ entries, o = .object entries) (hs : ∀ step ∈ steps, step.SelectedBy σ)
    (hk : Step.Keyless steps) (location : Location) :
    (selected σ value = o ∧ selectedLocation σ location value = location.follow steps) ∨
      ∃ items, selected σ value = .list items := by
  induction h generalizing location with
  | here =>
    obtain ⟨entries, rfl⟩ := ho
    exact Or.inl ⟨rfl, rfl⟩
  | key => exact absurd (hk _ List.mem_cons_self) (by simp [Step.isKey])
  | index => exact Or.inr ⟨_, rfl⟩
  | @branch condition whenTrue whenFalse arity outcome w steps o hb _ ih =>
    rcases choice_or_malformed condition whenTrue whenFalse arity with hm | hm
    · obtain ⟨c, t, f, rfl, rfl, rfl, rfl⟩ := hm
      have hc : σ c = outcome := hs _ List.mem_cons_self
      have hw : branchFor outcome t f = w :=
        Option.some.inj ((branch?_some outcome t f).symm.trans hb)
      change (selected σ (Property.choice c t f) = o ∧
        selectedLocation σ location (Property.choice c t f) = _) ∨
        ∃ items, selected σ (Property.choice c t f) = .list items
      rw [selected_choice, selectedLocation_choice, hc, hw]
      exact ih ho (fun s h => hs s (List.mem_cons_of_mem _ h))
        (fun s h => hk s (List.mem_cons_of_mem _ h)) _
    · have := hs _ List.mem_cons_self
      simp [condition?_malformed hm, Step.SelectedBy] at this

end Property

end ExactlyOne
