import ExactlyOne.Proofs.Route
import ExactlyOne.Proofs.Unfolding

/-!
# What an expansion comes to under one assignment

An assignment goes through an object in one way: it takes its branch at every conditional around
the object, and then goes through the values of the keys of the group, again taking its branches.
Every step is one level of depth. Expansion succeeds only if no assignment comes to a flaw or too
deep, and what it fails for some assignment does come to, at the place that the obstacle names.
-/
namespace ExactlyOne

namespace Step

def aroundObject (steps : List Step) : Bool := steps.all Step.isBranch

/-- After the conditionals around the object the steps go into a key of the group, if anywhere. -/
def InFocus (group : List String) : List Step → Prop
  | [] => True
  | .branch .. :: rest => InFocus group rest
  | .key name :: _ => name ∈ group
  | .index _ :: _ => False

end Step

namespace Property

variable {σ : Assignment} {focus : Focus} {location : Location} {depth : Nat} {s : Scenario}
  {e : Obstacle} {group : List String} {limits : Limits} {value o : Property} {steps : List Step}
  {around : Bool}

structure Reaches (σ : Assignment) (value : Property) (steps : List Step) (o : Property) :
    Prop where
  leads : Leads value steps o
  selected : ∀ step ∈ steps, step.SelectedBy σ

/-- A value that the traversal of an object for a group comes to. -/
structure MeetsUnder (σ : Assignment) (group : List String) (value : Property)
    (steps : List Step) (o : Property) : Prop extends Reaches σ value steps o where
  inFocus : Step.InFocus group steps

/-- What is wrong with a value: a conditional is malformed, or where the object is expected there
is something else. -/
inductive Flawed (around : Bool) : Property → Flaw → Prop where
  | malformed {condition whenTrue whenFalse arity m} :
      parts condition whenTrue whenFalse arity = .error m →
      Flawed around (.conditional condition whenTrue whenFalse arity) (.malformed m)
  | scalar (v) : around = true → Flawed around (.scalar v) (.notObject (kind (.scalar v)))
  | list (items) : around = true → Flawed around (.list items) (.notObject .list)

theorem Flawed.expected {flaw : Flaw} (h : Flawed around o flaw) : Flawed true o flaw := by
  cases h with
  | malformed hp => exact .malformed hp
  | scalar v _ => exact .scalar v rfl
  | list items _ => exact .list items rfl

/-- The obstacle is the value at the end of a route: it has a flaw, is just too deep or has too many
variants. -/
inductive Blames (focus : Focus) (location : Location) (depth : Nat) (steps : List Step)
    (o : Property) (around : Bool) : Obstacle → Prop where
  | flaw {flaw} : Flawed around o flaw →
      Blames focus location depth steps o around (.structural (location.follow steps) flaw)
  | nesting : depth + steps.length = focus.limits.maxDepth + 1 →
      Blames focus location depth steps o around (focus.tooDeep (location.follow steps))
  | variants :
      Blames focus location depth steps o around (focus.tooMany (location.follow steps))

theorem Blames.step {step : Step}
    (h : Blames focus (location.step step) (depth + 1) steps o around e) :
    Blames focus location depth (step :: steps) o around e := by
  cases h with
  | flaw hf => exact .flaw hf
  | nesting hn => exact .nesting (by rw [List.length_cons, ← hn]; omega)
  | variants => exact .variants

/-! ## One step of a route -/

theorem Reaches.here (σ : Assignment) (value : Property) : Reaches σ value [] value :=
  ⟨.here _, by simp⟩

theorem Reaches.choice {c : String} {t f : Property}
    (h : Reaches σ (branchFor (σ c) t f) steps o) :
    Reaches σ (choice c t f) (.branch (some c) (σ c) :: steps) o :=
  ⟨h.leads.choice, List.forall_mem_cons.mpr ⟨rfl, h.selected⟩⟩

theorem Reaches.item {items : List Property} {i : Nat} {item : Property}
    (hi : items[i]? = some item) (h : Reaches σ item steps o) :
    Reaches σ (.list items) (.index i :: steps) o :=
  ⟨.index hi h.leads, List.forall_mem_cons.mpr ⟨trivial, h.selected⟩⟩

theorem Reaches.entry {entries : List (String × Property)} {key : String} {value : Property}
    (hm : (key, value) ∈ entries) (h : Reaches σ value steps o) :
    Reaches σ (.object entries) (.key key :: steps) o :=
  ⟨.key hm h.leads, List.forall_mem_cons.mpr ⟨trivial, h.selected⟩⟩

theorem Reaches.choice_cases {c : String} {t f : Property}
    (h : Reaches σ (Property.choice c t f) steps o) :
    (steps = [] ∧ o = Property.choice c t f) ∨
      ∃ rest, steps = .branch (some c) (σ c) :: rest ∧ Reaches σ (branchFor (σ c) t f) rest o := by
  obtain ⟨hl, hs⟩ := h
  cases hl with
  | here => exact Or.inl ⟨rfl, rfl⟩
  | @branch _ _ _ _ outcome w rest _ hb hl =>
    obtain ⟨hc, hrest⟩ := List.forall_mem_cons.mp hs
    obtain rfl : σ c = outcome := hc
    obtain rfl : branchFor (σ c) t f = w := Option.some.inj ((branch?_some _ t f).symm.trans hb)
    exact Or.inr ⟨rest, rfl, hl, hrest⟩

theorem Reaches.list_cases {items : List Property} (h : Reaches σ (.list items) steps o) :
    (steps = [] ∧ o = .list items) ∨
      ∃ i item rest, items[i]? = some item ∧ steps = .index i :: rest ∧ Reaches σ item rest o := by
  obtain ⟨hl, hs⟩ := h
  cases hl with
  | here => exact Or.inl ⟨rfl, rfl⟩
  | index hi hl => exact Or.inr ⟨_, _, _, hi, rfl, hl, (List.forall_mem_cons.mp hs).2⟩

theorem Reaches.object_cases {entries : List (String × Property)}
    (h : Reaches σ (.object entries) steps o) :
    (steps = [] ∧ o = .object entries) ∨ ∃ key value rest, (key, value) ∈ entries ∧
      steps = .key key :: rest ∧ Reaches σ value rest o := by
  obtain ⟨hl, hs⟩ := h
  cases hl with
  | here => exact Or.inl ⟨rfl, rfl⟩
  | key hm hl => exact Or.inr ⟨_, _, _, hm, rfl, hl, (List.forall_mem_cons.mp hs).2⟩

theorem Reaches.malformed_cases {condition : Option String}
    {whenTrue whenFalse : Option Property} {arity : Nat}
    (hm : Malformed condition whenTrue whenFalse arity)
    (h : Reaches σ (.conditional condition whenTrue whenFalse arity) steps o) :
    steps = [] ∧ o = .conditional condition whenTrue whenFalse arity := by
  obtain ⟨hl, hs⟩ := h
  cases hl with
  | here => exact ⟨rfl, rfl⟩
  | branch hb hl =>
    have := hs _ List.mem_cons_self
    simp [condition?_malformed hm, Step.SelectedBy] at this

/-! ## A successful expansion has gone through all parts under every assignment -/

theorem exists_resolve_branch {c : String} {t f : Property} {rs : List Resolution}
    (h : resolve focus location depth s (choice c t f) = .ok rs) (hs : s.ContainedIn σ) :
    ∃ rs', resolve focus (location.branch (σ c)) (depth + 1) (s.assign c (σ c))
      (branchFor (σ c) t f) = .ok rs' := by
  rw [resolve_choice_eq (resolve_eq_ok_depth h)] at h
  exact exists_run_of_fork h hs

theorem exists_resolve_item {items : List Property} {rs : List Resolution}
    (h : resolve focus location depth s (.list items) = .ok rs) (hs : s.ContainedIn σ) {i : Nat}
    {item : Property} (hi : items[i]? = some item) :
    ∃ s', s'.ContainedIn σ ∧ ∃ rs',
      resolve focus (location.index i) (depth + 1) s' item = .ok rs' := by
  obtain ⟨partials, hp, -⟩ := resolve_list h
  rw [resolveItems_eq_runStages] at hp
  exact exists_run_of_runStages hp determined_runItem (reached_singleton.mpr hs)
    (List.mk_mem_zipIdx_iff_getElem?.mpr hi)

theorem exists_resolve_entry {entries : List (String × Property)} {rs : List Resolution}
    (h : resolve focus location depth s (.object entries) = .ok rs) (hs : s.ContainedIn σ)
    {key : String} {value : Property} (hm : (key, value) ∈ entries) :
    ∃ s', s'.ContainedIn σ ∧ ∃ rs',
      resolve focus (location.key key) (depth + 1) s' value = .ok rs' := by
  obtain ⟨partials, hp, -⟩ := resolve_object h
  rw [resolveEntries_eq_runStages] at hp
  exact exists_run_of_runStages hp determined_runEntry (reached_singleton.mpr hs) hm

theorem exists_expandFrom_branch {c : String} {t f : Property} {vs : List Variant}
    (h : expandFrom focus location depth s (choice c t f) = .ok vs) (hs : s.ContainedIn σ) :
    ∃ vs', expandFrom focus (location.branch (σ c)) (depth + 1) (s.assign c (σ c))
      (branchFor (σ c) t f) = .ok vs' := by
  rw [expandFrom_choice_eq (expandFrom_eq_ok_depth h)] at h
  exact exists_run_of_fork h hs

theorem exists_resolve_group {entries : List (String × Property)} {vs : List Variant}
    (h : expandFrom focus location depth s (.object entries) = .ok vs) (hs : s.ContainedIn σ)
    {key : String} {value : Property} (hm : (key, value) ∈ entries) (hk : key ∈ focus.group) :
    ∃ s', s'.ContainedIn σ ∧ ∃ rs,
      resolve focus (location.key key) (depth + 1) s' value = .ok rs := by
  obtain ⟨partials, hp, -⟩ := expandFrom_object h
  rw [expandEntries_eq_runStages] at hp
  have hr := exists_run_of_runStages hp determined_runGroup (reached_singleton.mpr hs) hm
  simpa only [runGroup, expandValue, hk, if_true] using hr

/-! ## It has met nothing wrong -/

theorem not_flawed_of_resolve {rs : List Resolution}
    (h : resolve focus location depth s value = .ok rs) (flaw : Flaw) :
    ¬ Flawed false value flaw := by
  intro hf
  cases hf with
  | malformed hp => exact resolve_malformed (parts_eq_error_iff.mp hp).1 h
  | scalar v ha => simp at ha
  | list items ha => simp at ha

theorem not_flawed_of_expandFrom {vs : List Variant}
    (h : expandFrom focus location depth s value = .ok vs) (flaw : Flaw) :
    ¬ Flawed around value flaw := by
  intro hf
  cases hf with
  | malformed hp => exact expandFrom_malformed (parts_eq_error_iff.mp hp).1 h
  | scalar v _ => exact expandFrom_scalar h
  | list items _ => exact expandFrom_list h

/-- What stands at the end of a route is within a depth and without a flaw. -/
def Clear (limits : Limits) (depth : Nat) (around : Bool) (steps : List Step) (o : Property) :
    Prop :=
  depth + steps.length ≤ limits.maxDepth ∧ ∀ flaw, ¬ Flawed around o flaw

theorem Clear.cons {step : Step} (h : Clear limits (depth + 1) around steps o) :
    Clear limits depth around (step :: steps) o :=
  ⟨by rw [List.length_cons]; have := h.1; omega, h.2⟩

theorem clear_of_resolve {rs : List Resolution}
    (h : resolve focus location depth s value = .ok rs) (hs : s.ContainedIn σ)
    (hr : Reaches σ value steps o) : Clear focus.limits depth false steps o := by
  have hhere : Clear focus.limits depth false [] value :=
    ⟨resolve_eq_ok_depth h, not_flawed_of_resolve h⟩
  induction value using Property.induction generalizing location depth s rs steps with
  | scalar v =>
    cases hr.leads
    exact hhere
  | removed =>
    cases hr.leads
    exact hhere
  | malformed condition whenTrue whenFalse arity hm _ => exact absurd h (resolve_malformed hm)
  | choice c t f ih =>
    rcases hr.choice_cases with ⟨rfl, rfl⟩ | ⟨rest, rfl, hrest⟩
    · exact hhere
    · obtain ⟨rs', hb⟩ := exists_resolve_branch h hs
      exact (ih _ hb (hs.assign c) hrest ⟨resolve_eq_ok_depth hb, not_flawed_of_resolve hb⟩).cons
  | list items ih =>
    rcases hr.list_cases with ⟨rfl, rfl⟩ | ⟨i, item, rest, hi, rfl, hrest⟩
    · exact hhere
    · obtain ⟨s', hs', rs', hb⟩ := exists_resolve_item h hs hi
      exact (ih item (List.mem_of_getElem? hi) hb hs' hrest
        ⟨resolve_eq_ok_depth hb, not_flawed_of_resolve hb⟩).cons
  | object entries ih =>
    rcases hr.object_cases with ⟨rfl, rfl⟩ | ⟨key, value, rest, hm, rfl, hrest⟩
    · exact hhere
    · obtain ⟨s', hs', rs', hb⟩ := exists_resolve_entry h hs hm
      exact (ih _ hm hb hs' hrest ⟨resolve_eq_ok_depth hb, not_flawed_of_resolve hb⟩).cons

theorem clear_of_expandFrom {vs : List Variant}
    (h : expandFrom focus location depth s value = .ok vs) (hs : s.ContainedIn σ)
    (hm : MeetsUnder σ focus.group value steps o) :
    Clear focus.limits depth (Step.aroundObject steps) steps o := by
  have hhere : Clear focus.limits depth true [] value :=
    ⟨expandFrom_eq_ok_depth h, not_flawed_of_expandFrom h⟩
  obtain ⟨hr, hf⟩ := hm
  induction value using Property.induction generalizing location depth s vs steps with
  | scalar v => exact absurd h expandFrom_scalar
  | list items _ => exact absurd h expandFrom_list
  | malformed condition whenTrue whenFalse arity hm _ => exact absurd h (expandFrom_malformed hm)
  | removed =>
    cases hr.leads
    exact hhere
  | choice c t f ih =>
    rcases hr.choice_cases with ⟨rfl, rfl⟩ | ⟨rest, rfl, hrest⟩
    · exact hhere
    · obtain ⟨vs', hb⟩ := exists_expandFrom_branch h hs
      have hclear := ih _ hb (hs.assign c)
        ⟨expandFrom_eq_ok_depth hb, not_flawed_of_expandFrom hb⟩ hrest hf
      exact hclear.cons
  | object entries _ =>
    rcases hr.object_cases with ⟨rfl, rfl⟩ | ⟨key, value, rest, hm, rfl, hrest⟩
    · exact hhere
    · obtain ⟨s', hs', rs, hb⟩ := exists_resolve_group h hs hm hf
      exact (clear_of_resolve hb hs' hrest).cons

/-! ## What a failed expansion fails for is met -/

/-- Resolving fails for the value itself or as it does one step further, under a scenario that no
assignment contains but those that go along with the step. -/
theorem resolve_error_step (hd : depth ≤ focus.limits.maxDepth)
    (h : resolve focus location depth s value = .error e) :
    Blames focus location depth [] value false e ∨ ∃ step w s',
      resolve focus (location.step step) (depth + 1) s' w = .error e ∧
      ∀ σ, s'.ContainedIn σ → s.ContainedIn σ ∧
        ∀ rest o, Reaches σ w rest o → Reaches σ value (step :: rest) o := by
  cases value using Property.induction with
  | scalar v => simp [resolve_scalar_eq hd] at h
  | removed => simp [resolve_removed_eq hd] at h
  | malformed condition whenTrue whenFalse arity hm _ =>
    rw [resolve_malformed_eq hd hm] at h
    cases h
    exact Or.inl (.flaw (.malformed (parts_eq_error_iff.mpr ⟨hm, rfl⟩)))
  | choice c t f _ =>
    rw [resolve_choice_eq hd] at h
    rcases fork_error h with rfl | ⟨b, s', hb, hs'⟩
    · exact Or.inl .variants
    · refine Or.inr ⟨.branch (some c) b, _, s', hb, fun σ hσ => ?_⟩
      obtain ⟨hs, rfl⟩ := hs' σ hσ
      exact ⟨hs, fun rest o hr => hr.choice⟩
  | list items _ =>
    rw [resolve_list_eq hd, map_eq_error] at h
    rcases runStages_error h determined_runItem with rfl | ⟨⟨item, i⟩, hi, s', hrun, hs'⟩
    · exact Or.inl .variants
    · rw [List.mk_mem_zipIdx_iff_getElem?] at hi
      exact Or.inr ⟨.index i, item, s', hrun, fun σ hσ =>
        ⟨reached_singleton.mp (hs' σ hσ), fun rest o hr => hr.item hi⟩⟩
  | object entries _ =>
    rw [resolve_object_eq hd, map_eq_error] at h
    rcases runStages_error h determined_runEntry with rfl | ⟨⟨key, w⟩, hk, s', hrun, hs'⟩
    · exact Or.inl .variants
    · exact Or.inr ⟨.key key, w, s', hrun, fun σ hσ =>
        ⟨reached_singleton.mp (hs' σ hσ), fun rest o hr => hr.entry hk⟩⟩

theorem exists_blamed_of_resolve (hd : depth ≤ focus.limits.maxDepth + 1)
    (h : resolve focus location depth s value = .error e) :
    ∃ σ steps o, s.ContainedIn σ ∧ Reaches σ value steps o ∧
      Blames focus location depth steps o false e := by
  obtain ⟨n, hn⟩ := Nat.exists_eq_add_of_le hd
  induction n generalizing location depth s value with
  | zero =>
    rw [resolve_beyond (by omega)] at h
    cases h
    exact ⟨s.completion, [], value, s.containedIn_completion, .here _ _, .nesting hn.symm⟩
  | succ n ih =>
    rcases resolve_error_step (by omega) h with hb | ⟨step, w, s', hw, hs'⟩
    · exact ⟨s.completion, [], value, s.containedIn_completion, .here _ _, hb⟩
    · obtain ⟨σ, rest, o, hσ, hr, hb⟩ := ih (by omega) hw (by omega)
      obtain ⟨hs, hreach⟩ := hs' σ hσ
      exact ⟨σ, step :: rest, o, hs, hreach rest o hr, hb.step⟩

theorem expandFrom_error_step (hd : depth ≤ focus.limits.maxDepth)
    (h : expandFrom focus location depth s value = .error e) :
    Blames focus location depth [] value true e ∨
    (∃ c b w s', expandFrom focus (location.branch b) (depth + 1) s' w = .error e ∧
      ∀ σ, s'.ContainedIn σ → s.ContainedIn σ ∧ ∀ rest o,
        Reaches σ w rest o → Reaches σ value (.branch (some c) b :: rest) o) ∨
    ∃ key w s', key ∈ focus.group ∧
      resolve focus (location.key key) (depth + 1) s' w = .error e ∧
      ∀ σ, s'.ContainedIn σ → s.ContainedIn σ ∧ ∀ rest o,
        Reaches σ w rest o → Reaches σ value (.key key :: rest) o := by
  cases value using Property.induction with
  | scalar v =>
    rw [expandFrom_scalar_eq hd] at h
    cases h
    exact Or.inl (.flaw (.scalar v rfl))
  | list items _ =>
    rw [expandFrom_list_eq hd] at h
    cases h
    exact Or.inl (.flaw (.list items rfl))
  | removed => simp [expandFrom_removed_eq hd] at h
  | malformed condition whenTrue whenFalse arity hm _ =>
    rw [expandFrom_malformed_eq hd hm] at h
    cases h
    exact Or.inl (.flaw (.malformed (parts_eq_error_iff.mpr ⟨hm, rfl⟩)))
  | choice c t f _ =>
    rw [expandFrom_choice_eq hd] at h
    rcases fork_error h with rfl | ⟨b, s', hb, hs'⟩
    · exact Or.inl .variants
    · refine Or.inr (Or.inl ⟨c, b, _, s', hb, fun σ hσ => ?_⟩)
      obtain ⟨hs, rfl⟩ := hs' σ hσ
      exact ⟨hs, fun rest o hr => hr.choice⟩
  | object entries _ =>
    rw [expandFrom_object_eq hd, map_eq_error] at h
    rcases runStages_error h determined_runGroup with rfl | ⟨⟨key, w⟩, hk, s', hrun, hs'⟩
    · exact Or.inl .variants
    · by_cases hg : key ∈ focus.group
      · simp only [runGroup, expandValue, hg, if_true] at hrun
        exact Or.inr (Or.inr ⟨key, w, s', hg, hrun, fun σ hσ =>
          ⟨reached_singleton.mp (hs' σ hσ), fun rest o hr => hr.entry hk⟩⟩)
      · simp [runGroup, expandValue, hg] at hrun

theorem exists_blamed_of_expandFrom (hd : depth ≤ focus.limits.maxDepth + 1)
    (h : expandFrom focus location depth s value = .error e) :
    ∃ σ steps o, s.ContainedIn σ ∧ MeetsUnder σ focus.group value steps o ∧
      Blames focus location depth steps o (Step.aroundObject steps) e := by
  obtain ⟨n, hn⟩ := Nat.exists_eq_add_of_le hd
  induction n generalizing location depth s value with
  | zero =>
    rw [expandFrom_beyond (by omega)] at h
    cases h
    exact ⟨s.completion, [], value, s.containedIn_completion, ⟨.here _ _, trivial⟩,
      .nesting hn.symm⟩
  | succ n ih =>
    rcases expandFrom_error_step (by omega) h with
      hb | ⟨c, b, w, s', hw, hs'⟩ | ⟨key, w, s', hg, hw, hs'⟩
    · exact ⟨s.completion, [], value, s.containedIn_completion, ⟨.here _ _, trivial⟩, hb⟩
    · obtain ⟨σ, rest, o, hσ, ⟨hr, hf⟩, hb⟩ := ih (by omega) hw (by omega)
      obtain ⟨hs, hreach⟩ := hs' σ hσ
      exact ⟨σ, .branch (some c) b :: rest, o, hs, ⟨hreach rest o hr, hf⟩, hb.step⟩
    · obtain ⟨σ, rest, o, hσ, hr, hb⟩ := exists_blamed_of_resolve (by omega) hw
      obtain ⟨hs, hreach⟩ := hs' σ hσ
      exact ⟨σ, .key key :: rest, o, hs, ⟨hreach rest o hr, hg⟩, hb.step⟩

theorem clear_of_expand {vs : List Variant} (h : value.expand location group limits = .ok vs)
    (hm : MeetsUnder σ group value steps o) :
    Clear limits 0 (Step.aroundObject steps) steps o :=
  clear_of_expandFrom h (Scenario.empty_containedIn σ) hm

theorem exists_blamed_of_expand (h : value.expand location group limits = .error e) :
    ∃ σ steps o, MeetsUnder σ group value steps o ∧
      Blames ⟨group, limits⟩ location 0 steps o (Step.aroundObject steps) e := by
  obtain ⟨σ, steps, o, -, hm, hb⟩ := exists_blamed_of_expandFrom (Nat.zero_le _) h
  exact ⟨σ, steps, o, hm, hb⟩

/-- Expansion fails for what an assignment comes to, and for nothing else. A value that no
assignment comes to, in a branch that a condition further up rules out or in a key outside the
group, cannot be what it fails for. -/
theorem expand_fails_where_met (value : Property) (location : Location) (group : List String)
    (limits : Limits) :
    (∀ vs, value.expand location group limits = .ok vs →
      ∀ σ steps o, MeetsUnder σ group value steps o →
        steps.length ≤ limits.maxDepth ∧
          ∀ flaw, ¬ Flawed (Step.aroundObject steps) o flaw) ∧
    (∀ place flaw, value.expand location group limits = .error (.structural place flaw) →
      ∃ σ steps o, MeetsUnder σ group value steps o ∧ place = location.follow steps ∧
        Flawed (Step.aroundObject steps) o flaw) ∧
    (∀ place g most, value.expand location group limits = .error (.limit place g most .nesting) →
      ∃ σ steps o, MeetsUnder σ group value steps o ∧ place = location.follow steps ∧
        steps.length = limits.maxDepth + 1) ∧
    ((∀ σ steps o, MeetsUnder σ group value steps o →
        steps.length ≤ limits.maxDepth ∧
          ∀ flaw, ¬ Flawed (Step.aroundObject steps) o flaw) →
      (∃ vs, value.expand location group limits = .ok vs) ∨
      ∃ place, value.expand location group limits =
        .error (.limit place group limits.maxVariants .variants)) := by
  refine ⟨?_, ?_, ?_, ?_⟩
  · intro vs h σ steps o hm
    have hclear := clear_of_expand h hm
    rwa [Clear, Nat.zero_add] at hclear
  · intro place flaw h
    obtain ⟨σ, steps, o, hm, hb⟩ := exists_blamed_of_expand h
    cases hb with
    | flaw hf => exact ⟨σ, steps, o, hm, rfl, hf⟩
  · intro place g most h
    obtain ⟨σ, steps, o, hm, hb⟩ := exists_blamed_of_expand h
    cases hb with
    | nesting hn =>
      rw [Nat.zero_add] at hn
      exact ⟨σ, steps, o, hm, rfl, hn⟩
  · intro hclear
    cases h : value.expand location group limits with
    | ok vs => exact Or.inl ⟨vs, rfl⟩
    | error e =>
      obtain ⟨σ, steps, o, hm, hb⟩ := exists_blamed_of_expand h
      obtain ⟨hd, hf⟩ := hclear σ steps o hm
      cases hb with
      | flaw hflaw => exact absurd hflaw (hf _)
      | nesting hn =>
        rw [Nat.zero_add] at hn
        simp only [hn] at hd
        omega
      | variants => exact Or.inr ⟨_, rfl⟩

/-- One malformed conditional stands in a branch that its own condition rules out, and another one
under a key outside the group. -/
def passedOver : Property :=
  choice "C"
    (.object [("A", choice "C" (.scalar .null) (.conditional (some "D") none none 1)),
      ("Other", .conditional none none none 0)])
    .removed

theorem passedOver_not_reported :
    ∃ vs, passedOver.expand .root ["A"] {} = .ok vs ∧
      ∀ σ steps o, MeetsUnder σ ["A"] passedOver steps o →
        steps.length ≤ 64 ∧ ∀ flaw, ¬ Flawed (Step.aroundObject steps) o flaw := by
  obtain ⟨vs, h⟩ : ∃ vs, passedOver.expand .root ["A"] {} = .ok vs := ⟨_, rfl⟩
  exact ⟨vs, h, (expand_fails_where_met passedOver .root ["A"] {}).1 vs h⟩

end Property

end ExactlyOne
