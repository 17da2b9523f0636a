import Mathlib.Data.Finset.Powerset
import Mathlib.Data.Finset.Dedup
import ExactlyOne.Proofs.Ample
import ExactlyOne.Proofs.Ceiling
import ExactlyOne.Proofs.Recording
import ExactlyOne.Proofs.Separation

/-!
# How many variants there are

The scenarios of two variants exclude each other, so the sets of conditions that they make true are
different sets. With k conditions there are at most as many variants as sets of them, whatever is
shared between keys and branches. If every variant fixes all conditions, each set is that of a
variant: so it is with conditionals that have a condition of their own and stand in no other one.
-/
namespace ExactlyOne

def Scenario.trueAmong (names : Finset String) (s : Scenario) : Finset String :=
  names.filter fun c => s.completion c = true

theorem Scenario.mem_trueAmong {names : Finset String} {s : Scenario} {c : String} :
    c ∈ s.trueAmong names ↔ c ∈ names ∧ s.completion c = true := Finset.mem_filter

theorem Scenario.mem_conditions_of_get? {s : Scenario} {c : String} {b : Bool}
    (h : s.get? c = some b) : c ∈ s.conditions := by
  by_contra hc
  rw [get?_eq_none_iff.mpr hc] at h
  cases h

namespace Property

variable {σ : Assignment} {group : List String} {location : Location} {limits : Limits}
  {value x : Property} {entries : List (String × Property)} {vs : List Variant}
  {names : Finset String} {c : String}

/-! ## Variants and sets of conditions -/

theorem nodup_trueAmong (h : value.expand location group limits = .ok vs)
    (hn : ∀ v ∈ vs, ∀ c ∈ v.scenario.conditions, c ∈ names) :
    (vs.map fun v => v.scenario.trueAmong names).Nodup := by
  rw [List.Nodup, List.pairwise_map]
  refine (expand_pairwise_excludes h).imp_of_mem ?_
  intro v w _ hw hex heq
  have hv : v.scenario.ContainedIn v.scenario.completion := v.scenario.containedIn_completion
  -- the completion of the first scenario would contain the second one too
  refine hex _ hv ?_
  intro c b hb
  have hc : c ∈ names := hn w hw c (Scenario.mem_conditions_of_get? hb)
  have hiff : v.scenario.completion c = true ↔ w.scenario.completion c = true := by
    have hmem := Finset.ext_iff.mp heq c
    simpa only [Scenario.mem_trueAmong, hc, true_and] using hmem
  have hcw : w.scenario.completion c = b := w.scenario.containedIn_completion c b hb
  rw [← hcw]
  exact Bool.eq_iff_iff.mpr hiff

def truthSets (names : Finset String) (vs : List Variant) : Finset (Finset String) :=
  (vs.map fun v => v.scenario.trueAmong names).toFinset

theorem mem_truthSets {A : Finset String} :
    A ∈ truthSets names vs ↔ ∃ v ∈ vs, v.scenario.trueAmong names = A := by
  simp [truthSets]

theorem card_truthSets (h : value.expand location group limits = .ok vs)
    (hn : ∀ v ∈ vs, ∀ c ∈ v.scenario.conditions, c ∈ names) :
    (truthSets names vs).card = vs.length := by
  rw [truthSets, List.toFinset_card_of_nodup (nodup_trueAmong h hn), List.length_map]

theorem truthSets_subset (names : Finset String) (vs : List Variant) :
    truthSets names vs ⊆ names.powerset := by
  intro A hA
  obtain ⟨v, -, rfl⟩ := mem_truthSets.mp hA
  exact Finset.mem_powerset.mpr (Finset.filter_subset _ _)

theorem length_le_two_pow (h : value.expand location group limits = .ok vs)
    (hn : ∀ v ∈ vs, ∀ c ∈ v.scenario.conditions, c ∈ names) : vs.length ≤ 2 ^ names.card := by
  rw [← card_truthSets h hn, ← Finset.card_powerset]
  exact Finset.card_le_card (truthSets_subset names vs)

/-- Where every assignment has a variant and that fixes all of the conditions, each set of them is
the one of a variant. -/
theorem length_eq_two_pow (h : value.expand location group limits = .ok vs)
    (hn : ∀ v ∈ vs, ∀ c ∈ v.scenario.conditions, c ∈ names)
    (hall : ∀ σ : Assignment, ∃ v ∈ vs, ∀ c ∈ names, v.scenario.get? c = some (σ c)) :
    vs.length = 2 ^ names.card := by
  have hpower : truthSets names vs = names.powerset := by
    apply (truthSets_subset names vs).antisymm
    intro A hA
    obtain ⟨v, hv, hfixed⟩ := hall fun c => decide (c ∈ A)
    refine mem_truthSets.mpr ⟨v, hv, ?_⟩
    ext c
    rw [Scenario.mem_trueAmong]
    constructor
    · rintro ⟨hc, htrue⟩
      simpa [Scenario.completion, hfixed c hc] using htrue
    · intro hc
      have hname : c ∈ names := Finset.mem_powerset.mp hA hc
      exact ⟨hname, by simp [Scenario.completion, hfixed c hname, hc]⟩
  rw [← card_truthSets h hn, hpower, Finset.card_powerset]

/-! ## The conditions that occur -/

mutual

/-- The condition of every well-formed conditional in a value, at any depth and in both branches. -/
def conditionsIn : Property → List String
  | .list items => conditionsInItems items
  | .object entries => conditionsInEntries entries
  | .conditional (some c) (some t) (some f) 3 => c :: (conditionsIn t ++ conditionsIn f)
  | _ => []

def conditionsInItems : List Property → List String
  | [] => []
  | item :: rest => conditionsIn item ++ conditionsInItems rest

def conditionsInEntries : List (String × Property) → List String
  | [] => []
  | (_, value) :: rest => conditionsIn value ++ conditionsInEntries rest

end

/-- A condition occurs around an object, or there in a value of the group. An assignment says which
object is meant. -/
def OccursFor (group : List String) (value : Property) (c : String) : Prop :=
  ∃ σ, c ∈ chainConditions σ value ∨ ∃ entries, selected σ value = .object entries ∧
    c ∈ conditionsInEntries (groupEntries group entries)

theorem conditionsIn_choice (c : String) (t f : Property) :
    conditionsIn (choice c t f) = c :: (conditionsIn t ++ conditionsIn f) := by
  rw [choice, conditionsIn]

theorem conditionsIn_malformed {condition : Option String} {whenTrue whenFalse : Option Property}
    {arity : Nat} (hm : Malformed condition whenTrue whenFalse arity) :
    conditionsIn (.conditional condition whenTrue whenFalse arity) = [] := by
  rw [conditionsIn]
  · simp
  · simp
  · exact hm.ne_choice

theorem mem_conditionsInItems {items : List Property} :
    c ∈ conditionsInItems items ↔ ∃ item ∈ items, c ∈ conditionsIn item := by
  induction items with
  | nil => simp [conditionsInItems]
  | cons item rest ih => simp [conditionsInItems, ih]

theorem mem_conditionsInEntries :
    c ∈ conditionsInEntries entries ↔ ∃ entry ∈ entries, c ∈ conditionsIn entry.2 := by
  induction entries with
  | nil => simp [conditionsInEntries]
  | cons entry rest ih =>
    simp only [conditionsInEntries, List.mem_append, ih, List.mem_cons, or_and_right, exists_or,
      exists_eq_left]

theorem mem_conditionsIn_of_met (h : c ∈ conditionsMet σ x) : c ∈ conditionsIn x := by
  induction x using Property.induction with
  | scalar v => simp [conditionsMet] at h
  | removed => simp [conditionsMet] at h
  | malformed condition whenTrue whenFalse arity hm _ => simp [conditionsMet_malformed hm] at h
  | choice d t f ih =>
    rw [conditionsMet_choice] at h
    rw [conditionsIn_choice]
    rcases List.mem_cons.mp h with rfl | h
    · exact List.mem_cons_self
    · have hbranch := ih (σ d) h
      apply List.mem_cons_of_mem
      apply List.mem_append.mpr
      cases hd : σ d with
      | true => exact Or.inl (by rwa [hd] at hbranch)
      | false => exact Or.inr (by rwa [hd] at hbranch)
  | list items ih =>
    rw [conditionsMet] at h
    rw [conditionsIn]
    obtain ⟨item, hi, hc⟩ := mem_conditionsMetItems.mp h
    exact mem_conditionsInItems.mpr ⟨item, hi, ih item hi hc⟩
  | object entries ih =>
    rw [conditionsMet] at h
    rw [conditionsIn]
    obtain ⟨entry, he, hc⟩ := mem_conditionsMetEntries.mp h
    exact mem_conditionsInEntries.mpr ⟨entry, he, ih entry he hc⟩

theorem occursFor_of_mem_conditions (h : value.expand location group limits = .ok vs)
    {v : Variant} (hv : v ∈ vs) (hc : c ∈ v.scenario.conditions) : OccursFor group value c := by
  have hσ : v.scenario.ContainedIn v.scenario.completion := v.scenario.containedIn_completion
  obtain ⟨entries, ho, -, hs, -⟩ := exists_selected_of_mem h hv hσ
  rw [hs, Scenario.conditions_record_empty, List.mem_eraseDups, conditionsOfVariant, ho] at hc
  refine ⟨v.scenario.completion, ?_⟩
  rcases List.mem_append.mp hc with hc | hc
  · exact Or.inl hc
  · obtain ⟨entry, he, hmet⟩ := mem_conditionsMetEntries.mp hc
    exact Or.inr ⟨entries, ho,
      mem_conditionsInEntries.mpr ⟨entry, he, mem_conditionsIn_of_met hmet⟩⟩

/-! ## Conditionals on their own -/

/-- No conditional stands in a branch of another one. -/
def Unnested (value : Property) : Prop :=
  ∀ steps condition whenTrue whenFalse arity,
    Leads value steps (.conditional condition whenTrue whenFalse arity) →
    ∀ step ∈ steps, step.isBranch = false

theorem unnested_scalar (v : Json) : Unnested (.scalar v) := by
  intro steps condition whenTrue whenFalse arity hl
  cases hl

theorem unnested_list_iff {items : List Property} :
    Unnested (.list items) ↔ ∀ item ∈ items, Unnested item := by
  constructor
  · intro h item hi steps condition whenTrue whenFalse arity hl
    obtain ⟨i, hi⟩ := List.mem_iff_getElem?.mp hi
    exact (List.forall_mem_cons.mp (h _ _ _ _ _ (.index hi hl))).2
  · intro h steps condition whenTrue whenFalse arity hl
    cases hl with
    | index hi hl =>
      exact List.forall_mem_cons.mpr ⟨rfl, h _ (List.mem_of_getElem? hi) _ _ _ _ _ hl⟩

theorem unnested_object_iff :
    Unnested (.object entries) ↔ ∀ entry ∈ entries, Unnested entry.2 := by
  constructor
  · intro h entry he steps condition whenTrue whenFalse arity hl
    exact (List.forall_mem_cons.mp (h _ _ _ _ _ (.key he hl))).2
  · intro h steps condition whenTrue whenFalse arity hl
    cases hl with
    | key he hl => exact List.forall_mem_cons.mpr ⟨rfl, h _ he _ _ _ _ _ hl⟩

theorem unnested_choice_iff {t f : Property} :
    Unnested (choice c t f) ↔ ∀ b steps condition whenTrue whenFalse arity,
      ¬ Leads (branchFor b t f) steps (.conditional condition whenTrue whenFalse arity) := by
  constructor
  · intro h b steps condition whenTrue whenFalse arity hl
    have hfirst := h _ _ _ _ _ hl.choice _ List.mem_cons_self
    simp [Step.isBranch] at hfirst
  · intro h steps condition whenTrue whenFalse arity hl
    cases hl with
    | here => simp
    | @branch _ _ _ _ outcome w _ _ hb hl =>
      obtain rfl : branchFor outcome t f = w := Option.some.inj ((branch?_some _ t f).symm.trans hb)
      exact absurd hl (h outcome _ _ _ _ _)

theorem exists_leads_of_mem_conditionsIn (h : c ∈ conditionsIn x) :
    ∃ steps t f, Leads x steps (choice c t f) := by
  induction x using Property.induction with
  | scalar v => simp [conditionsIn] at h
  | removed => simp [conditionsIn] at h
  | malformed condition whenTrue whenFalse arity hm _ => simp [conditionsIn_malformed hm] at h
  | choice d t f ih =>
    rw [conditionsIn_choice] at h
    rcases List.mem_cons.mp h with rfl | h
    · exact ⟨[], t, f, .here _⟩
    · rcases List.mem_append.mp h with h | h
      · obtain ⟨steps, t', f', hl⟩ := ih true h
        exact ⟨_, t', f', hl.choice⟩
      · obtain ⟨steps, t', f', hl⟩ := ih false h
        exact ⟨_, t', f', hl.choice⟩
  | list items ih =>
    rw [conditionsIn] at h
    obtain ⟨item, hi, hc⟩ := mem_conditionsInItems.mp h
    obtain ⟨steps, t, f, hl⟩ := ih item hi hc
    obtain ⟨i, hi⟩ := List.mem_iff_getElem?.mp hi
    exact ⟨_, t, f, .index hi hl⟩
  | object entries ih =>
    rw [conditionsIn] at h
    obtain ⟨entry, he, hc⟩ := mem_conditionsInEntries.mp h
    obtain ⟨steps, t, f, hl⟩ := ih entry he hc
    exact ⟨_, t, f, .key he hl⟩

theorem Unnested.conditionsIn_branch {t f : Property} (h : Unnested (choice c t f)) (b : Bool) :
    conditionsIn (branchFor b t f) = [] := by
  apply List.eq_nil_iff_forall_not_mem.mpr
  intro d hd
  obtain ⟨steps, t', f', hl⟩ := exists_leads_of_mem_conditionsIn hd
  exact unnested_choice_iff.mp h b _ _ _ _ _ hl

theorem conditionsMetItems_eq {items : List Property}
    (h : ∀ item ∈ items, conditionsMet σ item = conditionsIn item) :
    conditionsMetItems σ items = conditionsInItems items := by
  induction items with
  | nil => rfl
  | cons item rest ih =>
    obtain ⟨hi, hr⟩ := List.forall_mem_cons.mp h
    rw [conditionsMetItems, conditionsInItems, hi, ih hr]

theorem conditionsMetEntries_eq
    (h : ∀ entry ∈ entries, conditionsMet σ entry.2 = conditionsIn entry.2) :
    conditionsMetEntries σ entries = conditionsInEntries entries := by
  induction entries with
  | nil => rfl
  | cons entry rest ih =>
    obtain ⟨he, hr⟩ := List.forall_mem_cons.mp h
    rw [conditionsMetEntries, conditionsInEntries, he, ih hr]

theorem conditionsMet_eq (hw : x.WellFormed) (hu : x.Unnested) :
    conditionsMet σ x = conditionsIn x := by
  induction x using Property.induction with
  | scalar v => rw [conditionsMet, conditionsIn] <;> simp
  | removed => rw [conditionsMet, conditionsIn] <;> simp
  | malformed condition whenTrue whenFalse arity hm _ =>
    rw [conditionsMet_malformed hm, conditionsIn_malformed hm]
  | choice c t f _ =>
    have hmet : conditionsMet σ (branchFor (σ c) t f) = [] := by
      apply List.eq_nil_iff_forall_not_mem.mpr
      intro d hd
      have hin := mem_conditionsIn_of_met hd
      simp [hu.conditionsIn_branch] at hin
    have ht : conditionsIn t = [] := hu.conditionsIn_branch true
    have hf : conditionsIn f = [] := hu.conditionsIn_branch false
    rw [conditionsMet_choice, conditionsIn_choice, hmet, ht, hf, List.append_nil]
  | list items ih =>
    rw [conditionsMet, conditionsIn]
    apply conditionsMetItems_eq
    intro item hi
    exact ih item hi (hw.item hi) (unnested_list_iff.mp hu item hi)
  | object entries ih =>
    rw [conditionsMet, conditionsIn]
    apply conditionsMetEntries_eq
    intro entry he
    exact ih entry he (hw.entry he) (unnested_object_iff.mp hu entry he)

/-- The values of a group have well-formed conditionals only, each with a condition of its own and
none in a branch of another one. -/
structure Independent (group : List String) (entries : List (String × Property)) : Prop where
  wellFormed : ∀ entry ∈ groupEntries group entries, entry.2.WellFormed
  unnested : ∀ entry ∈ groupEntries group entries, entry.2.Unnested
  distinct : (conditionsInEntries (groupEntries group entries)).Nodup

namespace Independent

theorem conditionsOfVariant_eq (h : Independent group entries) (σ : Assignment) :
    conditionsOfVariant σ group (.object entries) =
      conditionsInEntries (groupEntries group entries) := by
  apply conditionsMetEntries_eq
  intro entry he
  exact conditionsMet_eq (h.wellFormed entry he) (h.unnested entry he)

theorem not_flawed (h : Independent group entries) {steps : List Step} {o : Property}
    (hm : MeetsUnder σ group (.object entries) steps o) (flaw : Flaw) :
    ¬ Flawed (Step.aroundObject steps) o flaw := by
  intro hf
  obtain ⟨hr, hfocus⟩ := hm
  rcases hr.object_cases with ⟨-, rfl⟩ | ⟨key, x, rest, hx, rfl, hrest⟩
  · cases hf
  · have hentry : (key, x) ∈ groupEntries group entries :=
      List.mem_filter.mpr ⟨hx, decide_eq_true hfocus⟩
    have hw : o.WellFormed := (h.wellFormed _ hentry).of_leads hrest.leads
    cases hf with
    | malformed hp => exact hw.parts_ne_error hp
    | scalar v ha => simp [Step.aroundObject, Step.isBranch] at ha
    | list items ha => simp [Step.aroundObject, Step.isBranch] at ha

theorem conditions_eq (h : Independent group entries)
    (hv : (object entries).expand location group limits = .ok vs) {v : Variant} (hm : v ∈ vs) :
    v.scenario.conditions = conditionsInEntries (groupEntries group entries) := by
  have hσ : v.scenario.ContainedIn v.scenario.completion := v.scenario.containedIn_completion
  obtain ⟨-, -, -, hs, -⟩ := exists_selected_of_mem hv hm hσ
  rw [hs, Scenario.conditions_record_empty, h.conditionsOfVariant_eq]
  exact Scenario.eraseDups_of_nodup h.distinct

theorem length_eq (h : Independent group entries)
    (hv : (object entries).expand location group limits = .ok vs) :
    vs.length = 2 ^ (conditionsInEntries (groupEntries group entries)).length := by
  rw [← List.toFinset_card_of_nodup h.distinct]
  apply length_eq_two_pow hv
  · intro v hm c hc
    rw [h.conditions_eq hv hm] at hc
    exact List.mem_toFinset.mpr hc
  · intro σ
    obtain ⟨v, hu⟩ : ∃ v, variantUnder? σ group .empty location (.object entries) = some v :=
      ⟨_, variantUnder?_object rfl⟩
    obtain ⟨hm, hσ⟩ := mem_of_variantUnder? hv hu
    refine ⟨v, hm, ?_⟩
    intro c hc
    apply get?_of_mem_conditions hv hm hσ
    rw [h.conditionsOfVariant_eq]
    exact List.mem_toFinset.mp hc

theorem exists_expand (h : Independent group entries) (location : Location)
    (hlen : 2 ^ (conditionsInEntries (groupEntries group entries)).length ≤ limits.maxVariants)
    (hdepth : ∀ σ steps o, MeetsUnder σ group (.object entries) steps o →
      steps.length ≤ limits.maxDepth) :
    ∃ vs, (object entries).expand location group limits = .ok vs := by
  obtain ⟨large, vs, hv⟩ : ∃ large vs, (object entries).expand location group large = .ok vs :=
    exists_expand_of_flawless fun _ _ _ hm => h.not_flawed hm
  rw [← h.length_eq hv] at hlen
  exact ⟨vs, expand_of_within hv hlen hdepth⟩

end Independent

/-- With k conditions that occur there are at most 2^k variants. With n conditionals on their own
there are just 2^n if the limits allow them, and no two of their scenarios fix the same outcomes. -/
theorem expand_counting_law (location : Location) (group : List String) (limits : Limits) :
    (∀ value vs (names : Finset String), value.expand location group limits = .ok vs →
      (∀ c, OccursFor group value c → c ∈ names) → vs.length ≤ 2 ^ names.card) ∧
    (∀ entries n, Independent group entries →
      (conditionsInEntries (groupEntries group entries)).length = n →
      2 ^ n ≤ limits.maxVariants →
      (∀ σ steps o, MeetsUnder σ group (.object entries) steps o →
        steps.length ≤ limits.maxDepth) →
      ∃ vs, (object entries).expand location group limits = .ok vs ∧ vs.length = 2 ^ n ∧
        (∀ v ∈ vs, v.scenario.size = n ∧ v.scenario.conditions.Nodup) ∧
        vs.Pairwise fun v w => ¬ v.scenario.sameOutcomes w.scenario = true) := by
  constructor
  · intro value vs names h hnames
    apply length_le_two_pow h
    intro v hv c hc
    exact hnames c (occursFor_of_mem_conditions h hv hc)
  · rintro entries n h rfl hlen hdepth
    obtain ⟨vs, hv⟩ := h.exists_expand location hlen hdepth
    refine ⟨vs, hv, h.length_eq hv, ?_, ?_⟩
    · intro v hm
      have hc := h.conditions_eq hv hm
      have hsize : v.scenario.size = v.scenario.conditions.length := by
        simp [Scenario.size, Scenario.conditions, Entries.keys]
      rw [hsize, hc]
      exact ⟨rfl, h.distinct⟩
    · refine (expand_pairwise_excludes hv).imp ?_
      intro v w hex
      exact hex.not_sameOutcomes

/-- Each key of the group has a condition of its own, and the one of the second key is in a list.
The third key is outside the group. -/
def ownConditions : List (String × Property) :=
  [("A", choice "One" (.scalar .null) .removed),
    ("B", .list [.scalar .null, choice "Two" .removed (.scalar .null)]),
    ("Other", choice "One" (choice "Three" .removed .removed) .removed)]

theorem ownConditions_independent : Independent ["A", "B"] ownConditions := by
  have hgroup : groupEntries ["A", "B"] ownConditions =
      [("A", choice "One" (.scalar .null) .removed),
        ("B", .list [.scalar .null, choice "Two" .removed (.scalar .null)])] := rfl
  have hone : Unnested (choice "One" (.scalar .null) .removed) := by
    apply unnested_choice_iff.mpr
    intro b steps condition whenTrue whenFalse arity hl
    cases b <;> cases hl
  have htwo : Unnested (choice "Two" .removed (.scalar .null)) := by
    apply unnested_choice_iff.mpr
    intro b steps condition whenTrue whenFalse arity hl
    cases b <;> cases hl
  constructor
  · simp [hgroup, choice, WellFormed, WellFormedItems, WellFormedBranch, condition?, parts]
  · simp [hgroup, hone, htwo, unnested_list_iff, unnested_scalar]
  · decide

/-- The keys of `overlap` share one of two conditions, and the bound is reached all the same. -/
theorem ownConditions_counted :
    (∃ vs, overlap.expand .root ["A", "B"] {} = .ok vs ∧
      (∀ c, OccursFor ["A", "B"] overlap c → c ∈ ({"One", "Two"} : Finset String)) ∧
      vs.length ≤ 2 ^ ({"One", "Two"} : Finset String).card ∧ vs.length = 4) ∧
    Independent ["A", "B"] ownConditions ∧
    (conditionsInEntries (groupEntries ["A", "B"] ownConditions)).length = 2 ∧ 2 ^ 2 ≤ 4 ∧
    (∀ σ steps o, MeetsUnder σ ["A", "B"] (.object ownConditions) steps o → steps.length ≤ 3) ∧
    ∃ vs, (object ownConditions).expand .root ["A", "B"] ⟨4, 3⟩ = .ok vs ∧ vs.length = 2 ^ 2 ∧
      (∀ v ∈ vs, v.scenario.size = 2 ∧ v.scenario.conditions.Nodup) ∧
      vs.Pairwise fun v w => ¬ v.scenario.sameOutcomes w.scenario = true := by
  constructor
  · obtain ⟨vs, h, hlen⟩ : ∃ vs, overlap.expand .root ["A", "B"] {} = .ok vs ∧ vs.length = 4 :=
      ⟨_, rfl, rfl⟩
    have hnames : ∀ c, OccursFor ["A", "B"] overlap c → c ∈ ({"One", "Two"} : Finset String) := by
      rintro c ⟨σ, hc | ⟨entries, ho, hc⟩⟩
      · simp [overlap, chainConditions] at hc
      · obtain rfl := object.inj ho
        have hin : c ∈ ["One", "Two", "One"] := hc
        simp only [List.mem_cons, List.not_mem_nil, or_false] at hin
        rcases hin with rfl | rfl | rfl <;> decide
    exact ⟨vs, h, hnames, (expand_counting_law .root ["A", "B"] {}).1 _ vs _ h hnames, hlen⟩
  · have hdepth : ∀ σ steps o, MeetsUnder σ ["A", "B"] (.object ownConditions) steps o →
        steps.length ≤ 3 := by
      obtain ⟨vs, h⟩ : ∃ vs, (object ownConditions).expand .root ["A", "B"] ⟨4096, 3⟩ = .ok vs :=
        ⟨_, rfl⟩
      intro σ steps o hm
      have hclear : 0 + steps.length ≤ 3 := (clear_of_expand h hm).1
      omega
    have hfour : 2 ^ 2 ≤ 4 := by decide
    exact ⟨ownConditions_independent, rfl, hfour, hdepth,
      (expand_counting_law .root ["A", "B"] ⟨4, 3⟩).2 _ 2 ownConditions_independent rfl hfour
        hdepth⟩

end Property

end ExactlyOne
