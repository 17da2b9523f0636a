import ExactlyOne.Proofs.Traversal

/-!
# The number of results only grows

No stage and no fork makes results fewer. So an expansion passes its limit of variants on the way
only if it would pass it in the end, and what it gives under some limits it gives under all others
that do not stop it. It keeps within its limit, but for the one variant of an object without keys,
which is never counted.
-/
namespace ExactlyOne

/-- Of a result that other limits allow, a run gives the same, or it stops: it goes too deep, or
the result is longer than the limit. -/
inductive GivesOrStops {β : Type} (most : Nat) (xs : List β) : Except Obstacle (List β) → Prop where
  | gives : GivesOrStops most xs (.ok xs)
  | tooDeep {place group depth} : GivesOrStops most xs (.error (.limit place group depth .nesting))
  | tooMany {place group} : most < xs.length →
      GivesOrStops most xs (.error (.limit place group most .variants))

namespace GivesOrStops

variable {α β : Type} {most : Nat} {xs : List α} {x : Except Obstacle (List α)}

theorem bind {ys : List β} {k : List α → Except Obstacle (List β)} (h : GivesOrStops most xs x)
    (hlen : xs.length ≤ ys.length) (hk : GivesOrStops most ys (k xs)) :
    GivesOrStops most ys (x >>= k) := by
  cases h with
  | gives => exact hk
  | tooDeep => exact .tooDeep
  | tooMany hlt => exact .tooMany (Nat.lt_of_lt_of_le hlt hlen)

theorem map (h : GivesOrStops most xs x) (f : α → β) :
    GivesOrStops most (xs.map f) (x.map (List.map f)) := by
  cases h with
  | gives => exact .gives
  | tooDeep => exact .tooDeep
  | tooMany hlt => exact .tooMany (by simpa using hlt)

theorem bounded (focus : Focus) (location : Location) (xs : List α) :
    GivesOrStops focus.limits.maxVariants xs (focus.bounded location xs) := by
  unfold Focus.bounded
  by_cases h : focus.limits.maxVariants < xs.length
  · rw [if_pos h]
    exact .tooMany h
  · rw [if_neg h]
    exact .gives

end GivesOrStops

namespace Property

variable {α γ : Type} {focus : Focus} {location : Location} {depth : Nat} {s : Scenario}

/-! ## Stages do not lose results -/

section Stages

variable {run : γ → Scenario → Except Obstacle (List Resolution)} {add : γ → Property → α}
  {partials out : List (Scenario × List α)}

theorem Determined.ne_nil (hd : Determined run) {x : γ} {rs : List Resolution}
    (h : run x s = .ok rs) : rs ≠ [] := by
  obtain ⟨outcome, ho⟩ := hd x s.completion
  have hu := ho s rs h
  rw [if_pos s.containedIn_completion] at hu
  rintro rfl
  simp [under] at hu

theorem Determined.length_le (hd : Determined run) {x : γ} {item : Property → α}
    (h : appendEach (run x) item partials = .ok out) : partials.length ≤ out.length := by
  induction partials generalizing out with
  | nil => simp
  | cons p rest ih =>
    obtain ⟨rs, later, hrs, hl, rfl⟩ := appendEach_cons_eq_ok.mp h
    have hpos := List.length_pos_iff.mpr (hd.ne_nil hrs)
    have hrest := ih hl
    simp only [List.length_cons, List.length_append, List.length_map]
    omega

theorem length_le_of_runStages (hd : Determined run) {xs : List γ}
    (h : runStages focus location run add xs partials = .ok out) :
    partials.length ≤ out.length := by
  induction xs generalizing partials with
  | nil =>
    obtain rfl : partials = out := Except.ok.inj h
    exact Nat.le_refl _
  | cons x rest ih =>
    obtain ⟨next, hn, -, h⟩ := bind_bounded_eq_ok h
    exact Nat.le_trans (hd.length_le hn) (ih h)

theorem length_le_of_appendEach {step : Scenario → Except Obstacle (List Resolution)}
    {item : Property → α} (h : appendEach step item partials = .ok out) {p : Scenario × List α}
    (hp : p ∈ partials) {rs : List Resolution} (hrs : step p.1 = .ok rs) :
    rs.length ≤ out.length := by
  induction partials generalizing out with
  | nil => simp at hp
  | cons first rest ih =>
    obtain ⟨first', later, hf, hl, rfl⟩ := appendEach_cons_eq_ok.mp h
    rw [List.length_append, List.length_map]
    rcases List.mem_cons.mp hp with rfl | hp
    · obtain rfl : first' = rs := Except.ok.inj (hf.symm.trans hrs)
      exact Nat.le_add_right ..
    · have hrest := ih hl hp
      omega

theorem length_le_of_stages_before (hd : Determined run) {before after : List γ}
    {reached : List (Scenario × List α)}
    (h : runStages focus location run add (before ++ after) partials = .ok out)
    (hb : runStages focus location run add before partials = .ok reached) :
    reached.length ≤ out.length := by
  rw [runStages_append, hb] at h
  exact length_le_of_runStages hd h

theorem exists_run_length_le (hd : Determined run) {before after : List γ} {x : γ}
    {reached : List (Scenario × List α)}
    (h : runStages focus location run add (before ++ x :: after) partials = .ok out)
    (hb : runStages focus location run add before partials = .ok reached)
    {p : Scenario × List α} (hp : p ∈ reached) :
    ∃ rs, run x p.1 = .ok rs ∧ rs.length ≤ out.length := by
  rw [runStages_append, hb] at h
  obtain ⟨next, hn, -, hrest⟩ := bind_bounded_eq_ok h
  obtain ⟨rs, hrs⟩ := exists_run_of_appendEach hn hp
  have hstep := length_le_of_appendEach hn hp hrs
  have hlater := length_le_of_runStages hd hrest
  exact ⟨rs, hrs, Nat.le_trans hstep hlater⟩

theorem runStages_length_le {xs : List γ}
    (h : runStages focus location run add xs partials = .ok out)
    (hp : partials.length ≤ focus.limits.maxVariants ∨ xs ≠ []) :
    out.length ≤ focus.limits.maxVariants := by
  induction xs generalizing partials with
  | nil =>
    obtain rfl : partials = out := Except.ok.inj h
    exact hp.resolve_right fun hne => hne rfl
  | cons x rest ih =>
    obtain ⟨next, -, hlen, h⟩ := bind_bounded_eq_ok h
    exact ih h (Or.inl hlen)

theorem appendEach_givesOrStops {most : Nat}
    {step step' : Scenario → Except Obstacle (List Resolution)} {item : Property → α}
    (hstep : ∀ s rs, step' s = .ok rs → GivesOrStops most rs (step s))
    (h : appendEach step' item partials = .ok out) :
    GivesOrStops most out (appendEach step item partials) := by
  induction partials generalizing out with
  | nil =>
    obtain rfl : [] = out := Except.ok.inj h
    exact .gives
  | cons p rest ih =>
    obtain ⟨rs, later, hrs, hl, rfl⟩ := appendEach_cons_eq_ok.mp h
    refine (hstep p.1 rs hrs).bind ?_ ((ih hl).bind ?_ .gives) <;> simp

theorem runStages_givesOrStops (focus other : Focus)
    {run' : γ → Scenario → Except Obstacle (List Resolution)} (hd : Determined run') {xs : List γ}
    (hrun : ∀ x ∈ xs, ∀ s rs, run' x s = .ok rs →
      GivesOrStops focus.limits.maxVariants rs (run x s))
    (h : runStages other location run' add xs partials = .ok out) :
    GivesOrStops focus.limits.maxVariants out
      (runStages focus location run add xs partials) := by
  induction xs generalizing partials with
  | nil =>
    obtain rfl : partials = out := Except.ok.inj h
    exact .gives
  | cons x rest ih =>
    obtain ⟨next, hn, -, h⟩ := bind_bounded_eq_ok h
    have hlen := length_le_of_runStages hd h
    have hnext := appendEach_givesOrStops (hrun x List.mem_cons_self) hn
    have hrest := ih (fun y hy => hrun y (List.mem_cons_of_mem _ hy)) h
    exact hnext.bind hlen ((GivesOrStops.bounded focus location next).bind hlen hrest)

theorem exists_branch_length_le {β : Type} {c : String}
    {run : Bool → Scenario → Except Obstacle (List β)} {xs : List β}
    (h : fork focus location c s run = .ok xs) {b : Bool} (hb : s.get? c ≠ some !b) :
    ∃ ys, run b (s.assign c b) = .ok ys ∧ ys.length ≤ xs.length := by
  unfold fork at h
  cases hc : s.get? c with
  | some outcome =>
    rw [hc] at h hb
    obtain rfl : outcome = b := by simpa using hb
    rw [Scenario.assign_eq_self hc]
    exact ⟨xs, h, Nat.le_refl _⟩
  | none =>
    rw [hc] at h
    obtain ⟨yes, hy, h⟩ := bind_eq_ok.mp h
    obtain ⟨no, hn, h⟩ := bind_eq_ok.mp h
    obtain ⟨-, rfl⟩ := bounded_eq_ok.mp h
    rw [List.length_append]
    cases b with
    | true => exact ⟨yes, hy, Nat.le_add_right ..⟩
    | false => exact ⟨no, hn, Nat.le_add_left ..⟩

theorem fork_givesOrStops {β : Type} (focus other : Focus) {c : String}
    {run run' : Bool → Scenario → Except Obstacle (List β)} {xs : List β}
    (hrun : ∀ b s ys, run' b s = .ok ys → GivesOrStops focus.limits.maxVariants ys (run b s))
    (h : fork other location c s run' = .ok xs) :
    GivesOrStops focus.limits.maxVariants xs (fork focus location c s run) := by
  unfold fork at h ⊢
  cases hc : s.get? c with
  | some outcome =>
    rw [hc] at h
    exact hrun outcome s xs h
  | none =>
    rw [hc] at h
    obtain ⟨yes, hy, h⟩ := bind_eq_ok.mp h
    obtain ⟨no, hn, h⟩ := bind_eq_ok.mp h
    obtain ⟨-, rfl⟩ := bounded_eq_ok.mp h
    refine (hrun true _ yes hy).bind ?_ ((hrun false _ no hn).bind ?_ (.bounded ..)) <;> simp

end Stages

/-! ## Other limits -/

variable {group : List String} {limits other : Limits}

theorem resolve_givesOrStops (value : Property) {rs : List Resolution}
    (h : resolve ⟨group, other⟩ location depth s value = .ok rs) :
    GivesOrStops limits.maxVariants rs (resolve ⟨group, limits⟩ location depth s value) := by
  induction value using Property.induction generalizing location depth s rs with
  | scalar v =>
    obtain rfl := resolve_scalar h
    refine resolve_of_depth .tooDeep fun hd => ?_
    rw [resolve_scalar_eq hd]
    exact .gives
  | removed =>
    obtain rfl := resolve_removed h
    refine resolve_of_depth .tooDeep fun hd => ?_
    rw [resolve_removed_eq hd]
    exact .gives
  | malformed condition whenTrue whenFalse arity hm _ => exact absurd h (resolve_malformed hm)
  | choice c t f ih =>
    rw [resolve_choice_eq (resolve_eq_ok_depth h)] at h
    refine resolve_of_depth .tooDeep fun hd => ?_
    rw [resolve_choice_eq hd]
    exact fork_givesOrStops ⟨group, limits⟩ _ (fun b s ys hb => ih b hb) h
  | list items ih =>
    obtain ⟨partials, hp, rfl⟩ := resolve_list h
    rw [resolveItems_eq_runStages] at hp
    refine resolve_of_depth .tooDeep fun hd => ?_
    rw [resolve_list_eq hd]
    exact (runStages_givesOrStops ⟨group, limits⟩ _ determined_runItem (fun item hi s rs hrs =>
      ih item.1 (List.fst_mem_of_mem_zipIdx hi) hrs) hp).map _
  | object entries ih =>
    obtain ⟨partials, hp, rfl⟩ := resolve_object h
    rw [resolveEntries_eq_runStages] at hp
    refine resolve_of_depth .tooDeep fun hd => ?_
    rw [resolve_object_eq hd]
    exact (runStages_givesOrStops ⟨group, limits⟩ _ determined_runEntry (fun entry he s rs hrs =>
      ih entry he hrs) hp).map _

theorem expandValue_givesOrStops {key : String} {value : Property} {rs : List Resolution}
    (h : expandValue ⟨group, other⟩ location depth key value s = .ok rs) :
    GivesOrStops limits.maxVariants rs
      (expandValue ⟨group, limits⟩ location depth key value s) := by
  unfold expandValue at h ⊢
  by_cases hg : key ∈ group
  · simp only [hg, if_true] at h ⊢
    exact resolve_givesOrStops value h
  · simp only [hg, if_false, Except.ok.injEq] at h ⊢
    exact h ▸ .gives

theorem expandFrom_givesOrStops (value : Property) {vs : List Variant}
    (h : expandFrom ⟨group, other⟩ location depth s value = .ok vs) :
    GivesOrStops limits.maxVariants vs (expandFrom ⟨group, limits⟩ location depth s value) := by
  induction value using Property.induction generalizing location depth s vs with
  | scalar v => exact absurd h expandFrom_scalar
  | list items _ => exact absurd h expandFrom_list
  | malformed condition whenTrue whenFalse arity hm _ => exact absurd h (expandFrom_malformed hm)
  | removed =>
    obtain rfl := expandFrom_removed h
    refine expandFrom_of_depth .tooDeep fun hd => ?_
    rw [expandFrom_removed_eq hd]
    exact .gives
  | choice c t f ih =>
    rw [expandFrom_choice_eq (expandFrom_eq_ok_depth h)] at h
    refine expandFrom_of_depth .tooDeep fun hd => ?_
    rw [expandFrom_choice_eq hd]
    exact fork_givesOrStops ⟨group, limits⟩ _ (fun b s ys hb => ih b hb) h
  | object entries _ =>
    obtain ⟨partials, hp, rfl⟩ := expandFrom_object h
    rw [expandEntries_eq_runStages] at hp
    refine expandFrom_of_depth .tooDeep fun hd => ?_
    rw [expandFrom_object_eq hd]
    exact (runStages_givesOrStops ⟨group, limits⟩ _ determined_runGroup (fun entry _ s rs hrs =>
      expandValue_givesOrStops hrs) hp).map _

/-- What an expansion gives under some limits it gives under all others that do not stop it. -/
theorem expand_givesOrStops {value : Property} {vs : List Variant}
    (h : value.expand location group other = .ok vs) (limits : Limits) :
    GivesOrStops limits.maxVariants vs (value.expand location group limits) :=
  expandFrom_givesOrStops value h

/-- What an expansion gives under some limits it gives under all others that its variants and the
nesting below the object keep within. -/
theorem expand_of_within {value : Property} {vs : List Variant}
    (h : value.expand location group other = .ok vs) (hlen : vs.length ≤ limits.maxVariants)
    (hdepth : ∀ σ steps o, MeetsUnder σ group value steps o → steps.length ≤ limits.maxDepth) :
    value.expand location group limits = .ok vs := by
  have hgives := expand_givesOrStops h limits
  cases hres : value.expand location group limits with
  | ok ws =>
    rw [hres] at hgives
    cases hgives
    rfl
  | error e =>
    rw [hres] at hgives
    obtain ⟨σ, steps, o, hm, hb⟩ := exists_blamed_of_expand hres
    cases hgives with
    | tooMany hlt => omega
    | tooDeep =>
      have hle := hdepth σ steps o hm
      cases hb with
      | nesting hn =>
        change 0 + steps.length = limits.maxDepth + 1 at hn
        omega

/-- Only the object without keys has a variant that is not counted. -/
theorem expand_length_le {value : Property} {vs : List Variant}
    (h : value.expand location group limits = .ok vs) (hv : value ≠ .object []) :
    vs.length ≤ limits.maxVariants := by
  cases value using Property.induction with
  | scalar v => exact absurd h expandFrom_scalar
  | list items _ => exact absurd h expandFrom_list
  | malformed condition whenTrue whenFalse arity hm _ => exact absurd h (expandFrom_malformed hm)
  | removed =>
    obtain rfl := expandFrom_removed h
    exact Nat.zero_le _
  | choice c t f _ =>
    rcases expandFrom_choice h with ⟨b, hc, -⟩ | ⟨-, yes, no, -, -, hlen, rfl⟩
    · simp at hc
    · exact hlen
  | object entries _ =>
    obtain ⟨partials, hp, rfl⟩ := expandFrom_object h
    rw [expandEntries_eq_runStages] at hp
    have hne : entries ≠ [] := fun he => hv (congrArg Property.object he)
    rw [List.length_map]
    exact runStages_length_le hp (Or.inr hne)

/-- An expansion keeps within its limit of variants, unless the limit is zero and the object has no
keys. -/
theorem expand_within_limit_iff (value : Property) (location : Location) (group : List String)
    (limits : Limits) :
    (∀ vs, value.expand location group limits = .ok vs → vs.length ≤ limits.maxVariants) ↔
      ¬ (value = .object [] ∧ limits.maxVariants = 0) := by
  constructor
  · rintro h ⟨rfl, hzero⟩
    have hlen := h _ (expand_empty_object location group limits)
    rw [hzero] at hlen
    exact Nat.not_succ_le_zero 0 hlen
  · intro hne vs h
    by_cases hv : value = .object []
    · subst hv
      obtain rfl := Except.ok.inj ((expand_empty_object location group limits).symm.trans h)
      have hpos : limits.maxVariants ≠ 0 := fun hzero => hne ⟨rfl, hzero⟩
      exact Nat.one_le_iff_ne_zero.mpr hpos
    · exact expand_length_le h hv

/-- The limit is compared after a key and after a fork, and here is neither. -/
theorem exists_expansion_above_limit :
    ∃ vs, (object []).expand .root ["A", "B"] { maxVariants := 0 } = .ok vs ∧
      ¬ vs.length ≤ (0 : Nat) :=
  ⟨_, rfl, by decide⟩

end Property

end ExactlyOne
