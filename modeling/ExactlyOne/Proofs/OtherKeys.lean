import Mathlib.Data.List.Forall2
import ExactlyOne.Finding
import ExactlyOne.Proofs.Unfolding

/-!
# What is under other keys has no influence

Two values that differ under other keys than those of a group are expanded in step. Each stage gives
both runs the same scenarios in the same order, or the same obstacle: a key of the group has the
same value in both, and any other key gives one result under the scenario that it was given. The
results may differ in entries under other keys, and no violation tells of those.
-/
namespace ExactlyOne

variable {α β : Type}

/-- Both runs meet the same obstacle, or they give results that correspond one by one. -/
inductive InStep (R : α → β → Prop) :
    Except Obstacle (List α) → Except Obstacle (List β) → Prop where
  | ok {xs : List α} {ys : List β} (h : List.Forall₂ R xs ys) : InStep R (.ok xs) (.ok ys)
  | error (e : Obstacle) : InStep R (.error e) (.error e)

namespace InStep

variable {R : α → α → Prop} {S : β → β → Prop} {x y : Except Obstacle (List α)}

theorem refl (hR : ∀ a, R a a) (x : Except Obstacle (List α)) : InStep R x x := by
  cases x with
  | error e => exact .error e
  | ok xs => exact .ok (List.forall₂_same.mpr fun a _ => hR a)

theorem bind (h : InStep R x y) {k k' : List α → Except Obstacle (List β)}
    (hk : ∀ {xs ys}, List.Forall₂ R xs ys → InStep S (k xs) (k' ys)) :
    InStep S (x >>= k) (y >>= k') := by
  cases h with
  | error e => exact .error e
  | ok h => exact hk h

theorem map (h : InStep R x y) {f g : α → β} (hfg : ∀ a b, R a b → S (f a) (g b)) :
    InStep S (x.map (List.map f)) (y.map (List.map g)) := by
  cases h with
  | error e => exact .error e
  | ok h => exact .ok (List.rel_map hfg h)

theorem bounded {xs ys : List α} (h : List.Forall₂ R xs ys) (focus : Focus)
    (location : Location) : InStep R (focus.bounded location xs) (focus.bounded location ys) := by
  unfold Focus.bounded
  rw [h.length_eq]
  by_cases hb : focus.limits.maxVariants < ys.length
  · simp only [hb, if_true]
    exact .error _
  · simp only [hb, if_false]
    exact .ok h

theorem fork {run run' : Bool → Scenario → Except Obstacle (List α)}
    (hrun : ∀ b s, InStep R (run b s) (run' b s)) (focus : Focus) (location : Location)
    (c : String) (s : Scenario) :
    InStep R (Property.fork focus location c s run) (Property.fork focus location c s run') := by
  unfold Property.fork
  cases s.get? c with
  | some outcome => exact hrun outcome s
  | none =>
    refine (hrun true _).bind fun hyes => (hrun false _).bind fun hno => ?_
    exact bounded (List.rel_append hyes hno) focus location

end InStep

namespace Property

/-! ## Values, results and variants that a group does not tell apart -/

def SameEntry (group : List String) (entry entry' : String × Property) : Prop :=
  entry.1 = entry'.1 ∧ (entry.1 ∈ group → entry.2 = entry'.2)

/-- Two values are equal but for the values under keys outside the group, in the objects that the
conditionals around them lead to. -/
inductive AgreeOn (group : List String) : Property → Property → Prop where
  | same (value : Property) : AgreeOn group value value
  | object {entries entries' : List (String × Property)}
    (h : List.Forall₂ (SameEntry group) entries entries') :
    AgreeOn group (.object entries) (.object entries')
  | conditional {condition : Option String} {arity : Nat} {t f t' f' : Option Property}
    (hsome : ∀ b, (branch? b t f).isSome = (branch? b t' f').isSome)
    (hbranch : ∀ b v w, branch? b t f = some v → branch? b t' f' = some w → AgreeOn group v w) :
    AgreeOn group (.conditional condition t f arity) (.conditional condition t' f' arity)

def SameResolution (group : List String) (key : String) (r r' : Resolution) : Prop :=
  r.1 = r'.1 ∧ (key ∈ group → r.2 = r'.2)

def SamePartial (group : List String) (p p' : Scenario × List (String × Property)) : Prop :=
  p.1 = p'.1 ∧ groupEntries group p.2 = groupEntries group p'.2

end Property

structure Variant.SameOn (group : List String) (v w : Variant) : Prop where
  scenario : v.scenario = w.scenario
  location : v.location = w.location
  entries : Property.groupEntries group v.entries = Property.groupEntries group w.entries

namespace Property

variable {group : List String} {limits : Limits} {location : Location} {depth : Nat}
  {s : Scenario} {key : String} {v w : Property}

/-! ## Stages -/

theorem SamePartial.append {r r' : Resolution} {done done' : List (String × Property)}
    (hr : SameResolution group key r r')
    (hdone : groupEntries group done = groupEntries group done') :
    SamePartial group (r.1, done ++ (r.2.map (key, ·)).toList)
      (r'.1, done' ++ (r'.2.map (key, ·)).toList) := by
  obtain ⟨hs, hvalue⟩ := hr
  refine ⟨hs, ?_⟩
  have hadded : groupEntries group (r.2.map (key, ·)).toList =
      groupEntries group (r'.2.map (key, ·)).toList := by
    by_cases hk : key ∈ group
    · rw [hvalue hk]
    · cases r.2 <;> cases r'.2 <;> simp [groupEntries, hk]
  simp only [groupEntries, List.filter_append] at hdone hadded ⊢
  rw [hdone, hadded]

theorem expandValue_inStep {x y : Property} (h : key ∈ group → x = y) (s : Scenario) :
    InStep (SameResolution group key) (expandValue ⟨group, limits⟩ location depth key x s)
      (expandValue ⟨group, limits⟩ location depth key y s) := by
  by_cases hk : key ∈ group
  · obtain rfl := h hk
    exact InStep.refl (fun _ => ⟨rfl, fun _ => rfl⟩) _
  · simp only [expandValue, hk, if_false]
    -- the two values may come to different things, under a key that does not count
    exact .ok (.cons ⟨rfl, fun hg => absurd hg hk⟩ .nil)

theorem appendEach_inStep {step step' : Scenario → Except Obstacle (List Resolution)}
    (hstep : ∀ s, InStep (SameResolution group key) (step s) (step' s))
    {partials partials' : List (Scenario × List (String × Property))}
    (h : List.Forall₂ (SamePartial group) partials partials') :
    InStep (SamePartial group) (appendEach step (key, ·) partials)
      (appendEach step' (key, ·) partials') := by
  induction h with
  | nil => exact .ok .nil
  | @cons p p' _ _ hp _ ih =>
    obtain ⟨s, done⟩ := p
    obtain ⟨s', done'⟩ := p'
    obtain ⟨rfl, hdone⟩ : s = s' ∧ groupEntries group done = groupEntries group done' := hp
    refine (hstep s).bind fun hresolutions => ih.bind fun hlater => .ok ?_
    have hadded := List.rel_map (fun _ _ hr => SamePartial.append hr hdone) hresolutions
    exact List.rel_append hadded hlater

theorem runStages_inStep {entries entries' : List (String × Property)}
    (hentries : List.Forall₂ (SameEntry group) entries entries')
    {partials partials' : List (Scenario × List (String × Property))}
    (h : List.Forall₂ (SamePartial group) partials partials') :
    InStep (SamePartial group)
      (runStages ⟨group, limits⟩ location (runGroup ⟨group, limits⟩ location depth)
        (fun entry => (entry.1, ·)) entries partials)
      (runStages ⟨group, limits⟩ location (runGroup ⟨group, limits⟩ location depth)
        (fun entry => (entry.1, ·)) entries' partials') := by
  induction hentries generalizing partials partials' with
  | nil => exact .ok h
  | @cons entry entry' _ _ hentry _ ih =>
    obtain ⟨key, x⟩ := entry
    obtain ⟨key', y⟩ := entry'
    obtain ⟨rfl, hvalue⟩ : key = key' ∧ (key ∈ group → x = y) := hentry
    refine (appendEach_inStep (expandValue_inStep hvalue) h).bind fun hnext => ?_
    exact (InStep.bounded hnext _ location).bind ih

/-! ## Conditionals around the object -/

section

variable {condition : Option String} {arity : Nat} {t f t' f' : Option Property}
  (hsome : ∀ b, (branch? b t f).isSome = (branch? b t' f').isSome)

include hsome

theorem malformed_of_isSome (hm : Malformed condition t f arity) :
    Malformed condition t' f' arity := by
  intro c x y hc ht hf hn
  obtain ⟨x', ht'⟩ : ∃ x', t = some x' := by
    have htrue : t.isSome = t'.isSome := hsome true
    exact Option.isSome_iff_exists.mp (by rw [htrue, ht]; rfl)
  obtain ⟨y', hf'⟩ : ∃ y', f = some y' := by
    have hfalse : f.isSome = f'.isSome := hsome false
    exact Option.isSome_iff_exists.mp (by rw [hfalse, hf]; rfl)
  exact hm c x' y' hc ht' hf' hn

theorem malformation_eq_of_isSome :
    malformation condition t arity = malformation condition t' arity := by
  have htrue : t.isSome = t'.isSome := hsome true
  have hnone : t.isNone = t'.isNone := by
    rw [← Option.not_isSome, ← Option.not_isSome, htrue]
  unfold malformation
  rw [hnone]

end

theorem inStep_of_depth {R : Variant → Variant → Prop} {focus : Focus}
    (h : depth ≤ focus.limits.maxDepth → InStep R (expandFrom focus location depth s v)
      (expandFrom focus location depth s w)) :
    InStep R (expandFrom focus location depth s v) (expandFrom focus location depth s w) := by
  rcases Nat.lt_or_ge focus.limits.maxDepth depth with hd | hd
  · rw [expandFrom_beyond hd, expandFrom_beyond hd]
    exact .error _
  · exact h hd

namespace AgreeOn

theorem of_choice {c : String} {t f t' f' : Property}
    (h : ∀ b, AgreeOn group (branchFor b t f) (branchFor b t' f')) :
    AgreeOn group (choice c t f) (choice c t' f') := by
  apply AgreeOn.conditional
  · intro b
    rw [branch?_some, branch?_some]
    rfl
  · intro b v w hv hw
    rw [branch?_some, Option.some.injEq] at hv hw
    exact hv ▸ hw ▸ h b

theorem expandFrom_inStep (h : AgreeOn group v w) (location : Location) (depth : Nat)
    (s : Scenario) :
    InStep (Variant.SameOn group) (expandFrom ⟨group, limits⟩ location depth s v)
      (expandFrom ⟨group, limits⟩ location depth s w) := by
  induction h generalizing location depth s with
  | same value => exact InStep.refl (fun _ => ⟨rfl, rfl, rfl⟩) _
  | object hentries =>
    apply inStep_of_depth
    intro hd
    rw [expandFrom_object_eq hd, expandFrom_object_eq hd]
    have hstart : List.Forall₂ (SamePartial group) [(s, [])] [(s, [])] :=
      .cons ⟨rfl, rfl⟩ .nil
    exact (runStages_inStep hentries hstart).map fun _ _ hp => ⟨hp.1, rfl, hp.2⟩
  | @conditional condition arity t f t' f' hsome _ ih =>
    apply inStep_of_depth
    intro hd
    rcases choice_or_malformed condition t f arity with ⟨c, x, y, rfl, rfl, rfl, rfl⟩ | hm
    · obtain ⟨x', rfl⟩ : ∃ x', t' = some x' := Option.isSome_iff_exists.mp (hsome true).symm
      obtain ⟨y', rfl⟩ : ∃ y', f' = some y' := Option.isSome_iff_exists.mp (hsome false).symm
      change InStep _ (expandFrom _ location depth s (choice c x y))
        (expandFrom _ location depth s (choice c x' y'))
      rw [expandFrom_choice_eq hd, expandFrom_choice_eq hd]
      apply InStep.fork
      intro b s
      exact ih b _ _ (branch?_some b x y) (branch?_some b x' y') _ _ s
    · have hm' := malformed_of_isSome hsome hm
      rw [expandFrom_malformed_eq hd hm, expandFrom_malformed_eq hd hm',
        malformation_eq_of_isSome hsome]
      exact .error _

end AgreeOn

end Property

/-! ## Findings -/

theorem Entries.contains_groupEntries {group : List String} {g : String} (hg : g ∈ group)
    (entries : List (String × Property)) :
    Entries.contains g (Property.groupEntries group entries) = Entries.contains g entries := by
  induction entries with
  | nil => rfl
  | cons entry rest ih =>
    simp only [Entries.contains, Property.groupEntries, List.filter_cons] at ih ⊢
    by_cases hk : entry.1 = g
    · simp [hk, hg, Entries.find?]
    · by_cases hgroup : entry.1 ∈ group <;> simp [hk, hgroup, Entries.find?, ih]

namespace Variant.SameOn

variable {group : List String} {v w : Variant}

theorem count_eq (h : Variant.SameOn group v w) : v.count group = w.count group := by
  apply List.countP_congr
  intro g hg
  rw [← Entries.contains_groupEntries hg v.entries, h.entries, Entries.contains_groupEntries hg]

theorem violation?_eq (h : Variant.SameOn group v w) (location : Location) :
    v.violation? location group = w.violation? location group := by
  unfold Variant.violation?
  rw [h.count_eq, h.location, h.scenario]

end Variant.SameOn

theorem Variant.violations_eq {group : List String} {vs ws : List Variant}
    (h : List.Forall₂ (Variant.SameOn group) vs ws) (location : Location) :
    vs.filterMap (·.violation? location group) = ws.filterMap (·.violation? location group) := by
  induction h with
  | nil => rfl
  | cons hv _ ih => simp only [List.filterMap_cons, hv.violation?_eq location, ih]

namespace Property

variable {group : List String} {v w : Property}

/-- A check of a group finds the same in values that differ only under other keys: the same
violations in the same order, or the same obstacle. -/
theorem checkGroup_ignores_other_keys (h : AgreeOn group v w) (location : Location)
    (limits : Limits) :
    v.checkGroup limits location group = w.checkGroup limits location group := by
  have hstep : InStep (Variant.SameOn group) (v.expand location group limits)
      (w.expand location group limits) := h.expandFrom_inStep location 0 .empty
  unfold checkGroup
  generalize v.expand location group limits = x at hstep ⊢
  generalize w.expand location group limits = y at hstep ⊢
  cases hstep with
  | error e => rfl
  | ok hvariants =>
    simp only [Variant.violations_eq hvariants location]

def wrapped : Nat → Property
  | 0 => .scalar .null
  | n + 1 => .list [wrapped n]

/-- The other keys stand before, between and after those of the group. -/
def betweenOthers (x y : Property) : Property :=
  choice "Used"
    (.object [("X", x), ("A", choice "Large" (.scalar .null) .removed), ("Y", y),
      ("B", choice "Large" (.scalar .null) .removed)])
    (choice "Small" .removed (.object [("Y", y), ("B", .list []), ("X", x), ("A", .scalar .null)]))

theorem betweenOthers_agreeOn (x y x' y' : Property) :
    AgreeOn ["A", "B"] (betweenOthers x y) (betweenOthers x' y') := by
  have hentry : ∀ (key : String) (u u' : Property), key ∉ ["A", "B"] →
      SameEntry ["A", "B"] (key, u) (key, u') := fun _ _ _ hk => ⟨rfl, fun hg => absurd hg hk⟩
  have hkept : ∀ entry, SameEntry ["A", "B"] entry entry := fun _ => ⟨rfl, fun _ => rfl⟩
  have hx := hentry "X" x x' (by decide)
  have hy := hentry "Y" y y' (by decide)
  apply AgreeOn.of_choice
  intro b
  cases b with
  | true => exact .object (.cons hx (.cons (hkept _) (.cons hy (.cons (hkept _) .nil))))
  | false =>
    apply AgreeOn.of_choice
    intro b
    cases b with
    | true => exact .same _
    | false => exact .object (.cons hy (.cons (hkept _) (.cons hx (.cons (hkept _) .nil))))

/-- A malformed conditional stands in for a value that is left out, and lists that are nested deeper
than the limit allows stand in for one that is always there. -/
theorem betweenOthers_same_findings :
    AgreeOn ["A", "B"] (betweenOthers .removed (.scalar .null))
      (betweenOthers (.conditional none none none 1) (wrapped 100)) ∧
    ((betweenOthers .removed (.scalar .null)).checkGroup {} .root ["A", "B"]).length = 3 ∧
    ∀ limits, (betweenOthers .removed (.scalar .null)).checkGroup limits .root ["A", "B"] =
      (betweenOthers (.conditional none none none 1) (wrapped 100)).checkGroup limits .root
        ["A", "B"] := by
  have hagree := betweenOthers_agreeOn .removed (.scalar .null) (.conditional none none none 1)
    (wrapped 100)
  refine ⟨hagree, rfl, ?_⟩
  intro limits
  exact checkGroup_ignores_other_keys hagree .root limits

end Property

end ExactlyOne
