import ExactlyOne.Proofs.Recording
import ExactlyOne.Proofs.Unfolding

/-!
# Variants stand in depth-first order

The scenarios of an expansion are the paths to the leaves of a tree of decisions, the branch for
`true` before the one for `false`: any two of them are the same up to a condition that is true in
the first and false in the second. A fork makes two subtrees of one tree, and a stage puts a tree in
the place of every leaf (`InTreeOrder`). Along each path the conditions stand in the order in which
evaluation first comes to them.
-/
namespace ExactlyOne

namespace Scenario

variable {s t : Scenario} {c : String}

/-- The scenarios are the same up to a condition that is true in the first and false in the
second. -/
def PartsBefore (s t : Scenario) : Prop :=
  ∃ p c, p ++ [(c, true)] <+: s.assignments ∧ p ++ [(c, false)] <+: t.assignments

theorem PartsBefore.mono {s' t' : Scenario} (h : s.PartsBefore t) (hs : s.StartOf s')
    (ht : t.StartOf t') : s'.PartsBefore t' := by
  obtain ⟨p, c, hp, hq⟩ := h
  exact ⟨p, c, hp.trans hs, hq.trans ht⟩

theorem partsBefore_assign (h : s.get? c = none) :
    (s.assign c true).PartsBefore (s.assign c false) := by
  have hlast : ∀ b, s.assignments ++ [(c, b)] <+: (s.assign c b).assignments := by
    intro b
    simp [assignments_assign h]
  exact ⟨s.assignments, c, hlast true, hlast false⟩

/-- Scenarios that grew from one start and part from each other in order. -/
structure InTreeOrder (start : Scenario) (leaves : List Scenario) : Prop where
  started : ∀ t ∈ leaves, start.StartOf t
  parted : leaves.Pairwise PartsBefore

namespace InTreeOrder

theorem nil (s : Scenario) : InTreeOrder s [] := ⟨by simp, .nil⟩

theorem singleton (s : Scenario) : InTreeOrder s [s] :=
  ⟨by simp [StartOf.refl], List.pairwise_singleton ..⟩

theorem fork {yes no : List Scenario} (hc : s.get? c = none)
    (hy : InTreeOrder (s.assign c true) yes) (hn : InTreeOrder (s.assign c false) no) :
    InTreeOrder s (yes ++ no) := by
  constructor
  · intro t ht
    rcases List.mem_append.mp ht with ht | ht
    · exact (startOf_assign hc true).trans (hy.started t ht)
    · exact (startOf_assign hc false).trans (hn.started t ht)
  · refine List.pairwise_append.mpr ⟨hy.parted, hn.parted, ?_⟩
    intro t ht u hu
    exact (partsBefore_assign hc).mono (hy.started t ht) (hn.started u hu)

/-- A tree in the place of the first leaf, where all others have their trees already. -/
theorem graft {first : Scenario} {rest grown later : List Scenario}
    (h : InTreeOrder s (first :: rest)) (hg : InTreeOrder first grown)
    (hl : InTreeOrder s later) (hrest : ∀ t ∈ later, ∃ leaf ∈ rest, leaf.StartOf t) :
    InTreeOrder s (grown ++ later) := by
  obtain ⟨hfirst, -⟩ := List.pairwise_cons.mp h.parted
  constructor
  · intro t ht
    rcases List.mem_append.mp ht with ht | ht
    · exact (h.started first List.mem_cons_self).trans (hg.started t ht)
    · exact hl.started t ht
  · refine List.pairwise_append.mpr ⟨hg.parted, hl.parted, ?_⟩
    -- the leaves parted already, and both paths only go on from there
    intro t ht u hu
    obtain ⟨leaf, hm, hstart⟩ := hrest u hu
    exact (hfirst leaf hm).mono (hg.started t ht) hstart

theorem tail {first : Scenario} {rest : List Scenario} (h : InTreeOrder s (first :: rest)) :
    InTreeOrder s rest :=
  ⟨(List.forall_mem_cons.mp h.started).2, (List.pairwise_cons.mp h.parted).2⟩

end InTreeOrder

end Scenario

namespace Property

open Scenario

variable {α γ : Type} {focus : Focus} {location : Location} {depth : Nat} {s start : Scenario}

/-! ## What a step keeps -/

def Orderly (step : Scenario → Except Obstacle (List Resolution)) : Prop :=
  ∀ s rs, step s = .ok rs → InTreeOrder s (rs.map Prod.fst)

theorem exists_start_of_appendEach {step : Scenario → Except Obstacle (List Resolution)}
    (hstep : Orderly step) {item : Property → α} {partials next : List (Scenario × List α)}
    (h : appendEach step item partials = .ok next) {t : Scenario} (ht : t ∈ next.map Prod.fst) :
    ∃ leaf ∈ partials.map Prod.fst, leaf.StartOf t := by
  induction partials generalizing next with
  | nil =>
    obtain rfl : [] = next := Except.ok.inj h
    simp at ht
  | cons p rest ih =>
    obtain ⟨rs, later, hrs, hl, rfl⟩ := appendEach_cons_eq_ok.mp h
    rw [List.map_append, List.map_map] at ht
    rcases List.mem_append.mp ht with ht | ht
    · exact ⟨p.1, List.mem_cons_self, (hstep p.1 rs hrs).started t ht⟩
    · obtain ⟨leaf, hm, hs⟩ := ih hl ht
      exact ⟨leaf, List.mem_cons_of_mem _ hm, hs⟩

theorem appendEach_inTreeOrder {step : Scenario → Except Obstacle (List Resolution)}
    (hstep : Orderly step) {item : Property → α} {partials next : List (Scenario × List α)}
    (h : appendEach step item partials = .ok next)
    (hp : InTreeOrder start (partials.map Prod.fst)) :
    InTreeOrder start (next.map Prod.fst) := by
  induction partials generalizing next with
  | nil =>
    obtain rfl : [] = next := Except.ok.inj h
    exact .nil start
  | cons p rest ih =>
    obtain ⟨rs, later, hrs, hl, rfl⟩ := appendEach_cons_eq_ok.mp h
    rw [List.map_append, List.map_map]
    exact hp.graft (hstep p.1 rs hrs) (ih hl hp.tail) fun t ht =>
      exists_start_of_appendEach hstep hl ht

theorem runStages_inTreeOrder {run : γ → Scenario → Except Obstacle (List Resolution)}
    {add : γ → Property → α} {xs : List γ} (hrun : ∀ x ∈ xs, Orderly (run x))
    {partials out : List (Scenario × List α)}
    (h : runStages focus location run add xs partials = .ok out)
    (hp : InTreeOrder start (partials.map Prod.fst)) :
    InTreeOrder start (out.map Prod.fst) := by
  induction xs generalizing partials with
  | nil =>
    obtain rfl : partials = out := Except.ok.inj h
    exact hp
  | cons x rest ih =>
    obtain ⟨next, hn, -, h⟩ := bind_bounded_eq_ok h
    have hnext := appendEach_inTreeOrder (hrun x List.mem_cons_self) hn hp
    exact ih (fun y hy => hrun y (List.mem_cons_of_mem _ hy)) h hnext

theorem fork_inTreeOrder {β : Type} {scenarioOf : β → Scenario} {c : String}
    {run : Bool → Scenario → Except Obstacle (List β)}
    (hrun : ∀ b s ys, run b s = .ok ys → InTreeOrder s (ys.map scenarioOf)) {xs : List β}
    (h : fork focus location c s run = .ok xs) : InTreeOrder s (xs.map scenarioOf) := by
  unfold fork at h
  cases hc : s.get? c with
  | some outcome =>
    rw [hc] at h
    exact hrun outcome s xs h
  | none =>
    rw [hc] at h
    obtain ⟨yes, hy, h⟩ := bind_eq_ok.mp h
    obtain ⟨no, hn, h⟩ := bind_eq_ok.mp h
    obtain ⟨-, rfl⟩ := bounded_eq_ok.mp h
    rw [List.map_append]
    exact .fork hc (hrun true _ yes hy) (hrun false _ no hn)

/-! ## What a run keeps -/

theorem resolve_inTreeOrder {value : Property} {rs : List Resolution}
    (h : resolve focus location depth s value = .ok rs) : InTreeOrder s (rs.map Prod.fst) := by
  induction value using Property.induction generalizing location depth s rs with
  | scalar v =>
    rw [resolve_scalar h]
    exact .singleton s
  | removed =>
    rw [resolve_removed h]
    exact .singleton s
  | malformed condition whenTrue whenFalse arity hm _ => exact absurd h (resolve_malformed hm)
  | choice c t f ih =>
    rw [resolve_choice_eq (resolve_eq_ok_depth h)] at h
    exact fork_inTreeOrder (fun b s ys hb => ih b hb) h
  | list items ih =>
    obtain ⟨partials, hp, rfl⟩ := resolve_list h
    rw [resolveItems_eq_runStages] at hp
    rw [List.map_map]
    exact runStages_inTreeOrder (fun item hi s rs hrs =>
      ih item.1 (List.fst_mem_of_mem_zipIdx hi) hrs) hp (.singleton s)
  | object entries ih =>
    obtain ⟨partials, hp, rfl⟩ := resolve_object h
    rw [resolveEntries_eq_runStages] at hp
    rw [List.map_map]
    exact runStages_inTreeOrder (fun entry he s rs hrs => ih entry he hrs) hp (.singleton s)

theorem orderly_expandValue (key : String) (value : Property) :
    Orderly (expandValue focus location depth key value) := by
  intro s rs h
  by_cases hk : key ∈ focus.group
  · simp only [expandValue, hk, if_true] at h
    exact resolve_inTreeOrder h
  · simp only [expandValue, hk, if_false, Except.ok.injEq] at h
    rw [← h]
    exact .singleton s

theorem expandFrom_inTreeOrder {value : Property} {vs : List Variant}
    (h : expandFrom focus location depth s value = .ok vs) :
    InTreeOrder s (vs.map Variant.scenario) := by
  induction value using Property.induction generalizing location depth s vs with
  | scalar v => exact absurd h expandFrom_scalar
  | list items _ => exact absurd h expandFrom_list
  | malformed condition whenTrue whenFalse arity hm _ => exact absurd h (expandFrom_malformed hm)
  | removed =>
    rw [expandFrom_removed h]
    exact .nil s
  | choice c t f ih =>
    rw [expandFrom_choice_eq (expandFrom_eq_ok_depth h)] at h
    exact fork_inTreeOrder (fun b s ys hb => ih b hb) h
  | object entries _ =>
    obtain ⟨partials, hp, rfl⟩ := expandFrom_object h
    rw [expandEntries_eq_runStages] at hp
    rw [List.map_map]
    exact runStages_inTreeOrder (fun entry _ => orderly_expandValue entry.1 entry.2) hp
      (.singleton s)

/-- Variants are in depth-first order, true before false, and the scenario of each has its
conditions once, as evaluation under it first comes to them. -/
theorem expand_in_depth_first_order {value : Property} {location : Location}
    {group : List String} {limits : Limits} {vs : List Variant}
    (h : value.expand location group limits = .ok vs) :
    (vs.Pairwise fun v w => v.scenario.PartsBefore w.scenario) ∧
    ∀ v ∈ vs, v.scenario.conditions.Nodup ∧ ∀ σ, v.scenario.ContainedIn σ →
      v.scenario.conditions = (conditionsOfVariant σ group value).eraseDups := by
  have hp := (expandFrom_inTreeOrder h).parted
  refine ⟨List.pairwise_map.mp hp, fun v hv => ⟨tidy_of_mem h hv, fun σ hσ => ?_⟩⟩
  obtain ⟨entries, -, -, hs, -⟩ := exists_selected_of_mem h hv hσ
  rw [hs, conditions_record_empty]

/-- The second key meets the condition of the object again, and one that the first key meets only
if it is not large. -/
def meetsAgain : Property :=
  choice "Use"
    (.object [
      ("B", choice "Large" (.scalar (.text "b")) (choice "Old" (.scalar .null) .removed)),
      ("Tags", choice "Tagged" (.list []) .removed),
      ("A", .list [choice "Old" .removed (.scalar .null), choice "Use" (.scalar .null) .removed])])
    (.object [])

theorem meetsAgain_in_depth_first_order :
    (meetsAgain.expand .root ["A", "B"] {}).map (List.map fun v => v.scenario.assignments) =
      .ok [[("Use", true), ("Large", true), ("Old", true)],
        [("Use", true), ("Large", true), ("Old", false)],
        [("Use", true), ("Large", false), ("Old", true)],
        [("Use", true), ("Large", false), ("Old", false)],
        [("Use", false)]] ∧
    ∃ vs, meetsAgain.expand .root ["A", "B"] {} = .ok vs ∧
      (vs.Pairwise fun v w => v.scenario.PartsBefore w.scenario) ∧
      ∀ v ∈ vs, v.scenario.conditions.Nodup ∧ ∀ σ, v.scenario.ContainedIn σ →
        v.scenario.conditions = (conditionsOfVariant σ ["A", "B"] meetsAgain).eraseDups := by
  obtain ⟨vs, h⟩ : ∃ vs, meetsAgain.expand .root ["A", "B"] {} = .ok vs := ⟨_, rfl⟩
  exact ⟨rfl, vs, h, expand_in_depth_first_order h⟩

end Property

end ExactlyOne
