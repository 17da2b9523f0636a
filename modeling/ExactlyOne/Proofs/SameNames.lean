import Mathlib.Data.List.Perm.Basic
import Mathlib.Data.Finset.Card
import ExactlyOne.Proofs.Separation
import ExactlyOne.Proofs.Unfolding

/-!
# Groups with the same names

An expansion asks only whether a key is in the group. So two groups with the same names are expanded
alike, in whatever order and however often they hold a name: under the same scenarios, or up to the
same obstacle. A check then counts names, and here a repeated name counts again. Groups with the
same names make the same violations of every object just if they hold each name equally often.
-/
namespace ExactlyOne

/-! ## Telling of another group -/

def Obstacle.forGroup (group : List String) : Obstacle → Obstacle
  | .structural location flaw => .structural location flaw
  | .limit location _ most measure => .limit location group most measure

def Violation.forGroup (group : List String) (v : Violation) : Violation :=
  { v with group := group }

def forGroup {α : Type} (group : List String) (x : Except Obstacle α) : Except Obstacle α :=
  x.mapError (Obstacle.forGroup group)

namespace Property

variable {α β γ : Type} {group other : List String} {limits : Limits} {location : Location}

theorem forGroup_bind (x : Except Obstacle α) (k : α → Except Obstacle β) :
    forGroup other (x >>= k) = forGroup other x >>= fun a => forGroup other (k a) := by
  cases x <;> rfl

theorem forGroup_map (x : Except Obstacle α) (f : α → β) :
    forGroup other (x.map f) = (forGroup other x).map f := by
  cases x <;> rfl

theorem bounded_forGroup (group other : List String) (xs : List α) :
    Focus.bounded ⟨other, limits⟩ location xs =
      forGroup other (Focus.bounded ⟨group, limits⟩ location xs) := by
  unfold Focus.bounded
  by_cases h : limits.maxVariants < xs.length
  · simp only [h, if_true]
    rfl
  · simp only [h, if_false]
    rfl

theorem appendEach_forGroup {step step' : Scenario → Except Obstacle (List Resolution)}
    (h : ∀ s, step' s = forGroup other (step s)) (item : Property → α)
    (partials : List (Scenario × List α)) :
    appendEach step' item partials = forGroup other (appendEach step item partials) := by
  induction partials with
  | nil => rfl
  | cons p rest ih =>
    simp only [appendEach, forGroup_bind, h, ih]
    rfl

theorem runStages_forGroup {run run' : γ → Scenario → Except Obstacle (List Resolution)}
    {xs : List γ} (h : ∀ x ∈ xs, ∀ s, run' x s = forGroup other (run x s))
    (add : γ → Property → α) (partials : List (Scenario × List α)) :
    runStages ⟨other, limits⟩ location run' add xs partials =
      forGroup other (runStages ⟨group, limits⟩ location run add xs partials) := by
  induction xs generalizing partials with
  | nil => rfl
  | cons x rest ih =>
    obtain ⟨hx, hrest⟩ := List.forall_mem_cons.mp h
    simp only [runStages, forGroup_bind, appendEach_forGroup hx, ih hrest,
      bounded_forGroup group other]

theorem fork_forGroup {run run' : Bool → Scenario → Except Obstacle (List β)}
    (h : ∀ b s, run' b s = forGroup other (run b s)) (c : String) (s : Scenario) :
    fork ⟨other, limits⟩ location c s run' =
      forGroup other (fork ⟨group, limits⟩ location c s run) := by
  unfold fork
  cases s.get? c with
  | some outcome => exact h outcome s
  | none =>
    simp only [forGroup_bind, h, bounded_forGroup group other]

/-! ## Expansion -/

section

variable {value : Property} {depth : Nat} {s : Scenario}

theorem resolve_forGroup_of_depth (h : depth ≤ limits.maxDepth →
      resolve ⟨other, limits⟩ location depth s value =
        forGroup other (resolve ⟨group, limits⟩ location depth s value)) :
    resolve ⟨other, limits⟩ location depth s value =
      forGroup other (resolve ⟨group, limits⟩ location depth s value) := by
  rcases Nat.lt_or_ge limits.maxDepth depth with hd | hd
  · rw [resolve_beyond hd, resolve_beyond hd]
    rfl
  · exact h hd

theorem expandFrom_forGroup_of_depth (h : depth ≤ limits.maxDepth →
      expandFrom ⟨other, limits⟩ location depth s value =
        forGroup other (expandFrom ⟨group, limits⟩ location depth s value)) :
    expandFrom ⟨other, limits⟩ location depth s value =
      forGroup other (expandFrom ⟨group, limits⟩ location depth s value) := by
  rcases Nat.lt_or_ge limits.maxDepth depth with hd | hd
  · rw [expandFrom_beyond hd, expandFrom_beyond hd]
    rfl
  · exact h hd

end

/-- Resolving does not ask for the group, but to name it in an obstacle. -/
theorem resolve_forGroup (value : Property) (location : Location) (depth : Nat) (s : Scenario) :
    resolve ⟨other, limits⟩ location depth s value =
      forGroup other (resolve ⟨group, limits⟩ location depth s value) := by
  induction value using Property.induction generalizing location depth s with
  | scalar v =>
    apply resolve_forGroup_of_depth
    intro hd
    rw [resolve_scalar_eq hd, resolve_scalar_eq hd]
    rfl
  | removed =>
    apply resolve_forGroup_of_depth
    intro hd
    rw [resolve_removed_eq hd, resolve_removed_eq hd]
    rfl
  | malformed condition whenTrue whenFalse arity hm _ =>
    apply resolve_forGroup_of_depth
    intro hd
    rw [resolve_malformed_eq hd hm, resolve_malformed_eq hd hm]
    rfl
  | choice c t f ih =>
    apply resolve_forGroup_of_depth
    intro hd
    rw [resolve_choice_eq hd, resolve_choice_eq hd]
    exact fork_forGroup (fun b s => ih b (location.branch b) (depth + 1) s) c s
  | list items ih =>
    apply resolve_forGroup_of_depth
    intro hd
    have hitem : ∀ item ∈ items.zipIdx, ∀ s,
        runItem ⟨other, limits⟩ location (depth + 1) item s =
          forGroup other (runItem ⟨group, limits⟩ location (depth + 1) item s) :=
      fun item hi s => ih item.1 (List.fst_mem_of_mem_zipIdx hi) _ _ s
    rw [resolve_list_eq hd, resolve_list_eq hd, forGroup_map, runStages_forGroup hitem]
  | object entries ih =>
    apply resolve_forGroup_of_depth
    intro hd
    have hentry : ∀ entry ∈ entries, ∀ s,
        runEntry ⟨other, limits⟩ location (depth + 1) entry s =
          forGroup other (runEntry ⟨group, limits⟩ location (depth + 1) entry s) :=
      fun entry he s => ih entry he _ _ s
    rw [resolve_object_eq hd, resolve_object_eq hd, forGroup_map, runStages_forGroup hentry]

section

variable (h : ∀ name, name ∈ group ↔ name ∈ other)

include h

theorem expandValue_forGroup (location : Location) (depth : Nat) (key : String) (value : Property)
    (s : Scenario) : expandValue ⟨other, limits⟩ location depth key value s =
      forGroup other (expandValue ⟨group, limits⟩ location depth key value s) := by
  by_cases hk : key ∈ group
  · have hother : key ∈ other := (h key).mp hk
    simp only [expandValue, hk, hother, if_true]
    exact resolve_forGroup value (location.key key) depth s
  · have hother : key ∉ other := fun ho => hk ((h key).mpr ho)
    simp only [expandValue, hk, hother, if_false]
    rfl

theorem expandFrom_forGroup (value : Property) (location : Location) (depth : Nat)
    (s : Scenario) : expandFrom ⟨other, limits⟩ location depth s value =
      forGroup other (expandFrom ⟨group, limits⟩ location depth s value) := by
  induction value using Property.induction generalizing location depth s with
  | scalar v =>
    apply expandFrom_forGroup_of_depth
    intro hd
    rw [expandFrom_scalar_eq hd, expandFrom_scalar_eq hd]
    rfl
  | list items _ =>
    apply expandFrom_forGroup_of_depth
    intro hd
    rw [expandFrom_list_eq hd, expandFrom_list_eq hd]
    rfl
  | removed =>
    apply expandFrom_forGroup_of_depth
    intro hd
    rw [expandFrom_removed_eq hd, expandFrom_removed_eq hd]
    rfl
  | malformed condition whenTrue whenFalse arity hm _ =>
    apply expandFrom_forGroup_of_depth
    intro hd
    rw [expandFrom_malformed_eq hd hm, expandFrom_malformed_eq hd hm]
    rfl
  | choice c t f ih =>
    apply expandFrom_forGroup_of_depth
    intro hd
    rw [expandFrom_choice_eq hd, expandFrom_choice_eq hd]
    exact fork_forGroup (fun b s => ih b (location.branch b) (depth + 1) s) c s
  | object entries _ =>
    apply expandFrom_forGroup_of_depth
    intro hd
    have hentry : ∀ entry ∈ entries, ∀ s,
        runGroup ⟨other, limits⟩ location (depth + 1) entry s =
          forGroup other (runGroup ⟨group, limits⟩ location (depth + 1) entry s) :=
      fun entry _ s => expandValue_forGroup h location (depth + 1) entry.1 entry.2 s
    rw [expandFrom_object_eq hd, expandFrom_object_eq hd, forGroup_map, runStages_forGroup hentry]

theorem expand_forGroup (value : Property) (location : Location) (limits : Limits) :
    value.expand location other limits = forGroup other (value.expand location group limits) :=
  expandFrom_forGroup h value location 0 .empty

end

end Property

/-! ## Counting names -/

def Variant.distinctCount (variant : Variant) (names : List String) : Nat :=
  (names.toFinset ∩ (Entries.keys variant.entries).toFinset).card

theorem Entries.contains_iff_mem_keys {α : Type} {key : String} {entries : List (String × α)} :
    contains key entries = true ↔ key ∈ keys entries := by
  rw [contains, ← Option.ne_none_iff_isSome, ne_eq, find?_eq_none_iff, not_not]

namespace Variant

variable {group other : List String} {variant : Variant} {location : Location}

theorem count_eq_distinctCount (hn : group.Nodup) :
    variant.count group = variant.distinctCount group := by
  have hnames : (group.filter fun name => Entries.contains name variant.entries).toFinset =
      group.toFinset ∩ (Entries.keys variant.entries).toFinset := by
    ext name
    simp [Entries.contains_iff_mem_keys]
  rw [distinctCount, ← hnames, List.toFinset_card_of_nodup (hn.filter _), count,
    List.countP_eq_length_filter]

theorem violation?_forGroup (hc : variant.count other = variant.count group) :
    variant.violation? location other =
      (variant.violation? location group).map (Violation.forGroup other) := by
  unfold violation?
  by_cases h : variant.count group = 1
  · simp only [hc, h, if_true]
    rfl
  · simp only [hc, h, if_false]
    rfl

end Variant

namespace Property

variable {group other : List String}

/-- A check of the second group finds the violations that a check of the first one finds. -/
def ViolatedAlike (group other : List String) : Prop :=
  ∀ (value : Property) (location : Location) (limits : Limits),
    violationsIn (value.checkGroup limits location other) =
      (violationsIn (value.checkGroup limits location group)).map (Violation.forGroup other)

/-- A violation counts the different names of the group that are keys of the variant's object. -/
def CountsDistinct (group : List String) : Prop :=
  ∀ (value : Property) (location : Location) (limits : Limits) (vs : List Variant),
    value.expand location group limits = .ok vs →
    ∀ v ∈ violationsIn (value.checkGroup limits location group),
      ∃ variant ∈ vs, v.objectLocation = variant.location ∧ v.scenario = variant.scenario ∧
        v.count = variant.distinctCount group

/-! ## Objects with one key -/

def singleKey (name : String) : Property := .object [(name, .scalar .null)]

def singleVariant (name : String) : Variant := ⟨[(name, .scalar .null)], .empty, .root⟩

theorem expand_singleKey (name : String) (group : List String) :
    (singleKey name).expand .root group {} = .ok [singleVariant name] := by
  by_cases hg : name ∈ group
  · simp [singleKey, expand, expandFrom, expandEntries, expandValue, appendEach, resolve, hg]
    rfl
  · simp [singleKey, expand, expandFrom, expandEntries, expandValue, appendEach, settle, hg]
    rfl

theorem count_singleVariant (name : String) (group : List String) :
    (singleVariant name).count group = group.count name := by
  apply List.countP_congr
  intro g _
  simp [singleVariant, Entries.contains_iff_mem_keys, Entries.keys]

theorem distinctCount_singleVariant_le (name : String) (group : List String) :
    (singleVariant name).distinctCount group ≤ 1 := by
  have hkeys : (Entries.keys (singleVariant name).entries).toFinset = {name} := rfl
  rw [Variant.distinctCount, hkeys]
  exact (Finset.card_le_card Finset.inter_subset_right).trans (Finset.card_singleton name).le

theorem violationsIn_singleKey (name : String) (group : List String) :
    violationsIn ((singleKey name).checkGroup {} .root group) =
      ((singleVariant name).violation? .root group).toList := by
  rw [violationsIn_checkGroup (expand_singleKey name group), List.filterMap_cons]
  cases (singleVariant name).violation? .root group <;> rfl

/-! ## What repetition changes -/

theorem violatedAlike_of_perm (hp : group.Perm other) : ViolatedAlike group other := by
  intro value location limits
  have hexpand := expand_forGroup (fun _ => hp.mem_iff) value location limits
  cases he : value.expand location group limits with
  | error e =>
    have ho : value.expand location other limits = .error (e.forGroup other) := by
      rw [hexpand, he]
      rfl
    rw [checkGroup_of_error he, checkGroup_of_error ho]
    rfl
  | ok vs =>
    have ho : value.expand location other limits = .ok vs := by
      rw [hexpand, he]
      rfl
    rw [violationsIn_checkGroup he, violationsIn_checkGroup ho, List.map_filterMap]
    refine List.filterMap_congr fun variant _ => ?_
    exact Variant.violation?_forGroup (hp.countP_eq _).symm

theorem perm_of_violatedAlike (h : ViolatedAlike group other) : group.Perm other := by
  rw [List.perm_iff_count]
  intro name
  have hsame := h (singleKey name) .root {}
  rw [violationsIn_singleKey, violationsIn_singleKey] at hsame
  unfold Variant.violation? at hsame
  rw [count_singleVariant, count_singleVariant] at hsame
  -- a group that has the name once finds nothing, and any other one tells how often it has it
  by_cases hg : group.count name = 1 <;> by_cases ho : other.count name = 1 <;>
    simp [hg, ho, Violation.forGroup] at hsame ⊢
  exact hsame.symm

theorem countsDistinct_of_nodup (hn : group.Nodup) : CountsDistinct group := by
  intro value location limits vs he v hv
  rw [violationsIn_checkGroup he, List.mem_filterMap] at hv
  obtain ⟨variant, hm, hv⟩ := hv
  obtain ⟨-, rfl⟩ := violation?_eq_some_iff.mp hv
  exact ⟨variant, hm, rfl, rfl, Variant.count_eq_distinctCount hn⟩

theorem nodup_of_countsDistinct (h : CountsDistinct group) : group.Nodup := by
  rw [List.nodup_iff_count_le_one]
  intro name
  by_contra hrepeated
  have hcount : (singleVariant name).count group ≠ 1 := by
    rw [count_singleVariant]
    omega
  have hviolated : (singleVariant name).violation? .root group =
      some ⟨.root, .root, group, .empty, (singleVariant name).count group⟩ :=
    violation?_eq_some_iff.mpr ⟨hcount, rfl⟩
  obtain ⟨variant, hm, -, -, hc⟩ := h (singleKey name) .root {} _ (expand_singleKey name group) _
    (by rw [violationsIn_singleKey, hviolated]; exact List.mem_singleton_self _)
  obtain rfl := List.mem_singleton.mp hm
  have hle := distinctCount_singleVariant_le name group
  rw [← hc, count_singleVariant] at hle
  exact hrepeated hle

/-- Groups with the same names are expanded alike. They make the same violations just if each of
them is an order of the other one, and a violation counts different names just if the group has no
name twice. -/
theorem checkGroup_sees_names_iff (h : ∀ name, name ∈ group ↔ name ∈ other) :
    (∀ (value : Property) (location : Location) (limits : Limits),
      value.expand location other limits = forGroup other (value.expand location group limits)) ∧
    (ViolatedAlike group other ↔ group.Perm other) ∧
    (CountsDistinct group ↔ group.Nodup) :=
  ⟨expand_forGroup h, ⟨perm_of_violatedAlike, violatedAlike_of_perm⟩,
    ⟨nodup_of_countsDistinct, countsDistinct_of_nodup⟩⟩

theorem threeNames_seen_alike :
    let group := ["CidrIp", "CidrIpv6", "SourcePrefixListId"]
    let other := ["SourcePrefixListId", "CidrIp", "CidrIpv6"]
    (∀ name, name ∈ group ↔ name ∈ other) ∧ ViolatedAlike group other ∧ CountsDistinct group := by
  intro group other
  have hnames : ∀ name, name ∈ group ↔ name ∈ other := by
    intro name
    simp only [group, other, List.mem_cons, List.not_mem_nil, or_false]
    tauto
  obtain ⟨-, halike, hcounts⟩ := checkGroup_sees_names_iff hnames
  exact ⟨hnames, halike.mpr (by decide), hcounts.mpr (by decide)⟩

/-- A repeated name: the only key of the object is counted twice, and the rule of the group cannot
be kept. -/
theorem exists_key_counted_twice :
    (∀ name, name ∈ ["A"] ↔ name ∈ ["A", "A"]) ∧
    (singleKey "A").checkGroup {} .root ["A"] = [] ∧
    (singleKey "A").checkGroup {} .root ["A", "A"] =
      [.violation ⟨.root, .root, ["A", "A"], .empty, 2⟩] ∧
    (singleVariant "A").distinctCount ["A", "A"] = 1 := by
  refine ⟨by simp, ?_, ?_, ?_⟩ <;> decide

end Property

end ExactlyOne
