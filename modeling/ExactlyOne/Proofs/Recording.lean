import ExactlyOne.Proofs.Evaluation

/-!
# The order in which a scenario fixes conditions

A scenario is a sequence, and fixing a condition that is open adds to its end. So a scenario that
records conditions with the outcomes of one assignment only grows, and it has every condition once,
where it came first.
-/
namespace ExactlyOne

namespace Scenario

variable {s t u : Scenario} {σ : Assignment} {c : String}

/-- The conditions that a scenario fixes, in the order in which it came to them. -/
def conditions (s : Scenario) : List String := Entries.keys s.assignments

/-- The later scenario has all of the earlier one at its beginning. -/
def StartOf (s t : Scenario) : Prop := s.assignments <+: t.assignments

def restrict (s : Scenario) (conditions : List String) : Scenario :=
  ⟨s.assignments.filter fun a => a.1 ∈ conditions⟩

theorem StartOf.refl (s : Scenario) : s.StartOf s := List.prefix_refl _

theorem StartOf.trans (h : s.StartOf t) (k : t.StartOf u) : s.StartOf u := List.IsPrefix.trans h k

theorem get?_eq_none_iff : s.get? c = none ↔ c ∉ s.conditions := Entries.find?_eq_none_iff

theorem assignments_assign (h : s.get? c = none) (b : Bool) :
    (s.assign c b).assignments = s.assignments ++ [(c, b)] := Entries.insert_eq_append h b

theorem startOf_assign (h : s.get? c = none) (b : Bool) : s.StartOf (s.assign c b) := by
  rw [StartOf, assignments_assign h]
  exact List.prefix_append ..

theorem assignments_record (h : s.ContainedIn σ) (cs : List String) :
    (s.record σ cs).assignments =
      s.assignments ++ (cs.removeAll s.conditions).eraseDups.map fun c => (c, σ c) := by
  induction cs generalizing s with
  | nil => simp [List.removeAll]
  | cons c cs ih =>
    rw [record_cons, ih (h.assign c)]
    by_cases hmem : c ∈ s.conditions
    · have hfixed : s.get? c ≠ none := fun hc => get?_eq_none_iff.mp hc hmem
      obtain ⟨b, hb⟩ := Option.ne_none_iff_exists'.mp hfixed
      rw [h c b hb, assign_eq_self hb]
      simp [List.removeAll, hmem]
    · have hopen : s.get? c = none := get?_eq_none_iff.mpr hmem
      have hconds : (s.assign c (σ c)).conditions = s.conditions ++ [c] := by
        simp [conditions, Entries.keys, assignments_assign hopen]
      -- from here on `c` is fixed, so where it comes again nothing is added
      have hrest : cs.removeAll (s.conditions ++ [c]) =
          (cs.removeAll s.conditions).filter fun d => !d == c := by
        rw [List.removeAll, List.removeAll, List.filter_filter]
        refine List.filter_congr fun d _ => ?_
        by_cases hd : d = c <;> simp [hd]
      rw [hconds, hrest, assignments_assign hopen]
      simp [List.removeAll, hmem, List.eraseDups_cons]

theorem startOf_record (h : s.ContainedIn σ) (cs : List String) : s.StartOf (s.record σ cs) := by
  rw [StartOf, assignments_record h]
  exact List.prefix_append ..

theorem assignments_record_empty (σ : Assignment) (cs : List String) :
    (empty.record σ cs).assignments = cs.eraseDups.map fun c => (c, σ c) := by
  rw [assignments_record (empty_containedIn σ)]
  simp [empty, conditions, Entries.keys]

theorem eraseDups_of_nodup {cs : List String} (h : cs.Nodup) : cs.eraseDups = cs := by
  induction cs with
  | nil => rfl
  | cons c cs ih =>
    obtain ⟨hc, hrest⟩ := List.nodup_cons.mp h
    have hkept : cs.filter (fun d => !d == c) = cs := by
      apply List.filter_eq_self.mpr
      intro d hd
      have hne : d ≠ c := fun he => hc (he ▸ hd)
      simp [hne]
    rw [List.eraseDups_cons, hkept, ih hrest]

/-- Each condition stands where it was first recorded. -/
theorem conditions_record_empty (σ : Assignment) (cs : List String) :
    (empty.record σ cs).conditions = cs.eraseDups := by
  rw [conditions, Entries.keys, assignments_record_empty, List.map_map]
  exact List.map_id _

theorem restrict_record_empty (σ : Assignment) (cs ds : List String) :
    (empty.record σ (cs ++ ds)).restrict cs = empty.record σ cs := by
  have hfirst : ∀ c ∈ cs.eraseDups, decide (c ∈ cs) = true := by
    intro c hc
    exact decide_eq_true (List.mem_eraseDups.mp hc)
  have hlater : ∀ c ∈ (ds.removeAll cs).eraseDups, ¬ decide (c ∈ cs) = true := by
    intro c hc
    simpa [List.removeAll] using (List.mem_filter.mp (List.mem_eraseDups.mp hc)).2
  have hfilter : (cs ++ ds).eraseDups.filter (fun c => decide (c ∈ cs)) = cs.eraseDups := by
    rw [List.eraseDups_append, List.filter_append, List.filter_eq_self.mpr hfirst,
      List.filter_eq_nil_iff.mpr hlater, List.append_nil]
  have hassign : ((empty.record σ (cs ++ ds)).restrict cs).assignments =
      (empty.record σ cs).assignments := by
    rw [restrict, assignments_record_empty, assignments_record_empty, List.filter_map, ← hfilter]
    rfl
  exact congrArg Scenario.mk hassign

end Scenario

end ExactlyOne
