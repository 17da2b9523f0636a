import ExactlyOne.Proofs.Stage

/-!
# Expansion case by case

Within the limit of depth, what `Property.resolve` and `Property.expandFrom` give for a value is
one equation for each form that the value can have: a list and an object go through stages, and a
well-formed conditional forks unless its condition is fixed.
-/
namespace ExactlyOne

namespace Property

variable {focus : Focus} {location : Location} {depth : Nat} {s : Scenario} {e : Obstacle}

/-- Goes on with the outcome of a condition: with the fixed one, or else with both. -/
def fork {β : Type} (focus : Focus) (location : Location) (c : String) (s : Scenario)
    (run : Bool → Scenario → Except Obstacle (List β)) : Except Obstacle (List β) :=
  match s.get? c with
  | some outcome => run outcome s
  | none => do
    let yes ← run true (s.assign c true)
    let no ← run false (s.assign c false)
    focus.bounded location (yes ++ no)

/-- A fork that succeeds has gone on with the outcome of each assignment that its scenario is
contained in. -/
theorem exists_run_of_fork {β : Type} {c : String}
    {run : Bool → Scenario → Except Obstacle (List β)} {σ : Assignment} {xs : List β}
    (h : fork focus location c s run = .ok xs) (hs : s.ContainedIn σ) :
    ∃ ys, run (σ c) (s.assign c (σ c)) = .ok ys := by
  unfold fork at h
  cases hc : s.get? c with
  | some outcome =>
    rw [hc] at h
    rw [hs c outcome hc, Scenario.assign_eq_self hc]
    exact ⟨xs, h⟩
  | none =>
    rw [hc] at h
    obtain ⟨yes, hy, h⟩ := bind_eq_ok.mp h
    obtain ⟨no, hn, -⟩ := bind_eq_ok.mp h
    cases σ c with
    | false => exact ⟨no, hn⟩
    | true => exact ⟨yes, hy⟩

/-- A fork fails by its bound or as one of its branches does. An assignment that contains the
scenario of the branch gives the condition the outcome of the branch. -/
theorem fork_error {β : Type} {c : String} {run : Bool → Scenario → Except Obstacle (List β)}
    (h : fork focus location c s run = .error e) :
    e = focus.tooMany location ∨ ∃ b s', run b s' = .error e ∧
      ∀ σ, s'.ContainedIn σ → s.ContainedIn σ ∧ σ c = b := by
  unfold fork at h
  cases hc : s.get? c with
  | some outcome =>
    rw [hc] at h
    exact Or.inr ⟨outcome, s, h, fun σ hσ => ⟨hσ, hσ c outcome hc⟩⟩
  | none =>
    rw [hc] at h
    rcases bind_eq_error.mp h with hy | ⟨yes, -, h⟩
    · exact Or.inr ⟨true, _, hy, fun σ hσ => (Scenario.assign_containedIn hc).mp hσ⟩
    · rcases bind_eq_error.mp h with hn | ⟨no, -, hb⟩
      · exact Or.inr ⟨false, _, hn, fun σ hσ => (Scenario.assign_containedIn hc).mp hσ⟩
      · exact Or.inl (bounded_eq_error.mp hb).2

theorem map_eq_error {α β : Type} {x : Except Obstacle α} {f : α → β} :
    x.map f = .error e ↔ x = .error e := by
  cases x <;> simp [Except.map]

/-! ## Resolving -/

theorem resolve_beyond (h : focus.limits.maxDepth < depth) (value : Property) :
    resolve focus location depth s value = .error (focus.tooDeep location) := by
  unfold resolve
  rw [if_pos h]

theorem resolve_of_depth {P : Except Obstacle (List Resolution) → Prop} {value : Property}
    (hbeyond : P (.error (focus.tooDeep location)))
    (hwithin : depth ≤ focus.limits.maxDepth → P (resolve focus location depth s value)) :
    P (resolve focus location depth s value) := by
  rcases Nat.lt_or_ge focus.limits.maxDepth depth with hd | hd
  · rw [resolve_beyond hd]
    exact hbeyond
  · exact hwithin hd

section

variable (hd : depth ≤ focus.limits.maxDepth)

include hd

theorem resolve_scalar_eq (v : Json) :
    resolve focus location depth s (.scalar v) = .ok [(s, some (.scalar v))] := by
  rw [resolve, if_neg (Nat.not_lt.mpr hd)]

theorem resolve_removed_eq : resolve focus location depth s .removed = .ok [(s, none)] := by
  rw [resolve, if_neg (Nat.not_lt.mpr hd)]

theorem resolve_list_eq (items : List Property) :
    resolve focus location depth s (.list items) =
      (runStages focus location (runItem focus location (depth + 1)) (fun _ => id) items.zipIdx
        [(s, [])]).map (List.map fun p => (p.1, some (.list p.2))) := by
  rw [resolve, if_neg (Nat.not_lt.mpr hd), resolveItems_eq_runStages]
  rfl

theorem resolve_object_eq (entries : List (String × Property)) :
    resolve focus location depth s (.object entries) =
      (runStages focus location (runEntry focus location (depth + 1)) (fun entry => (entry.1, ·))
        entries [(s, [])]).map (List.map fun p => (p.1, some (.object p.2))) := by
  rw [resolve, if_neg (Nat.not_lt.mpr hd), resolveEntries_eq_runStages]
  rfl

theorem resolve_choice_eq (c : String) (t f : Property) :
    resolve focus location depth s (choice c t f) = fork focus location c s fun b s =>
      resolve focus (location.branch b) (depth + 1) s (branchFor b t f) := by
  rw [choice, resolve, if_neg (Nat.not_lt.mpr hd), fork]
  cases s.get? c with
  | none => rfl
  | some outcome => cases outcome <;> rfl

theorem resolve_malformed_eq {condition : Option String} {whenTrue whenFalse : Option Property}
    {arity : Nat} (hm : Malformed condition whenTrue whenFalse arity) :
    resolve focus location depth s (.conditional condition whenTrue whenFalse arity) =
      .error (.structural location (.malformed (malformation condition whenTrue arity))) := by
  rw [resolve, if_neg (Nat.not_lt.mpr hd)]
  exact hm

end

/-! ## Expanding -/

theorem expandFrom_beyond (h : focus.limits.maxDepth < depth) (value : Property) :
    expandFrom focus location depth s value = .error (focus.tooDeep location) := by
  unfold expandFrom
  rw [if_pos h]

theorem expandFrom_of_depth {P : Except Obstacle (List Variant) → Prop} {value : Property}
    (hbeyond : P (.error (focus.tooDeep location)))
    (hwithin : depth ≤ focus.limits.maxDepth → P (expandFrom focus location depth s value)) :
    P (expandFrom focus location depth s value) := by
  rcases Nat.lt_or_ge focus.limits.maxDepth depth with hd | hd
  · rw [expandFrom_beyond hd]
    exact hbeyond
  · exact hwithin hd

section

variable (hd : depth ≤ focus.limits.maxDepth)

include hd

theorem expandFrom_scalar_eq (v : Json) : expandFrom focus location depth s (.scalar v) =
    .error (.structural location (.notObject (kind (.scalar v)))) := by
  rw [expandFrom, if_neg (Nat.not_lt.mpr hd)]

theorem expandFrom_list_eq (items : List Property) :
    expandFrom focus location depth s (.list items) =
      .error (.structural location (.notObject .list)) := by
  rw [expandFrom, if_neg (Nat.not_lt.mpr hd)]
  rfl

theorem expandFrom_removed_eq : expandFrom focus location depth s .removed = .ok [] := by
  rw [expandFrom, if_neg (Nat.not_lt.mpr hd)]

theorem expandFrom_object_eq (entries : List (String × Property)) :
    expandFrom focus location depth s (.object entries) =
      (runStages focus location (runGroup focus location (depth + 1)) (fun entry => (entry.1, ·))
        entries [(s, [])]).map (List.map fun p => ⟨p.2, p.1, location⟩) := by
  rw [expandFrom, if_neg (Nat.not_lt.mpr hd)]
  simp only [expandEntries_eq_runStages]
  rfl

theorem expandFrom_choice_eq (c : String) (t f : Property) :
    expandFrom focus location depth s (choice c t f) = fork focus location c s fun b s =>
      expandFrom focus (location.branch b) (depth + 1) s (branchFor b t f) := by
  rw [choice, expandFrom, if_neg (Nat.not_lt.mpr hd), fork]
  cases s.get? c with
  | none => rfl
  | some outcome => cases outcome <;> rfl

theorem expandFrom_malformed_eq {condition : Option String}
    {whenTrue whenFalse : Option Property} {arity : Nat}
    (hm : Malformed condition whenTrue whenFalse arity) :
    expandFrom focus location depth s (.conditional condition whenTrue whenFalse arity) =
      .error (.structural location (.malformed (malformation condition whenTrue arity))) := by
  rw [expandFrom, if_neg (Nat.not_lt.mpr hd)]
  exact hm

end

end Property

end ExactlyOne
