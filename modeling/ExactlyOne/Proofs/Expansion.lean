import ExactlyOne.Variant
import ExactlyOne.Proofs.Conditional

/-!
# What a successful expansion did

For each case of `Property.resolve` and `Property.expandFrom` one lemma says when it gives a result,
and which. Proofs about expansion use these and do not unfold it.
-/
namespace ExactlyOne

theorem bind_eq_ok {ε α β : Type} {x : Except ε α} {k : α → Except ε β} {b : β} :
    x >>= k = .ok b ↔ ∃ a, x = .ok a ∧ k a = .ok b := by
  cases x <;> simp [bind, Except.bind]

namespace Property

variable {focus : Focus} {location : Location} {depth position : Nat} {s : Scenario}

theorem bounded_eq_ok {α : Type} {xs ys : List α} :
    focus.bounded location xs = .ok ys ↔ xs.length ≤ focus.limits.maxVariants ∧ ys = xs := by
  unfold Focus.bounded
  by_cases h : focus.limits.maxVariants < xs.length
  · simp [h, Nat.not_le.mpr h]
  · simp [h, Nat.not_lt.mp h, eq_comm]

theorem appendEach_cons_eq_ok {α : Type} {step : Scenario → Except Obstacle (List Resolution)}
    {item : Property → α} {done : List α} {rest next : List (Scenario × List α)} :
    appendEach step item ((s, done) :: rest) = .ok next ↔
      ∃ resolutions later, step s = .ok resolutions ∧ appendEach step item rest = .ok later ∧
        next = resolutions.map (fun r => (r.1, done ++ (r.2.map item).toList)) ++ later := by
  simp only [appendEach, bind_eq_ok, pure, Except.pure, Except.ok.injEq]
  constructor
  · rintro ⟨a, ha, b, hb, rfl⟩
    exact ⟨a, b, ha, hb, rfl⟩
  · rintro ⟨a, b, ha, hb, rfl⟩
    exact ⟨a, ha, b, hb, rfl⟩

theorem bind_bounded_eq_ok {α β : Type} {x : Except Obstacle (List α)}
    {k : List α → Except Obstacle β} {b : β}
    (h : (x >>= fun xs => focus.bounded location xs >>= k) = .ok b) :
    ∃ next, x = .ok next ∧ next.length ≤ focus.limits.maxVariants ∧ k next = .ok b := by
  obtain ⟨xs, hx, h⟩ := bind_eq_ok.mp h
  obtain ⟨next, hb, hk⟩ := bind_eq_ok.mp h
  obtain ⟨hlen, rfl⟩ := bounded_eq_ok.mp hb
  exact ⟨_, hx, hlen, hk⟩

/-! ## Resolving -/

attribute [local simp] resolve resolveItems resolveEntries

theorem resolve_eq_ok_depth {value : Property} {rs : List Resolution}
    (h : resolve focus location depth s value = .ok rs) : depth ≤ focus.limits.maxDepth := by
  refine Nat.le_of_not_lt fun hd => ?_
  unfold resolve at h
  simp [hd] at h

theorem resolve_scalar {v : Json} {rs : List Resolution}
    (h : resolve focus location depth s (.scalar v) = .ok rs) : rs = [(s, some (.scalar v))] := by
  have hd := Nat.not_lt.mpr (resolve_eq_ok_depth h)
  simpa [hd, eq_comm] using h

theorem resolve_removed {rs : List Resolution}
    (h : resolve focus location depth s .removed = .ok rs) : rs = [(s, none)] := by
  have hd := Nat.not_lt.mpr (resolve_eq_ok_depth h)
  simpa [hd, eq_comm] using h

theorem resolve_list {items : List Property} {rs : List Resolution}
    (h : resolve focus location depth s (.list items) = .ok rs) :
    ∃ partials, resolveItems focus location (depth + 1) 0 [(s, [])] items = .ok partials ∧
      rs = partials.map fun p => (p.1, some (.list p.2)) := by
  have hd := Nat.not_lt.mpr (resolve_eq_ok_depth h)
  simp only [resolve, hd, if_false, bind_eq_ok, pure, Except.pure, Except.ok.injEq] at h
  obtain ⟨partials, hp, rfl⟩ := h
  exact ⟨partials, hp, rfl⟩

theorem resolve_object {entries : List (String × Property)} {rs : List Resolution}
    (h : resolve focus location depth s (.object entries) = .ok rs) :
    ∃ partials, resolveEntries focus location (depth + 1) [(s, [])] entries = .ok partials ∧
      rs = partials.map fun p => (p.1, some (.object p.2)) := by
  have hd := Nat.not_lt.mpr (resolve_eq_ok_depth h)
  simp only [resolve, hd, if_false, bind_eq_ok, pure, Except.pure, Except.ok.injEq] at h
  obtain ⟨partials, hp, rfl⟩ := h
  exact ⟨partials, hp, rfl⟩

theorem resolve_choice {c : String} {t f : Property} {rs : List Resolution}
    (h : resolve focus location depth s (choice c t f) = .ok rs) :
    (∃ b, s.get? c = some b ∧
      resolve focus (location.branch b) (depth + 1) s (branchFor b t f) = .ok rs) ∨
    (s.get? c = none ∧ ∃ yes no,
      resolve focus (location.branch true) (depth + 1) (s.assign c true) (branchFor true t f) =
        .ok yes ∧
      resolve focus (location.branch false) (depth + 1) (s.assign c false) (branchFor false t f) =
        .ok no ∧
      (yes ++ no).length ≤ focus.limits.maxVariants ∧ rs = yes ++ no) := by
  have hd := Nat.not_lt.mpr (resolve_eq_ok_depth h)
  simp only [choice, resolve, hd, if_false] at h
  cases hc : s.get? c with
  | none =>
    simp only [hc, bind_eq_ok, bounded_eq_ok] at h
    obtain ⟨yes, hy, no, hn, hb, rfl⟩ := h
    exact Or.inr ⟨rfl, yes, no, hy, hn, hb, rfl⟩
  | some b => cases b <;> exact Or.inl ⟨_, rfl, by simpa [hc, branchFor] using h⟩

theorem resolve_malformed {condition : Option String} {whenTrue whenFalse : Option Property}
    {arity : Nat} (hm : Malformed condition whenTrue whenFalse arity) {rs : List Resolution} :
    resolve focus location depth s (.conditional condition whenTrue whenFalse arity) ≠ .ok rs := by
  intro h
  have hd := Nat.not_lt.mpr (resolve_eq_ok_depth h)
  rw [resolve, if_neg hd] at h
  · simp at h
  · exact hm

theorem resolveItems_cons {partials out : List (Scenario × List Property)} {item : Property}
    {rest : List Property}
    (h : resolveItems focus location depth position partials (item :: rest) = .ok out) :
    ∃ next,
      appendEach (fun s => resolve focus (location.index position) depth s item) id partials =
        .ok next ∧
      next.length ≤ focus.limits.maxVariants ∧
      resolveItems focus location depth (position + 1) next rest = .ok out := by
  rw [resolveItems] at h
  exact bind_bounded_eq_ok h

theorem resolveEntries_cons {partials out : List (Scenario × List (String × Property))}
    {key : String} {value : Property} {rest : List (String × Property)}
    (h : resolveEntries focus location depth partials ((key, value) :: rest) = .ok out) :
    ∃ next,
      appendEach (fun s => resolve focus (location.key key) depth s value) (key, ·) partials =
        .ok next ∧
      next.length ≤ focus.limits.maxVariants ∧
      resolveEntries focus location depth next rest = .ok out := by
  rw [resolveEntries] at h
  exact bind_bounded_eq_ok h

/-! ## Expanding -/

attribute [local simp] expandEntries expandFrom

theorem expandEntries_cons {partials out : List (Scenario × List (String × Property))}
    {key : String} {value : Property} {rest : List (String × Property)}
    (h : expandEntries focus location depth partials ((key, value) :: rest) = .ok out) :
    ∃ next,
      appendEach (expandValue focus location depth key value) (key, ·) partials = .ok next ∧
      next.length ≤ focus.limits.maxVariants ∧
      expandEntries focus location depth next rest = .ok out := by
  rw [expandEntries] at h
  exact bind_bounded_eq_ok h

theorem expandFrom_eq_ok_depth {value : Property} {vs : List Variant}
    (h : expandFrom focus location depth s value = .ok vs) : depth ≤ focus.limits.maxDepth := by
  refine Nat.le_of_not_lt fun hd => ?_
  unfold expandFrom at h
  simp [hd] at h

theorem expandFrom_object {entries : List (String × Property)} {vs : List Variant}
    (h : expandFrom focus location depth s (.object entries) = .ok vs) :
    ∃ partials, expandEntries focus location (depth + 1) [(s, [])] entries = .ok partials ∧
      vs = partials.map fun p => ⟨p.2, p.1, location⟩ := by
  have hd := Nat.not_lt.mpr (expandFrom_eq_ok_depth h)
  simp only [expandFrom, hd, if_false, bind_eq_ok, pure, Except.pure, Except.ok.injEq] at h
  obtain ⟨partials, hp, rfl⟩ := h
  exact ⟨partials, hp, rfl⟩

theorem expandFrom_removed {vs : List Variant}
    (h : expandFrom focus location depth s .removed = .ok vs) : vs = [] := by
  have hd := Nat.not_lt.mpr (expandFrom_eq_ok_depth h)
  simpa [hd, eq_comm] using h

theorem expandFrom_choice {c : String} {t f : Property} {vs : List Variant}
    (h : expandFrom focus location depth s (choice c t f) = .ok vs) :
    (∃ b, s.get? c = some b ∧
      expandFrom focus (location.branch b) (depth + 1) s (branchFor b t f) = .ok vs) ∨
    (s.get? c = none ∧ ∃ yes no,
      expandFrom focus (location.branch true) (depth + 1) (s.assign c true)
        (branchFor true t f) = .ok yes ∧
      expandFrom focus (location.branch false) (depth + 1) (s.assign c false)
        (branchFor false t f) = .ok no ∧
      (yes ++ no).length ≤ focus.limits.maxVariants ∧ vs = yes ++ no) := by
  have hd := Nat.not_lt.mpr (expandFrom_eq_ok_depth h)
  simp only [choice, expandFrom, hd, if_false] at h
  cases hc : s.get? c with
  | none =>
    simp only [hc, bind_eq_ok, bounded_eq_ok] at h
    obtain ⟨yes, hy, no, hn, hb, rfl⟩ := h
    exact Or.inr ⟨rfl, yes, no, hy, hn, hb, rfl⟩
  | some b => cases b <;> exact Or.inl ⟨_, rfl, by simpa [hc, branchFor] using h⟩

theorem expandFrom_malformed {condition : Option String} {whenTrue whenFalse : Option Property}
    {arity : Nat} (hm : Malformed condition whenTrue whenFalse arity) {vs : List Variant} :
    expandFrom focus location depth s (.conditional condition whenTrue whenFalse arity) ≠
      .ok vs := by
  intro h
  have hd := Nat.not_lt.mpr (expandFrom_eq_ok_depth h)
  rw [expandFrom, if_neg hd] at h
  · simp at h
  · exact hm

theorem expandFrom_scalar {v : Json} {vs : List Variant} :
    expandFrom focus location depth s (.scalar v) ≠ .ok vs := by
  intro h
  have hd := Nat.not_lt.mpr (expandFrom_eq_ok_depth h)
  simp [hd] at h

theorem expandFrom_list {items : List Property} {vs : List Variant} :
    expandFrom focus location depth s (.list items) ≠ .ok vs := by
  intro h
  have hd := Nat.not_lt.mpr (expandFrom_eq_ok_depth h)
  simp [hd] at h

/-- The object without keys passes no limit: nothing below it is counted. -/
theorem expand_empty_object (location : Location) (group : List String) (limits : Limits) :
    expand (.object []) location group limits = .ok [⟨[], .empty, location⟩] := by
  simp [expand, expandFrom, expandEntries, pure, Except.pure, bind, Except.bind]

end Property

end ExactlyOne
