import ExactlyOne.Proofs.Cover

/-!
# Going through items and keys in stages

The items of a list, the entries of an object and the keys of a group are all gone through in one
way: stage after stage, and each of them under every scenario that the stages before it reached.
If all goes well, an assignment that is contained in a starting scenario is contained in a scenario
of every stage (`exists_run_of_runStages`). If not, the number of results has passed its bound, or
one of the stages failed under a scenario that was reached (`runStages_error`).
-/
namespace ExactlyOne

theorem bind_eq_error {ε α β : Type} {x : Except ε α} {k : α → Except ε β} {e : ε} :
    x >>= k = .error e ↔ x = .error e ∨ ∃ a, x = .ok a ∧ k a = .error e := by
  cases x <;> simp [bind, Except.bind]

namespace Property

variable {α γ : Type} {σ : Assignment} {focus : Focus} {location : Location} {depth : Nat}
  {e : Obstacle}

/-- Runs a stage for each thing in a list; a value that it gives is added to the result. -/
def runStages (focus : Focus) (location : Location)
    (run : γ → Scenario → Except Obstacle (List Resolution)) (add : γ → Property → α) :
    List γ → List (Scenario × List α) → Except Obstacle (List (Scenario × List α))
  | [], partials => .ok partials
  | x :: rest, partials => do
    let next ← focus.bounded location (← appendEach (run x) (add x) partials)
    runStages focus location run add rest next

/-! ## The stages of lists and objects -/

def runItem (focus : Focus) (location : Location) (depth : Nat) (item : Property × Nat)
    (s : Scenario) : Except Obstacle (List Resolution) :=
  resolve focus (location.index item.2) depth s item.1

def runEntry (focus : Focus) (location : Location) (depth : Nat) (entry : String × Property)
    (s : Scenario) : Except Obstacle (List Resolution) :=
  resolve focus (location.key entry.1) depth s entry.2

def runGroup (focus : Focus) (location : Location) (depth : Nat) (entry : String × Property) :
    Scenario → Except Obstacle (List Resolution) :=
  expandValue focus location depth entry.1 entry.2

theorem resolveItems_eq_runStages (depth position : Nat) (items : List Property)
    (partials : List (Scenario × List Property)) :
    resolveItems focus location depth position partials items =
      runStages focus location (runItem focus location depth) (fun _ => id)
        (items.zipIdx position) partials := by
  induction items generalizing position partials with
  | nil => rw [resolveItems]; rfl
  | cons item rest ih =>
    rw [resolveItems]
    simp only [ih]
    rfl

theorem resolveEntries_eq_runStages (depth : Nat) (entries : List (String × Property))
    (partials : List (Scenario × List (String × Property))) :
    resolveEntries focus location depth partials entries =
      runStages focus location (runEntry focus location depth) (fun entry => (entry.1, ·))
        entries partials := by
  induction entries generalizing partials with
  | nil => rw [resolveEntries]; rfl
  | cons entry rest ih =>
    rw [resolveEntries]
    simp only [ih]
    rfl

theorem expandEntries_eq_runStages (depth : Nat) (entries : List (String × Property))
    (partials : List (Scenario × List (String × Property))) :
    expandEntries focus location depth partials entries =
      runStages focus location (runGroup focus location depth) (fun entry => (entry.1, ·))
        entries partials := by
  induction entries generalizing partials with
  | nil => rfl
  | cons entry rest ih =>
    rw [expandEntries]
    simp only [ih]
    rfl

/-! ## Under every assignment a stage leaves one result -/

/-- Under each assignment every stage determines what it gives. -/
def Determined (run : γ → Scenario → Except Obstacle (List Resolution)) : Prop :=
  ∀ x σ, ∃ outcome, Determines σ (run x) outcome

theorem determined_runItem : Determined (runItem focus location depth) :=
  fun item _ => ⟨_, resolve_under item.1 _ _⟩

theorem determined_runEntry : Determined (runEntry focus location depth) :=
  fun entry _ => ⟨_, resolve_under entry.2 _ _⟩

theorem determined_runGroup : Determined (runGroup focus location depth) :=
  fun entry _ => ⟨_, expandValue_under entry.1 entry.2⟩

/-- One of the partial results has a scenario that the assignment contains. -/
def Reached (σ : Assignment) (partials : List (Scenario × List α)) : Prop :=
  ∃ p ∈ partials, p.1.ContainedIn σ

theorem reached_iff_under {partials : List (Scenario × List α)} :
    Reached σ partials ↔ under σ partials ≠ [] := by
  simp [Reached, under]

theorem reached_singleton {s : Scenario} {done : List α} :
    Reached σ [(s, done)] ↔ s.ContainedIn σ := by
  simp [Reached]

variable {run : γ → Scenario → Except Obstacle (List Resolution)} {add : γ → Property → α}

theorem Determined.reached_iff (hd : Determined run) {x : γ}
    {partials next : List (Scenario × List α)} {item : Property → α}
    (h : appendEach (run x) item partials = .ok next) : Reached σ next ↔ Reached σ partials := by
  obtain ⟨outcome, ho⟩ := hd x σ
  rw [reached_iff_under, reached_iff_under, appendEach_under ho h]
  simp

theorem exists_run_of_appendEach {step : Scenario → Except Obstacle (List Resolution)}
    {item : Property → α} {partials next : List (Scenario × List α)}
    (h : appendEach step item partials = .ok next) {p : Scenario × List α} (hp : p ∈ partials) :
    ∃ rs, step p.1 = .ok rs := by
  induction partials generalizing next with
  | nil => simp at hp
  | cons first rest ih =>
    obtain ⟨rs, later, hrs, hl, -⟩ := appendEach_cons_eq_ok.mp h
    rcases List.mem_cons.mp hp with rfl | hp
    · exact ⟨rs, hrs⟩
    · exact ih hl hp

theorem runStages_append (xs ys : List γ) (partials : List (Scenario × List α)) :
    runStages focus location run add (xs ++ ys) partials =
      runStages focus location run add xs partials >>= runStages focus location run add ys := by
  induction xs generalizing partials with
  | nil => rfl
  | cons x rest ih =>
    simp only [List.cons_append, runStages, ih, bind_assoc]

theorem Determined.reached_of_runStages (hd : Determined run) {xs : List γ}
    {partials out : List (Scenario × List α)}
    (h : runStages focus location run add xs partials = .ok out) (hr : Reached σ partials) :
    Reached σ out := by
  induction xs generalizing partials with
  | nil =>
    obtain rfl : partials = out := Except.ok.inj h
    exact hr
  | cons x rest ih =>
    obtain ⟨next, hn, -, h⟩ := bind_bounded_eq_ok h
    exact ih h ((hd.reached_iff hn).mpr hr)

theorem exists_reached_stage {before after : List γ} {x : γ}
    {partials out : List (Scenario × List α)}
    (h : runStages focus location run add (before ++ x :: after) partials = .ok out)
    (hd : Determined run) (hr : Reached σ partials) :
    ∃ reached p rs, runStages focus location run add before partials = .ok reached ∧
      p ∈ reached ∧ p.1.ContainedIn σ ∧ run x p.1 = .ok rs := by
  rw [runStages_append] at h
  obtain ⟨reached, hb, h⟩ := bind_eq_ok.mp h
  obtain ⟨next, hn, -, -⟩ := bind_bounded_eq_ok h
  obtain ⟨p, hp, hc⟩ := hd.reached_of_runStages hb hr
  obtain ⟨rs, hrs⟩ := exists_run_of_appendEach hn hp
  exact ⟨reached, p, rs, hb, hp, hc, hrs⟩

theorem exists_run_of_runStages {xs : List γ} {partials out : List (Scenario × List α)}
    (h : runStages focus location run add xs partials = .ok out) (hd : Determined run)
    (hr : Reached σ partials) {x : γ} (hx : x ∈ xs) :
    ∃ s, s.ContainedIn σ ∧ ∃ rs, run x s = .ok rs := by
  obtain ⟨before, after, rfl⟩ := List.append_of_mem hx
  obtain ⟨reached, p, rs, -, -, hc, hrs⟩ := exists_reached_stage h hd hr
  exact ⟨p.1, hc, rs, hrs⟩

/-! ## Where it fails -/

theorem bounded_eq_error {β : Type} {xs : List β} :
    focus.bounded location xs = .error e ↔
      focus.limits.maxVariants < xs.length ∧ e = focus.tooMany location := by
  unfold Focus.bounded
  by_cases h : focus.limits.maxVariants < xs.length <;> simp [h, eq_comm]

theorem appendEach_error {step : Scenario → Except Obstacle (List Resolution)}
    {item : Property → α} {partials : List (Scenario × List α)}
    (h : appendEach step item partials = .error e) : ∃ p ∈ partials, step p.1 = .error e := by
  induction partials with
  | nil => simp [appendEach] at h
  | cons first rest ih =>
    rcases bind_eq_error.mp h with h | ⟨rs, -, h⟩
    · exact ⟨first, List.mem_cons_self, h⟩
    · rcases bind_eq_error.mp h with h | ⟨later, -, h⟩
      · obtain ⟨p, hp, he⟩ := ih h
        exact ⟨p, List.mem_cons_of_mem _ hp, he⟩
      · simp [pure, Except.pure] at h

theorem runStages_error {xs : List γ} {partials : List (Scenario × List α)}
    (h : runStages focus location run add xs partials = .error e) (hd : Determined run) :
    e = focus.tooMany location ∨ ∃ x ∈ xs, ∃ s, run x s = .error e ∧
      ∀ σ, s.ContainedIn σ → Reached σ partials := by
  induction xs generalizing partials with
  | nil => simp [runStages] at h
  | cons first rest ih =>
    rcases bind_eq_error.mp h with ha | ⟨next, hn, h⟩
    · obtain ⟨p, hp, he⟩ := appendEach_error ha
      exact Or.inr ⟨first, List.mem_cons_self, p.1, he, fun σ hσ => ⟨p, hp, hσ⟩⟩
    · rcases bind_eq_error.mp h with hb | ⟨bounded, hb, hrest⟩
      · exact Or.inl (bounded_eq_error.mp hb).2
      · obtain ⟨-, rfl⟩ := bounded_eq_ok.mp hb
        rcases ih hrest with he | ⟨x, hx, s, he, hs⟩
        · exact Or.inl he
        · exact Or.inr ⟨x, List.mem_cons_of_mem _ hx, s, he, fun σ hσ =>
            (hd.reached_iff hn).mp (hs σ hσ)⟩

end Property

end ExactlyOne
