import ExactlyOne.Proofs.Unfolding

/-!
# Expansion as a function of its limits

An expansion is put together from a few operations, and only two of them look at the limits: one
bounds a list, the other one lets a run begin if it is not too deep. A property of functions of the
limits that all operations keep is a property of every expansion.
-/
namespace ExactlyOne

/-- The operations of an expansion keep the property. -/
structure Compositional (P : {β : Type} → (Limits → Except Obstacle β) → Prop) : Prop where
  ok {β : Type} (a : β) : P fun _ => .ok a
  structural {β : Type} (location : Location) (flaw : Flaw) :
    @P β fun _ => .error (.structural location flaw)
  bind {β γ : Type} {run : Limits → Except Obstacle β} {next : Limits → β → Except Obstacle γ} :
    P run → (∀ a, P fun limits => next limits a) → P fun limits => run limits >>= next limits
  bounded {β : Type} (group : List String) (location : Location) (xs : List β) :
    P fun limits => Focus.bounded ⟨group, limits⟩ location xs
  enter {β : Type} {run inner : Limits → Except Obstacle β} {group : List String}
    {location : Location} {depth : Nat} : P inner →
    (∀ limits, depth ≤ limits.maxDepth → run limits = inner limits) →
    (∀ limits, limits.maxDepth < depth →
      run limits = .error (Focus.tooDeep ⟨group, limits⟩ location)) → P run

namespace Compositional

open Property

variable {P : {β : Type} → (Limits → Except Obstacle β) → Prop} (hP : Compositional P)
  {α β γ : Type} (group : List String) (location : Location)

include hP

theorem map {run : Limits → Except Obstacle α} (h : P run) (f : α → β) :
    P fun limits => (run limits).map f := by
  have hbind : P fun limits => run limits >>= fun a => .ok (f a) :=
    hP.bind h fun a => hP.ok (f a)
  have heq : (fun limits => run limits >>= fun a => .ok (f a)) =
      fun limits => (run limits).map f := by
    funext limits
    cases run limits <;> rfl
  exact heq ▸ hbind

theorem appendEach {step : Limits → Scenario → Except Obstacle (List Resolution)}
    (h : ∀ s, P fun limits => step limits s) (item : Property → α)
    (partials : List (Scenario × List α)) :
    P fun limits => Property.appendEach (step limits) item partials := by
  induction partials with
  | nil => exact hP.ok []
  | cons p rest ih => exact hP.bind (h p.1) fun rs => hP.bind ih fun later => hP.ok _

theorem runStages {run : Limits → γ → Scenario → Except Obstacle (List Resolution)} {xs : List γ}
    (h : ∀ x ∈ xs, ∀ s, P fun limits => run limits x s) (add : γ → Property → α)
    (partials : List (Scenario × List α)) :
    P fun limits => Property.runStages ⟨group, limits⟩ location (run limits) add xs partials := by
  induction xs generalizing partials with
  | nil => exact hP.ok partials
  | cons x rest ih =>
    obtain ⟨hx, hrest⟩ := List.forall_mem_cons.mp h
    refine hP.bind (hP.appendEach hx (add x) partials) fun next => ?_
    exact hP.bind (hP.bounded group location next) fun next => ih hrest next

theorem fork {run : Limits → Bool → Scenario → Except Obstacle (List β)}
    (h : ∀ b s, P fun limits => run limits b s) (c : String) (s : Scenario) :
    P fun limits => Property.fork ⟨group, limits⟩ location c s (run limits) := by
  unfold Property.fork
  cases s.get? c with
  | some outcome => exact h outcome s
  | none =>
    refine hP.bind (h true _) fun yes => hP.bind (h false _) fun no => ?_
    exact hP.bounded group location (yes ++ no)

theorem resolve_of_within {value : Property} {depth : Nat} {s : Scenario}
    {inner : Limits → Except Obstacle (List Resolution)} (h : P inner)
    (heq : ∀ limits : Limits, depth ≤ limits.maxDepth →
      Property.resolve ⟨group, limits⟩ location depth s value = inner limits) :
    P fun limits => Property.resolve ⟨group, limits⟩ location depth s value :=
  hP.enter h heq fun _ hd => resolve_beyond hd value

theorem expandFrom_of_within {value : Property} {depth : Nat} {s : Scenario}
    {inner : Limits → Except Obstacle (List Variant)} (h : P inner)
    (heq : ∀ limits : Limits, depth ≤ limits.maxDepth →
      Property.expandFrom ⟨group, limits⟩ location depth s value = inner limits) :
    P fun limits => Property.expandFrom ⟨group, limits⟩ location depth s value :=
  hP.enter h heq fun _ hd => expandFrom_beyond hd value

theorem resolve (value : Property) (depth : Nat) (s : Scenario) :
    P fun limits => Property.resolve ⟨group, limits⟩ location depth s value := by
  induction value using Property.induction generalizing location depth s with
  | scalar v =>
    exact hP.resolve_of_within group location (hP.ok _) fun limits hd => resolve_scalar_eq hd v
  | removed =>
    exact hP.resolve_of_within group location (hP.ok _) fun limits hd => resolve_removed_eq hd
  | malformed condition whenTrue whenFalse arity hm _ =>
    apply hP.resolve_of_within group location (hP.structural _ _)
    intro limits hd
    exact resolve_malformed_eq hd hm
  | choice c t f ih =>
    have hfork := hP.fork group location
      (fun b s => ih b (location.branch b) (depth + 1) s) c s
    exact hP.resolve_of_within group location hfork fun limits hd => resolve_choice_eq hd c t f
  | list items ih =>
    have hitem : ∀ item ∈ items.zipIdx, ∀ s, P fun limits =>
        runItem ⟨group, limits⟩ location (depth + 1) item s := fun item hi s =>
      ih item.1 (List.fst_mem_of_mem_zipIdx hi) _ _ s
    have hrun := hP.runStages group location hitem (fun _ => id) [(s, [])]
    exact hP.resolve_of_within group location (hP.map hrun _) fun limits hd =>
      resolve_list_eq hd items
  | object entries ih =>
    have hentry : ∀ entry ∈ entries, ∀ s, P fun limits =>
        runEntry ⟨group, limits⟩ location (depth + 1) entry s := fun entry he s =>
      ih entry he _ _ s
    have hrun := hP.runStages group location hentry (fun entry => (entry.1, ·)) [(s, [])]
    exact hP.resolve_of_within group location (hP.map hrun _) fun limits hd =>
      resolve_object_eq hd entries

theorem expandValue (entry : String × Property) (depth : Nat) (s : Scenario) :
    P fun limits => Property.expandValue ⟨group, limits⟩ location depth entry.1 entry.2 s := by
  by_cases hg : entry.1 ∈ group
  · simpa only [Property.expandValue, hg, if_true] using hP.resolve group _ entry.2 depth s
  · simpa only [Property.expandValue, hg, if_false] using hP.ok _

theorem expandFrom (value : Property) (depth : Nat) (s : Scenario) :
    P fun limits => Property.expandFrom ⟨group, limits⟩ location depth s value := by
  induction value using Property.induction generalizing location depth s with
  | scalar v =>
    apply hP.expandFrom_of_within group location (hP.structural _ _)
    intro limits hd
    exact expandFrom_scalar_eq hd v
  | list items _ =>
    apply hP.expandFrom_of_within group location (hP.structural _ _)
    intro limits hd
    exact expandFrom_list_eq hd items
  | removed =>
    exact hP.expandFrom_of_within group location (hP.ok _) fun limits hd =>
      expandFrom_removed_eq hd
  | malformed condition whenTrue whenFalse arity hm _ =>
    apply hP.expandFrom_of_within group location (hP.structural _ _)
    intro limits hd
    exact expandFrom_malformed_eq hd hm
  | choice c t f ih =>
    have hfork := hP.fork group location
      (fun b s => ih b (location.branch b) (depth + 1) s) c s
    exact hP.expandFrom_of_within group location hfork fun limits hd =>
      expandFrom_choice_eq hd c t f
  | object entries _ =>
    have hentry : ∀ entry ∈ entries, ∀ s, P fun limits =>
        runGroup ⟨group, limits⟩ location (depth + 1) entry s := fun entry _ s =>
      hP.expandValue group _ entry _ s
    have hrun := hP.runStages group location hentry (fun entry => (entry.1, ·)) [(s, [])]
    exact hP.expandFrom_of_within group location (hP.map hrun _) fun limits hd =>
      expandFrom_object_eq hd entries

theorem expand (value : Property) :
    P fun limits => value.expand location group limits :=
  hP.expandFrom group location value 0 .empty

end Compositional

end ExactlyOne
