import ExactlyOne.Obstacle
import ExactlyOne.Scenario

/-!
The variants of an object: the shapes that it takes under the outcomes of conditions.

`Property.expand` follows the conditionals around an object and inside the values of a group of
its keys, and forks wherever a condition is not fixed yet. The values of the other keys are only
settled: their conditionals are decided where the scenario fixes them and kept where it does not.
-/

namespace ExactlyOne

structure Variant where
  entries : List (String × Property)
  scenario : Scenario
  location : Location
  deriving Repr

/-- How many of the names are keys of the object; a repeated name counts again. -/
def Variant.count (variant : Variant) (names : List String) : Nat :=
  names.countP fun name => Entries.contains name variant.entries

structure Focus where
  group : List String
  limits : Limits
  deriving DecidableEq, Repr

namespace Focus

def tooDeep (focus : Focus) (location : Location) : Obstacle :=
  .limit location focus.group focus.limits.maxDepth .nesting

def tooMany (focus : Focus) (location : Location) : Obstacle :=
  .limit location focus.group focus.limits.maxVariants .variants

def bounded {α : Type} (focus : Focus) (location : Location) (variants : List α) :
    Except Obstacle (List α) :=
  if focus.limits.maxVariants < variants.length then .error (focus.tooMany location)
  else .ok variants

end Focus

namespace Property

/-! ## Settling -/

mutual

/-- The value with every conditional decided whose condition is fixed; nothing if it is removed.
Removed items and entries are left out. -/
def settle (scenario : Scenario) : Property → Option Property
  | .scalar value => some (.scalar value)
  | .list items => some (.list (settleItems scenario items))
  | .object entries => some (.object (settleEntries scenario entries))
  | .conditional (some c) (some t) (some f) 3 =>
    match scenario.get? c with
    | some true => settle scenario t
    | some false => settle scenario f
    | none => some (choice c t f)
  | .conditional condition whenTrue whenFalse arity =>
    some (.conditional condition whenTrue whenFalse arity)
  | .removed => none

def settleItems (scenario : Scenario) : List Property → List Property
  | [] => []
  | item :: rest => (settle scenario item).toList ++ settleItems scenario rest

def settleEntries (scenario : Scenario) : List (String × Property) → List (String × Property)
  | [] => []
  | (key, value) :: rest =>
    ((settle scenario value).map (key, ·)).toList ++ settleEntries scenario rest

end

/-! ## Resolving -/

abbrev Resolution := Scenario × Option Property

/-- Appends to each partial result what a step gives under its scenario. -/
def appendEach {α : Type} (step : Scenario → Except Obstacle (List Resolution))
    (item : Property → α) :
    List (Scenario × List α) → Except Obstacle (List (Scenario × List α))
  | [] => .ok []
  | (scenario, done) :: rest => do
    let resolutions ← step scenario
    let later ← appendEach step item rest
    pure (resolutions.map (fun (s, value) => (s, done ++ (value.map item).toList)) ++ later)

mutual

/-- The values without conditionals that a value has under a scenario and its extensions. A fork
puts the scenarios in which the condition is true first. -/
def resolve (focus : Focus) (location : Location) (depth : Nat) (scenario : Scenario)
    (value : Property) : Except Obstacle (List Resolution) :=
  if focus.limits.maxDepth < depth then .error (focus.tooDeep location)
  else match value with
    | .scalar value => .ok [(scenario, some (.scalar value))]
    | .list items => do
      let partials ← resolveItems focus location (depth + 1) 0 [(scenario, [])] items
      pure (partials.map fun (s, items) => (s, some (.list items)))
    | .object entries => do
      let partials ← resolveEntries focus location (depth + 1) [(scenario, [])] entries
      pure (partials.map fun (s, entries) => (s, some (.object entries)))
    | .conditional (some c) (some t) (some f) 3 =>
      match scenario.get? c with
      | some true => resolve focus (location.branch true) (depth + 1) scenario t
      | some false => resolve focus (location.branch false) (depth + 1) scenario f
      | none => do
        let yes ← resolve focus (location.branch true) (depth + 1) (scenario.assign c true) t
        let no ← resolve focus (location.branch false) (depth + 1) (scenario.assign c false) f
        focus.bounded location (yes ++ no)
    | .conditional condition whenTrue _ arity =>
      .error (.structural location (.malformed (malformation condition whenTrue arity)))
    | .removed => .ok [(scenario, none)]

def resolveItems (focus : Focus) (location : Location) (depth position : Nat)
    (partials : List (Scenario × List Property)) (items : List Property) :
    Except Obstacle (List (Scenario × List Property)) :=
  match items with
  | [] => .ok partials
  | item :: rest => do
    let step := fun scenario => resolve focus (location.index position) depth scenario item
    let next ← focus.bounded location (← appendEach step id partials)
    resolveItems focus location depth (position + 1) next rest

def resolveEntries (focus : Focus) (location : Location) (depth : Nat)
    (partials : List (Scenario × List (String × Property)))
    (entries : List (String × Property)) :
    Except Obstacle (List (Scenario × List (String × Property))) :=
  match entries with
  | [] => .ok partials
  | (key, value) :: rest => do
    let step := fun scenario => resolve focus (location.key key) depth scenario value
    let next ← focus.bounded location (← appendEach step (key, ·) partials)
    resolveEntries focus location depth next rest

end

/-! ## Expanding -/

/-- The value of a key of the expanded object: resolved for a key of the group, settled for any
other. -/
def expandValue (focus : Focus) (location : Location) (depth : Nat) (key : String)
    (value : Property) (scenario : Scenario) : Except Obstacle (List Resolution) :=
  if key ∈ focus.group then resolve focus (location.key key) depth scenario value
  else .ok [(scenario, settle scenario value)]

def expandEntries (focus : Focus) (location : Location) (depth : Nat)
    (partials : List (Scenario × List (String × Property))) :
    List (String × Property) → Except Obstacle (List (Scenario × List (String × Property)))
  | [] => .ok partials
  | (key, value) :: rest => do
    let step := expandValue focus location depth key value
    let next ← focus.bounded location (← appendEach step (key, ·) partials)
    expandEntries focus location depth next rest

/-- The variants of an object under a scenario and its extensions. -/
def expandFrom (focus : Focus) (location : Location) (depth : Nat) (scenario : Scenario)
    (value : Property) : Except Obstacle (List Variant) :=
  if focus.limits.maxDepth < depth then .error (focus.tooDeep location)
  else match value with
    | .object entries => do
      let partials ← expandEntries focus location (depth + 1) [(scenario, [])] entries
      pure (partials.map fun (s, entries) => ⟨entries, s, location⟩)
    | .conditional (some c) (some t) (some f) 3 =>
      match scenario.get? c with
      | some true => expandFrom focus (location.branch true) (depth + 1) scenario t
      | some false => expandFrom focus (location.branch false) (depth + 1) scenario f
      | none => do
        let yes ← expandFrom focus (location.branch true) (depth + 1) (scenario.assign c true) t
        let no ← expandFrom focus (location.branch false) (depth + 1) (scenario.assign c false) f
        focus.bounded location (yes ++ no)
    | .conditional condition whenTrue _ arity =>
      .error (.structural location (.malformed (malformation condition whenTrue arity)))
    | .removed => .ok []
    | .scalar value => .error (.structural location (.notObject (kind (.scalar value))))
    | .list items => .error (.structural location (.notObject (kind (.list items))))

/-- The variants of an object; none if it is removed under every scenario. -/
def expand (value : Property) (location : Location) (group : List String) (limits : Limits) :
    Except Obstacle (List Variant) :=
  expandFrom ⟨group, limits⟩ location 0 .empty value

end Property

end ExactlyOne
