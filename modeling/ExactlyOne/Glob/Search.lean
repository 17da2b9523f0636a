import ExactlyOne.Glob.Pattern
import ExactlyOne.Host

/-!
Finding the files that fit a pattern.

The search goes down the directories from component to component, the names of a directory in
ascending order.
-/

namespace ExactlyOne

namespace Glob

structure Unreadable where
  path : String
  error : OsError
  deriving DecidableEq, Repr

def Unreadable.message (u : Unreadable) : String :=
  "attempting to read `" ++ u.path ++ "` resulted in an error: " ++ u.error.message

/-- No path of more bytes can be opened, so no search goes deeper. -/
def longestPath : Nat := 4096

def ascending (names : List String) : List String := names.mergeSort fun a b => !(b < a)

def isWorking (path : String) : Bool :=
  path.startsWith "." && (path.splitOn "/").all fun part => part = "." || part = ""

/-- The path of a name where the search is; the working directory is left out. -/
def placed (path name : String) : String := if isWorking path then name else joinPath path name

/-- The names for a directory itself and for the one above it that fit a component. They fit only
what begins with a point. -/
def specialNames : Component → List String
  | .wild (.char '.' :: tokens) => ["..", "."].filter (Component.wild (.char '.' :: tokens)).fits
  | _ => []

section

variable {m : Type → Type} [Monad m] (host : Host m) (directoriesOnly : Bool)

def found (path : String) : ExceptT Unreadable m (List String) := do
  if directoriesOnly then
    pure (if ← host.isDirectory path then [path] else [])
  else pure [path]

mutual

def below : (fuel : Nat) → List Component → (path : String) → ExceptT Unreadable m (List String)
  | 0, _, _ => pure []
  | _ + 1, [], path => found host directoriesOnly path
  | fuel + 1, .name literal :: rest, path => do
    let next := placed path literal
    let there ← if literal = "." ∨ literal = ".." then host.isDirectory path
      else do pure (← host.kind? next).isSome
    if there then below fuel rest next else pure []
  | fuel + 1, component :: rest, path => do
    if ← host.isDirectory path then
      match ← host.list path with
      | .error error => throw ⟨path, error⟩
      | .ok names => do
        let special ← (specialNames component).mapM fun name =>
          below fuel rest (joinPath path name)
        let children ← (ascending names).mapM fun name =>
          here fuel (component :: rest) (placed path name) name
        pure (special.flatten ++ children.flatten)
    else pure []

/-- The paths that fit some components, the first of which may be the last name of a path. -/
def here : (fuel : Nat) → List Component → (path name : String) →
    ExceptT Unreadable m (List String)
  | 0, _, _, _ => pure []
  | _ + 1, [], _, _ => pure []
  | fuel + 1, .directories :: rest, path, name => do
    match rest with
    | .directories :: _ => here fuel rest path name
    | [] =>
      if ← host.isDirectory path then do
        let deeper ← below fuel [.directories] path
        pure (path :: deeper)
      else pure []
    | component :: later => do
      let itself ← if component.fits name then
          (if later.isEmpty then found host directoriesOnly path else below fuel later path)
        else pure []
      let deeper ← if ← host.isDirectory path then below fuel (.directories :: rest) path
        else pure []
      pure (itself ++ deeper)
  | fuel + 1, component :: later, path, name => do
    if component.fits name then
      (if later.isEmpty then found host directoriesOnly path else below fuel later path)
    else pure []

end

end

def search {m : Type → Type} [Monad m] (host : Host m) (pattern : Pattern) :
    m (Except Unreadable (List String)) :=
  (below host pattern.directoriesOnly (longestPath + 2 * pattern.components.length + 2)
    pattern.components pattern.start).run

/-- The paths that fit a text as a pattern, or why it is none. A directory that cannot be read takes
the place of all paths. -/
def paths {m : Type → Type} [Monad m] (host : Host m) (text : String) :
    m (Except String (List (Except String String))) :=
  match Pattern.parse text with
  | .error fault => pure (.error fault.message)
  | .ok pattern => do
    match ← search host pattern with
    | .error directory => pure (.ok [.error directory.message])
    | .ok files => pure (.ok (files.map .ok))

end Glob

end ExactlyOne
