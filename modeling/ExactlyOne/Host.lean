import ExactlyOne.Text.Byte

/-!
What a run asks of the system that it runs on.

A `Host` answers in a monad of its own, so that the same run can work on real files and on a tree
of files that is only a value.
-/

namespace ExactlyOne

inductive OsError where
  | notFound
  | alreadyExists
  | notDirectory
  | isDirectory
  | nameTooLong
  | nulInName
  | other (message : String)
  deriving DecidableEq, Repr

def OsError.message : OsError → String
  | .notFound => "No such file or directory (os error 2)"
  | .alreadyExists => "File exists (os error 17)"
  | .notDirectory => "Not a directory (os error 20)"
  | .isDirectory => "Is a directory (os error 21)"
  | .nameTooLong => "File name too long (os error 36)"
  | .nulInName => "file name contained an unexpected NUL byte"
  | .other message => message

inductive FileKind where
  | file
  | directory
  deriving DecidableEq, Repr

structure Host (m : Type → Type) where
  read : String → m (Except OsError (List UInt8))
  kind? : String → m (Option FileKind)
  /-- The names in a directory, in any order. -/
  list : String → m (Except OsError (List String))
  /-- Writes a file; the directories in front of it are made where they are missing. -/
  write : String → String → m (Except OsError Unit)

def Host.isDirectory {m : Type → Type} [Monad m] (host : Host m) (path : String) : m Bool := do
  pure ((← host.kind? path) == some .directory)

def joinPath (directory name : String) : String :=
  if directory.isEmpty || directory.endsWith "/" then directory ++ name
  else directory ++ "/" ++ name

end ExactlyOne
