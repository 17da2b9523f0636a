import ExactlyOne.Filter.Run
import ExactlyOne.Glob.Search

/-!
What a run leaves to others: to find the files that fit a pattern, and to run filters.

A run can be made with any tools. The program has tools of its own, which find files by asking the
host and know a fragment of the filter language.
-/

namespace ExactlyOne

structure Tools (m : Type → Type) where
  /-- What a search finds, one path after the other, each perhaps with an error in its place; or why
  the text is no pattern. -/
  glob : (pattern : String) → m (Except String (List (Except String String)))
  language : Filter.Language

def Tools.own {m : Type → Type} [Monad m] (host : Host m) : Tools m where
  glob := Glob.paths host
  language := Filter.fragment

end ExactlyOne
