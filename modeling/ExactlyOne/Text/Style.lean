/-!
Styles of a text on a terminal.
-/

namespace ExactlyOne

inductive Style where
  | bold
  | dimmed
  | boldRed
  | boldYellow
  deriving DecidableEq, Repr

inductive Palette where
  | plain
  | ansi
  deriving DecidableEq, Repr

namespace Style

def code : Style → String
  | .bold => "1"
  | .dimmed => "2"
  | .boldRed => "1;31"
  | .boldYellow => "1;33"

def start (style : Style) : String := "\x1b[" ++ style.code ++ "m"

def reset : String := "\x1b[0m"

/-- Begins a style again behind every end of styles inside a text. -/
def resume (style : Style) : List Char → List Char
  | '\x1b' :: '[' :: '0' :: 'm' :: rest =>
    reset.toList ++ style.start.toList ++ resume style rest
  | c :: rest => c :: resume style rest
  | [] => []

end Style

def Palette.paint (palette : Palette) (style : Style) (s : String) : String :=
  match palette with
  | .plain => s
  | .ansi => style.start ++ String.ofList (style.resume s.toList) ++ Style.reset

end ExactlyOne
