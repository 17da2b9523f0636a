/-!
Patterns for file names.

A star stands for any characters, a question mark for one, brackets for one of some characters or,
with an exclamation mark, for one of no others. Two stars stand for any number of directories and
must be a whole component of a path.
-/

namespace ExactlyOne

namespace Glob

structure CharRange where
  first : Char
  last : Char
  deriving DecidableEq, Repr

inductive Token where
  | char (c : Char)
  | anyChar
  | anyText
  | anyDirectories
  | oneOf (ranges : List CharRange)
  | noneOf (ranges : List CharRange)
  deriving DecidableEq, Repr

inductive Flaw where
  | stars
  | recursiveStars
  | range
  deriving DecidableEq, Repr

def Flaw.message : Flaw → String
  | .stars => "wildcards are either regular `*` or recursive `**`"
  | .recursiveStars => "recursive wildcards must form a single path component"
  | .range => "invalid range pattern"

structure PatternFault where
  position : Nat
  flaw : Flaw
  deriving DecidableEq, Repr

def PatternFault.message (fault : PatternFault) : String :=
  "Pattern syntax error near position " ++ toString fault.position ++ ": " ++ fault.flaw.message

/-- Whether a text is a pattern and not the name of a file. -/
def isPattern (s : String) : Bool := s.toList.any fun c => "*?[\x7b".toList.contains c

def ranges : List Char → List CharRange
  | a :: '-' :: b :: rest => ⟨a, b⟩ :: ranges rest
  | a :: rest => ⟨a, a⟩ :: ranges rest
  | [] => []

/-- The text up to the first closing bracket after its first character, and the rest. -/
def bracketBody : List Char → Option (List Char × List Char)
  | [] => none
  | first :: rest =>
    if rest.contains ']' then
      let body := rest.takeWhile (· != ']')
      some (first :: body, rest.drop (body.length + 1))
    else none

def bracketToken (s : List Char) : Option (Token × Nat × List Char) :=
  match s with
  | '!' :: rest =>
    (bracketBody rest).map fun (body, after) => (.noneOf (ranges body), body.length + 3, after)
  | rest =>
    (bracketBody rest).map fun (body, after) => (.oneOf (ranges body), body.length + 2, after)

/-- The tokens from a position on; `before` is the character in front of it. -/
def tokensFrom : (fuel : Nat) → (before : Option Char) → (position : Nat) → List Char →
    Except PatternFault (List Token)
  | 0, _, _, _ => .ok []
  | _ + 1, _, _, [] => .ok []
  | fuel + 1, before, position, '*' :: rest =>
    match (rest.takeWhile (· == '*')).length with
    | 0 => (tokensFrom fuel (some '*') (position + 1) rest).map (.anyText :: ·)
    | 1 =>
      let after := rest.drop 1
      if before.any (· != '/') then .error ⟨position - 1, .recursiveStars⟩
      else match after with
        | [] => .ok [.anyDirectories]
        | c :: tail =>
          if c = '/' then
            (tokensFrom fuel (some '/') (position + 3) tail).map (.anyDirectories :: ·)
          else .error ⟨position + 2, .recursiveStars⟩
    | _ => .error ⟨position + 2, .stars⟩
  | fuel + 1, _, position, '[' :: rest =>
    match bracketToken rest with
    | some (token, size, after) =>
      (tokensFrom fuel (some ']') (position + size) after).map (token :: ·)
    | none => .error ⟨position, .range⟩
  | fuel + 1, _, position, c :: rest =>
    let token := if c = '?' then Token.anyChar else Token.char c
    (tokensFrom fuel (some c) (position + 1) rest).map (token :: ·)

def tokens (pattern : String) : Except PatternFault (List Token) :=
  tokensFrom (pattern.length + 1) none 0 pattern.toList

def CharRange.holds (range : CharRange) (c : Char) : Bool := range.first ≤ c && c ≤ range.last

def Token.holds (c : Char) : Token → Bool
  | .char d => c == d
  | .anyChar => true
  | .oneOf ranges => ranges.any (·.holds c)
  | .noneOf ranges => !ranges.any (·.holds c)
  | .anyText => false
  | .anyDirectories => false

/-- Whether a name fits some tokens. It is `tooShort` where the name ends before the tokens do, and
then no rest of it fits them either. -/
inductive Fit where
  | whole
  | nowhere
  | tooShort
  deriving DecidableEq, Repr

def firstFit (fit : List Char → Fit) : List Char → Fit
  | [] => fit []
  | c :: rest =>
    match fit (c :: rest) with
    | .nowhere => firstFit fit rest
    | settled => settled

/-- How a name fits some tokens. What is behind a text of any length is never `nowhere`, so no rest
is tried in two ways. -/
def fitOf : List Token → List Char → Fit
  | [], [] => .whole
  | [], _ :: _ => .nowhere
  | .anyText :: tokens, name => firstFit (fitOf tokens) name
  | .anyDirectories :: tokens, name => firstFit (fitOf tokens) name
  | _ :: _, [] => .tooShort
  | token :: tokens, c :: name => if token.holds c then fitOf tokens name else .nowhere

def fits (tokens : List Token) (name : List Char) : Bool := fitOf tokens name == .whole

def literal? : List Token → Option (List Char)
  | [] => some []
  | .char c :: tokens => (literal? tokens).map (c :: ·)
  | _ :: _ => none

inductive Component where
  | name (literal : String)
  | wild (tokens : List Token)
  | directories
  deriving DecidableEq, Repr

def Component.ofTokens (tokens : List Token) : Component :=
  if tokens.contains .anyDirectories then .directories
  else match literal? tokens with
    | some literal => .name (String.ofList literal)
    | none => .wild tokens

def Component.fits (s : String) : Component → Bool
  | .name literal => s == literal
  | .wild tokens => Glob.fits tokens s.toList
  | .directories => true

/-- A whole pattern: where the search begins, the components, and whether only directories count. -/
structure Pattern where
  start : String
  components : List Component
  directoriesOnly : Bool
  deriving DecidableEq, Repr

/-- The parts between slashes; a slash at the end has nothing behind it. -/
def splitPath (s : String) : List String :=
  match (s.splitOn "/").reverse with
  | "" :: parts => parts.reverse
  | parts => parts.reverse

def Pattern.parse (s : String) : Except PatternFault Pattern := do
  let _ ← tokens s
  let (start, rest) := match s.toList with
    | '/' :: rest => ("/", String.ofList rest)
    | _ => (".", s)
  let components ← (splitPath rest).mapM tokens
  pure ⟨start, components.map Component.ofTokens, s.endsWith "/"⟩

end Glob

end ExactlyOne
