import ExactlyOne.Json.Reader

/-!
Passing over a JSON value whose content does not matter.

Numbers and strings are looked at less closely than by a reader that keeps them: any four
hexadecimal digits will do in an escape, and a number may have any size. A value may be nested to
any depth.
-/

namespace ExactlyOne

namespace Json

inductive SkipState where
  | plain
  | escape
  /-- Some of four hexadecimal digits are passed; whether all of them were digits. -/
  | hex (digits : Nat) (good : Bool)
  deriving DecidableEq, Repr

def skipText : SkipState → List UInt8 → Except Failure (List UInt8)
  | _, [] => .error (.before .endInText [])
  | .plain, b :: rest =>
    if b = Byte.quote then .ok rest
    else if b = Byte.backslash then skipText .escape rest
    else if Byte.isControl b then .error (.before .controlCharacter (b :: rest))
    else skipText .plain rest
  | .escape, b :: rest =>
    if b = Byte.ofChar 'u' then skipText (.hex 0 true) rest
    else if (shortEscape? b).isSome then skipText .plain rest
    else .error (.before .malformedEscape rest)
  | .hex digits good, b :: rest =>
    let good := good && (Byte.hexValue? b).isSome
    if digits < 3 then skipText (.hex (digits + 1) good) rest
    else if good then skipText .plain rest
    else .error (.before .malformedEscape rest)

def skipDigits (s : List UInt8) : List UInt8 := s.dropWhile Byte.isDigit

def skipExponent (s : List UInt8) : Except Failure (List UInt8) :=
  let s := match s with
    | b :: rest => if b = Byte.plus ∨ b = Byte.minus then rest else s
    | [] => s
  match s with
  | [] => .error (.before .malformedNumber [])
  | b :: rest =>
    if Byte.isDigit b then .ok (skipDigits rest) else .error (.before .malformedNumber rest)

def skipOptionalExponent (s : List UInt8) : Except Failure (List UInt8) :=
  match s with
  | b :: rest => if Byte.isExponentMark b then skipExponent rest else .ok s
  | [] => .ok s

def skipNumberTail (s : List UInt8) : Except Failure (List UInt8) :=
  match s with
  | [] => .ok []
  | b :: rest =>
    if b = Byte.point then
      if (rest.takeWhile Byte.isDigit).isEmpty then .error (.behind .malformedNumber rest)
      else skipOptionalExponent (skipDigits rest)
    else skipOptionalExponent s

def skipNumber (s : List UInt8) : Except Failure (List UInt8) :=
  match s with
  | [] => .error (.before .malformedNumber [])
  | b :: rest =>
    if b = Byte.ofChar '0' then
      match rest with
      | d :: _ => if Byte.isDigit d then .error (.behind .malformedNumber rest)
        else skipNumberTail rest
      | [] => .ok []
    else if Byte.isDigit b then skipNumberTail (skipDigits rest)
    else .error (.before .malformedNumber rest)

def skipScalar (b : UInt8) (rest : List UInt8) : Except Failure (List UInt8) :=
  if b = Byte.ofChar 'n' then readWord (utf8 "ull") rest
  else if b = Byte.ofChar 't' then readWord (utf8 "rue") rest
  else if b = Byte.ofChar 'f' then readWord (utf8 "alse") rest
  else if b = Byte.minus then skipNumber rest
  else if Byte.isDigit b then skipNumber (b :: rest)
  else if b = Byte.quote then skipText .plain rest
  else .error (.behind .noValue (b :: rest))

def skipAfterItem (s : List UInt8) : Except Failure (AfterItem × List UInt8) :=
  match skipSpace s with
  | [] => .error (.behind .endInList [])
  | b :: rest =>
    if b = Byte.closeBracket then .ok (.done, rest)
    else if b = Byte.comma then .ok (.another, rest)
    else .error (.behind .noListEnd (b :: rest))

def skipToKey (s : List UInt8) : Except Failure (List UInt8) :=
  match skipSpace s with
  | [] => .error (.behind .endInObject [])
  | b :: rest => if b = Byte.quote then .ok rest else .error (.behind .keyNotText (b :: rest))

def skipAfterEntry (s : List UInt8) : Except Failure (AfterItem × List UInt8) :=
  match skipSpace s with
  | [] => .error (.behind .endInObject [])
  | b :: rest =>
    if b = Byte.closeBrace then .ok (.done, rest)
    else if b = Byte.comma then do
      let rest ← skipToKey rest
      pure (.another, rest)
    else .error (.behind .noObjectEnd (b :: rest))

mutual

def skipValue : (fuel : Nat) → List UInt8 → Except Failure (List UInt8)
  | 0, s => .error (.before .endInValue s)
  | fuel + 1, s =>
    match skipSpace s with
    | [] => .error (.behind .endInValue [])
    | b :: rest =>
      if b = Byte.openBracket then do
        let (next, rest) ← readFirstItem rest
        match next with
        | .done => pure rest
        | .another => skipItems fuel rest
      else if b = Byte.openBrace then do
        let (next, rest) ← readFirstEntry rest
        match next with
        | .done => pure rest
        | .another => skipPairs fuel rest
      else skipScalar b rest

def skipItems : (fuel : Nat) → List UInt8 → Except Failure (List UInt8)
  | 0, s => .error (.before .endInValue s)
  | fuel + 1, s => do
    let (next, rest) ← skipAfterItem (← skipValue fuel s)
    match next with
    | .done => pure rest
    | .another => skipItems fuel rest

def skipPairs : (fuel : Nat) → List UInt8 → Except Failure (List UInt8)
  | 0, s => .error (.before .endInValue s)
  | fuel + 1, s => do
    let rest ← readColon (← skipText .plain s)
    let (next, rest) ← skipAfterEntry (← skipValue fuel rest)
    match next with
    | .done => pure rest
    | .another => skipPairs fuel rest

end

end Json

end ExactlyOne
