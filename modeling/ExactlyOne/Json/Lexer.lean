import ExactlyOne.Json.Failure
import ExactlyOne.Json.Value

/-!
The words of a JSON text: spaces, names, strings and numbers.

A reader takes the bytes that are left and returns what it read with the bytes behind it. A string
is read byte by byte, so that the end of the text is the end of the recursion.
-/

namespace ExactlyOne

namespace Json

def skipSpace (s : List UInt8) : List UInt8 := s.dropWhile Byte.isSpace

def readWord : (word : List UInt8) → List UInt8 → Except Failure (List UInt8)
  | [], s => .ok s
  | _ :: _, [] => .error (.before .endInValue [])
  | w :: word, b :: rest =>
    if b = w then readWord word rest else .error (.before .wrongWord rest)

/-! ## Strings -/

def shortEscape? (b : UInt8) : Option UInt8 :=
  if b = Byte.quote ∨ b = Byte.backslash ∨ b = Byte.slash then some b
  else if b = Byte.ofChar 'b' then some 0x08
  else if b = Byte.ofChar 'f' then some 0x0c
  else if b = Byte.ofChar 'n' then some 0x0a
  else if b = Byte.ofChar 'r' then some 0x0d
  else if b = Byte.ofChar 't' then some 0x09
  else none

def isLeading (unit : Nat) : Bool := 0xd800 ≤ unit && unit ≤ 0xdbff

def isTrailing (unit : Nat) : Bool := 0xdc00 ≤ unit && unit ≤ 0xdfff

def joinSurrogates (lead trail : Nat) : Nat := (lead - 0xd800) * 0x400 + (trail - 0xdc00) + 0x10000

inductive TextState where
  | plain
  | escape
  /-- Some of four hexadecimal digits are read; no value once one of them was none. -/
  | hex (lead : Option Nat) (digits : Nat) (value : Option Nat)
  | pairBackslash (lead : Nat)
  | pairMark (lead : Nat)
  deriving DecidableEq, Repr

def bytesBackwards (c : Char) : List UInt8 := (String.utf8EncodeChar c).reverse

/-- The text of a string, in front of its closing quote. Bytes that write no text are refused behind
the first one that belongs to no character; its place is counted back from the quote over the bytes
for which the string stands. -/
def closeText (bytes fromQuote : List UInt8) : Except Failure String :=
  match ofUtf8? bytes with
  | some s => .ok s
  | none => .error (.behind .notUnicode (dropText bytes ++ fromQuote))

/-- The rest of a string whose first bytes, the last one first, are known. -/
def readText : TextState → (passed : List UInt8) → List UInt8 →
    Except Failure (String × List UInt8)
  | _, _, [] => .error (.before .endInText [])
  | .plain, passed, b :: rest =>
    if b = Byte.quote then do pure (← closeText passed.reverse (b :: rest), rest)
    else if b = Byte.backslash then readText .escape passed rest
    else if Byte.isControl b then .error (.before .controlCharacter rest)
    else readText .plain (b :: passed) rest
  | .escape, passed, b :: rest =>
    if b = Byte.ofChar 'u' then readText (.hex none 0 (some 0)) passed rest
    else match shortEscape? b with
      | some c => readText .plain (c :: passed) rest
      | none => .error (.before .malformedEscape rest)
  | .hex lead digits value, passed, b :: rest =>
    let value := value.bind fun v => (Byte.hexValue? b).map (16 * v + ·)
    if digits < 3 then readText (.hex lead (digits + 1) value) passed rest
    else match value, lead with
      | none, _ => .error (.before .malformedEscape rest)
      | some unit, none =>
        if isTrailing unit then .error (.before .loneSurrogate rest)
        else if isLeading unit then readText (.pairBackslash unit) passed rest
        else readText .plain (bytesBackwards (Char.ofNat unit) ++ passed) rest
      | some unit, some lead =>
        if isTrailing unit then
          readText .plain (bytesBackwards (Char.ofNat (joinSurrogates lead unit)) ++ passed) rest
        else .error (.before .loneSurrogate rest)
  | .pairBackslash lead, passed, b :: rest =>
    if b = Byte.backslash then readText (.pairMark lead) passed rest
    else .error (.before .unpairedEscape rest)
  | .pairMark lead, passed, b :: rest =>
    if b = Byte.ofChar 'u' then readText (.hex (some lead) 0 (some 0)) passed rest
    else .error (.before .unpairedEscape rest)

def readString (s : List UInt8) : Except Failure (String × List UInt8) := readText .plain [] s

/-! ## Numbers -/

structure Scaled where
  significand : Nat
  exponent : Int
  deriving DecidableEq, Repr

/-- Digits join a significand as long as it fits in 64 bits; also how many joined. -/
def joinDigits (significand : Nat) : List UInt8 → Nat × Nat
  | [] => (significand, 0)
  | b :: rest =>
    let next := 10 * significand + Byte.digitValue b
    if twoTo 64 ≤ next then (significand, 0)
    else
      let (value, joined) := joinDigits next rest
      (value, joined + 1)

def largestPower : Nat := 308

def powerOfTen (n : Nat) : Option Binary64 := Binary64.ofNat (tenTo n)

/-- A value times a power of ten, rounded once for each product or quotient by a power within
`largestPower`; nothing if the result is too large. -/
def timesPowerOfTen : (fuel : Nat) → Binary64 → Int → Option Binary64
  | 0, _, _ => none
  | fuel + 1, x, exponent =>
    if exponent.natAbs ≤ largestPower then
      (powerOfTen exponent.natAbs).bind fun p => if 0 ≤ exponent then x.mul p else x.div p
    else if x.isZero then some x
    else if 0 ≤ exponent then none
    else ((powerOfTen largestPower).bind x.div).bind
      fun y => timesPowerOfTen fuel y (exponent + largestPower)

def Scaled.toBinary64 (negative : Bool) (x : Scaled) : Option Binary64 := do
  let y ← timesPowerOfTen (x.exponent.natAbs + 1) (← Binary64.ofNat x.significand) x.exponent
  pure (if negative then y.neg else y)

def finishFloat (negative : Bool) (x : Scaled) (rest : List UInt8) :
    Except Failure (JsonNumber × List UInt8) :=
  match x.toBinary64 negative with
  | some y => .ok (.float y, rest)
  | none => .error (.before .numberOutOfRange rest)

/-- The digits of an exponent, or the bytes left when the number no longer fits in 32 bits. -/
def readExponentDigits (value : Nat) : List UInt8 → Except (List UInt8) (Nat × List UInt8)
  | [] => .ok (value, [])
  | b :: rest =>
    if Byte.isDigit b then
      let next := 10 * value + Byte.digitValue b
      if twoTo 31 ≤ next then .error rest else readExponentDigits next rest
    else .ok (value, b :: rest)

def readExponent (negative : Bool) (x : Scaled) (s : List UInt8) :
    Except Failure (JsonNumber × List UInt8) :=
  let (down, s) := match s with
    | Byte.plus :: rest => (false, rest)
    | Byte.minus :: rest => (true, rest)
    | s => (false, s)
  match s with
  | [] => .error (.before .endInValue [])
  | b :: rest =>
    if Byte.isDigit b then
      match readExponentDigits (Byte.digitValue b) rest with
      | .ok (e, rest) =>
        finishFloat negative ⟨x.significand, if down then x.exponent - e else x.exponent + e⟩ rest
      | .error rest =>
        if x.significand ≠ 0 ∧ ¬ down then .error (.before .numberOutOfRange rest)
        else .ok (.float (.zero negative), rest.dropWhile Byte.isDigit)
    else .error (.before .malformedNumber rest)

def readFraction (negative : Bool) (x : Scaled) (s : List UInt8) :
    Except Failure (JsonNumber × List UInt8) :=
  let digits := s.takeWhile Byte.isDigit
  let rest := s.dropWhile Byte.isDigit
  if digits.isEmpty then
    .error (.behind (if rest.isEmpty then .endInValue else .malformedNumber) rest)
  else
    let (significand, joined) := joinDigits x.significand digits
    let x : Scaled := ⟨significand, x.exponent - joined⟩
    match rest with
    | b :: tail => if Byte.isExponentMark b then readExponent negative x tail
      else finishFloat negative x rest
    | [] => finishFloat negative x rest

/-- An integer if it fits in 64 bits, with a sign or without; zero has no sign as an integer. -/
def finishInteger (negative : Bool) (n : Nat) : JsonNumber :=
  if ¬ negative then .int n
  else if n = 0 ∨ twoTo 63 < n then .float ((Binary64.ofNat n).getD (.zero false)).neg
  else .int (-n)

/-- What follows the digits of the whole part, of which `dropped` did not fit. -/
def readNumberTail (negative : Bool) (significand dropped : Nat) (s : List UInt8) :
    Except Failure (JsonNumber × List UInt8) :=
  let whole := if dropped = 0 then .ok (finishInteger negative significand, s)
    else finishFloat negative ⟨significand, dropped⟩ s
  match s with
  | [] => whole
  | b :: rest =>
    if b = Byte.point then readFraction negative ⟨significand, dropped⟩ rest
    else if Byte.isExponentMark b then readExponent negative ⟨significand, dropped⟩ rest
    else whole

def readNumber (negative : Bool) (s : List UInt8) : Except Failure (JsonNumber × List UInt8) :=
  match s with
  | [] => .error (.before .endInValue [])
  | b :: rest =>
    if b = Byte.ofChar '0' then
      match rest with
      | [] => readNumberTail negative 0 0 rest
      | d :: _ =>
        if Byte.isDigit d then .error (.behind .malformedNumber rest)
        else readNumberTail negative 0 0 rest
    else if Byte.isDigit b then
      let digits := s.takeWhile Byte.isDigit
      let (significand, joined) := joinDigits 0 digits
      readNumberTail negative significand (digits.length - joined) (s.dropWhile Byte.isDigit)
    else .error (.before .malformedNumber rest)

end Json

end ExactlyOne
