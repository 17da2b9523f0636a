import ExactlyOne.Text.Byte

/-!
Why a JSON text is refused, and where.

A reader knows how many bytes it has not passed yet; `Position.ofUnread` turns that number into a
line, counted from one, and a column, the number of bytes after the last line break.
-/

namespace ExactlyOne

namespace Json

inductive Cause where
  | endInValue
  | endInList
  | endInObject
  | endInText
  | noValue
  | wrongWord
  | noColon
  | noListEnd
  | noObjectEnd
  | keyNotText
  | trailingComma
  | trailingCharacters
  | malformedNumber
  | numberOutOfRange
  | controlCharacter
  | malformedEscape
  | loneSurrogate
  | unpairedEscape
  | notUnicode
  | tooDeep
  deriving DecidableEq, Repr

def Cause.message : Cause → String
  | .endInValue => "EOF while parsing a value"
  | .endInList => "EOF while parsing a list"
  | .endInObject => "EOF while parsing an object"
  | .endInText => "EOF while parsing a string"
  | .noValue => "expected value"
  | .wrongWord => "expected ident"
  | .noColon => "expected `:`"
  | .noListEnd => "expected `,` or `]`"
  | .noObjectEnd => "expected `,` or `\x7d`"
  | .keyNotText => "key must be a string"
  | .trailingComma => "trailing comma"
  | .trailingCharacters => "trailing characters"
  | .malformedNumber => "invalid number"
  | .numberOutOfRange => "number out of range"
  | .controlCharacter => "control character (\\u0000-\\u001F) found while parsing a string"
  | .malformedEscape => "invalid escape"
  | .loneSurrogate => "lone leading surrogate in hex escape"
  | .unpairedEscape => "unexpected end of hex escape"
  | .notUnicode => "invalid unicode code point"
  | .tooDeep => "recursion limit exceeded"

/-- A cause, and the number of bytes that were not passed when it was found. -/
structure Failure where
  cause : Cause
  unread : Nat
  deriving DecidableEq, Repr

namespace Failure

def before (cause : Cause) (rest : List UInt8) : Failure := ⟨cause, rest.length⟩

/-- A failure behind the first of the bytes that are left, if there is one. -/
def behind (cause : Cause) (rest : List UInt8) : Failure := ⟨cause, rest.length - 1⟩

end Failure

structure Position where
  line : Nat
  column : Nat
  deriving DecidableEq, Repr

namespace Position

def step (p : Position) (b : UInt8) : Position :=
  if b = Byte.newline then ⟨p.line + 1, 0⟩ else ⟨p.line, p.column + 1⟩

def after (passed : List UInt8) : Position := passed.foldl step ⟨1, 0⟩

def ofUnread (bytes : List UInt8) (unread : Nat) : Position :=
  after (bytes.take (bytes.length - unread))

def describe (p : Position) : String :=
  " at line " ++ toString p.line ++ " column " ++ toString p.column

end Position

def Failure.message (bytes : List UInt8) (f : Failure) : String :=
  f.cause.message ++ (Position.ofUnread bytes f.unread).describe

end Json

end ExactlyOne
