import ExactlyOne.Json.Lexer
import ExactlyOne.Text.CharTable

/-!
The tokens of a filter text.

Brackets are matched here: a block is one token with the tokens inside it, the last of which is its
closing bracket. What is wrong with a text is collected, so that all of it can be told.
-/

namespace ExactlyOne

namespace Filter

inductive Token where
  | word (name : String)
  | variable (name : String)
  | format (name : String)
  | number (source : String)
  | text (source value : String)
  | symbol (name : String)
  | block (source : String) (opening : Char) (tokens : List Token)
  deriving Repr

def Token.source : Token → String
  | .word name => name
  | .variable name => name
  | .format name => name
  | .number source => source
  | .text source _ => source
  | .symbol name => name
  | .block source .. => source

inductive Lack where
  | digit
  | name
  | closing (opening : Char)
  | escape
  | unicode
  | token
  deriving DecidableEq, Repr

structure LexError where
  lack : Lack
  rest : String
  deriving DecidableEq, Repr

def LexError.before (lack : Lack) (rest : List Char) : LexError := ⟨lack, String.ofList rest⟩

def isNameStart (c : Char) : Bool := c.isAlpha || c == '_'

def isNameChar (c : Char) : Bool := c.isAlphanum || c == '_'

/-- Whether an operator may go on with a character; a minus only begins one. -/
def isOperatorTail (c : Char) : Bool := "|=!<>+*/%".toList.contains c

def isOperatorHead (c : Char) : Bool := c == '-' || isOperatorTail c

def passed (s rest : List Char) : String := String.ofList (s.take (s.length - rest.length))

/-- What is passed over in front of a token. In a comment, whether the last characters were an odd
number of backslashes, and whether a carriage return came behind these. -/
inductive Blank where
  | space
  | comment (odd returned : Bool)

/-- The text without spaces and comments in front of it. A comment goes up to the end of its line;
if an odd number of backslashes ends that line, the comment takes the next one too. -/
def skipBlank : Blank → List Char → List Char
  | _, [] => []
  | .space, c :: rest =>
    if c = '#' then skipBlank (.comment false false) rest
    else if CharTable.holds CharTable.blank c then skipBlank .space rest
    else c :: rest
  | .comment odd returned, c :: rest =>
    if c = '\n' then skipBlank (if odd then .comment false false else .space) rest
    else if c = '\\' then skipBlank (.comment (returned || !odd) false) rest
    else if c = '\x0d' then skipBlank (.comment (odd && !returned) true) rest
    else skipBlank (.comment false false) rest

structure Lexed (α : Type) where
  value : α
  rest : List Char
  errors : List LexError

/-! ## Names and numbers -/

def lexName (s : List Char) : Lexed Unit :=
  match s with
  | c :: rest =>
    if isNameStart c then ⟨(), rest.dropWhile isNameChar, []⟩
    else ⟨(), s, [.before .name s]⟩
  | [] => ⟨(), [], [.before .name []]⟩

/-- A name, which may consist of two names with two colons between them. -/
def lexLongName (s : List Char) : Lexed Unit :=
  match lexName s with
  | ⟨(), ':' :: ':' :: rest, errors⟩ =>
    let second := lexName rest
    ⟨(), second.rest, errors ++ second.errors⟩
  | first => first

def lexDigits (s : List Char) : Lexed Unit :=
  match s with
  | c :: rest =>
    if c.isDigit then ⟨(), rest.dropWhile Char.isDigit, []⟩ else ⟨(), s, [.before .digit s]⟩
  | [] => ⟨(), [], [.before .digit []]⟩

def lexFraction : List Char → Lexed Unit
  | '.' :: rest => lexDigits rest
  | s => ⟨(), s, []⟩

def lexExponent : List Char → Lexed Unit
  | [] => ⟨(), [], []⟩
  | c :: rest =>
    if c = 'e' ∨ c = 'E' then
      match rest with
      | '+' :: rest => lexDigits rest
      | '-' :: rest => lexDigits rest
      | rest => lexDigits rest
    else ⟨(), c :: rest, []⟩

def lexNumber (s : List Char) : Lexed Unit :=
  let fraction := lexFraction (s.dropWhile Char.isDigit)
  let exponent := lexExponent fraction.rest
  ⟨(), exponent.rest, fraction.errors ++ exponent.errors⟩

/-! ## Strings -/

def hexValue? (c : Char) : Option Nat :=
  if c.toNat < 0x80 then Byte.hexValue? (Byte.ofChar c) else none

/-- A number that goes on for some hexadecimal digits, and the text behind them; or the text from
the first character on that is no such digit. -/
def lexHex (value : Nat) : (digits : Nat) → List Char → Except (List Char) (Nat × List Char)
  | 0, rest => .ok (value, rest)
  | _ + 1, [] => .error []
  | digits + 1, c :: rest =>
    match hexValue? c with
    | some d => lexHex (16 * value + d) digits rest
    | none => .error (c :: rest)

/-- The character of an escape by code point, behind its mark, and the rest; a surrogate is none. -/
def lexUnicode (s : List Char) : Except (List Char) (Char × List Char) := do
  let (unit, rest) ← lexHex 0 4 s
  if Json.isLeading unit || Json.isTrailing unit then throw s
  pure (Char.ofNat unit, rest)

def shortEscape? : Char → Option Char
  | '"' => some '"'
  | '\\' => some '\\'
  | '/' => some '/'
  | 'b' => some '\x08'
  | 'f' => some '\x0c'
  | 'n' => some '\n'
  | 'r' => some '\r'
  | 't' => some '\t'
  | _ => none

/-- The characters up to a closing quote. Behind a malformed escape reading goes on where it went
wrong. -/
def lexText : (fuel : Nat) → List Char → Lexed (List Char)
  | 0, s => ⟨[], s, []⟩
  | _ + 1, [] => ⟨[], [], [.before (.closing '"') []]⟩
  | _ + 1, '"' :: rest => ⟨[], rest, []⟩
  | fuel + 1, '\\' :: 'u' :: rest =>
    match lexUnicode rest with
    | .ok (c, rest) =>
      let later := lexText fuel rest
      { later with value := c :: later.value }
    | .error wrong =>
      let later := lexText fuel wrong
      { later with errors := .before .unicode wrong :: later.errors }
  | fuel + 1, '\\' :: rest =>
    match rest.head?.bind shortEscape? with
    | some c =>
      let later := lexText fuel (rest.drop 1)
      { later with value := c :: later.value }
    | none =>
      let later := lexText fuel rest
      { later with errors := .before .escape rest :: later.errors }
  | fuel + 1, c :: rest =>
    let later := lexText fuel rest
    { later with value := c :: later.value }

/-! ## Tokens -/

def closingOf? : Char → Option Char
  | '(' => some ')'
  | '[' => some ']'
  | '{' => some '}'
  | _ => none

def lexPlain (s : List Char) : Option (Lexed Token) :=
  match s with
  | [] => none
  | c :: rest =>
    let named (lexed : Lexed Unit) (token : String → Token) : Option (Lexed Token) :=
      some ⟨token (passed s lexed.rest), lexed.rest, lexed.errors⟩
    let symbol (rest : List Char) : Option (Lexed Token) := some ⟨.symbol (passed s rest), rest, []⟩
    if isNameStart c then named (lexLongName s) .word
    else if c = '$' then named (lexName rest) .variable
    else if c = '@' then named (lexName rest) .format
    else if c.isDigit then named (lexNumber s) .number
    else if isOperatorHead c then symbol (rest.dropWhile isOperatorTail)
    else if c = '.' then
      match rest with
      | '.' :: rest => symbol rest
      | d :: _ => if isNameStart d then symbol (rest.dropWhile isNameChar) else symbol rest
      | [] => symbol []
    else if c = ':' ∨ c = ';' ∨ c = ',' ∨ c = '?' then symbol rest
    else if c = '"' then
      let text := lexText (rest.length + 1) rest
      some ⟨.text (passed s text.rest) (String.ofList text.value), text.rest, text.errors⟩
    else none

def lexTokens : (fuel : Nat) → List Char → Lexed (List Token)
  | 0, s => ⟨[], s, []⟩
  | fuel + 1, s =>
    let s := skipBlank .space s
    match s with
    | [] => ⟨[], [], []⟩
    | c :: rest =>
      match closingOf? c with
      | some closing =>
        let body := lexTokens fuel rest
        let (ending, after, errors) := match body.rest with
          | d :: after =>
            if d = closing then ([Token.symbol (String.singleton closing)], after, [])
            else ([], body.rest, [LexError.before (.closing c) body.rest])
          | [] => ([], [], [LexError.before (.closing c) []])
        let token := Token.block (passed s after) c (body.value ++ ending)
        let later := lexTokens fuel after
        ⟨token :: later.value, later.rest, body.errors ++ errors ++ later.errors⟩
      | none =>
        match lexPlain s with
        | some token =>
          let later := lexTokens fuel token.rest
          ⟨token.value :: later.value, later.rest, token.errors ++ later.errors⟩
        | none => ⟨[], s, []⟩

def tokens (source : String) : Except (List LexError) (List Token) :=
  let s := source.toList
  let lexed := lexTokens (s.length + 1) s
  let errors := lexed.errors ++
    (if lexed.rest.isEmpty then [] else [LexError.before .token lexed.rest])
  if errors.isEmpty then .ok lexed.value else .error errors

end Filter

end ExactlyOne
