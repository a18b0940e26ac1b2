import OptimalPlans.Value.Basic

/-!
# Reading documents

Reading a JSON document into a value.  Numerals without a fraction or an exponent
are integers, the words for infinity and for no number are numerals too, and a name
that is repeated in an object keeps its first place and takes its last value.  A
refusal says what was expected and at which character.
-/

namespace OptimalPlans.Json

/-- Why a document is refused, with the place counted in characters. -/
inductive Refusal where
  | at (place : Nat) (reason : String)
  | longNumeral (digits : Nat)
deriving DecidableEq, Repr

namespace Refusal

def expectingValue (place : Nat) : Refusal := .at place "Expecting value"

def expectingName (place : Nat) : Refusal :=
  .at place "Expecting property name enclosed in double quotes"

def expectingColon (place : Nat) : Refusal := .at place "Expecting ':' delimiter"

def expectingComma (place : Nat) : Refusal := .at place "Expecting ',' delimiter"

def unterminated (place : Nat) : Refusal := .at place "Unterminated string starting at"

def controlCharacter (place : Nat) : Refusal := .at place "Invalid control character at"

def badEscape (place : Nat) : Refusal := .at place "Invalid \\escape"

def badUnicodeEscape (place : Nat) : Refusal := .at place "Invalid \\uXXXX escape"

def extraData (place : Nat) : Refusal := .at place "Extra data"

def byteOrderMark : Refusal := .at 0 "Unexpected UTF-8 BOM (decode using utf-8-sig)"

end Refusal

/-- The rest of a document and the place where it starts. -/
structure Cursor where
  place : Nat
  rest : List Char

def Cursor.skip (cursor : Cursor) (count : Nat) : Cursor where
  place := cursor.place + count
  rest := cursor.rest.drop count

def isSpace (c : Char) : Bool :=
  c == ' ' || c == '\t' || c == '\n' || c == '\r'

def Cursor.skipSpaces (cursor : Cursor) : Cursor :=
  cursor.skip (cursor.rest.takeWhile isSpace).length

/-- The value of a hexadecimal digit. -/
def hexValue? (c : Char) : Option Nat :=
  if '0' ≤ c ∧ c ≤ '9' then some (c.toNat - '0'.toNat)
  else if 'a' ≤ c ∧ c ≤ 'f' then some (c.toNat - 'a'.toNat + 10)
  else if 'A' ≤ c ∧ c ≤ 'F' then some (c.toNat - 'A'.toNat + 10)
  else none

/-- The unit written by four hexadecimal digits that do not end the document. -/
def unit? : List Char → Option Nat
  | a :: b :: c :: d :: _ :: _ => do
      let a ← hexValue? a
      let b ← hexValue? b
      let c ← hexValue? c
      let d ← hexValue? d
      return ((a * 16 + b) * 16 + c) * 16 + d
  | _ => none

/-- A character by its code point.  A surrogate on its own is no character and
becomes the replacement character. -/
def character (code : Nat) : Char :=
  if code.isValidChar then Char.ofNat code else '\uFFFD'

def isHighSurrogate (unit : Nat) : Bool :=
  0xD800 ≤ unit && unit < 0xDC00

def isLowSurrogate (unit : Nat) : Bool :=
  0xDC00 ≤ unit && unit < 0xE000

/-- The character of an escape letter. -/
def escaped? : Char → Option Char
  | '"' => some '"'
  | '\\' => some '\\'
  | '/' => some '/'
  | 'b' => some '\x08'
  | 'f' => some '\x0C'
  | 'n' => some '\n'
  | 'r' => some '\r'
  | 't' => some '\t'
  | _ => none

/-- The escape after a backslash and a `u`: the character and how many characters
of the document it takes. -/
def unicodeEscape (place : Nat) (digits : List Char) : Except Refusal (Char × Nat) :=
  match unit? digits with
  | none => .error (.badUnicodeEscape place)
  | some high =>
      match isHighSurrogate high, digits.drop 4 with
      | true, '\\' :: 'u' :: more =>
          if more.length < 5 then .ok (character high, 4)
          else
            match unit? more with
            | none => .error (.badUnicodeEscape (place + 6))
            | some low =>
                if isLowSurrogate low then
                  .ok (character (0x10000 + (high - 0xD800) * 0x400 + (low - 0xDC00)), 10)
                else .ok (character high, 4)
      | _, _ => .ok (character high, 4)

/-- The characters of a text up to its closing quote; `start` is the place of the
opening one. -/
def readChars (start : Nat) : Nat → Cursor → Except Refusal (List Char × Cursor)
  | 0, _ => .error (.unterminated start)
  | fuel + 1, cursor =>
      match cursor.rest with
      | [] => .error (.unterminated start)
      | '"' :: _ => .ok ([], cursor.skip 1)
      | '\\' :: [] => .error (.unterminated start)
      | '\\' :: 'u' :: digits => do
          let (c, taken) ← unicodeEscape (cursor.place + 1) digits
          let (chars, after) ← readChars start fuel (cursor.skip (2 + taken))
          return (c :: chars, after)
      | '\\' :: letter :: _ =>
          match escaped? letter with
          | none => .error (.badEscape cursor.place)
          | some c => do
              let (chars, after) ← readChars start fuel (cursor.skip 2)
              return (c :: chars, after)
      | c :: _ =>
          if c.toNat < 0x20 then .error (.controlCharacter cursor.place)
          else do
            let (chars, after) ← readChars start fuel (cursor.skip 1)
            return (c :: chars, after)

/-- The text whose opening quote is at the cursor. -/
def readText (cursor : Cursor) : Except Refusal (String × Cursor) := do
  let (chars, after) ←
    readChars cursor.place (cursor.rest.length + 1) (cursor.skip 1)
  return (String.ofList chars, after)

def isDigit (c : Char) : Bool :=
  '0' ≤ c && c ≤ '9'

/-- The digits of a whole part: a zero on its own, or digits that start otherwise. -/
def wholePart : List Char → List Char
  | '0' :: _ => ['0']
  | chars => chars.takeWhile isDigit

/-- The digits after a point, when there are any. -/
def fractionPart : List Char → List Char
  | '.' :: rest => rest.takeWhile isDigit
  | _ => []

/-- The length of an exponent with its mark, and its value, when there is one. -/
def exponentPart : List Char → Option (Nat × Int)
  | mark :: rest =>
      if mark = 'e' ∨ mark = 'E' then
        let (negative, signs, rest) :=
          match rest with
          | '-' :: rest => (true, 1, rest)
          | '+' :: rest => (false, 1, rest)
          | rest => (false, 0, rest)
        let digits := rest.takeWhile isDigit
        if digits.isEmpty then none
        else
          let value := Numeral.natural digits
          some (1 + signs + digits.length, if negative then -(value : Int) else value)
      else none
  | [] => none

/-- The numeral at the cursor. -/
def readNumeral (cursor : Cursor) : Except Refusal (Value × Cursor) :=
  let (negative, signs, rest) :=
    match cursor.rest with
    | '-' :: rest => (true, 1, rest)
    | rest => (false, 0, rest)
  let whole := wholePart rest
  let rest := rest.drop whole.length
  let fraction := fractionPart rest
  let pointed := if fraction.isEmpty then 0 else 1 + fraction.length
  let exponent := exponentPart (rest.drop pointed)
  if whole.isEmpty then .error (.expectingValue cursor.place)
  else if fraction.isEmpty && exponent.isNone then
    if Numeral.longest < whole.length then .error (.longNumeral whole.length)
    else
      let value := Numeral.natural whole
      .ok (.integer (if negative then -(value : Int) else value),
        cursor.skip (signs + whole.length))
  else
    let (taken, power) := exponent.getD (0, 0)
    .ok (.double (Double.ofDecimal negative (Numeral.natural (whole ++ fraction))
        (power - fraction.length)),
      cursor.skip (signs + whole.length + pointed + taken))

/-- The words that stand for values. -/
def words : List (List Char × Value) :=
  [("null".toList, .null), ("true".toList, .truth true), ("false".toList, .truth false),
   ("NaN".toList, .double (0 / 0)), ("Infinity".toList, .double Double.infinity),
   ("-Infinity".toList, .double (-Double.infinity))]

/-- A word at the cursor, or else a numeral. -/
def readAtom (cursor : Cursor) : Except Refusal (Value × Cursor) :=
  match words.find? fun word => word.1.isPrefixOf cursor.rest with
  | some (word, value) => .ok (value, cursor.skip word.length)
  | none => readNumeral cursor

mutual

/-- The value at the cursor. -/
def readValue : Nat → Cursor → Except Refusal (Value × Cursor)
  | 0, cursor => .error (.expectingValue cursor.place)
  | fuel + 1, cursor =>
      match cursor.rest with
      | '"' :: _ => do
          let (text, after) ← readText cursor
          return (.text text, after)
      | '[' :: _ =>
          let inside := (cursor.skip 1).skipSpaces
          match inside.rest with
          | ']' :: _ => .ok (.list [], inside.skip 1)
          | _ => do
              let (items, after) ← readItems fuel inside
              return (.list items, after)
      | '\x7b' :: _ =>
          let inside := (cursor.skip 1).skipSpaces
          match inside.rest with
          | '\x7d' :: _ => .ok (.record [], inside.skip 1)
          | _ => do
              let (fields, after) ← readFields fuel inside
              return (.record (Fields.ofPairs fields), after)
      | _ => readAtom cursor

/-- The items of a list from the cursor to the closing bracket. -/
def readItems : Nat → Cursor → Except Refusal (List Value × Cursor)
  | 0, cursor => .error (.expectingValue cursor.place)
  | fuel + 1, cursor => do
      let (item, after) ← readValue fuel cursor
      let next := after.skipSpaces
      match next.rest with
      | ']' :: _ => return ([item], next.skip 1)
      | ',' :: _ =>
          let (items, after) ← readItems fuel (next.skip 1).skipSpaces
          return (item :: items, after)
      | _ => throw (.expectingComma next.place)

/-- The fields of an object from the cursor to the closing brace. -/
def readFields : Nat → Cursor → Except Refusal (Fields × Cursor)
  | 0, cursor => .error (.expectingName cursor.place)
  | fuel + 1, cursor =>
      match cursor.rest with
      | '"' :: _ => do
          let (name, after) ← readText cursor
          let colon := after.skipSpaces
          match colon.rest with
          | ':' :: _ =>
              let (value, after) ← readValue fuel (colon.skip 1).skipSpaces
              let next := after.skipSpaces
              match next.rest with
              | '\x7d' :: _ => return ([(name, value)], next.skip 1)
              | ',' :: _ =>
                  let (fields, after) ← readFields fuel (next.skip 1).skipSpaces
                  return ((name, value) :: fields, after)
              | _ => throw (.expectingComma next.place)
          | _ => throw (.expectingColon colon.place)
      | _ => .error (.expectingName cursor.place)

end

/-- Reads a whole document. -/
def read (text : String) : Except Refusal Value := do
  let chars := text.toList
  if chars.head? = some '\uFEFF' then throw .byteOrderMark
  let (value, after) ← readValue (2 * chars.length + 2) (Cursor.skipSpaces ⟨0, chars⟩)
  let last := after.skipSpaces
  if last.rest.isEmpty then return value else throw (.extraData last.place)

/-- A place in a text by line, by column, and by character. -/
def describePlace (text : String) (place : Nat) : String :=
  let before := text.toList.take place
  let line := before.count '\n' + 1
  let column := (before.reverse.takeWhile (· ≠ '\n')).length + 1
  "line " ++ toString line ++ " column " ++ toString column ++
    " (char " ++ toString place ++ ")"

/-- The fault of a document that is refused, given where the document is from. -/
def Refusal.fault (source text : String) : Refusal → Fault
  | .at place reason => .malformedJson source (reason ++ ": " ++ describePlace text place)
  | .longNumeral digits => .longNumeral digits

end OptimalPlans.Json
