import OptimalPlans.Number.Basic
import OptimalPlans.Text.Blank
import OptimalPlans.Text.Digit
import OptimalPlans.Text.Quoted

/-!
# Numerals in texts

Reading a number that was entered as text.  Blanks around the numeral do not
count, digits of any script do, and single underscores may stand between digits.
A real numeral has a point, an exponent, or is one of the words for infinity and
for no number.
-/

namespace OptimalPlans.Numeral

/-- Blanks and digits of other scripts as their plain counterparts.  Plain
characters stay as they are. -/
def plain (c : Char) : Char :=
  if c.toNat < 0x80 then c
  else if isBlank c then ' '
  else
    match digitValue? c with
    | some value => Nat.digitChar value
    | none => c

def isPlainBlank (c : Char) : Bool :=
  c == ' ' || (0x09 ≤ c.toNat && c.toNat ≤ 0x0D)

/-- The characters of a numeral without the blanks around them. -/
def body (text : String) : List Char :=
  trimChars isPlainBlank (text.toList.map plain)

/-- A leading sign: whether it is negative, and what follows. -/
def sign : List Char → Bool × List Char
  | '-' :: rest => (true, rest)
  | '+' :: rest => (false, rest)
  | rest => (false, rest)

/-- The longest run of digits, single underscores between digits left out, and
what follows it. -/
def digitRun : List Char → List Char × List Char
  | c :: '_' :: d :: later =>
      if c.isDigit && d.isDigit then
        let (digits, after) := digitRun (d :: later)
        (c :: digits, after)
      else if c.isDigit then ([c], '_' :: d :: later)
      else ([], c :: '_' :: d :: later)
  | c :: rest =>
      if c.isDigit then
        let (digits, after) := digitRun rest
        (c :: digits, after)
      else ([], c :: rest)
  | [] => ([], [])

/-- The natural number written by plain digits. -/
def natural (digits : List Char) : Nat :=
  digits.foldl (fun value c => 10 * value + (c.toNat - '0'.toNat)) 0

/-- The most digits an integer numeral may have. -/
def longest : Nat := 4300

/-- The integer written by plain digits, unless there are too many. -/
def integerOfDigits (negative : Bool) (digits : List Char) : Except Fault Int :=
  if longest < digits.length then .error (.longNumeral digits.length)
  else .ok (if negative then -(natural digits : Int) else natural digits)

def integer (text : String) : Except Fault Int :=
  let (negative, rest) := sign (body text)
  match digitRun rest with
  | ([], _) => .error (.notAnIntegerNumeral (Quoted.quote text))
  | (digits, []) => integerOfDigits negative digits
  | _ => .error (.notAnIntegerNumeral (Quoted.quote text))

/-- The exponent after a numeral; none at all counts as zero. -/
def exponent? : List Char → Option Int
  | [] => some 0
  | mark :: rest =>
      if mark = 'e' ∨ mark = 'E' then
        let (negative, rest) := sign rest
        match digitRun rest with
        | ([], _) => none
        | (digits, []) =>
            some (if negative then -(natural digits : Int) else natural digits)
        | _ => none
      else none

/-- An unsigned decimal numeral. -/
def decimal? (negative : Bool) (chars : List Char) : Option Float :=
  let (whole, rest) := digitRun chars
  let (fraction, rest) :=
    match rest with
    | '.' :: rest => digitRun rest
    | _ => ([], rest)
  if whole.isEmpty && fraction.isEmpty then none
  else
    (exponent? rest).map fun exponent =>
      Double.ofDecimal negative (natural (whole ++ fraction))
        (exponent - fraction.length)

def real? (text : String) : Option Float :=
  let (negative, rest) := sign (body text)
  let word := String.ofList (rest.map Char.toLower)
  if word = "inf" ∨ word = "infinity" then
    some (if negative then -Double.infinity else Double.infinity)
  else if word = "nan" then
    some (0 / 0)
  else
    decimal? negative rest

def real (text : String) : Except Fault Float :=
  match real? text with
  | some x => .ok x
  | none => .error (.notANumeral (Quoted.quote text))

end OptimalPlans.Numeral
