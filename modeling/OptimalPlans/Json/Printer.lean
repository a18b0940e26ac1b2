import OptimalPlans.Value.Basic

/-!
# Written documents

A value as a JSON document in plain ASCII: two spaces of indentation for each level,
one item or field a line, and nothing inside empty brackets.  Characters beyond ASCII
are written as UTF-16 units.
-/

namespace OptimalPlans.Json

/-- A character as one UTF-16 unit or as a pair of surrogates. -/
def units (c : Char) : List Nat :=
  let code := c.toNat
  if code < 0x10000 then [code]
  else [0xD800 + (code - 0x10000) / 0x400, 0xDC00 + (code - 0x10000) % 0x400]

def escape (c : Char) : List Char :=
  if c = '"' then ['\\', '"']
  else if c = '\\' then ['\\', '\\']
  else if c = '\n' then ['\\', 'n']
  else if c = '\r' then ['\\', 'r']
  else if c = '\t' then ['\\', 't']
  else if c.toNat = 0x08 then ['\\', 'b']
  else if c.toNat = 0x0C then ['\\', 'f']
  else if 0x20 ≤ c.toNat ∧ c.toNat < 0x7F then [c]
  else (units c).flatMap fun unit => '\\' :: 'u' :: Quoted.hexadecimal 4 unit

def writeText (text : String) : String :=
  String.ofList ('"' :: text.toList.flatMap escape ++ ['"'])

/-- A line break and the indentation of a level. -/
def newline (level : Nat) : String :=
  "\n" ++ String.ofList (List.replicate (2 * level) ' ')

/-- Written parts between brackets, one a line. -/
def bracketed (opening closing : String) (level : Nat) (parts : List String) : String :=
  match parts with
  | [] => opening ++ closing
  | _ =>
      opening ++ newline (level + 1) ++
        String.intercalate ("," ++ newline (level + 1)) parts ++ newline level ++ closing

mutual

def writeAt (level : Nat) : Value → String
  | .null => "null"
  | .truth value => if value then "true" else "false"
  | .number value => value.write .json
  | .text value => writeText value
  | .list items => bracketed "[" "]" level (writeItems (level + 1) items)
  | .record fields => bracketed "\x7b" "\x7d" level (writeFields (level + 1) fields)

def writeItems (level : Nat) : List Value → List String
  | [] => []
  | item :: rest => writeAt level item :: writeItems level rest

def writeFields (level : Nat) : List (String × Value) → List String
  | [] => []
  | (name, value) :: rest =>
      (writeText name ++ ": " ++ writeAt level value) :: writeFields level rest

end

def write (value : Value) : String :=
  writeAt 0 value

end OptimalPlans.Json
