import OptimalPlans.Text.Printable

/-!
# Quoted text

A text between quotes, as messages show it.  Single quotes are used unless the
text holds a single quote and no double one.  A backslash and the quote in use
are escaped, line breaks and tabs have short escapes, and characters that are
not printable are written by code point.
-/

namespace OptimalPlans.Quoted

/-- A number in hexadecimal with at least the given count of digits. -/
def hexadecimal (width n : Nat) : List Char :=
  let digits := Nat.toDigits 16 n
  List.replicate (width - digits.length) '0' ++ digits

def escape (quote c : Char) : List Char :=
  if c = '\\' ∨ c = quote then ['\\', c]
  else if c = '\n' then ['\\', 'n']
  else if c = '\r' then ['\\', 'r']
  else if c = '\t' then ['\\', 't']
  else if isPrintable c then [c]
  else if c.toNat < 0x100 then '\\' :: 'x' :: hexadecimal 2 c.toNat
  else if c.toNat < 0x10000 then '\\' :: 'u' :: hexadecimal 4 c.toNat
  else '\\' :: 'U' :: hexadecimal 8 c.toNat

def quoteFor (chars : List Char) : Char :=
  if chars.contains '\'' && !chars.contains '"' then '"' else '\''

def quote (text : String) : String :=
  let chars := text.toList
  let mark := quoteFor chars
  String.ofList (mark :: chars.flatMap (escape mark) ++ [mark])

end OptimalPlans.Quoted
