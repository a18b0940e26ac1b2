/-!
# Blanks

The white space of Unicode, and trimming it from both ends of a text.
-/

namespace OptimalPlans

def isBlank (c : Char) : Bool :=
  let code := c.toNat
  (0x09 ≤ code && code ≤ 0x0D) || (0x1C ≤ code && code ≤ 0x20) ||
    code == 0x85 || code == 0xA0 || code == 0x1680 ||
    (0x2000 ≤ code && code ≤ 0x200A) || code == 0x2028 || code == 0x2029 ||
    code == 0x202F || code == 0x205F || code == 0x3000

/-- Drops the characters of a class from both ends. -/
def trimChars (drops : Char → Bool) (chars : List Char) : List Char :=
  ((chars.dropWhile drops).reverse.dropWhile drops).reverse

/-- The text without the blanks at its ends. -/
def trimBlanks (text : String) : String :=
  String.ofList (trimChars isBlank text.toList)

end OptimalPlans
