import Handoff.Text

/-! Texts as a terminal shows them: without colours, and without blanks at the end. -/
namespace Handoff.Text

def escape : Char := '\x1b'

/-- The size of the colour code that a text begins with: an escape, a bracket, numbers, an m. -/
def colourSize? (cs : List Char) : Option Nat :=
  match cs with
  | a :: '[' :: rest =>
    let isNumber (c : Char) : Bool := c.isDigit || c == ';'
    if a = escape && (rest.dropWhile isNumber).head? = some 'm' then
      some ((rest.takeWhile isNumber).length + 3)
    else none
  | _ => none

/-- Leaves out the next characters, as many as are told, and all colour codes after them. -/
def dropColours : Nat → List Char → List Char
  | _, [] => []
  | n + 1, _ :: rest => dropColours n rest
  | 0, c :: rest => match colourSize? (c :: rest) with
    | some n => dropColours (n - 1) rest
    | none => c :: dropColours 0 rest

/-- The blanks of Unicode: the characters with the property White_Space. -/
def isBlank (c : Char) : Bool :=
  let n := c.toNat
  (9 ≤ n && n ≤ 13) || n == 0x20 || n == 0x85 || n == 0xA0 || n == 0x1680
    || (0x2000 ≤ n && n ≤ 0x200A) || n == 0x2028 || n == 0x2029 || n == 0x202F || n == 0x205F
    || n == 0x3000

def shown (s : String) : String := String.ofList (dropEnd isBlank (dropColours 0 s.toList))

end Handoff.Text
