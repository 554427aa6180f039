import LineShell.Text.Digit
import LineShell.Text.Quoted

/-!
# Decimal numerals

A numeral is an optional sign followed by decimal digits of any script, with blanks around it
and single underscores between its digits.  To bound the work that one line of input can ask
for, a numeral of more than 4300 digits is refused.
-/

namespace LineShell

inductive NumeralError where
  | malformed (text : String)
  | tooLong (digits : Nat)
  deriving DecidableEq

namespace Numeral

def maxDigits : Nat := 4300

/-- The longest extract of a text that is shown when it is not a numeral, its quotation marks
included. -/
def maxShown : Nat := 200

/-- The blanks that may stand around a numeral. -/
def blanks : List Nat :=
  [0x09, 0x0A, 0x0B, 0x0C, 0x0D, 0x20, 0x85, 0xA0, 0x1680, 0x2000, 0x2001, 0x2002, 0x2003, 0x2004,
   0x2005, 0x2006, 0x2007, 0x2008, 0x2009, 0x200A, 0x2028, 0x2029, 0x202F, 0x205F, 0x3000]

def isBlank (c : Char) : Bool :=
  blanks.contains c.toNat

/-- Whether a character can be part of the body of a numeral, behind its sign. -/
def isBodyChar (c : Char) : Bool :=
  c == '_' || (decimalValue? c).isSome

/-- Underscores are single and have a digit on both sides. -/
def wellGrouped (body : List Char) : Bool :=
  (body.splitOn '_').all fun group => !group.isEmpty

/-- The number that a list of decimal digits stands for, the most significant one first. -/
def value (digits : List Nat) : Nat :=
  digits.foldl (fun n d => 10 * n + d) 0

def splitSign : List Char → Bool × List Char
  | '-' :: rest => (true, rest)
  | '+' :: rest => (false, rest)
  | cs => (false, cs)

/-- Reads a numeral.  An overlong numeral is told before a text that follows it. -/
def read (text : String) : Except NumeralError Int :=
  let (negative, cs) := splitSign (text.toList.dropWhile isBlank)
  let body := cs.takeWhile isBodyChar
  let digits := body.filterMap decimalValue?
  if !wellGrouped body then .error (.malformed text)
  else if maxDigits < digits.length then .error (.tooLong digits.length)
  else if !(cs.dropWhile isBodyChar).all isBlank then .error (.malformed text)
  else .ok (if negative then -(value digits : Int) else value digits)

end Numeral

def NumeralError.message : NumeralError → String
  | .malformed text =>
      "invalid literal for int() with base 10: "
        ++ String.ofList ((quoted text).toList.take Numeral.maxShown)
  | .tooLong digits =>
      "Exceeds the limit (" ++ toString Numeral.maxDigits
        ++ " digits) for integer string conversion: value has " ++ toString digits
        ++ " digits; use sys.set_int_max_str_digits() to increase the limit"

end LineShell
