import LineShell.Text.Printable

/-!
# Quoted texts

Diagnostics show a text between quotation marks so that its extent and every character of it
can be seen.  Single marks are used, unless the text has single marks and no double ones.  The
mark itself and the backslash are preceded by a backslash; line feed, carriage return and tab
are written as `\n`, `\r` and `\t`; any other character that is not printable is written by its
code point, with two, four or eight hexadecimal digits.
-/

namespace LineShell

def hexDigits : Nat → Nat → List Char
  | 0, _ => []
  | width + 1, n => hexDigits width (n / 16) ++ [Nat.digitChar (n % 16)]

theorem length_hexDigits (width n : Nat) : (hexDigits width n).length = width := by
  induction width generalizing n with
  | zero => rfl
  | succ width ih => simp [hexDigits, ih]

/-- A character as it is written between two marks `mark`. -/
def escapeChar (mark c : Char) : List Char :=
  if c = mark ∨ c = '\\' then ['\\', c]
  else if c = '\n' then ['\\', 'n']
  else if c = '\r' then ['\\', 'r']
  else if c = '\t' then ['\\', 't']
  else if isPrintable c then [c]
  else if c.toNat < 0x100 then '\\' :: 'x' :: hexDigits 2 c.toNat
  else if c.toNat < 0x10000 then '\\' :: 'u' :: hexDigits 4 c.toNat
  else '\\' :: 'U' :: hexDigits 8 c.toNat

def quotationMark (cs : List Char) : Char :=
  if '\'' ∈ cs ∧ '"' ∉ cs then '"' else '\''

def quoted (text : String) : String :=
  let cs := text.toList
  let mark := quotationMark cs
  String.ofList (mark :: cs.flatMap (escapeChar mark) ++ [mark])

theorem escapeChar_ne_nil (mark c : Char) : escapeChar mark c ≠ [] := by
  unfold escapeChar
  repeat' split
  all_goals simp

end LineShell
