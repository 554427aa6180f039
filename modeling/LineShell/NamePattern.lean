import LineShell.Text.Numeral

/-!
# File-name patterns

A pattern is matched against one file name at a time.  A question mark stands for any
character, a star for any text, and a character class in brackets for one character.  A bracket
that is never closed stands for itself, and there is no other way to write a wildcard as an
ordinary character than to put it into a class of its own.

The body of a class is a list of characters and ranges, behind an exclamation mark if the class
is negated.  A range that runs downwards holds nothing: it is dropped together with both of its
ends, and what is left is read as if it had been written that way.
-/

namespace LineShell

/-- A set of characters: those in one of the ranges, or those in none of them. -/
structure CharClass where
  negated : Bool
  ranges : List (Char × Char)
  deriving DecidableEq

namespace CharClass

def contains (k : CharClass) (c : Char) : Bool :=
  k.negated != k.ranges.any fun r => r.1 ≤ c && c ≤ r.2

def consFirst (c : Char) : List (List Char) → List (List Char)
  | [] => [[c]]
  | part :: parts => (c :: part) :: parts

/-- A hyphen stands for a range if there is a character on both sides of it and the one before
is not itself the end of a range.  Cuts the body of a class at these hyphens; the first so many
characters can not be one. -/
def splitRanges : Nat → List Char → List (List Char)
  | _, [] => [[]]
  | 0, '-' :: rest => if rest.isEmpty then [['-']] else [] :: splitRanges 2 rest
  | 0, c :: rest => consFirst c (splitRanges 0 rest)
  | skip + 1, c :: rest => consFirst c (splitRanges skip rest)

/-- Drops the ranges that run downwards, from the last one to the first. -/
def dropEmptyRanges : List (List Char) → List (List Char)
  | [] => []
  | c :: cs =>
      match dropEmptyRanges cs with
      | [] => [c]
      | d :: ds =>
          match c.getLast?, d.head? with
          | some low, some high => if high < low then (c.dropLast ++ d.tail) :: ds else c :: d :: ds
          | _, _ => c :: d :: ds

def single (c : Char) : Char × Char :=
  (c, c)

/-- The members of the parts of a class, with a range from each part to the next one.  A hyphen
with nothing before it is a member. -/
def members : List (List Char) → List (Char × Char)
  | [] => []
  | [c] => c.map single
  | c :: d :: ds =>
      let between :=
        match c.getLast?, d.head? with
        | some low, some high => [(low, high)]
        | _, _ => [single '-']
      c.map single ++ between ++ members (d :: ds)

def ofBody (body : List Char) : CharClass :=
  let skip := if body.head? = some '!' then 2 else 1
  match dropEmptyRanges (splitRanges skip body) with
  | ('!' :: c) :: cs => ⟨true, members (c :: cs)⟩
  | cs => ⟨false, members cs⟩

end CharClass

inductive Symbol where
  | literal (c : Char)
  | anyChar
  | member (k : CharClass)
  | anyText
  deriving DecidableEq

namespace NamePattern

/-- What follows an opening bracket, up to the closing one and behind it.  A closing bracket at the
beginning does not close. -/
def closeClass (s : List Char) : Option (List Char × List Char) :=
  let skip :=
    match s with
    | '!' :: ']' :: _ => 2
    | '!' :: _ => 1
    | ']' :: _ => 1
    | _ => 0
  match (s.drop skip).dropWhile (· != ']') with
  | [] => none
  | _ :: rest => some (s.take skip ++ (s.drop skip).takeWhile (· != ']'), rest)

theorem closeClass_length {s body rest : List Char} (h : closeClass s = some (body, rest)) :
    rest.length < s.length := by
  unfold closeClass at h
  simp only at h
  generalize (match s with
    | '!' :: ']' :: _ => 2
    | '!' :: _ => 1
    | ']' :: _ => 1
    | _ => 0) = skip at h
  split at h
  · simp at h
  · next x t hdrop =>
    simp only [Option.some.injEq, Prod.mk.injEq] at h
    have hsuffix := (List.dropWhile_suffix (fun c : Char => c != ']') (l := s.drop skip)).length_le
    simp only [hdrop, List.length_cons, List.length_drop, h.2] at hsuffix
    omega

/-- The parts of a pattern.  Stars that follow each other are one. -/
def symbols (pattern : List Char) : List Symbol :=
  match pattern with
  | [] => []
  | c :: s =>
      if c = '*' then
        have : (s.dropWhile (· == '*')).length < s.length + 1 :=
          Nat.lt_succ_of_le (List.dropWhile_suffix _).length_le
        .anyText :: symbols (s.dropWhile (· == '*'))
      else if c = '?' then .anyChar :: symbols s
      else if c = '[' then
        match closeClass s with
        | none => .literal '[' :: symbols s
        | some (body, rest) =>
            if rest.length < s.length then .member (CharClass.ofBody body) :: symbols rest
            else [.member (CharClass.ofBody body)]
      else .literal c :: symbols s
termination_by pattern.length

theorem symbols_class {s body rest : List Char} (h : closeClass s = some (body, rest)) :
    symbols ('[' :: s) = .member (CharClass.ofBody body) :: symbols rest := by
  rw [symbols]
  simp [h, closeClass_length h]

/-- Whether something holds of a text with some of its beginning left out. -/
def anySuffix (p : List Char → Bool) : List Char → Bool
  | [] => p []
  | c :: s => p (c :: s) || anySuffix p s

/-- Whether a name is made of parts for these symbols, one after the other. -/
def accepts : List Symbol → List Char → Bool
  | [], s => s.isEmpty
  | .literal c :: ps, d :: s => c == d && accepts ps s
  | .anyChar :: ps, _ :: s => accepts ps s
  | .member k :: ps, d :: s => k.contains d && accepts ps s
  | .anyText :: ps, s => anySuffix (accepts ps) s
  | _ :: _, [] => false

def isMatch (pattern name : String) : Bool :=
  accepts (symbols pattern.toList) name.toList

def hasMagic (s : List Char) : Bool :=
  s.any fun c => c == '*' || c == '?' || c == '['

def escape (text : String) : String :=
  String.ofList (text.toList.flatMap fun c => if hasMagic [c] then ['[', c, ']'] else [c])

theorem anySuffix_iff {p : List Char → Bool} {s : List Char} :
    anySuffix p s = true ↔ ∃ front back, s = front ++ back ∧ p back = true := by
  induction s with
  | nil =>
    simp only [anySuffix]
    constructor
    · intro h
      exact ⟨[], [], rfl, h⟩
    · rintro ⟨front, back, hs, h⟩
      rwa [(List.nil_eq_append_iff.mp hs).2] at h
  | cons d s ih =>
    simp only [anySuffix, Bool.or_eq_true, ih]
    constructor
    · rintro (h | ⟨front, back, rfl, h⟩)
      · exact ⟨[], d :: s, rfl, h⟩
      · exact ⟨d :: front, back, rfl, h⟩
    · rintro ⟨front, back, hs, h⟩
      cases front with
      | nil => exact Or.inl (by simpa using hs ▸ h)
      | cons e front =>
        simp only [List.cons_append, List.cons.injEq] at hs
        exact Or.inr ⟨front, back, hs.2, h⟩

/-- A star takes any part of the name, and the symbols behind it take the rest. -/
theorem accepts_anyText (ps : List Symbol) (s : List Char) :
    accepts (.anyText :: ps) s = true ↔
      ∃ front back, s = front ++ back ∧ accepts ps back = true := by
  rw [accepts, anySuffix_iff]

end NamePattern

end LineShell
