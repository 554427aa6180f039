import LineShell.Text.Numeral

/-!
# Productions

A production reads a value from the beginning of its input and hands back the input that it has
not read.  It sees nothing else, so what it reads does not depend on what stands before.

A production fails in one of three ways.  A *mismatch* says that the input is not of this form,
and the caller may try another one.  A *rejection* says that the input has begun a form which
it does not finish; nothing else could read it, so the line as a whole is refused.  And a run of
digits may fail to be a number.

A fault is placed by the input that was left when it was found.  It becomes an offset into the
whole text only where the text is known, which is at the outermost call.
-/

namespace LineShell

inductive Expected where
  | variableName
  | dollar
  | openBrace
  | closeBrace
  | path
  | glob
  | doubleQuote
  | closingDoubleQuote
  | escapeSequence
  | singleQuote
  | closingSingleQuote
  | argument
  | equalsSign
  | whitespace
  | variableAssignment
  | redirectOperator
  | redirect
  | fileDescriptor
  | argumentOrRedirect
  | endOfLine
  | endOfRedirect
  deriving DecidableEq

def Expected.text : Expected → String
  | .variableName => "variable name"
  | .dollar => "'$'"
  | .openBrace => "'\x7b'"
  | .closeBrace => "'\x7d'"
  | .path => "path"
  | .glob => "glob"
  | .doubleQuote => "'\"'"
  | .closingDoubleQuote => "closing '\"'"
  | .escapeSequence => "escape sequence"
  | .singleQuote => "\"'\""
  | .closingSingleQuote => "closing \"'\""
  | .argument => "argument"
  | .equalsSign => "'='"
  | .whitespace => "whitespace"
  | .variableAssignment => "variable assignment"
  | .redirectOperator => "redirect operator"
  | .redirect => "redirect"
  | .fileDescriptor => "file descriptor"
  | .argumentOrRedirect => "argument or redirect"
  | .endOfLine => "end of line"
  | .endOfRedirect => "end of redirect"

structure Fault where
  expected : Expected
  rest : List Char
  deriving DecidableEq

inductive Failure where
  | mismatch (fault : Fault)
  | rejection (fault : Fault)
  | numeral (error : NumeralError)
  deriving DecidableEq

/-- A value with the input behind it, or a failure. -/
abbrev Reading (α : Type) := Except Failure (α × List Char)

abbrev Production (α : Type) := List Char → Reading α

def mismatch {α : Type} (expected : Expected) (rest : List Char) : Except Failure α :=
  .error (.mismatch ⟨expected, rest⟩)

def rejection {α : Type} (expected : Expected) (rest : List Char) : Except Failure α :=
  .error (.rejection ⟨expected, rest⟩)

namespace Production

variable {α β : Type}

/-- The first production that does not mismatch.  If all of them do, the input is expected to be
`expected`. -/
def firstOf (expected : Expected) : List (Production α) → Production α
  | [], s => mismatch expected s
  | p :: ps, s =>
      match p s with
      | .error (.mismatch _) => firstOf expected ps s
      | reading => reading

/-- As many values as there are.  A production that reads nothing is used at most once. -/
def repeated (p : Production α) (s : List Char) : Reading (List α) :=
  match p s with
  | .error (.mismatch _) => .ok ([], s)
  | .error failure => .error failure
  | .ok (v, r) =>
      if r.length < s.length then
        match repeated p r with
        | .error failure => .error failure
        | .ok (vs, t) => .ok (v :: vs, t)
      else .ok ([v], r)
termination_by s.length

def optional (p : Production α) : Production (Option α) := fun s =>
  match p s with
  | .error (.mismatch _) => .ok (none, s)
  | .error failure => .error failure
  | .ok (v, r) => .ok (some v, r)

def map (f : α → β) (p : Production α) : Production β := fun s =>
  match p s with
  | .error failure => .error failure
  | .ok (v, r) => .ok (f v, r)

def Consumes (p : Production α) : Prop :=
  ∀ s v r, p s = .ok (v, r) → ∃ w, w ≠ [] ∧ s = w ++ r

theorem Consumes.length_lt {p : Production α} (hp : Consumes p) {s r : List Char} {v : α}
    (h : p s = .ok (v, r)) : r.length < s.length := by
  obtain ⟨w, hw, rfl⟩ := hp s v r h
  have := List.length_pos_iff.mpr hw
  simp only [List.length_append]
  omega

theorem mem_of_firstOf_ok {expected : Expected} {ps : List (Production α)} {s r : List Char} {v : α}
    (h : firstOf expected ps s = .ok (v, r)) : ∃ p ∈ ps, p s = .ok (v, r) := by
  induction ps with
  | nil => simp [firstOf, mismatch] at h
  | cons p ps ih =>
    simp only [firstOf] at h
    split at h
    · obtain ⟨q, hq, hqs⟩ := ih h
      exact ⟨q, List.mem_cons_of_mem p hq, hqs⟩
    · exact ⟨p, List.mem_cons_self, h⟩

theorem firstOf_consumes {expected : Expected} {ps : List (Production α)}
    (hps : ∀ p ∈ ps, Consumes p) : Consumes (firstOf expected ps) := by
  intro s v r h
  obtain ⟨p, hp, hps'⟩ := mem_of_firstOf_ok h
  exact hps p hp s v r hps'

theorem repeated_append {p : Production α} (hp : Consumes p) {s r : List Char} {vs : List α}
    (h : repeated p s = .ok (vs, r)) : ∃ w, s = w ++ r ∧ (vs ≠ [] → w ≠ []) := by
  fun_induction repeated p s generalizing vs r with
  | case1 s =>
    simp only [Except.ok.injEq, Prod.mk.injEq] at h
    exact ⟨[], by simp [h.2], by simp [← h.1]⟩
  | case2 => simp at h
  | case3 => simp at h
  | case4 s v t hv _ us u hus ih =>
    simp only [Except.ok.injEq, Prod.mk.injEq] at h
    obtain ⟨front, hfront, rfl⟩ := hp s v t hv
    obtain ⟨back, rfl, -⟩ := ih hus
    exact ⟨front ++ back, by simp [h.2], by simp [hfront]⟩
  | case5 s v t hv hlt => exact absurd (hp.length_lt hv) hlt

end Production

/-! ## Positions

The text is counted in characters from its beginning.  Reading at a position behind the end of
a text finds nothing there. -/

/-- A failure whose place is known as an offset into the text. -/
inductive ParseFailure where
  | mismatch (expected : Expected) (offset : Nat)
  | rejection (expected : Expected) (offset : Nat)
  | numeral (error : NumeralError)
  deriving DecidableEq

/-- The offset at which `rest` begins, when the input `s` begins at `start`. -/
def offsetOf (start : Nat) (s rest : List Char) : Nat :=
  start + (s.length - rest.length)

def Failure.locate (start : Nat) (s : List Char) : Failure → ParseFailure
  | .mismatch fault => .mismatch fault.expected (offsetOf start s fault.rest)
  | .rejection fault => .rejection fault.expected (offsetOf start s fault.rest)
  | .numeral error => .numeral error

/-- Reads a value at a position of a text, and tells the position behind it. -/
def Production.readAt {α : Type} (p : Production α) (text : List Char) (start : Nat) :
    Except ParseFailure (α × Nat) :=
  let s := text.drop start
  match p s with
  | .error failure => .error (failure.locate start s)
  | .ok (v, rest) => .ok (v, offsetOf start s rest)

def ParseFailure.message : ParseFailure → String
  | .mismatch expected offset | .rejection expected offset =>
      "expected " ++ expected.text ++ " at offset " ++ toString offset
  | .numeral error => error.message

/-- What stands before a position has no influence, except that it is counted. -/
theorem Production.readAt_append {α : Type} (p : Production α) (front text : List Char) :
    p.readAt (front ++ text) front.length =
      match p text with
      | .error failure => .error (failure.locate front.length text)
      | .ok (v, rest) => .ok (v, offsetOf front.length text rest) := by
  simp [Production.readAt]

end LineShell
