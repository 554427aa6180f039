import LineShell.Parser.Word
import LineShell.Line

/-!
# Reading lines

A command is a prefix of assignments, then words, then redirects, with blanks between them.
Redirects may follow each other, and the last word, without a blank.  Where a word could stand a
redirect is tried first, so `2>file` is a redirect of descriptor 2; but an operand that is a
file stands before `<` only, so `foo>file` is the word `foo` and a redirect.

A line is a command if it can be one, else a list of assignments, else blank.
-/

namespace LineShell

namespace Parser

/-! ## Blanks -/

def isBlank (c : Char) : Bool :=
  c == ' ' || c == '\t'

def skipBlanks (s : List Char) : List Char :=
  s.dropWhile isBlank

def atEnd (s : List Char) : Bool :=
  s == ['\n']

/-- Skips the blanks behind an assignment.  There is at least one unless the line ends. -/
def separator (s : List Char) : Except Failure (List Char) :=
  if s.head?.any isBlank || atEnd s then .ok (skipBlanks s)
  else mismatch .whitespace s

theorem skipBlanks_append (s : List Char) : ∃ w, s = w ++ skipBlanks s :=
  ⟨s.takeWhile isBlank, by simp [skipBlanks]⟩

theorem length_skipBlanks_le (s : List Char) : (skipBlanks s).length ≤ s.length :=
  (List.dropWhile_suffix isBlank).length_le

theorem separator_ok {s r : List Char} (h : separator s = .ok r) : r = skipBlanks s := by
  unfold separator at h
  split at h
  · exact (Except.ok.inj h).symm
  · simp [mismatch] at h

/-! ## Assignments -/

def assignment (s : List Char) : Reading Assignment :=
  match variableName s with
  | .error failure => .error failure
  | .ok (name, '=' :: t) =>
      match Production.optional word t with
      | .error failure => .error failure
      | .ok (value, r) => .ok (⟨name, value.getD []⟩, r)
  | .ok (_, t) => mismatch .equalsSign t

theorem assignment_consumes : Production.Consumes assignment := by
  intro s v r h
  unfold assignment at h
  split at h
  · simp at h
  · next name t hname =>
    obtain ⟨w, hw, rfl⟩ := variableName_consumes _ _ _ hname
    split at h
    · simp at h
    · next value u hvalue =>
      simp only [Except.ok.injEq, Prod.mk.injEq] at h
      unfold Production.optional at hvalue
      split at hvalue
      · simp only [Except.ok.injEq, Prod.mk.injEq] at hvalue
        exact ⟨w ++ ['='], by simp, by simp [hvalue.2, h.2]⟩
      · simp at hvalue
      · next x y hword =>
        simp only [Except.ok.injEq, Prod.mk.injEq] at hvalue
        obtain ⟨back, -, rfl⟩ := word_consumes _ _ _ hword
        exact ⟨w ++ '=' :: back, by simp, by simp [hvalue.2, h.2]⟩
  · simp [mismatch] at h

/-- The assignments at the beginning of a line, and the blanks behind them. -/
def assignmentPrefix (s : List Char) : Reading (List Assignment) :=
  match assignment s with
  | .error (.mismatch _) => .ok ([], s)
  | .error failure => .error failure
  | .ok (a, t) =>
      match separator t with
      | .error failure => .error failure
      | .ok u =>
          if u.length < s.length then
            match assignmentPrefix u with
            | .error failure => .error failure
            | .ok (as, r) => .ok (a :: as, r)
          else .ok ([a], u)
termination_by s.length

theorem length_separator_lt {s t u : List Char} {a : Assignment} (ha : assignment s = .ok (a, t))
    (hu : separator t = .ok u) : u.length < s.length := by
  have := assignment_consumes.length_lt ha
  have := length_skipBlanks_le t
  rw [separator_ok hu]
  omega

def assignments (s : List Char) : Reading (List Assignment) :=
  match assignmentPrefix (skipBlanks s) with
  | .error failure => .error failure
  | .ok ([], _) => mismatch .variableAssignment s
  | .ok (a :: as, r) => .ok (a :: as, r)

/-! ## Redirects -/

def redirectKind : Production RedirectKind
  | '>' :: '>' :: r => .ok (.append, r)
  | '>' :: r => .ok (.truncate, r)
  | '<' :: r => .ok (.input, r)
  | s => mismatch .redirectOperator s

def descriptorNumber (digits : List Char) : Except Failure Nat :=
  match Numeral.read (String.ofList digits) with
  | .error error => .error (.numeral error)
  | .ok n => .ok n.toNat

def startsOperator (s : List Char) : Bool :=
  s.head?.any fun c => c == '<' || c == '>'

def leftOperand (s : List Char) : Reading (Option Operand) :=
  let digits := s.takeWhile isDigitChar
  let rest := s.dropWhile isDigitChar
  if !digits.isEmpty && startsOperator rest then
    match descriptorNumber digits with
    | .error failure => .error failure
    | .ok n => .ok (some (.descriptor n), rest)
  else Production.optional (Production.map Operand.file path) s

/-- The operand behind an operator: a descriptor behind an ampersand, a word, or nothing. -/
def rightOperand : List Char → Reading (Option Operand)
  | '&' :: t =>
      let digits := t.takeWhile isDigitChar
      if digits.isEmpty then rejection .fileDescriptor t
      else
        match descriptorNumber digits with
        | .error failure => .error failure
        | .ok n => .ok (some (.descriptor n), t.dropWhile isDigitChar)
  | s => Production.optional (Production.map Operand.file word) s

def Operand.isFile : Operand → Bool
  | .file _ => true
  | .descriptor _ => false

/-- The redirect with these operands before and behind its operator. -/
def makeRedirect (kind : RedirectKind) (left right : Option Operand) : Redirect :=
  match kind with
  | .input => ⟨kind, right, left⟩
  | .truncate | .append => ⟨kind, left, right⟩

/-- A redirect.  Blanks behind the operator belong to it if an operand follows them. -/
def redirect (s : List Char) : Reading Redirect :=
  match leftOperand s with
  | .error failure => .error failure
  | .ok (left, t) =>
      match redirectKind t with
      | .error failure => .error failure
      | .ok (kind, u) =>
          if left.any Operand.isFile && kind != .input then mismatch .redirect s
          else
            match rightOperand (skipBlanks u) with
            | .error failure => .error failure
            | .ok (none, _) => .ok (makeRedirect kind left none, u)
            | .ok (some right, r) => .ok (makeRedirect kind left (some right), r)

theorem optional_append {α : Type} {p : Production α} (hp : Production.Consumes p)
    {s r : List Char} {v : Option α} (h : Production.optional p s = .ok (v, r)) :
    ∃ w, s = w ++ r := by
  unfold Production.optional at h
  split at h
  · simp only [Except.ok.injEq, Prod.mk.injEq] at h
    exact ⟨[], by simp [h.2]⟩
  · simp at h
  · next x u hx =>
    simp only [Except.ok.injEq, Prod.mk.injEq] at h
    obtain ⟨w, -, rfl⟩ := hp _ _ _ hx
    exact ⟨w, by rw [h.2]⟩

theorem map_consumes {α β : Type} {p : Production α} (f : α → β) (hp : Production.Consumes p) :
    Production.Consumes (Production.map f p) := by
  intro s v r h
  unfold Production.map at h
  split at h
  · simp at h
  · next x u hx =>
    simp only [Except.ok.injEq, Prod.mk.injEq] at h
    rw [← h.2]
    exact hp _ _ _ hx

theorem redirectKind_consumes : Production.Consumes redirectKind := by
  intro s v r h
  unfold redirectKind at h
  split at h
  · simp only [Except.ok.injEq, Prod.mk.injEq] at h
    exact ⟨['>', '>'], by simp, by simp [h.2]⟩
  · simp only [Except.ok.injEq, Prod.mk.injEq] at h
    exact ⟨['>'], by simp, by simp [h.2]⟩
  · simp only [Except.ok.injEq, Prod.mk.injEq] at h
    exact ⟨['<'], by simp, by simp [h.2]⟩
  · simp [mismatch] at h

theorem leftOperand_append {s r : List Char} {v : Option Operand}
    (h : leftOperand s = .ok (v, r)) : ∃ w, s = w ++ r := by
  simp only [leftOperand] at h
  split at h
  · split at h
    · simp at h
    · simp only [Except.ok.injEq, Prod.mk.injEq] at h
      exact ⟨s.takeWhile isDigitChar, by simp [← h.2]⟩
  · exact optional_append (map_consumes _ path_consumes) h

theorem rightOperand_append {s r : List Char} {v : Option Operand}
    (h : rightOperand s = .ok (v, r)) : ∃ w, s = w ++ r := by
  unfold rightOperand at h
  split at h
  · next t =>
    simp only at h
    split at h
    · simp [rejection] at h
    · split at h
      · simp at h
      · simp only [Except.ok.injEq, Prod.mk.injEq] at h
        exact ⟨'&' :: t.takeWhile isDigitChar, by simp [← h.2]⟩
  · exact optional_append (map_consumes _ word_consumes) h

theorem redirect_consumes : Production.Consumes redirect := by
  intro s v r h
  unfold redirect at h
  split at h
  · simp at h
  · next left t hleft =>
    obtain ⟨w₁, rfl⟩ := leftOperand_append hleft
    split at h
    · simp at h
    · next kind u hkind =>
      obtain ⟨w₂, hw₂, rfl⟩ := redirectKind_consumes _ _ _ hkind
      split at h
      · simp [mismatch] at h
      · split at h
        · simp at h
        · simp only [Except.ok.injEq, Prod.mk.injEq] at h
          exact ⟨w₁ ++ w₂, by simp [hw₂], by simp [h.2]⟩
        · next right x hright =>
          simp only [Except.ok.injEq, Prod.mk.injEq] at h
          obtain ⟨w₃, hw₃⟩ := skipBlanks_append u
          obtain ⟨w₄, hw₄⟩ := rightOperand_append hright
          refine ⟨w₁ ++ w₂ ++ w₃ ++ w₄, by simp [hw₂], ?_⟩
          conv => lhs; rw [hw₃, hw₄, h.2]
          simp

/-! ## Commands -/

/-- The next redirect.  There is none only where the line ends. -/
def nextRedirect (s : List Char) : Reading Redirect :=
  let t := skipBlanks s
  if atEnd t then mismatch .redirect t
  else
    match redirect t with
    | .error (.mismatch _) => rejection .redirect t
    | reading => reading

def redirects (s : List Char) : Reading (List Redirect) :=
  match Production.repeated nextRedirect s with
  | .error failure => .error failure
  | .ok (ds, r) => .ok (ds, skipBlanks r)

/-- The next word.  There is none only where the line ends or a redirect follows. -/
def nextArgument (s : List Char) : Reading Word :=
  let t := skipBlanks s
  if atEnd t then mismatch .argument t
  else
    match redirect t with
    | .ok _ => mismatch .argument t
    | .error (.mismatch _) =>
        if t = s then rejection .whitespace t
        else
          match word t with
          | .error (.mismatch _) => rejection .argumentOrRedirect t
          | reading => reading
    | .error failure => .error failure

def argumentsAndRedirects (s : List Char) : Reading (List Word × List Redirect) :=
  match Production.repeated nextArgument s with
  | .error failure => .error failure
  | .ok (ws, t) =>
      match redirects t with
      | .error failure => .error failure
      | .ok (ds, r) => .ok ((ws, ds), r)

theorem nextRedirect_consumes : Production.Consumes nextRedirect := by
  intro s v r h
  simp only [nextRedirect] at h
  split at h
  · simp [mismatch] at h
  · split at h
    · simp [rejection] at h
    · obtain ⟨back, hback, ht⟩ := redirect_consumes _ _ _ h
      obtain ⟨front, hfront⟩ := skipBlanks_append s
      exact ⟨front ++ back, by simp [hback], by rw [List.append_assoc, ← ht, ← hfront]⟩

theorem nextArgument_consumes : Production.Consumes nextArgument := by
  intro s v r h
  simp only [nextArgument] at h
  split at h
  · simp [mismatch] at h
  · split at h
    · simp [mismatch] at h
    · split at h
      · simp [rejection] at h
      · split at h
        · simp [rejection] at h
        · obtain ⟨back, hback, ht⟩ := word_consumes _ _ _ h
          obtain ⟨front, hfront⟩ := skipBlanks_append s
          exact ⟨front ++ back, by simp [hback], by rw [List.append_assoc, ← ht, ← hfront]⟩
    · simp at h

def command (s : List Char) : Reading Command :=
  match assignmentPrefix (skipBlanks s) with
  | .error failure => .error failure
  | .ok (as, t) =>
      match word t with
      | .error failure => .error failure
      | .ok (w, u) =>
          match argumentsAndRedirects u with
          | .error failure => .error failure
          | .ok ((ws, ds), r) => .ok (⟨as, w :: ws, ds⟩, r)

def line (s : List Char) : Reading Line :=
  match command s with
  | .ok (c, r) => .ok (.command c, r)
  | .error (.mismatch _) =>
      match assignments s with
      | .ok (as, r) => .ok (.assignments as, skipBlanks r)
      | .error (.mismatch fault) =>
          let r := skipBlanks s
          if atEnd r then .ok (.blank, r) else .error (.mismatch fault)
      | .error failure => .error failure
  | .error failure => .error failure

/-! ## Whole texts -/

/-- A text with a line feed at its end, which is added if it is missing. -/
def terminated (text : List Char) : List Char :=
  if text.getLast? = some '\n' then text else text ++ ['\n']

/-- Reads a text of which nothing may be left but the line feed that ends it.  Here a mismatch
is final, so it counts as a rejection. -/
def whole {α : Type} (p : Production α) (expected : Expected) (text : String) :
    Except ParseFailure α :=
  let s := terminated text.toList
  match p s with
  | .error (.mismatch fault) => .error ((Failure.rejection fault).locate 0 s)
  | .error failure => .error (failure.locate 0 s)
  | .ok (v, r) =>
      if atEnd r then .ok v else .error ((Failure.rejection ⟨expected, r⟩).locate 0 s)

end Parser

def parse (text : String) : Except ParseFailure Line :=
  Parser.whole Parser.line .endOfLine text

def parseRedirect (text : String) : Except ParseFailure Redirect :=
  Parser.whole Parser.redirect .endOfRedirect text

/-- Whether a text can name a variable: it is all that is read of it as a name. -/
def isValidName (name : String) : Bool :=
  match Parser.variableName (name.toList ++ ['\n']) with
  | .ok (_, rest) => rest == ['\n']
  | .error _ => false

end LineShell
