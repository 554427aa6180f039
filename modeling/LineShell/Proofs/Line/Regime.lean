import LineShell.Proofs.Line.Failure
import LineShell.Proofs.Parser.Softening

/-!
# What becomes of a rejection

A rejection refuses the whole line.  The parser could also be written without rejections: then a
production that finds a fault in what it has begun only fails to match, and its caller goes on to
the next alternative.  That is the next fragment of a word, the empty value of an assignment, a
redirect without an operand, a word instead of a redirect, or a list of assignments instead of a
command.

Here the parser has the treatment of rejections for a parameter.  Each production that raises
rejections of its own is guarded: the two kinds of quoted texts, the operand behind an operator,
and the command.  Within a guarded production nothing looks at a mismatch that the guard would
make, so it does not matter that the guard stands around the production and not at each fault in
it.  With the regime `refuse` this is the parser as it runs.
-/

namespace LineShell

inductive Regime where
  | refuse
  | retry
  deriving DecidableEq

namespace Regime

open LineShell.Parser

/-- The production with its rejections treated as the regime says. -/
def guard {α : Type} : Regime → Production α → Production α
  | .refuse, p => p
  | .retry, p => Production.soften p

/-! ## Words -/

def fragment (g : Regime) : Production Word :=
  Production.firstOf .argument [path, glob, g.guard doubleQuoted, g.guard singleQuoted]

def word (g : Regime) (s : List Char) : Reading Word :=
  match Production.repeated g.fragment s with
  | .error failure => .error failure
  | .ok ([], _) => mismatch .argument s
  | .ok (w :: ws, r) => .ok ((w :: ws).flatten, r)

/-! ## Assignments -/

def assignment (g : Regime) (s : List Char) : Reading Assignment :=
  match variableName s with
  | .error failure => .error failure
  | .ok (name, '=' :: t) =>
      match Production.optional g.word t with
      | .error failure => .error failure
      | .ok (value, r) => .ok (⟨name, value.getD []⟩, r)
  | .ok (_, t) => mismatch .equalsSign t

def assignmentPrefix (g : Regime) (s : List Char) : Reading (List Assignment) :=
  match g.assignment s with
  | .error (.mismatch _) => .ok ([], s)
  | .error failure => .error failure
  | .ok (a, t) =>
      match separator t with
      | .error failure => .error failure
      | .ok u =>
          if u.length < s.length then
            match assignmentPrefix g u with
            | .error failure => .error failure
            | .ok (as, r) => .ok (a :: as, r)
          else .ok ([a], u)
termination_by s.length

def assignments (g : Regime) (s : List Char) : Reading (List Assignment) :=
  match g.assignmentPrefix (skipBlanks s) with
  | .error failure => .error failure
  | .ok ([], _) => mismatch .variableAssignment s
  | .ok (a :: as, r) => .ok (a :: as, r)

/-! ## Redirects -/

/-- The operand behind an operator, before its rejections are treated. -/
def openOperand (g : Regime) : List Char → Reading (Option Operand)
  | '&' :: t =>
      let digits := t.takeWhile isDigitChar
      if digits.isEmpty then rejection .fileDescriptor t
      else
        match descriptorNumber digits with
        | .error failure => .error failure
        | .ok n => .ok (some (.descriptor n), t.dropWhile isDigitChar)
  | s => Production.optional (Production.map Operand.file g.word) s

def rightOperand (g : Regime) : Production (Option Operand) :=
  g.guard g.openOperand

def redirect (g : Regime) (s : List Char) : Reading Redirect :=
  match leftOperand s with
  | .error failure => .error failure
  | .ok (left, t) =>
      match redirectKind t with
      | .error failure => .error failure
      | .ok (kind, u) =>
          if left.any Operand.isFile && kind != .input then mismatch .redirect s
          else
            match g.rightOperand (skipBlanks u) with
            | .error failure => .error failure
            | .ok (none, _) => .ok (makeRedirect kind left none, u)
            | .ok (some right, r) => .ok (makeRedirect kind left (some right), r)

/-! ## Commands -/

def nextRedirect (g : Regime) (s : List Char) : Reading Redirect :=
  let t := skipBlanks s
  if atEnd t then mismatch .redirect t
  else
    match g.redirect t with
    | .error (.mismatch _) => rejection .redirect t
    | reading => reading

def redirects (g : Regime) (s : List Char) : Reading (List Redirect) :=
  match Production.repeated g.nextRedirect s with
  | .error failure => .error failure
  | .ok (ds, r) => .ok (ds, skipBlanks r)

def nextArgument (g : Regime) (s : List Char) : Reading Word :=
  let t := skipBlanks s
  if atEnd t then mismatch .argument t
  else
    match g.redirect t with
    | .ok _ => mismatch .argument t
    | .error (.mismatch _) =>
        if t = s then rejection .whitespace t
        else
          match g.word t with
          | .error (.mismatch _) => rejection .argumentOrRedirect t
          | reading => reading
    | .error failure => .error failure

def argumentsAndRedirects (g : Regime) (s : List Char) : Reading (List Word × List Redirect) :=
  match Production.repeated g.nextArgument s with
  | .error failure => .error failure
  | .ok (ws, t) =>
      match g.redirects t with
      | .error failure => .error failure
      | .ok (ds, r) => .ok ((ws, ds), r)

/-- A command, before its rejections are treated.  Those of `nextArgument` and `nextRedirect` leave
the command. -/
def openCommand (g : Regime) (s : List Char) : Reading Command :=
  match g.assignmentPrefix (skipBlanks s) with
  | .error failure => .error failure
  | .ok (as, t) =>
      match g.word t with
      | .error failure => .error failure
      | .ok (w, u) =>
          match g.argumentsAndRedirects u with
          | .error failure => .error failure
          | .ok ((ws, ds), r) => .ok (⟨as, w :: ws, ds⟩, r)

def command (g : Regime) : Production Command :=
  g.guard g.openCommand

/-! ## Lines -/

def line (g : Regime) (s : List Char) : Reading Line :=
  match g.command s with
  | .ok (c, r) => .ok (.command c, r)
  | .error (.mismatch _) =>
      match g.assignments s with
      | .ok (as, r) => .ok (.assignments as, skipBlanks r)
      | .error (.mismatch fault) =>
          let r := skipBlanks s
          if atEnd r then .ok (.blank, r) else .error (.mismatch fault)
      | .error failure => .error failure
  | .error failure => .error failure

def parse (g : Regime) (text : String) : Except ParseFailure Line :=
  Parser.whole g.line .endOfLine text

/-! ## What is read -/

theorem guard_eq_ok_iff {α : Type} (g : Regime) {p : Production α} {s r : List Char} {v : α} :
    g.guard p s = .ok (v, r) ↔ p s = .ok (v, r) := by
  cases g with
  | refuse => rfl
  | retry => exact Production.soften_eq_ok_iff

theorem guard_consumes {α : Type} (g : Regime) {p : Production α} (hp : p.Consumes) :
    (g.guard p).Consumes := by
  intro s v r h
  exact hp s v r (g.guard_eq_ok_iff.mp h)

theorem fragment_consumes (g : Regime) : g.fragment.Consumes := by
  apply Production.firstOf_consumes
  intro p hp
  simp only [List.mem_cons, List.not_mem_nil, or_false] at hp
  rcases hp with rfl | rfl | rfl | rfl
  · exact path_consumes
  · exact glob_consumes
  · exact g.guard_consumes doubleQuoted_consumes
  · exact g.guard_consumes singleQuoted_consumes

theorem word_consumes (g : Regime) : Production.Consumes g.word := by
  intro s v r h
  unfold word at h
  split at h
  · simp at h
  · simp [mismatch] at h
  · next w ws u hws =>
    simp only [Except.ok.injEq, Prod.mk.injEq] at h
    obtain ⟨front, rfl, hfront⟩ := Production.repeated_append g.fragment_consumes hws
    exact ⟨front, hfront (by simp), by rw [h.2]⟩

theorem rightOperand_append (g : Regime) {s r : List Char} {v : Option Operand}
    (h : g.rightOperand s = .ok (v, r)) : ∃ w, s = w ++ r := by
  have hopen : g.openOperand s = .ok (v, r) := g.guard_eq_ok_iff.mp h
  unfold openOperand at hopen
  split at hopen
  · next t =>
    simp only at hopen
    split at hopen
    · simp [rejection] at hopen
    · split at hopen
      · simp at hopen
      · simp only [Except.ok.injEq, Prod.mk.injEq] at hopen
        exact ⟨'&' :: t.takeWhile isDigitChar, by simp [← hopen.2]⟩
  · exact optional_append (map_consumes _ g.word_consumes) hopen

/-- A redirect that has been read: its left operand, its operator, and what the right operand
makes of the rest. -/
theorem redirect_ok {g : Regime} {s r : List Char} {d : Redirect}
    (h : g.redirect s = .ok (d, r)) :
    ∃ left t kind u, leftOperand s = .ok (left, t) ∧ redirectKind t = .ok (kind, u) ∧
      (left.any Operand.isFile && kind != .input) = false ∧
      ((∃ v, g.rightOperand (skipBlanks u) = .ok (none, v) ∧ u = r ∧
          makeRedirect kind left none = d) ∨
        ∃ right, g.rightOperand (skipBlanks u) = .ok (some right, r) ∧
          makeRedirect kind left (some right) = d) := by
  unfold redirect at h
  split at h
  · simp at h
  · next left t hleft =>
    split at h
    · simp at h
    · next kind u hkind =>
      split at h
      · simp [mismatch] at h
      · next hfits =>
        have hfits : (left.any Operand.isFile && kind != .input) = false := by simpa using hfits
        split at h
        · simp at h
        · next v hright =>
          simp only [Except.ok.injEq, Prod.mk.injEq] at h
          exact ⟨left, t, kind, u, hleft, hkind, hfits, Or.inl ⟨v, hright, h.2, h.1⟩⟩
        · next right v hright =>
          simp only [Except.ok.injEq, Prod.mk.injEq] at h
          obtain ⟨rfl, rfl⟩ := h
          exact ⟨left, t, kind, u, hleft, hkind, hfits, Or.inr ⟨right, hright, rfl⟩⟩

theorem redirect_consumes (g : Regime) : Production.Consumes g.redirect := by
  intro s d r h
  obtain ⟨left, t, kind, u, hleft, hkind, -, hright⟩ := redirect_ok h
  obtain ⟨w₁, rfl⟩ := leftOperand_append hleft
  obtain ⟨w₂, hw₂, rfl⟩ := redirectKind_consumes _ _ _ hkind
  rcases hright with ⟨-, -, rfl, -⟩ | ⟨right, hright, -⟩
  · exact ⟨w₁ ++ w₂, by simp [hw₂], by simp⟩
  · obtain ⟨w₃, hw₃⟩ := skipBlanks_append u
    obtain ⟨w₄, hw₄⟩ := g.rightOperand_append hright
    refine ⟨w₁ ++ (w₂ ++ (w₃ ++ w₄)), by simp [hw₂], ?_⟩
    rw [List.append_assoc, List.append_assoc, List.append_assoc, ← hw₄, ← hw₃]

theorem nextRedirect_ok {g : Regime} {s r : List Char} {d : Redirect}
    (h : g.nextRedirect s = .ok (d, r)) : g.redirect (skipBlanks s) = .ok (d, r) := by
  simp only [nextRedirect] at h
  split at h
  · simp [mismatch] at h
  · split at h
    · simp [rejection] at h
    · exact h

theorem nextRedirect_consumes (g : Regime) : Production.Consumes g.nextRedirect := by
  intro s d r h
  obtain ⟨back, hback, ht⟩ := g.redirect_consumes _ _ _ (nextRedirect_ok h)
  obtain ⟨front, hfront⟩ := skipBlanks_append s
  exact ⟨front ++ back, by simp [hback], by rw [List.append_assoc, ← ht, ← hfront]⟩

theorem nextArgument_ok {g : Regime} {s r : List Char} {w : Word}
    (h : g.nextArgument s = .ok (w, r)) :
    skipBlanks s ≠ s ∧ Production.Mismatches g.redirect (skipBlanks s) ∧
      g.word (skipBlanks s) = .ok (w, r) := by
  simp only [nextArgument] at h
  split at h
  · simp [mismatch] at h
  · split at h
    · simp [mismatch] at h
    · next fault hfault =>
      split at h
      · simp [rejection] at h
      · next hblank =>
        split at h
        · simp [rejection] at h
        · exact ⟨hblank, ⟨fault, hfault⟩, h⟩
    · simp at h

theorem nextArgument_consumes (g : Regime) : Production.Consumes g.nextArgument := by
  intro s w r h
  obtain ⟨back, hback, ht⟩ := g.word_consumes _ _ _ (nextArgument_ok h).2.2
  obtain ⟨front, hfront⟩ := skipBlanks_append s
  exact ⟨front ++ back, by simp [hback], by rw [List.append_assoc, ← ht, ← hfront]⟩

/-! ## The parser as it runs -/

theorem refuse_assignment : refuse.assignment = Parser.assignment := rfl

theorem refuse_assignmentPrefix (s : List Char) :
    refuse.assignmentPrefix s = Parser.assignmentPrefix s := by
  fun_induction Parser.assignmentPrefix s with
  | case1 s fault h => rw [assignmentPrefix, refuse_assignment, h]
  | case2 s failure hne h =>
    rw [assignmentPrefix, refuse_assignment, h]
    cases failure with
    | mismatch fault => exact absurd rfl (hne fault)
    | rejection fault => rfl
    | numeral error => rfl
  | case3 s a t ha failure hsep => rw [assignmentPrefix, refuse_assignment, ha]; simp [hsep]
  | case4 s a t ha u hsep hlt failure hrest ih =>
    rw [assignmentPrefix, refuse_assignment, ha]
    simp [hsep, hlt, ih, hrest]
  | case5 s a t ha u hsep hlt as r hrest ih =>
    rw [assignmentPrefix, refuse_assignment, ha]
    simp [hsep, hlt, ih, hrest]
  | case6 s a t ha u hsep hlt =>
    rw [assignmentPrefix, refuse_assignment, ha]
    simp [hsep, hlt]

theorem refuse_assignments : refuse.assignments = Parser.assignments := by
  funext s
  rw [assignments, refuse_assignmentPrefix]
  rfl

theorem refuse_redirect : refuse.redirect = Parser.redirect := rfl

theorem refuse_command : refuse.command = Parser.command := by
  funext s
  rw [command, guard, openCommand, refuse_assignmentPrefix]
  rfl

theorem refuse_line : refuse.line = Parser.line := by
  funext s
  rw [line, refuse_command, refuse_assignments]
  rfl

/-- Where rejections refuse the line, this is the parser of the shell. -/
theorem refuse_parse : refuse.parse = LineShell.parse := by
  funext text
  rw [parse, refuse_line]
  rfl

end Regime

end LineShell
