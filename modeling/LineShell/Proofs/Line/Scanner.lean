import LineShell.Proofs.Line.Bounds
import LineShell.Proofs.Line.Layout
import LineShell.Proofs.Word.Scanner

/-!
# Scanning lines

The productions of lines, each as a scanner, and the proofs that the two read the same.  The scanner
of a command has one loop over words and redirects, which knows whether it has come to the
redirects, where the productions have a loop for each.  So the two loops are made one before they
are compared (`commandRest_unrolls`).

The main statement is that no scanner looks back: what it reads at a position depends only on the
text behind it.
-/

namespace LineShell

open LineShell.Parser
open Production (Mismatches Steps)

namespace Scanner

/-! ## Assignments -/

/-- The position behind the blanks after an assignment.  There is at least one unless the line
ends. -/
def separator (text : List Char) (i : Nat) : Except ParseFailure Nat :=
  let j := runEnd isBlank text i
  if j = i ∧ atEnd text i = false then mismatchAt .whitespace i else .ok j

def assignment (text : List Char) (i : Nat) : Except ParseFailure (Assignment × Nat) :=
  match variableName text i with
  | .error failure => .error failure
  | .ok (name, j) =>
      if text[j]? = some '=' then
        withValue (fun value => ⟨name, value.getD []⟩) (optional word text (j + 1))
      else mismatchAt .equalsSign j

def assignmentPrefix (text : List Char) (i : Nat) : Except ParseFailure (List Assignment × Nat) :=
  match assignment text i with
  | .error (.mismatch _ _) => .ok ([], i)
  | .error failure => .error failure
  | .ok (a, j) =>
      match separator text j with
      | .error failure => .error failure
      | .ok k =>
          if text.length - k < text.length - i then withValue (a :: ·) (assignmentPrefix text k)
          else .ok ([a], k)
termination_by text.length - i

def assignments (text : List Char) (i : Nat) : Except ParseFailure (List Assignment × Nat) :=
  match assignmentPrefix text (runEnd isBlank text i) with
  | .error failure => .error failure
  | .ok ([], _) => mismatchAt .variableAssignment i
  | .ok (a :: as, j) => .ok (a :: as, j)

/-! ## Redirects -/

/-- The operators with their kinds, in the order in which they are tried. -/
def operators : List (List Char × RedirectKind) :=
  [(['>', '>'], .append), (['>'], .truncate), (['<'], .input)]

def redirectKind (text : List Char) (i : Nat) : Except ParseFailure (RedirectKind × Nat) :=
  match operators.find? fun operator => holdsAt text operator.1 i with
  | some (operator, kind) => .ok (kind, i + operator.length)
  | none => mismatchAt .redirectOperator i

/-- The descriptor that is written between two positions. -/
def descriptor (text : List Char) (i j : Nat) : Except ParseFailure (Option Operand × Nat) :=
  match Numeral.read (String.ofList (text.extract i j)) with
  | .error error => .error (.numeral error)
  | .ok n => .ok (some (.descriptor n.toNat), j)

def leftOperand (text : List Char) (i : Nat) : Except ParseFailure (Option Operand × Nat) :=
  let j := runEnd isDigitChar text i
  if i < j ∧ (text[j]? = some '<' ∨ text[j]? = some '>') then descriptor text i j
  else optional (map Operand.file path) text i

def rightOperand (text : List Char) (i : Nat) : Except ParseFailure (Option Operand × Nat) :=
  if text[i]? = some '&' then
    let j := runEnd isDigitChar text (i + 1)
    if j = i + 1 then rejectionAt .fileDescriptor (i + 1) else descriptor text (i + 1) j
  else optional (map Operand.file word) text i

def redirect (text : List Char) (i : Nat) : Except ParseFailure (Redirect × Nat) :=
  match leftOperand text i with
  | .error failure => .error failure
  | .ok (left, j) =>
      match redirectKind text j with
      | .error failure => .error failure
      | .ok (kind, k) =>
          if left.any Operand.isFile && kind != .input then mismatchAt .redirect i
          else
            match rightOperand text (runEnd isBlank text k) with
            | .error failure => .error failure
            | .ok (none, _) => .ok (makeRedirect kind left none, k)
            | .ok (some right, l) => .ok (makeRedirect kind left (some right), l)

/-! ## Commands -/

/-- The words and redirects of a command behind its name.  No word is read behind a redirect. -/
def argumentsAndRedirects (redirected : Bool) (text : List Char) (j : Nat) :
    Except ParseFailure ((List Word × List Redirect) × Nat) :=
  let k := runEnd isBlank text j
  if atEnd text k then .ok (([], []), k)
  else
    match redirect text k with
    | .ok (d, l) =>
        if text.length - l < text.length - j then
          withValue (fun (ws, ds) => (ws, d :: ds)) (argumentsAndRedirects true text l)
        else .ok (([], [d]), l)
    | .error (.mismatch _ _) =>
        if redirected then rejectionAt .redirect k
        else if k = j then rejectionAt .whitespace k
        else
          match word text k with
          | .error (.mismatch _ _) => rejectionAt .argumentOrRedirect k
          | .error failure => .error failure
          | .ok (w, l) =>
              if text.length - l < text.length - j then
                withValue (fun (ws, ds) => (w :: ws, ds)) (argumentsAndRedirects false text l)
              else .ok (([w], []), l)
    | .error failure => .error failure
termination_by text.length - j

def command (text : List Char) (i : Nat) : Except ParseFailure (Command × Nat) :=
  match assignmentPrefix text (runEnd isBlank text i) with
  | .error failure => .error failure
  | .ok (as, j) =>
      match word text j with
      | .error failure => .error failure
      | .ok (w, k) =>
          withValue (fun (ws, ds) => ⟨as, w :: ws, ds⟩) (argumentsAndRedirects false text k)

def line (text : List Char) (i : Nat) : Except ParseFailure (Line × Nat) :=
  match command text i with
  | .ok (c, j) => .ok (.command c, j)
  | .error (.mismatch _ _) =>
      match assignments text i with
      | .ok (as, j) => .ok (.assignments as, runEnd isBlank text j)
      | .error (.mismatch expected offset) =>
          let j := runEnd isBlank text i
          if atEnd text j then .ok (.blank, j) else mismatchAt expected offset
      | .error failure => .error failure
  | .error failure => .error failure

end Scanner

/-! ## The same assignments -/

section

variable {text s : List Char} {i : Nat}

theorem Remains.skipBlanks (h : Remains text i s) :
    Remains text (Scanner.runEnd isBlank text i) (skipBlanks s) :=
  h.runEnd isBlank

theorem Remains.atEnd (h : Remains text i s) : Scanner.atEnd text i = Parser.atEnd s := by
  rw [Bool.eq_iff_iff, h.atEnd_iff, Parser.atEnd, beq_iff_eq]

end

theorem assignment_scans : Scans Scanner.assignment assignment := by
  intro text s i h
  have hname := variableName_scans h
  unfold Scanner.assignment assignment
  generalize variableName s = reading, Scanner.variableName text i = result at hname
  cases hname with
  | error hfailure => exact .error hfailure
  | @ok name j r hj =>
    simp only [hj.getElem?_eq]
    split
    · next heq => simp at heq
    · next name' t heq =>
      obtain ⟨rfl, rfl⟩ := Prod.mk.inj (Except.ok.inj heq)
      have hvalue := word_scans.optional hj.tail
      rw [if_pos (List.head?_cons ..)]
      generalize Production.optional word t = reading,
        Scanner.optional Scanner.word text (j + 1) = result at hvalue
      cases hvalue with
      | error hfailure => exact .error hfailure
      | ok hk => exact .ok hk
    · next name' t hne heq =>
      obtain ⟨rfl, rfl⟩ := Prod.mk.inj (Except.ok.inj heq)
      rw [if_neg (head?_ne_of_forall hne)]
      exact sameReading_mismatch _ hj

theorem head?_any_eq_false_iff (p : Char → Bool) (s : List Char) :
    s.head?.any p = false ↔ s.takeWhile p = [] := by
  cases s with
  | nil => simp
  | cons c t => simp [List.takeWhile_cons]

/-- Both find no blank where one has to be, or skip all blanks. -/
theorem Remains.separator_cases {text s : List Char} {i : Nat} (h : Remains text i s) :
    separator s = mismatch .whitespace s ∧
        Scanner.separator text i = mismatchAt .whitespace i ∨
      separator s = .ok (Parser.skipBlanks s) ∧
        Scanner.separator text i = .ok (Scanner.runEnd isBlank text i) := by
  have hgap : (s.head?.any isBlank || Parser.atEnd s) = false ↔
      Scanner.runEnd isBlank text i = i ∧ Scanner.atEnd text i = false := by
    rw [Bool.or_eq_false_iff, head?_any_eq_false_iff, h.runEnd_eq_self_iff, h.atEnd]
  unfold separator Scanner.separator
  by_cases hnone : (s.head?.any isBlank || Parser.atEnd s) = false
  · exact .inl ⟨by rw [if_neg (by simp [hnone])], if_pos (hgap.mp hnone)⟩
  · exact .inr ⟨if_pos ((Bool.not_eq_false _).mp hnone), if_neg (mt hgap.mpr hnone)⟩

theorem assignmentPrefix_scans : Scans Scanner.assignmentPrefix assignmentPrefix := by
  intro text s i h
  induction hn : s.length using Nat.strongRecOn generalizing s i with
  | ind n ih =>
    subst hn
    have hread := assignment_scans h
    rw [assignmentPrefix_unrolls, assignmentTurn, Scanner.assignmentPrefix]
    generalize ha : assignment s = reading, Scanner.assignment text i = result at hread
    cases hread with
    | error hfailure =>
      cases hfailure with
      | mismatch => exact .ok h
      | rejection hj => exact sameReading_rejection _ hj
      | numeral error => exact .error (.numeral error)
    | @ok a j t hj =>
      obtain ⟨hseparator, hscanner⟩ | ⟨hseparator, hscanner⟩ := hj.separator_cases
      · simp only [hseparator, hscanner]
        exact sameReading_mismatch _ hj
      · have hlt := length_separator_lt ha hseparator
        simp only [hseparator, hscanner, if_pos ((h.length_sub_lt_iff hj.skipBlanks).mpr hlt)]
        exact (ih _ hlt hj.skipBlanks rfl).map (a :: ·)

theorem assignments_scans : Scans Scanner.assignments assignments := by
  intro text s i h
  have hread := assignmentPrefix_scans h.skipBlanks
  unfold Scanner.assignments assignments
  generalize assignmentPrefix (skipBlanks s) = reading,
    Scanner.assignmentPrefix text (Scanner.runEnd isBlank text i) = result at hread
  cases hread with
  | error hfailure => exact .error hfailure
  | @ok as j r hj =>
    cases as with
    | nil => exact sameReading_mismatch _ h
    | cons a as => exact .ok hj

/-! ## The same redirects -/

theorem redirectKind_scans : Scans Scanner.redirectKind redirectKind := by
  intro text s i h
  simp only [Scanner.redirectKind, h.holdsAt_eq]
  unfold redirectKind
  split
  · next r => exact .ok h.tail.tail
  · next r htwo =>
    have happend : ¬['>'] <+: r := fun ⟨u, hu⟩ => htwo u hu.symm
    have hfind : Scanner.operators.find? (·.1.isPrefixOf ('>' :: r)) =
        some (['>'], .truncate) := by
      simp [Scanner.operators, isPrefixOf_eq_false happend]
    rw [hfind]
    exact .ok h.tail
  · next r => exact .ok h.tail
  · next happend htruncate hinput =>
    have hfind : Scanner.operators.find? (·.1.isPrefixOf s) = none := by
      rw [List.find?_eq_none]
      intro operator hoperator hprefix
      obtain ⟨r, rfl⟩ := List.isPrefixOf_iff_prefix.mp hprefix
      simp only [Scanner.operators, List.mem_cons, List.not_mem_nil, or_false] at hoperator
      rcases hoperator with rfl | rfl | rfl
      · exact htruncate _ rfl
      · exact htruncate _ rfl
      · exact hinput _ rfl
    rw [hfind]
    exact sameReading_mismatch _ h

theorem descriptor_scans {text w r : List Char} {i j : Nat} (hi : Remains text i (w ++ r))
    (hj : Remains text j r) :
    SameReading text
      (match descriptorNumber w with
      | .error failure => .error failure
      | .ok n => .ok (some (.descriptor n), r))
      (Scanner.descriptor text i j) := by
  rw [Scanner.descriptor, hi.extract_eq hj, descriptorNumber]
  cases Numeral.read (String.ofList w) with
  | error error => exact .error (.numeral error)
  | ok n => exact .ok hj

theorem leftOperand_scans : Scans Scanner.leftOperand leftOperand := by
  intro text s i h
  have hend := h.runEnd isDigitChar
  have hdescriptor : (!(s.takeWhile isDigitChar).isEmpty &&
      startsOperator (s.dropWhile isDigitChar)) = true ↔
        i < Scanner.runEnd isDigitChar text i ∧
          (text[Scanner.runEnd isDigitChar text i]? = some '<' ∨
            text[Scanner.runEnd isDigitChar text i]? = some '>') := by
    rw [hend.getElem?_eq, h.runEnd_eq, Nat.lt_add_right_iff_pos, List.length_pos_iff]
    cases s.dropWhile isDigitChar <;> simp [startsOperator]
  simp only [Scanner.leftOperand, leftOperand, ← hdescriptor]
  split
  · apply descriptor_scans _ hend
    rwa [List.takeWhile_append_dropWhile]
  · exact (path_scans.map Operand.file).optional h

theorem rightOperand_scans : Scans Scanner.rightOperand rightOperand := by
  intro text s i h
  unfold Scanner.rightOperand rightOperand
  rw [h.getElem?_eq]
  split
  · next t =>
    have hend := h.tail.runEnd isDigitChar
    rw [if_pos (List.head?_cons ..)]
    simp only [h.tail.runEnd_eq_self_iff, List.isEmpty_iff]
    split
    · exact sameReading_rejection _ h.tail
    · apply descriptor_scans _ hend
      rw [List.takeWhile_append_dropWhile]
      exact h.tail
  · next hne =>
    rw [if_neg (head?_ne_of_forall hne)]
    exact (word_scans.map Operand.file).optional h

theorem redirect_scans : Scans Scanner.redirect redirect := by
  intro text s i h
  have hleft := leftOperand_scans h
  unfold Scanner.redirect redirect
  generalize leftOperand s = reading, Scanner.leftOperand text i = result at hleft
  cases hleft with
  | error hfailure => exact .error hfailure
  | @ok left j t hj =>
    have hkind := redirectKind_scans hj
    simp only
    generalize redirectKind t = reading, Scanner.redirectKind text j = result at hkind
    cases hkind with
    | error hfailure => exact .error hfailure
    | @ok kind k u hk =>
      simp only
      split
      · exact sameReading_mismatch _ h
      · have hright := rightOperand_scans hk.skipBlanks
        generalize rightOperand (skipBlanks u) = reading,
          Scanner.rightOperand text (Scanner.runEnd isBlank text k) = result at hright
        cases hright with
        | error hfailure => exact .error hfailure
        | @ok right l r hl =>
          cases right with
          | none => exact .ok hk
          | some right => exact .ok hl

/-! ## The same commands -/

theorem redirects_of_mismatches {s : List Char} (h : Mismatches nextRedirect s) :
    redirects s = .ok ([], skipBlanks s) := by
  rw [redirects, Production.repeated_of_mismatches h]

theorem redirects_of_ok {s r : List Char} {d : Redirect} (h : nextRedirect s = .ok (d, r)) :
    redirects s = Production.map (d :: ·) redirects r := by
  rw [redirects, Production.repeated_of_ok nextRedirect_consumes h, Production.map, redirects]
  cases Production.repeated nextRedirect r <;> rfl

/-- A failure of the next redirect that is not a mismatch is the failure of all. -/
theorem redirects_of_error {s : List Char} {failure : Failure}
    (h : nextRedirect s = .error failure) (hfailure : ∀ fault, failure ≠ .mismatch fault) :
    redirects s = .error failure := by
  rw [redirects, (Steps.nil s).repeated_eq_error nextRedirect_consumes h hfailure]

theorem argumentsAndRedirects_of_mismatches {s : List Char} (h : Mismatches nextArgument s) :
    argumentsAndRedirects s = Production.map (([], ·)) redirects s := by
  simp only [argumentsAndRedirects, Production.repeated_of_mismatches h, Production.map]
  cases redirects s <;> rfl

theorem argumentsAndRedirects_of_ok {s r : List Char} {w : Word}
    (h : nextArgument s = .ok (w, r)) :
    argumentsAndRedirects s =
      Production.map (fun (ws, ds) => (w :: ws, ds)) argumentsAndRedirects r := by
  rw [argumentsAndRedirects, Production.repeated_of_ok nextArgument_consumes h, Production.map,
    argumentsAndRedirects]
  cases Production.repeated nextArgument r with
  | error => rfl
  | ok reading =>
    simp only
    cases redirects reading.2 <;> rfl

theorem argumentsAndRedirects_of_error {s : List Char} {failure : Failure}
    (h : nextArgument s = .error failure) (hfailure : ∀ fault, failure ≠ .mismatch fault) :
    argumentsAndRedirects s = .error failure := by
  rw [argumentsAndRedirects, (Steps.nil s).repeated_eq_error nextArgument_consumes h hfailure]

/-- What stands behind the name of a command: words, then redirects. -/
def commandRest : Bool → Production (List Word × List Redirect)
  | false => argumentsAndRedirects
  | true => Production.map ([], ·) redirects

/-- One turn, if words and redirects are read in one loop. -/
def commandTurn (again : Bool → Production (List Word × List Redirect)) (redirected : Bool) :
    Production (List Word × List Redirect) := fun s =>
  let t := skipBlanks s
  if atEnd t then .ok (([], []), t)
  else
    match redirect t with
    | .ok (d, r) => Production.map (fun (ws, ds) => (ws, d :: ds)) (again true) r
    | .error (.mismatch _) =>
        if redirected then rejection .redirect t
        else if t = s then rejection .whitespace t
        else
          match word t with
          | .error (.mismatch _) => rejection .argumentOrRedirect t
          | .error failure => .error failure
          | .ok (w, r) => Production.map (fun (ws, ds) => (w :: ws, ds)) (again false) r
    | .error failure => .error failure

theorem redirects_unrolls (s : List Char) :
    commandRest true s = commandTurn commandRest true s := by
  simp only [commandTurn]
  by_cases hend : atEnd (skipBlanks s) = true
  · have hnone := nextRedirect_mismatches_iff.mpr (skipBlanks_eq_newline hend)
    simp only [commandRest, Production.map, redirects_of_mismatches hnone, if_pos hend]
  · rw [if_neg hend]
    cases hd : redirect (skipBlanks s) with
    | ok reading =>
      simp only [commandRest, Production.map, redirects_of_ok (nextRedirect_eq_ok_iff.mpr hd)]
      cases redirects reading.2 <;> rfl
    | error failure =>
      cases failure with
      | mismatch fault =>
        have hnext : nextRedirect s = rejection .redirect (skipBlanks s) := by
          simp only [nextRedirect, if_neg hend, hd]
        simp only [commandRest, Production.map, redirects_of_error hnext (by simp), if_true]
        rfl
      | rejection | numeral =>
        have hnext : nextRedirect s = redirect (skipBlanks s) := by
          simp only [nextRedirect, if_neg hend, hd]
        simp only [commandRest, Production.map, redirects_of_error (hnext.trans hd) (by simp)]

theorem argumentsAndRedirects_unrolls (s : List Char) :
    commandRest false s = commandTurn commandRest false s := by
  simp only [commandTurn]
  by_cases hend : atEnd (skipBlanks s) = true
  · have hnone : Mismatches nextArgument s := ⟨_, by rw [nextArgument, if_pos hend]; rfl⟩
    have hrest := redirects_unrolls s
    simp only [commandTurn, if_pos hend] at hrest ⊢
    exact (argumentsAndRedirects_of_mismatches hnone).trans hrest
  · rw [if_neg hend]
    cases hd : redirect (skipBlanks s) with
    | ok reading =>
      have hnone : Mismatches nextArgument s :=
        ⟨_, by simp only [nextArgument, if_neg hend, hd]; rfl⟩
      have hrest := redirects_unrolls s
      simp only [commandTurn, if_neg hend, hd] at hrest ⊢
      exact (argumentsAndRedirects_of_mismatches hnone).trans hrest
    | error failure =>
      cases failure with
      | mismatch fault =>
        simp only [Bool.false_eq_true, if_false]
        by_cases hglued : skipBlanks s = s
        · have hnext : nextArgument s = rejection .whitespace (skipBlanks s) := by
            simp only [nextArgument, if_neg hend, hd, if_pos hglued]
          rw [if_pos hglued]
          exact argumentsAndRedirects_of_error hnext (by simp)
        · rw [if_neg hglued]
          cases hw : word (skipBlanks s) with
          | ok reading =>
            have hnext := nextArgument_eq_ok_iff.mpr ⟨hglued, ⟨fault, hd⟩, hw⟩
            exact argumentsAndRedirects_of_ok hnext
          | error failure =>
            cases failure with
            | mismatch fault =>
              have hnext : nextArgument s = rejection .argumentOrRedirect (skipBlanks s) := by
                simp only [nextArgument, if_neg hend, hd, if_neg hglued, hw]
              exact argumentsAndRedirects_of_error hnext (by simp)
            | rejection | numeral =>
              have hnext : nextArgument s = word (skipBlanks s) := by
                simp only [nextArgument, if_neg hend, hd, if_neg hglued, hw]
              exact argumentsAndRedirects_of_error (hnext.trans hw) (by simp)
      | rejection fault =>
        have hnext : nextArgument s = .error (.rejection fault) := by
          simp only [nextArgument, if_neg hend, hd]
        exact argumentsAndRedirects_of_error hnext (by simp)
      | numeral error =>
        have hnext : nextArgument s = .error (.numeral error) := by
          simp only [nextArgument, if_neg hend, hd]
        exact argumentsAndRedirects_of_error hnext (by simp)

theorem commandRest_unrolls (redirected : Bool) (s : List Char) :
    commandRest redirected s = commandTurn commandRest redirected s := by
  cases redirected with
  | false => exact argumentsAndRedirects_unrolls s
  | true => exact redirects_unrolls s

theorem commandRest_scans (redirected : Bool) :
    Scans (Scanner.argumentsAndRedirects redirected) (commandRest redirected) := by
  intro text s i h
  -- whatever has been read before: a redirect ends the words, so the flag changes on the way
  induction hn : s.length using Nat.strongRecOn generalizing redirected s i with
  | ind n ih =>
    subst hn
    have hbegin := h.skipBlanks
    have hle := length_skipBlanks_le s
    rw [commandRest_unrolls, commandTurn, Scanner.argumentsAndRedirects, hbegin.atEnd]
    by_cases hend : Parser.atEnd (skipBlanks s) = true
    · rw [if_pos hend, if_pos hend]
      exact .ok hbegin
    · have hread := redirect_scans hbegin
      rw [if_neg hend, if_neg hend]
      generalize hd : redirect (skipBlanks s) = reading,
        Scanner.redirect text (Scanner.runEnd isBlank text i) = result at hread
      cases hread with
      | ok hl =>
        have hlt := Nat.lt_of_lt_of_le (redirect_consumes.length_lt hd) hle
        simp only [if_pos ((h.length_sub_lt_iff hl).mpr hlt)]
        exact (ih _ hlt true hl rfl).map _
      | error hfailure =>
        cases hfailure with
        | mismatch _ =>
          simp only
          split
          · exact sameReading_rejection _ hbegin
          · simp only [h.eq_iff hbegin]
            split
            · exact sameReading_rejection _ hbegin
            · have hword := word_scans hbegin
              generalize hw : word (skipBlanks s) = reading,
                Scanner.word text (Scanner.runEnd isBlank text i) = result at hword
              cases hword with
              | ok hl =>
                have hlt := Nat.lt_of_lt_of_le (word_consumes.length_lt hw) hle
                simp only [if_pos ((h.length_sub_lt_iff hl).mpr hlt)]
                exact (ih _ hlt false hl rfl).map _
              | error hfailure =>
                cases hfailure with
                | mismatch _ => exact sameReading_rejection _ hbegin
                | rejection hk => exact sameReading_rejection _ hk
                | numeral error => exact .error (.numeral error)
        | rejection hk => exact sameReading_rejection _ hk
        | numeral error => exact .error (.numeral error)

theorem command_scans : Scans Scanner.command command := by
  intro text s i h
  have hassign := assignmentPrefix_scans h.skipBlanks
  unfold Scanner.command command
  generalize assignmentPrefix (skipBlanks s) = reading,
    Scanner.assignmentPrefix text (Scanner.runEnd isBlank text i) = result at hassign
  cases hassign with
  | error hfailure => exact .error hfailure
  | @ok as j t hj =>
    have hname := word_scans hj
    simp only
    generalize word t = reading, Scanner.word text j = result at hname
    cases hname with
    | error hfailure => exact .error hfailure
    | @ok w k u hk =>
      have hrest := commandRest_scans false hk
      simp only [commandRest] at hrest ⊢
      generalize argumentsAndRedirects u = reading,
        Scanner.argumentsAndRedirects false text k = result at hrest
      cases hrest with
      | error hfailure => exact .error hfailure
      | ok hl => exact .ok hl

/-! ## The same lines -/

theorem line_scans : Scans Scanner.line line := by
  intro text s i h
  have hcommand := command_scans h
  have hassign := assignments_scans h
  have hbegin := h.skipBlanks
  unfold Scanner.line line
  generalize command s = reading, Scanner.command text i = result at hcommand
  cases hcommand with
  | ok hj => exact .ok hj
  | error hfailure =>
    cases hfailure with
    | rejection hj => exact sameReading_rejection _ hj
    | numeral error => exact .error (.numeral error)
    | mismatch _ =>
      simp only
      generalize assignments s = reading, Scanner.assignments text i = result at hassign
      cases hassign with
      | ok hj => exact .ok hj.skipBlanks
      | error hfailure =>
        cases hfailure with
        | rejection hj => exact sameReading_rejection _ hj
        | numeral error => exact .error (.numeral error)
        | mismatch hj =>
          simp only [hbegin.atEnd]
          split
          · exact .ok hbegin
          · exact sameReading_mismatch _ hj

/-! ## Blanks in front of a line -/

theorem skipBlanks_blanks_append {blanks : List Char} (h : ∀ c ∈ blanks, isBlank c = true)
    (s : List Char) : skipBlanks (blanks ++ s) = skipBlanks s :=
  List.dropWhile_append_of_pos h

theorem terminated_blanks_append {blanks : List Char} (h : ∀ c ∈ blanks, isBlank c = true)
    (s : List Char) : terminated (blanks ++ s) = blanks ++ terminated s := by
  have hlast : (blanks ++ s).getLast? = some '\n' ↔ s.getLast? = some '\n' := by
    rw [List.getLast?_append]
    cases s.getLast? with
    | none => simpa using getLast?_blanks_ne h
    | some c => rfl
  unfold terminated
  by_cases hs : s.getLast? = some '\n'
  · rw [if_pos (hlast.mpr hs), if_pos hs]
  · rw [if_neg (mt hlast.mp hs), if_neg hs, List.append_assoc]

/-- A line begins behind its blanks. -/
theorem line_eq_ok_iff_of_skipBlanks {s t r : List Char} {v : Line}
    (h : skipBlanks s = skipBlanks t) : line s = .ok (v, r) ↔ line t = .ok (v, r) := by
  have hcommand : command s = command t := by rw [command, command, h]
  simp only [line, assignments, hcommand, h]
  cases command t with
  | ok reading => rfl
  | error failure =>
    cases failure with
    | rejection fault => rfl
    | numeral error => rfl
    | mismatch fault =>
      -- a line without assignments mismatches at its own beginning
      cases assignmentPrefix (skipBlanks t) with
      | error failure => rfl
      | ok reading =>
        obtain ⟨as, r'⟩ := reading
        cases as with
        | nil =>
          simp only [mismatch]
          split <;> simp
        | cons a as => rfl

theorem whole_eq_ok_iff {α : Type} {p : Production α} {expected : Expected} {text : String}
    {v : α} : whole p expected text = .ok v ↔
      ∃ r, p (terminated text.toList) = .ok (v, r) ∧ Parser.atEnd r = true := by
  simp only [whole]
  cases p (terminated text.toList) with
  | error failure => cases failure <;> simp
  | ok reading =>
    obtain ⟨u, r⟩ := reading
    cases hend : Parser.atEnd r <;> simp [hend]

theorem parse_blanks_append {blanks : List Char} (h : ∀ c ∈ blanks, isBlank c = true)
    (text : String) (v : Line) :
    parse (String.ofList blanks ++ text) = .ok v ↔ parse text = .ok v := by
  have hline (r : List Char) :
      line (terminated (String.ofList blanks ++ text).toList) = .ok (v, r) ↔
        line (terminated text.toList) = .ok (v, r) := by
    rw [String.toList_append, String.toList_ofList, terminated_blanks_append h]
    exact line_eq_ok_iff_of_skipBlanks (skipBlanks_blanks_append h _)
  simp only [parse, whole_eq_ok_iff, hline]

/-- What a scanner reads at a position of a text depends only on what stands behind it: with more
text in front it is the same, or the same failure, that much further on.  The scanners read what
the productions of the parser read.  And a line reads the same with blanks in front of it. -/
theorem productions_depend_on_rest :
    (Tracks Scanner.variableName variableName ∧
      Tracks Scanner.variableReference variableReference ∧
      Tracks Scanner.path path ∧ Tracks Scanner.glob glob ∧
      Tracks Scanner.doubleQuoted doubleQuoted ∧ Tracks Scanner.singleQuoted singleQuoted ∧
      Tracks Scanner.word word) ∧
    (Tracks Scanner.assignment assignment ∧ Tracks Scanner.assignmentPrefix assignmentPrefix ∧
      Tracks Scanner.assignments assignments) ∧
    (Tracks Scanner.redirectKind redirectKind ∧ Tracks Scanner.leftOperand leftOperand ∧
      Tracks Scanner.rightOperand rightOperand ∧ Tracks Scanner.redirect redirect) ∧
    (Tracks Scanner.command command ∧ Tracks Scanner.line line) ∧
    ∀ blanks : List Char, (∀ c ∈ blanks, isBlank c = true) → ∀ (text : String) (v : Line),
      parse (String.ofList blanks ++ text) = .ok v ↔ parse text = .ok v := by
  refine ⟨⟨variableName_scans.tracks variableName_bounded,
      variableReference_scans.tracks variableReference_bounded,
      path_scans.tracks path_bounded, glob_scans.tracks glob_bounded,
      doubleQuoted_scans.tracks doubleQuoted_bounded,
      singleQuoted_scans.tracks singleQuoted_bounded, word_scans.tracks word_bounded⟩,
    ⟨assignment_scans.tracks assignment_bounded,
      assignmentPrefix_scans.tracks assignmentPrefix_bounded,
      assignments_scans.tracks assignments_bounded⟩, ?_,
    ⟨command_scans.tracks command_bounded, line_scans.tracks line_bounded⟩,
    fun blanks hblanks => parse_blanks_append hblanks⟩
  exact ⟨redirectKind_scans.tracks redirectKind_bounded,
    leftOperand_scans.tracks leftOperand_bounded,
    rightOperand_scans.tracks rightOperand_bounded, redirect_scans.tracks redirect_bounded⟩

theorem productions_depend_on_rest_indented :
    (∀ c ∈ [' ', '\t'], isBlank c = true) ∧
      parse (String.ofList [' ', '\t'] ++ "X=1 cat<in") =
        .ok (.command ⟨[⟨"X", [.fixed "1"]⟩], [[.fixed "cat"]],
          [⟨.input, some (.file [.fixed "in"]), none⟩]⟩) := by
  have hblanks : ∀ c ∈ [' ', '\t'], isBlank c = true := by simp [isBlank]
  exact ⟨hblanks, (productions_depend_on_rest.2.2.2.2 _ hblanks _ _).mpr (by cbv)⟩

/-- The redirect behind a word of one character, read by its position. -/
example : Scanner.redirect "a 2>&1\n".toList 2 =
    .ok (⟨.truncate, some (.descriptor 2), some (.descriptor 1)⟩, 6) := by cbv

end LineShell
