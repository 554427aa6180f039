import LineShell.Execution
import LineShell.Proofs.Line.Layout
import LineShell.Proofs.Line.Numberless
import LineShell.Proofs.Text.Encoding

/-!
# Lines that are not accepted

A line that is not accepted is rejected at a place, except if a descriptor in it is not a number.
This is the only other way to fail, and it is told here by the text alone: there are digits that
do not make a number before the operator of a redirect, or behind the ampersand of a redirect
that has no other operand there, and what stands before this redirect is the beginning of a
command.  A rejected line ends with one diagnostic and changes nothing else.
-/

namespace LineShell

open LineShell.Parser
open Production (Steps Mismatches)

/-! ## Redirects of descriptors -/

/-- Where a descriptor is read: before an operator, or behind the ampersand of a redirect that has
no other operand there. -/
def DescriptorPlace (front back : List Char) : Prop :=
  (front = [] ∧ startsOperator back = true) ∨
    ∃ (t : Source redirect) (gap : List Char), t.value.right = none ∧
      (∀ c ∈ gap, isBlank c = true) ∧ front = t.text ++ (gap ++ ['&'])

/-- The text begins with a redirect that has digits for a descriptor which are not a number. -/
def BadDescriptor (s : List Char) : Prop :=
  ∃ front run back, s = front ++ (run ++ back) ∧ DescriptorPlace front back ∧ IsDigitRun run ∧
    Stops isDigitChar back ∧ ¬ Numeral.Fits run

theorem exists_bare_source {w : List Char} {left : Option Operand} {kind : RedirectKind}
    (hw : LeftText w left) (hfits : LeftFits kind left) :
    ∃ t : Source redirect, t.text = w ++ kind.symbol.toList ∧ t.value.right = none := by
  have hoperand : NoOperand (skipBlanks ['\n']) := ⟨by decide, stops_cons.mpr (by decide)⟩
  have hread : redirect (w ++ kind.symbol.toList ++ ['\n']) =
      .ok (makeRedirect kind left none, ['\n']) := by
    apply redirect_eq_ok_iff.mpr
    refine ⟨w, ['\n'], by simpa using hw, by simpa using hfits, by simp, fun _ => by decide, ?_⟩
    exact Or.inl ⟨by simp, rightOperand_of_noOperand hoperand, rfl⟩
  exact ⟨⟨_, _, hread⟩, rfl, by simp⟩

theorem Source.bare_text (t : Source redirect) (h : t.value.right = none) :
    ∃ w, LeftText w t.value.left ∧ LeftFits t.value.kind t.value.left ∧
      t.text = w ++ t.value.kind.symbol.toList := by
  rcases redirect_eq_ok_iff.mp t.reads with ⟨w, u, hw, hfits, htext, -, hright⟩
  rcases hright with ⟨-, -, hu⟩ | ⟨operand, hsome, -⟩
  · refine ⟨w, hw, hfits, t.eq_text ?_⟩
    rw [htext, ← hu, List.append_assoc]
  · rw [h] at hsome
    simp at hsome

theorem leftOperand_numeral {s : List Char} {error : NumeralError}
    (h : leftOperand s = .error (.numeral error)) : BadDescriptor s := by
  rcases digitRun_or_not_descriptor s with ⟨run, t, rfl, hrun, hstop, ht⟩ | hnot
  · rw [leftOperand_of_digitRun hrun ht] at h
    split at h
    · next failure hnumber =>
      rw [Except.error.inj h] at hnumber
      refine ⟨[], run, t, rfl, Or.inl ⟨rfl, ht⟩, hrun, hstop, ?_⟩
      exact (descriptorNumber_fails_iff hrun).mp ⟨error, hnumber⟩
    · simp at h
  · rw [leftOperand_of_not_descriptor hnot] at h
    exact absurd h (optional_numberless (map_numberless _ path_numberless) s error)

theorem rightOperand_numeral {s : List Char} {error : NumeralError}
    (h : rightOperand s = .error (.numeral error)) :
    ∃ run back, s = '&' :: (run ++ back) ∧ IsDigitRun run ∧ Stops isDigitChar back ∧
      ¬ Numeral.Fits run := by
  unfold rightOperand at h
  split at h
  · next t =>
    simp only at h
    split at h
    · simp [rejection] at h
    · next hne =>
      have hrun : IsDigitRun (t.takeWhile isDigitChar) :=
        ⟨by simpa using hne, fun _ => List.mem_takeWhile_imp⟩
      split at h
      · next failure hnumber =>
        rw [Except.error.inj h] at hnumber
        refine ⟨_, _, ?_, hrun, stops_dropWhile isDigitChar t, ?_⟩
        · rw [List.takeWhile_append_dropWhile]
        · exact (descriptorNumber_fails_iff hrun).mp ⟨error, hnumber⟩
      · simp at h
  · exact absurd h (optional_numberless (map_numberless _ word_numberless) s error)

theorem redirect_numeral {s : List Char} {error : NumeralError}
    (h : redirect s = .error (.numeral error)) : BadDescriptor s := by
  cases hleft : leftOperand s with
  | error failure =>
    have hfailure : failure = .numeral error := by simpa [redirect, hleft] using h
    rw [hfailure] at hleft
    exact leftOperand_numeral hleft
  | ok reading =>
    rcases reading with ⟨left, t⟩
    cases hkind : redirectKind t with
    | error failure =>
      have hfailure : failure = .numeral error := by simpa [redirect, hleft, hkind] using h
      rw [hfailure] at hkind
      unfold redirectKind at hkind
      split at hkind <;> simp [mismatch] at hkind
    | ok reading =>
      rcases reading with ⟨kind, u⟩
      rcases redirectKind_eq_ok_iff.mp hkind with ⟨rfl, hu⟩
      rcases (leftOperand_eq_ok_iff (startsOperator_symbol kind u)).mp hleft with ⟨w, hw, rfl⟩
      have hfits : LeftFits kind left := by
        intro hany
        cases kind <;> simp [redirect, hleft, hkind, hany, mismatch] at h ⊢
      rw [redirect_of_left hw hfits hu] at h
      split at h
      · next failure hright =>
        rw [Except.error.inj h] at hright
        rcases rightOperand_numeral hright with ⟨run, back, hrest, hrun, hback, hnot⟩
        rcases exists_bare_source hw hfits with ⟨t, htext, hnone⟩
        rcases exists_blanks u with ⟨gap, hgap, hsplit⟩
        refine ⟨t.text ++ (gap ++ ['&']), run, back, ?_, Or.inr ⟨t, gap, hnone, hgap, rfl⟩,
          hrun, hback, hnot⟩
        rw [hsplit, hrest, htext]
        simp
      · simp at h
      · simp at h

theorem BadDescriptor.redirect_fails {s : List Char} (h : BadDescriptor s) :
    ∃ error, redirect s = .error (.numeral error) := by
  rcases h with ⟨front, run, back, rfl, hplace, hrun, hback, hnot⟩
  rcases (descriptorNumber_fails_iff hrun).mpr hnot with ⟨error, hnumber⟩
  refine ⟨error, ?_⟩
  rcases hplace with ⟨rfl, hop⟩ | ⟨t, gap, hnone, hgap, rfl⟩
  · have hleft := leftOperand_of_digitRun hrun hop
    rw [hnumber] at hleft
    simp [redirect, hleft]
  · rcases t.bare_text hnone with ⟨w, hw, hfits, htext⟩
    have hsplit : t.text ++ (gap ++ ['&']) ++ (run ++ back) =
        w ++ (t.value.kind.symbol.toList ++ (gap ++ '&' :: (run ++ back))) := by
      rw [htext]
      simp
    have hskip : skipBlanks (gap ++ '&' :: (run ++ back)) = '&' :: (run ++ back) :=
      skipBlanks_append_of_stops hgap (stops_cons.mpr (by decide))
    have hhead : (gap ++ '&' :: (run ++ back)).head? ≠ some '>' := by
      cases gap with
      | nil => simp
      | cons c gap =>
        intro hc
        cases hc
        exact absurd (hgap '>' List.mem_cons_self) (by decide)
    rw [hsplit, redirect_of_left hw hfits fun _ => hhead, hskip,
      rightOperand_ampersand hrun hback, hnumber]

theorem redirect_numeral_iff {s : List Char} :
    (∃ error, redirect s = .error (.numeral error)) ↔ BadDescriptor s := by
  constructor
  · rintro ⟨error, h⟩
    exact redirect_numeral h
  · exact BadDescriptor.redirect_fails

/-! ## Commands -/

theorem nextArgument_numeral {s : List Char} {error : NumeralError}
    (h : nextArgument s = .error (.numeral error)) :
    redirect (skipBlanks s) = .error (.numeral error) := by
  simp only [nextArgument] at h
  split at h
  · simp [mismatch] at h
  · split at h
    · simp [mismatch] at h
    · split at h
      · simp [rejection] at h
      · split at h
        · simp [rejection] at h
        · exact absurd h (word_numberless _ error)
    · next failure _ hread =>
      rw [hread, Except.error.inj h]

theorem nextRedirect_numeral {s : List Char} {error : NumeralError}
    (h : nextRedirect s = .error (.numeral error)) :
    redirect (skipBlanks s) = .error (.numeral error) := by
  simp only [nextRedirect] at h
  split at h
  · simp [mismatch] at h
  · split at h
    · simp [rejection] at h
    · exact h

theorem atEnd_of_numeral {s : List Char} {error : NumeralError}
    (h : redirect (skipBlanks s) = .error (.numeral error)) : atEnd (skipBlanks s) = false := by
  cases hend : atEnd (skipBlanks s) with
  | false => rfl
  | true =>
    rcases redirect_newline with ⟨fault, hfault⟩
    rw [skipBlanks_eq_newline hend, hfault] at h
    simp at h

theorem nextArgument_of_numeral {s : List Char} {error : NumeralError}
    (h : redirect (skipBlanks s) = .error (.numeral error)) :
    nextArgument s = .error (.numeral error) := by
  simp [nextArgument, atEnd_of_numeral h, h]

theorem nextRedirect_of_numeral {s : List Char} {error : NumeralError}
    (h : redirect (skipBlanks s) = .error (.numeral error)) :
    nextRedirect s = .error (.numeral error) := by
  simp [nextRedirect, atEnd_of_numeral h, h]

/-- A command fails on a number where its next redirect does. -/
theorem command_numeral {s : List Char} {error : NumeralError}
    (h : Parser.command s = .error (.numeral error)) :
    ∃ c r, ReadsCommand s c r ∧ redirect (skipBlanks r) = .error (.numeral error) := by
  unfold Parser.command at h
  split at h
  · next hassign =>
    exact absurd (Except.error.inj h) (assignmentPrefix_numberless.ne hassign error)
  · next as t has =>
    split at h
    · next hword => exact absurd (Except.error.inj h) (word_numberless.ne hword error)
    · next w u hw =>
      unfold argumentsAndRedirects redirects at h
      cases harguments : Production.repeated nextArgument u with
      | error failure =>
        have hfailure : failure = .numeral error := by simpa [harguments] using h
        rw [hfailure] at harguments
        rcases (Production.repeated_eq_error_iff nextArgument_consumes).mp harguments with
          ⟨ws, v, hws, hv, -⟩
        exact ⟨⟨as, w :: ws, []⟩, v, ⟨t, u, v, w, ws, has, hw, hws, .nil v, rfl⟩,
          nextArgument_numeral hv⟩
      | ok reading =>
        rcases reading with ⟨ws, v⟩
        rcases (Production.repeated_eq_ok_iff nextArgument_consumes).mp harguments with ⟨hws, -⟩
        cases hredirects : Production.repeated nextRedirect v with
        | error failure =>
          have hfailure : failure = .numeral error := by simpa [harguments, hredirects] using h
          rw [hfailure] at hredirects
          rcases (Production.repeated_eq_error_iff nextRedirect_consumes).mp hredirects with
            ⟨ds, r, hds, hr, -⟩
          exact ⟨⟨as, w :: ws, ds⟩, r, ⟨t, u, v, w, ws, has, hw, hws, hds, rfl⟩,
            nextRedirect_numeral hr⟩
        | ok reading => simp [harguments, hredirects] at h

theorem ReadsCommand.command_fails {s r : List Char} {c : Command} {error : NumeralError}
    (h : ReadsCommand s c r) (hr : redirect (skipBlanks r) = .error (.numeral error)) :
    Parser.command s = .error (.numeral error) := by
  rcases h with ⟨t, u, v, w, ws, has, hw, hws, hds, -⟩
  have hfinal : ∀ fault, Failure.numeral error ≠ .mismatch fault := by simp
  cases hnil : c.redirects with
  | nil =>
    -- the words end where the number is, and they fail on it
    rw [hnil] at hds
    rw [hds.eq_of_nil] at hws
    have harguments := hws.repeated_eq_error nextArgument_consumes (nextArgument_of_numeral hr)
      hfinal
    simp [Parser.command, has, hw, argumentsAndRedirects, harguments]
  | cons d ds =>
    have hsome : c.redirects = [] → skipBlanks r = ['\n'] := by simp [hnil]
    have harguments := hws.repeated_eq_ok nextArgument_consumes (nextArgument_mismatches hds hsome)
    have hredirects := hds.repeated_eq_error nextRedirect_consumes (nextRedirect_of_numeral hr)
      hfinal
    simp [Parser.command, has, hw, argumentsAndRedirects, harguments, redirects, hredirects]

theorem BadDescriptor.head {s : List Char} (h : BadDescriptor s) :
    ∃ c t, s = c :: t ∧ isRedirectStart c = true := by
  rcases h with ⟨front, run, back, rfl, ⟨rfl, -⟩ | ⟨t, gap, -, -, rfl⟩, hrun, -, -⟩
  · rcases List.exists_cons_of_ne_nil hrun.1 with ⟨c, run, rfl⟩
    exact ⟨c, run ++ back, rfl, by simp [isRedirectStart, hrun.2 c List.mem_cons_self]⟩
  · rcases t.redirect_head with ⟨c, u, hu, hc⟩
    exact ⟨c, _, by rw [hu]; rfl, hc⟩

/-- A line has a bad descriptor behind the beginning of a command. -/
def BadLine (s : List Char) : Prop :=
  ∃ (L : Layout) (gap rest : List Char), L.words ≠ [] ∧ (∀ c ∈ gap, isBlank c = true) ∧
    L.Fits (gap ++ rest) ∧ s = L.text ++ (gap ++ rest) ∧ BadDescriptor rest

theorem command_badLine_iff {s : List Char} :
    (∃ error, Parser.command s = .error (.numeral error)) ↔ BadLine s := by
  constructor
  · rintro ⟨error, h⟩
    rcases command_numeral h with ⟨c, r, hreads, hr⟩
    have hbad := redirect_numeral_iff.mp ⟨error, hr⟩
    rcases hbad.head with ⟨x, y, hxy, hx⟩
    rcases exists_layout_of_readsCommand hreads ⟨x, y, hxy, Or.inr hx⟩ with
      ⟨L, hwords, hfits, htext, -⟩
    rcases exists_blanks r with ⟨gap, hgap, hsplit⟩
    rw [hsplit] at hfits htext
    exact ⟨L, gap, _, hwords, hgap, hfits, htext, hbad⟩
  · rintro ⟨L, gap, rest, hwords, hgap, hfits, rfl, hbad⟩
    rcases redirect_numeral_iff.mpr hbad with ⟨error, hr⟩
    rcases hbad.head with ⟨c, t, hrest, hc⟩
    have hskip : skipBlanks (gap ++ rest) = rest := by
      rw [hrest]
      exact skipBlanks_append_of_stops hgap (stops_cons.mpr (isBlank_of_isRedirectStart hc))
    refine ⟨error, (readsCommand_of_layout hfits hwords).command_fails ?_⟩
    rw [hskip]
    exact hr

/-! ## Whole texts -/

theorem line_numeral_iff {s : List Char} {error : NumeralError} :
    Parser.line s = .error (.numeral error) ↔ Parser.command s = .error (.numeral error) := by
  constructor
  · intro h
    unfold Parser.line at h
    split at h
    · simp at h
    · split at h
      · simp at h
      · simp only at h
        split at h <;> simp at h
      · next hassignments =>
        unfold Parser.assignments at hassignments
        split at hassignments
        · next hassign =>
          have hfailure := (Except.error.inj hassignments).trans (Except.error.inj h)
          exact absurd hfailure (assignmentPrefix_numberless.ne hassign error)
        · rw [Except.error.inj h] at hassignments
          simp [mismatch] at hassignments
        · simp at hassignments
    · next hcommand =>
      rw [hcommand, Except.error.inj h]
  · intro h
    simp [Parser.line, h]

theorem whole_cases {α : Type} (p : Production α) (expected : Expected) (text : String) :
    (∃ v, whole p expected text = .ok v) ∨
      (∃ expected' offset, whole p expected text = .error (.rejection expected' offset)) ∨
      ∃ error, whole p expected text = .error (.numeral error) := by
  simp only [whole]
  split
  · exact Or.inr (Or.inl ⟨_, _, rfl⟩)
  · next failure hne hread =>
    cases failure with
    | mismatch fault => exact absurd hread (by simpa using hne fault)
    | rejection fault => exact Or.inr (Or.inl ⟨_, _, rfl⟩)
    | numeral error => exact Or.inr (Or.inr ⟨error, rfl⟩)
  · split
    · exact Or.inl ⟨_, rfl⟩
    · exact Or.inr (Or.inl ⟨_, _, rfl⟩)

theorem whole_numeral_iff {α : Type} {p : Production α} {expected : Expected} {text : String}
    {error : NumeralError} :
    whole p expected text = .error (.numeral error) ↔
      p (terminated text.toList) = .error (.numeral error) := by
  constructor
  · intro h
    simp only [whole] at h
    split at h
    · simp [Failure.locate] at h
    · next failure hne hread =>
      cases failure with
      | mismatch fault => simp [Failure.locate] at h
      | rejection fault => simp [Failure.locate] at h
      | numeral other =>
        have hother : other = error := by simpa [Failure.locate] using h
        rw [hread, hother]
    · split at h
      · simp at h
      · simp [Failure.locate] at h
  · intro h
    simp [whole, h, Failure.locate]

theorem parse_numeral_iff {text : String} :
    (∃ error, parse text = .error (.numeral error)) ↔ BadLine (terminated text.toList) := by
  rw [← command_badLine_iff]
  constructor
  · rintro ⟨error, h⟩
    exact ⟨error, line_numeral_iff.mp (whole_numeral_iff.mp h)⟩
  · rintro ⟨error, h⟩
    exact ⟨error, whole_numeral_iff.mpr (line_numeral_iff.mpr h)⟩

theorem parseRedirect_numeral_iff {text : String} :
    (∃ error, parseRedirect text = .error (.numeral error)) ↔
      BadDescriptor (terminated text.toList) := by
  rw [← redirect_numeral_iff]
  constructor
  · rintro ⟨error, h⟩
    exact ⟨error, whole_numeral_iff.mp h⟩
  · rintro ⟨error, h⟩
    exact ⟨error, whole_numeral_iff.mpr h⟩

/-! ## Running lines that are not accepted -/

/-- The machine after it has told the user something. -/
def Machine.told (m : Machine) (text : String) : Machine :=
  { m with host := { m.host with errors := m.host.errors ++ diagnostic text } }

theorem executeLine_of_rejection (registry : Registry) {text : String} {expected : Expected}
    {offset : Nat} (h : parse text = .error (.rejection expected offset)) (m : Machine) :
    executeLine registry text m =
      .ok Execution.badLineStatus
        (m.told ("parse error: " ++ (ParseFailure.rejection expected offset).message)) := by
  rw [executeLine, h, Machine.told, ← errors_write_ofText]
  rfl

theorem executeLine_of_numeral (registry : Registry) {text : String} {error : NumeralError}
    (h : parse text = .error (.numeral error)) (m : Machine) :
    executeLine registry text m = .error (.failed (.numeral error)) m := by
  rw [executeLine, h]
  rfl

theorem parse_of_not_badLine {text : String} (h : ¬ BadLine (terminated text.toList)) :
    (∃ v, parse text = .ok v) ∨
      ∃ expected offset, parse text = .error (.rejection expected offset) := by
  rcases whole_cases Parser.line .endOfLine text with hok | hrejected | hnumeral
  · exact Or.inl hok
  · exact Or.inr hrejected
  · exact absurd (parse_numeral_iff.mp hnumeral) h

theorem parseRedirect_of_not_badDescriptor {text : String}
    (h : ¬ BadDescriptor (terminated text.toList)) :
    (∃ d, parseRedirect text = .ok d) ∨
      ∃ expected offset, parseRedirect text = .error (.rejection expected offset) := by
  rcases whole_cases redirect .endOfRedirect text with hok | hrejected | hnumeral
  · exact Or.inl hok
  · exact Or.inr hrejected
  · exact absurd (parseRedirect_numeral_iff.mp hnumeral) h

/-- Without a bad descriptor a text is accepted or rejected at a place, and a rejected line only
leaves a diagnostic.  With a bad descriptor reading it fails on the number, and so does running
it, with the machine as it was. -/
theorem parse_rejects_unless_badLine (registry : Registry) (text : String) (m : Machine) :
    (¬ BadLine (terminated text.toList) →
      (∃ v, parse text = .ok v) ∨
        ∃ expected offset, parse text = .error (.rejection expected offset) ∧
          executeLine registry text m =
            .ok 2 (m.told ("parse error: " ++ (ParseFailure.rejection expected offset).message))) ∧
    (BadLine (terminated text.toList) →
      ∃ error, parse text = .error (.numeral error) ∧
        executeLine registry text m = .error (.failed (.numeral error)) m) ∧
    (¬ BadDescriptor (terminated text.toList) →
      (∃ d, parseRedirect text = .ok d) ∨
        ∃ expected offset, parseRedirect text = .error (.rejection expected offset)) ∧
    (BadDescriptor (terminated text.toList) →
      ∃ error, parseRedirect text = .error (.numeral error)) := by
  refine ⟨?_, ?_, parseRedirect_of_not_badDescriptor, parseRedirect_numeral_iff.mpr⟩
  · intro hnot
    rcases parse_of_not_badLine hnot with hok | ⟨expected, offset, h⟩
    · exact Or.inl hok
    · exact Or.inr ⟨expected, offset, h, executeLine_of_rejection registry h m⟩
  · intro hbad
    rcases parse_numeral_iff.mpr hbad with ⟨error, h⟩
    exact ⟨error, h, executeLine_of_numeral registry h m⟩

/-- A superscript digit is read as a descriptor but is not a number. -/
theorem parse_superscript_descriptor :
    ¬ ∀ text : String, (∃ v, parse text = .ok v) ∨
      ∃ expected offset, parse text = .error (.rejection expected offset) := by
  intro h
  have hfails : parse "a 2>&²" = .error (.numeral (.malformed "²")) := by cbv
  rcases h "a 2>&²" with ⟨v, hv⟩ | ⟨expected, offset, hrejects⟩
  · rw [hfails] at hv
    simp at hv
  · rw [hfails] at hrejects
    simp at hrejects

end LineShell
