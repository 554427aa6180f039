import LineShell.Proofs.Line.Failure
import LineShell.Proofs.Word.Rejection

/-!
# Lines that are not finished

Each production of a line that rejects its input has begun a source there.  The fault cuts the
source off, and what stands before it is the beginning of another source of the same kind.  For a
redirect this beginning reaches behind its operator, for an assignment behind its equals sign.
-/

namespace LineShell

open Production (Rejects)

namespace Parser

/-! ## Assignments -/

theorem assignment_rejection {s : List Char} {fault : Fault}
    (h : assignment s = .error (.rejection fault)) :
    ∃ name t, IsName name ∧ s = name ++ '=' :: t ∧ word t = .error (.rejection fault) := by
  unfold assignment at h
  split at h
  · next failure hname =>
    rw [variableName_error hname] at h
    simp at h
  · next name t hname =>
    obtain ⟨hvalid, rfl, -⟩ := variableName_eq_ok_iff.mp hname
    refine ⟨name.toList, t, hvalid, rfl, ?_⟩
    split at h
    · next failure hvalue =>
      rw [Except.error.inj h] at hvalue
      unfold Production.optional at hvalue
      split at hvalue
      · simp at hvalue
      · next hword => rw [hword, Except.error.inj hvalue]
      · simp at hvalue
    · simp at h
  · simp [mismatch] at h

/-! ## Operands -/

theorem leftOperand_not_rejects (s : List Char) : ¬ Rejects leftOperand s := by
  rintro ⟨fault, h⟩
  rcases digitRun_or_not_descriptor s with ⟨run, t, rfl, hrun, -, ht⟩ | hnot
  · rw [leftOperand_of_digitRun hrun ht] at h
    unfold descriptorNumber at h
    cases hread : Numeral.read (String.ofList run) <;> simp [hread] at h
  · rw [leftOperand_of_not_descriptor hnot] at h
    exact (path_gentle.map _).optional_ne_error s _ h

theorem rightOperand_rejection {s : List Char} {fault : Fault}
    (h : rightOperand s = .error (.rejection fault)) :
    s = '&' :: fault.rest ∧ Stops isDigitChar fault.rest ∨ word s = .error (.rejection fault) := by
  unfold rightOperand at h
  split at h
  · next t =>
    simp only at h
    split at h
    · next hnone =>
      obtain rfl : Fault.mk .fileDescriptor t = fault := by simpa [rejection] using h
      have hdigits : t.takeWhile isDigitChar = [] := by simpa using hnone
      refine Or.inl ⟨rfl, ?_⟩
      rw [← List.takeWhile_append_dropWhile (p := isDigitChar) (l := t), hdigits]
      exact stops_dropWhile isDigitChar t
    · unfold descriptorNumber at h
      cases hread : Numeral.read (String.ofList (t.takeWhile isDigitChar)) <;> simp [hread] at h
  · refine Or.inr ?_
    cases hword : word s with
    | ok reading => simp [Production.optional, Production.map, hword] at h
    | error failure => cases failure <;> simp_all [Production.optional, Production.map]

/-- An operand that is cut off can be completed. -/
theorem rightOperand_completes {s : List Char} {fault : Fault}
    (h : rightOperand s = .error (.rejection fault)) (hs : Ended s) :
    ∃ c w tail v, s = c :: w ++ fault.rest ∧ isBlank c = false ∧ Ended fault.rest ∧
      rightOperand (c :: w ++ (tail ++ ['\n'])) = .ok (some v, ['\n']) := by
  rcases rightOperand_rejection h with ⟨hsplit, -⟩ | hword
  · rw [hsplit] at hs ⊢
    refine ⟨'&', [], ['1'], .descriptor 1, rfl, by decide, hs.tail (by decide), ?_⟩
    have hrun : IsDigitRun ['1'] := ⟨by decide, by simp [show isDigitChar '1' = true by decide]⟩
    have hnumber : descriptorNumber ['1'] = .ok 1 := by cbv
    have hread := rightOperand_ampersand hrun (r := ['\n']) (stops_cons.mpr (by decide))
    rw [hnumber] at hread
    exact hread
  · obtain ⟨u, q, w, tail, v, rfl, -, hrest, hread⟩ := word_completes hword hs
    have hright := rightOperand_of_word (hread ['\n'] endsWord_newline)
    obtain ⟨c, x, hc, hstart⟩ := word_head (hread ['\n'] endsWord_newline)
    cases u with
    | nil =>
      obtain ⟨rfl, -⟩ := List.cons.inj hc
      exact ⟨q, w, tail, .file v, rfl, isBlank_of_isFragmentStart hstart, hrest, hright⟩
    | cons d u =>
      obtain ⟨rfl, -⟩ := List.cons.inj hc
      exact ⟨d, u ++ (q :: w), tail, .file v, rfl, isBlank_of_isFragmentStart hstart, hrest, hright⟩

/-! ## Redirects -/

theorem redirect_rejection {s : List Char} {fault : Fault}
    (h : redirect s = .error (.rejection fault)) :
    ∃ w left kind u, LeftText w left ∧ LeftFits kind left ∧ s = w ++ (kind.symbol.toList ++ u) ∧
      (kind = .truncate → u.head? ≠ some '>') ∧
      rightOperand (skipBlanks u) = .error (.rejection fault) := by
  cases hleft : leftOperand s with
  | error failure =>
    have hfailure : failure = .rejection fault := by simpa [redirect, hleft] using h
    rw [hfailure] at hleft
    exact absurd ⟨fault, hleft⟩ (leftOperand_not_rejects s)
  | ok reading =>
    obtain ⟨left, t⟩ := reading
    cases hkind : redirectKind t with
    | error failure =>
      have hfailure : failure = .rejection fault := by simpa [redirect, hleft, hkind] using h
      rw [hfailure] at hkind
      unfold redirectKind at hkind
      split at hkind <;> simp [mismatch] at hkind
    | ok reading =>
      obtain ⟨kind, u⟩ := reading
      obtain ⟨rfl, hu⟩ := redirectKind_eq_ok_iff.mp hkind
      obtain ⟨w, hw, rfl⟩ := (leftOperand_eq_ok_iff (startsOperator_symbol kind u)).mp hleft
      have hfits : LeftFits kind left := by
        intro hany
        cases kind <;> simp [redirect, hleft, hkind, hany, mismatch] at h ⊢
      rw [redirect_of_left hw hfits hu] at h
      split at h
      · next failure hright =>
        rw [Except.error.inj h] at hright
        exact ⟨w, left, kind, u, hw, hfits, rfl, hu, hright⟩
      · simp at h
      · simp at h

theorem exists_symbol (kind : RedirectKind) :
    ∃ o x, kind.symbol.toList = o :: x ∧ (o = '<' ∨ o = '>') := by
  obtain ⟨o, x, ho, hop⟩ := exists_operator (startsOperator_symbol kind [])
  exact ⟨o, x, by simpa using ho, hop⟩

end Parser

open LineShell.Parser

/-- A redirect that is cut off behind its operator can be completed. -/
theorem exists_completed_redirect {s : List Char} {fault : Fault}
    (h : redirect s = .error (.rejection fault)) (hs : Ended s) :
    ∃ b o w tail, ∃ t : Source redirect, s = b ++ o :: w ++ fault.rest ∧
      t.text = b ++ o :: w ++ tail ∧ (o = '<' ∨ o = '>') ∧ Ended fault.rest := by
  obtain ⟨b, left, kind, u, hb, hfits, rfl, hu, hright⟩ := redirect_rejection h
  obtain ⟨gap, hgap, hsplit⟩ := exists_blanks u
  obtain ⟨o, x, hsymbol, hop⟩ := exists_symbol kind
  have hended : Ended (skipBlanks u) := by
    rw [hsplit, ← List.append_assoc, ← List.append_assoc] at hs
    apply hs.of_append
    intro hnil
    rw [hnil, rightOperand_of_noOperand ⟨by simp, stops_nil _⟩] at hright
    simp at hright
  obtain ⟨c, w, tail, v, hrest, hblank, hend, hread⟩ := rightOperand_completes hright hended
  have hskip : skipBlanks (gap ++ (c :: w ++ (tail ++ ['\n']))) = c :: w ++ (tail ++ ['\n']) :=
    skipBlanks_append_of_stops hgap (stops_cons.mpr hblank)
  have hhead : (gap ++ (c :: w ++ (tail ++ ['\n']))).head? = u.head? := by
    rw [hsplit, hrest]
    cases gap <;> rfl
  have hread : redirect (b ++ o :: (x ++ (gap ++ c :: w)) ++ tail ++ ['\n']) =
      .ok (makeRedirect kind left (some v), ['\n']) := by
    have hredirect := redirect_of_left hb hfits (u := gap ++ (c :: w ++ (tail ++ ['\n'])))
      (by rw [hhead]; exact hu)
    rw [hskip, hread] at hredirect
    refine Eq.trans (congrArg redirect ?_) hredirect
    rw [hsymbol]
    simp
  refine ⟨b, o, x ++ (gap ++ c :: w), tail, ⟨_, _, hread⟩, ?_, rfl, hop, hend⟩
  rw [hsplit, hrest, hsymbol]
  simp

theorem exists_completed_assignment {s : List Char} {fault : Fault}
    (h : assignment s = .error (.rejection fault)) (hs : Ended s) :
    ∃ c w tail, ∃ t : Source assignment, s = c :: w ++ fault.rest ∧ t.text = c :: w ++ tail ∧
      c ≠ '\n' ∧ Ended fault.rest := by
  obtain ⟨name, t, hname, rfl, hword⟩ := assignment_rejection h
  obtain ⟨c, x, rfl⟩ := List.exists_cons_of_ne_nil hname.ne_nil
  have hended : Ended t := by
    refine Ended.rest (w := (c :: x) ++ ['=']) (by simpa using hs) ?_
    rw [List.getLast?_concat]
    decide
  obtain ⟨u, q, w, tail, v, rfl, -, hrest, hread⟩ := word_completes hword hended
  have hsource : assignment (c :: (x ++ '=' :: (u ++ (q :: w) ++ tail)) ++ ['\n']) =
      .ok (⟨String.ofList (c :: x), v⟩, ['\n']) := by
    refine assignment_eq_ok_iff.mpr ⟨u ++ (q :: w) ++ (tail ++ ['\n']), ?_, ?_, Or.inl ?_⟩
    · simpa using hname
    · simp
    · exact hread _ endsWord_newline
  refine ⟨c, x ++ '=' :: (u ++ (q :: w)), tail, ⟨_, _, hsource⟩, by simp, by simp, ?_, hrest⟩
  rintro rfl
  exact absurd hname.1 (by decide)

theorem exists_completed_word {s : List Char} {fault : Fault}
    (h : word s = .error (.rejection fault)) (hs : Ended s) :
    ∃ c w tail, ∃ t : Source word, s = c :: w ++ fault.rest ∧ t.text = c :: w ++ tail ∧
      c ≠ '\n' ∧ Ended fault.rest ∧ (BeginsAssignment t.text → BeginsAssignment s) := by
  obtain ⟨u, q, w, tail, v, rfl, hq, hrest, hread⟩ := word_completes h hs
  have hsource := hread ['\n'] endsWord_newline
  rw [← List.append_assoc] at hsource
  have hbegins : BeginsAssignment (u ++ (q :: w) ++ tail) →
      BeginsAssignment (u ++ (q :: w) ++ fault.rest) := by
    intro hbegins
    rw [List.append_assoc] at hbegins ⊢
    exact (hbegins.of_append (stops_cons.mpr hq)).append _
  obtain ⟨c, x, hc, hstart⟩ := word_head hsource
  have hnewline : c ≠ '\n' := by
    rintro rfl
    exact absurd hstart (by decide)
  cases u with
  | nil =>
    obtain ⟨rfl, -⟩ := List.cons.inj hc
    exact ⟨q, w, tail, ⟨_, v, hsource⟩, rfl, rfl, hnewline, hrest, hbegins⟩
  | cons d u =>
    obtain ⟨rfl, -⟩ := List.cons.inj hc
    exact ⟨d, u ++ (q :: w), tail, ⟨_, v, hsource⟩, rfl, rfl, hnewline, hrest, hbegins⟩

/-! ## Commands -/

theorem nextArgument_rejection {s : List Char} {fault : Fault}
    (h : nextArgument s = .error (.rejection fault)) :
    fault.rest = skipBlanks s ∨ redirect (skipBlanks s) = .error (.rejection fault) ∨
      (skipBlanks s ≠ s ∧ word (skipBlanks s) = .error (.rejection fault)) := by
  simp only [nextArgument] at h
  split at h
  · simp [mismatch] at h
  · split at h
    · simp [mismatch] at h
    · split at h
      · obtain rfl : Fault.mk .whitespace (skipBlanks s) = fault := by simpa [rejection] using h
        exact Or.inl rfl
      · next hblank =>
        split at h
        · obtain rfl : Fault.mk .argumentOrRedirect (skipBlanks s) = fault := by
            simpa [rejection] using h
          exact Or.inl rfl
        · exact Or.inr (Or.inr ⟨hblank, h⟩)
    · next failure _ hread =>
      rw [Except.error.inj h] at hread
      exact Or.inr (Or.inl hread)

theorem nextRedirect_rejection {s : List Char} {fault : Fault}
    (h : nextRedirect s = .error (.rejection fault)) :
    fault.rest = skipBlanks s ∨ redirect (skipBlanks s) = .error (.rejection fault) := by
  simp only [nextRedirect] at h
  split at h
  · simp [mismatch] at h
  · split at h
    · obtain rfl : Fault.mk .redirect (skipBlanks s) = fault := by simpa [rejection] using h
      exact Or.inl rfl
    · exact Or.inr h

/-- Where a command is rejected: in its assignments, in its first word, or behind a command that
has been read so far.  There something stands that is neither a word nor a redirect, or a redirect
is not finished, or a word. -/
theorem command_rejection {s : List Char} {fault : Fault}
    (h : Parser.command s = .error (.rejection fault)) :
    assignmentPrefix (skipBlanks s) = .error (.rejection fault) ∨
      (∃ as t, assignmentPrefix (skipBlanks s) = .ok (as, t) ∧
        word t = .error (.rejection fault)) ∨
      ∃ c r, ReadsCommand s c r ∧
        (fault.rest = skipBlanks r ∨ redirect (skipBlanks r) = .error (.rejection fault) ∨
          (c.redirects = [] ∧ skipBlanks r ≠ r ∧
            word (skipBlanks r) = .error (.rejection fault))) := by
  unfold Parser.command at h
  split at h
  · next failure hprefix =>
    rw [Except.error.inj h] at hprefix
    exact Or.inl hprefix
  · next as t has =>
    split at h
    · next failure hword =>
      rw [Except.error.inj h] at hword
      exact Or.inr (Or.inl ⟨as, t, has, hword⟩)
    · next w u hw =>
      refine Or.inr (Or.inr ?_)
      unfold argumentsAndRedirects redirects at h
      cases harguments : Production.repeated nextArgument u with
      | error failure =>
        have hfailure : failure = .rejection fault := by simpa [harguments] using h
        rw [hfailure] at harguments
        obtain ⟨ws, v, hws, hv, -⟩ :=
          (Production.repeated_eq_error_iff nextArgument_consumes).mp harguments
        refine ⟨⟨as, w :: ws, []⟩, v, ⟨t, u, v, w, ws, has, hw, hws, .nil v, rfl⟩, ?_⟩
        rcases nextArgument_rejection hv with hrest | hredirect | ⟨hblank, hword⟩
        · exact Or.inl hrest
        · exact Or.inr (Or.inl hredirect)
        · exact Or.inr (Or.inr ⟨rfl, hblank, hword⟩)
      | ok reading =>
        obtain ⟨ws, v⟩ := reading
        obtain ⟨hws, -⟩ := (Production.repeated_eq_ok_iff nextArgument_consumes).mp harguments
        cases hredirects : Production.repeated nextRedirect v with
        | error failure =>
          have hfailure : failure = .rejection fault := by simpa [harguments, hredirects] using h
          rw [hfailure] at hredirects
          obtain ⟨ds, r, hds, hr, -⟩ :=
            (Production.repeated_eq_error_iff nextRedirect_consumes).mp hredirects
          refine ⟨⟨as, w :: ws, ds⟩, r, ⟨t, u, v, w, ws, has, hw, hws, hds, rfl⟩, ?_⟩
          rcases nextRedirect_rejection hr with hrest | hredirect
          · exact Or.inl hrest
          · exact Or.inr (Or.inl hredirect)
        | ok reading => simp [harguments, hredirects] at h

end LineShell
