import LineShell.Proofs.Line.Acceptance
import LineShell.Proofs.Word.Rejection

/-!
# Rejections refuse nothing

The parser that backtracks instead of rejecting accepts the same lines, with the same values.  It
is clear that it accepts what is accepted without a rejection.  The other direction is the point:
where backtracking goes on behind a fault, it does not come to an end.  There are two kinds of
such places.

* An *unclosed* place begins with a quoted text that is not finished.  A word that has been read up
  to there ends in front of a quotation mark, and neither a blank, nor a redirect, nor the end of
  the line begins with one.
* A *dangling* redirect has an ampersand without a descriptor behind its operator.  The characters
  before its operator can be read as a word, but then the operator stands where a blank is needed.
-/

namespace LineShell

open LineShell.Parser
open Production (Gentle Mismatches Passes)

namespace Parser

theorem LeftText.ne_operator {w : List Char} {left : Option Operand} (h : LeftText w left) :
    ∀ c ∈ w, c ≠ '<' ∧ c ≠ '>' := by
  cases h with
  | none => simp
  | descriptor hrun _ =>
    intro c hc
    constructor <;> rintro rfl <;> exact absurd (hrun.2 _ hc) (by decide)
  | file _ hp _ => exact fun c hc => ne_operator_of_isPathChar (hp c hc)

theorem append_operator_inj {w w' t t' : List Char} (hw : ∀ c ∈ w, c ≠ '<' ∧ c ≠ '>')
    (hw' : ∀ c ∈ w', c ≠ '<' ∧ c ≠ '>') (ht : startsOperator t = true)
    (ht' : startsOperator t' = true) (h : w ++ t = w' ++ t') : w = w' ∧ t = t' := by
  let plain : Char → Bool := fun c => c != '<' && c != '>'
  have hstop {s : List Char} (hs : startsOperator s = true) : Stops plain s :=
    stops_of_startsOperator (by decide) (by decide) hs
  have htake : (w ++ t).takeWhile plain = w :=
    takeWhile_append_of_stops (fun c hc => by simpa [plain] using hw c hc) (hstop ht)
  have htake' : (w' ++ t').takeWhile plain = w' :=
    takeWhile_append_of_stops (fun c hc => by simpa [plain] using hw' c hc) (hstop ht')
  have heq : w = w' := by rw [← htake, h, htake']
  subst heq
  exact ⟨rfl, List.append_cancel_left h⟩

end Parser

/-! ## Unclosed places -/

theorem Unclosed.skipBlanks_eq {s : List Char} (h : Unclosed s) : skipBlanks s = s :=
  (h.stops (by decide) (by decide)).dropWhile_eq

theorem Unclosed.not_breaks {s : List Char} (h : Unclosed s) : ¬ Breaks s := by
  intro hbreaks
  obtain ⟨c, t, rfl, rfl | rfl⟩ := h.head
  · exact absurd (stops_cons.mp hbreaks.endsWord.1) (by decide)
  · exact absurd (stops_cons.mp hbreaks.endsWord.1) (by decide)

theorem Unclosed.not_atEnd {s : List Char} (h : Unclosed s) : atEnd s = false := by
  obtain ⟨c, t, rfl, rfl | rfl⟩ := h.head <;> simp [atEnd]

theorem Unclosed.redirect_mismatches {s : List Char} (h : Unclosed s) :
    Mismatches Parser.redirect s := by
  have hdigit : Stops isDigitChar s := h.stops (by decide) (by decide)
  have hpath : Stops isPathChar s := h.stops (by decide) (by decide)
  have hop : startsOperator s = false := by
    obtain ⟨c, t, rfl, rfl | rfl⟩ := h.head <;> simp [startsOperator]
  apply LineShell.Parser.redirect_mismatches
  · rw [hdigit.dropWhile_eq]
    exact hop
  · rw [hpath.dropWhile_eq]
    exact hop

namespace Regime

theorem fragment_of_retry {s r : List Char} {v : Word} (h : retry.fragment s = .ok (v, r)) :
    Parser.fragment s = .ok (v, r) := by
  obtain ⟨p, hp, hread⟩ := Production.mem_of_firstOf_ok h
  simp only [List.mem_cons, List.not_mem_nil, or_false] at hp
  apply fragment_eq_ok_iff.mpr
  rcases hp with rfl | rfl | rfl | rfl
  · exact Or.inl hread
  · exact Or.inr (Or.inl hread)
  · exact Or.inr (Or.inr (Or.inl (retry.guard_eq_ok_iff.mp hread)))
  · exact Or.inr (Or.inr (Or.inr (retry.guard_eq_ok_iff.mp hread)))

theorem soften_gentle {α : Type} {p : Production α} (hp : p.Numberless) :
    Gentle (Production.soften p) := by
  intro s failure h
  cases failure with
  | mismatch fault => exact ⟨fault, h⟩
  | rejection fault => exact absurd ⟨fault, h⟩ (Production.not_rejects_soften p s)
  | numeral error =>
    unfold Production.soften at h
    split at h
    · simp at h
    · exact absurd h (hp s error)

theorem retry_fragment_gentle : Gentle retry.fragment := by
  apply Production.firstOf_gentle
  intro p hp
  simp only [List.mem_cons, List.not_mem_nil, or_false] at hp
  rcases hp with rfl | rfl | rfl | rfl
  · exact path_gentle
  · exact glob_gentle
  · exact soften_gentle doubleQuoted_numberless
  · exact soften_gentle singleQuoted_numberless

theorem fragment_fails_of_retry {s : List Char} (h : Mismatches retry.fragment s) :
    Mismatches Parser.fragment s ∨ Unclosed s := by
  obtain ⟨fault, h⟩ := h
  cases hread : Parser.fragment s with
  | ok reading =>
    obtain ⟨v, r⟩ := reading
    rw [keeps_fragment.ok hread] at h
    simp at h
  | error failure =>
    cases failure with
    | mismatch fault' => exact Or.inl ⟨fault', hread⟩
    | rejection fault' => exact Or.inr ⟨fault', hread⟩
    | numeral error => exact absurd hread (fragment_numberless s error)

theorem word_of_retry {s r : List Char} {v : Word} (h : retry.word s = .ok (v, r)) :
    Parser.word s = .ok (v, r) ∨ Unclosed r := by
  unfold word at h
  split at h
  · simp at h
  · simp [mismatch] at h
  · next w ws u hread =>
    simp only [Except.ok.injEq, Prod.mk.injEq] at h
    obtain ⟨rfl, rfl⟩ := h
    obtain ⟨hsteps, hmismatch⟩ :=
      (Production.repeated_eq_ok_iff retry.fragment_consumes).mp hread
    rcases fragment_fails_of_retry hmismatch with hend | hend
    · exact Or.inl (word_eq_ok_iff.mpr ⟨w :: ws, by simp, hsteps.mono fragment_of_retry, hend, rfl⟩)
    · exact Or.inr hend

theorem retry_word_gentle : Gentle retry.word := by
  intro s failure h
  unfold word at h
  split at h
  · next failure' hread =>
    exact absurd hread
      (retry_fragment_gentle.repeated_ne_error retry.fragment_consumes s failure')
  · next r hread => exact ⟨⟨.argument, s⟩, by rw [word, hread]; rfl⟩
  · simp at h

theorem word_fails_of_retry {s : List Char} (h : Mismatches retry.word s) :
    Mismatches Parser.word s ∨ Unclosed s := by
  obtain ⟨fault, h⟩ := h
  unfold word at h
  split at h
  · next failure hread =>
    exact absurd hread (retry_fragment_gentle.repeated_ne_error retry.fragment_consumes s failure)
  · next r hread =>
    obtain ⟨hsteps, hmismatch⟩ :=
      (Production.repeated_eq_ok_iff retry.fragment_consumes).mp hread
    rw [← hsteps.eq_of_nil] at hmismatch
    rcases fragment_fails_of_retry hmismatch with hend | hend
    · have hnone := Production.repeated_of_mismatches hend
      exact Or.inl ⟨⟨.argument, s⟩, by rw [Parser.word, hnone]; rfl⟩
    · exact Or.inr hend
  · simp at h

theorem optional_word_of_retry {s r : List Char} {v : Option Word}
    (h : Production.optional retry.word s = .ok (v, r)) :
    Production.optional Parser.word s = .ok (v, r) ∨ Unclosed r := by
  rcases Production.optional_eq_ok_iff.mp h with ⟨w, rfl, hword⟩ | ⟨rfl, hnone, rfl⟩
  · rcases word_of_retry hword with hread | hend
    · exact Or.inl (Production.optional_eq_ok_iff.mpr (Or.inl ⟨w, rfl, hread⟩))
    · exact Or.inr hend
  · rcases word_fails_of_retry hnone with hread | hend
    · exact Or.inl (Production.optional_eq_ok_iff.mpr (Or.inr ⟨rfl, hread, rfl⟩))
    · exact Or.inr hend

/-! ## Assignments -/

theorem assignment_of_retry {s r : List Char} {a : Assignment}
    (h : retry.assignment s = .ok (a, r)) : Parser.assignment s = .ok (a, r) ∨ Unclosed r := by
  unfold assignment at h
  split at h
  · simp at h
  · next name t hname =>
    split at h
    · simp at h
    · next value u hvalue =>
      simp only [Except.ok.injEq, Prod.mk.injEq] at h
      obtain ⟨rfl, rfl⟩ := h
      rcases optional_word_of_retry hvalue with hread | hend
      · exact Or.inl (by simp [Parser.assignment, hname, hread])
      · exact Or.inr hend
  · simp [mismatch] at h

theorem assignment_fails_of_retry {s : List Char} (h : Mismatches retry.assignment s) :
    Mismatches Parser.assignment s := by
  apply assignment_mismatches_iff.mpr
  rintro ⟨name, t, hname, rfl⟩
  obtain ⟨fault, h⟩ := h
  have hread := variableName_equals (t := t) hname
  cases hvalue : Production.optional retry.word t with
  | ok reading => simp [assignment, hread, hvalue] at h
  | error failure =>
    have hfailure : failure = .mismatch fault := by simpa [assignment, hread, hvalue] using h
    rw [hfailure] at hvalue
    exact absurd ⟨fault, hvalue⟩ (Production.optional_not_mismatches _ _)

/-- An assignment is followed by a blank or the end of the line, so none of them is cut off at an
unclosed place. -/
theorem assignmentPrefix_of_retry {s r : List Char} {as : List Assignment}
    (h : retry.assignmentPrefix s = .ok (as, r)) : Parser.assignmentPrefix s = .ok (as, r) := by
  fun_induction retry.assignmentPrefix s generalizing as r with
  | case1 s fault hfault =>
    obtain ⟨fault', hread⟩ := assignment_fails_of_retry ⟨fault, hfault⟩
    rw [Parser.assignmentPrefix, hread]
    exact h
  | case2 => simp at h
  | case3 => simp at h
  | case4 => simp at h
  | case5 s a t ha u hsep hlt as' r' hrest ih =>
    rcases assignment_of_retry ha with hread | hend
    · rw [Parser.assignmentPrefix, hread]
      simpa [hsep, hlt, ih hrest] using h
    · exact absurd (separator_eq_ok_iff.mp hsep).1 hend.not_breaks
  | case6 s a t ha u hsep hlt =>
    rcases assignment_of_retry ha with hread | hend
    · rw [Parser.assignmentPrefix, hread]
      simpa [hsep, hlt] using h
    · exact absurd (separator_eq_ok_iff.mp hsep).1 hend.not_breaks

/-! ## Redirects -/

theorem optional_map_eq_ok_iff {α β : Type} {p : Production α} {f : α → β} {s r : List Char}
    {v : Option β} :
    Production.optional (Production.map f p) s = .ok (v, r) ↔
      ∃ x, Production.optional p s = .ok (x, r) ∧ v = x.map f := by
  cases hread : p s with
  | error failure =>
    cases failure <;> simp [Production.optional, Production.map, hread, eq_comm, and_comm]
  | ok reading =>
    obtain ⟨x, t⟩ := reading
    simp [Production.optional, Production.map, hread, eq_comm, and_comm]

theorem rightOperand_of_retry {s r : List Char} {v : Option Operand}
    (h : retry.rightOperand s = .ok (v, r)) : Parser.rightOperand s = .ok (v, r) ∨ Unclosed r := by
  have hopen : retry.openOperand s = .ok (v, r) := retry.guard_eq_ok_iff.mp h
  unfold openOperand at hopen
  split at hopen
  · exact Or.inl hopen
  · next hamp =>
    obtain ⟨x, hx, rfl⟩ := optional_map_eq_ok_iff.mp hopen
    rcases optional_word_of_retry hx with hread | hend
    · refine Or.inl ?_
      rw [Parser.rightOperand]
      · exact optional_map_eq_ok_iff.mpr ⟨x, hread, rfl⟩
      · exact hamp
    · exact Or.inr hend

theorem rightOperand_none {g : Regime} {s r : List Char}
    (h : g.rightOperand s = .ok (none, r)) : s = r := by
  have hopen : g.openOperand s = .ok (none, r) := g.guard_eq_ok_iff.mp h
  unfold openOperand at hopen
  split at hopen
  · simp only at hopen
    split at hopen
    · simp [rejection] at hopen
    · split at hopen <;> simp at hopen
  · rcases Production.optional_eq_ok_iff.mp hopen with ⟨x, hx, -⟩ | ⟨-, -, hr⟩
    · simp at hx
    · exact hr

theorem redirect_of_retry {s r : List Char} {d : Redirect} (h : retry.redirect s = .ok (d, r)) :
    Parser.redirect s = .ok (d, r) ∨ Unclosed (skipBlanks r) := by
  obtain ⟨left, t, kind, u, hleft, hkind, hfits, hright⟩ := redirect_ok h
  rcases hright with ⟨v, hright, rfl, rfl⟩ | ⟨right, hright, rfl⟩
  · rcases rightOperand_of_retry hright with hread | hend
    · exact Or.inl (by simp [Parser.redirect, hleft, hkind, hfits, hread])
    · rw [rightOperand_none hright]
      exact Or.inr hend
  · rcases rightOperand_of_retry hright with hread | hend
    · exact Or.inl (by simp [Parser.redirect, hleft, hkind, hfits, hread])
    · rw [hend.skipBlanks_eq]
      exact Or.inr hend

/-! ## Dangling redirects -/

/-- An operator with an ampersand behind it, but without the digits of a descriptor. -/
def DanglingOperator (s : List Char) : Prop :=
  ∃ (kind : RedirectKind) (u t : List Char), s = kind.symbol.toList ++ u ∧
    (kind = .truncate → u.head? ≠ some '>') ∧ skipBlanks u = '&' :: t ∧ Stops isDigitChar t

theorem rightOperand_fails_of_retry {s : List Char} (h : Mismatches retry.rightOperand s) :
    ∃ t, s = '&' :: t ∧ Stops isDigitChar t := by
  have hopen : ∃ failure, retry.openOperand s = .error failure ∧
      ∀ error, failure ≠ .numeral error := by
    rcases Production.soften_mismatches_iff.mp h with ⟨fault, hread⟩ | ⟨fault, hread⟩
    · exact ⟨_, hread, by simp⟩
    · exact ⟨_, hread, by simp⟩
  obtain ⟨failure, hread, hfailure⟩ := hopen
  unfold openOperand at hread
  split at hread
  · next t =>
    simp only at hread
    split at hread
    · next hnone =>
      have hdigits : t.takeWhile isDigitChar = [] := by simpa using hnone
      refine ⟨t, rfl, ?_⟩
      rw [← List.takeWhile_append_dropWhile (p := isDigitChar) (l := t), hdigits]
      exact stops_dropWhile isDigitChar t
    · split at hread
      · next hnumber =>
        unfold descriptorNumber at hnumber
        split at hnumber
        · next error _ =>
          rw [← Except.error.inj hnumber] at hread
          exact absurd (Except.error.inj hread).symm (hfailure error)
        · simp at hnumber
      · simp at hread
  · exact absurd hread ((retry_word_gentle.map _).optional_ne_error _ _)

theorem redirect_fails_of_retry {s : List Char} (h : Mismatches retry.redirect s) :
    Mismatches Parser.redirect s ∨
      ∃ w left t, LeftText w left ∧ s = w ++ t ∧ DanglingOperator t := by
  obtain ⟨fault, h⟩ := h
  unfold redirect at h
  split at h
  · next failure hleft =>
    exact Or.inl ⟨fault, by simpa [Parser.redirect, hleft] using h⟩
  · next left t hleft =>
    split at h
    · next failure hkind => exact Or.inl ⟨fault, by simpa [Parser.redirect, hleft, hkind] using h⟩
    · next kind u hkind =>
      split at h
      · next hfile =>
        exact Or.inl ⟨⟨.redirect, s⟩, by simp [Parser.redirect, hleft, hkind, hfile, mismatch]⟩
      · split at h
        · next failure hright =>
          rw [Except.error.inj h] at hright
          obtain ⟨v, hv, hstop⟩ := rightOperand_fails_of_retry ⟨fault, hright⟩
          obtain ⟨rfl, hu⟩ := redirectKind_eq_ok_iff.mp hkind
          obtain ⟨w, hw, rfl⟩ := (leftOperand_eq_ok_iff (startsOperator_symbol kind u)).mp hleft
          exact Or.inr ⟨w, left, _, hw, rfl, kind, u, v, rfl, hu, hv, hstop⟩
        · simp at h
        · simp at h

theorem DanglingOperator.startsOperator {s : List Char} (h : DanglingOperator s) :
    startsOperator s = true := by
  obtain ⟨kind, u, -, rfl, -⟩ := h
  exact startsOperator_symbol kind u

theorem rightOperand_dangling (g : Regime) {t : List Char} (ht : Stops isDigitChar t)
    {v : Option Operand} {r : List Char} : g.rightOperand ('&' :: t) ≠ .ok (v, r) := by
  intro h
  have hopen : g.openOperand ('&' :: t) = .ok (v, r) := g.guard_eq_ok_iff.mp h
  simp [openOperand, ht.takeWhile_eq_nil, rejection] at hopen

/-- With digits before its operator, or with nothing, a dangling redirect is not read. -/
theorem DanglingOperator.not_redirect {s : List Char} (h : DanglingOperator s) {run : List Char}
    (hrun : ∀ c ∈ run, isDigitChar c = true) {d : Redirect} {r : List Char} :
    retry.redirect (run ++ s) ≠ .ok (d, r) := by
  intro hread
  obtain ⟨left, t, kind, u, hleft, hkind, -, hright⟩ := redirect_ok hread
  have ht : Parser.startsOperator t = true := by
    rw [(redirectKind_eq_ok_iff.mp hkind).1]
    exact startsOperator_symbol kind u
  obtain ⟨w, hw, hsplit⟩ := (leftOperand_eq_ok_iff ht).mp hleft
  have hplain : ∀ c ∈ run, c ≠ '<' ∧ c ≠ '>' := by
    intro c hc
    constructor <;> rintro rfl <;> exact absurd (hrun _ hc) (by decide)
  obtain ⟨-, rfl⟩ := append_operator_inj hplain hw.ne_operator h.startsOperator ht hsplit
  obtain ⟨kind', u', v, rfl, hu, hv, hstop⟩ := h
  rw [redirectKind_eq_ok_iff.mpr ⟨rfl, hu⟩] at hkind
  obtain ⟨rfl, rfl⟩ := Prod.mk.inj (Except.ok.inj hkind)
  rw [hv] at hright
  rcases hright with ⟨x, hright, -⟩ | ⟨right, hright, -⟩
  · exact retry.rightOperand_dangling hstop hright
  · exact retry.rightOperand_dangling hstop hright

/-! ## Arguments -/

theorem not_nextArgument_of_unclosed {s : List Char} (h : Unclosed s) :
    ¬ Passes retry.nextArgument s := by
  obtain ⟨fault, hredirect⟩ := keeps_redirect.mismatches h.redirect_mismatches
  have hread : retry.nextArgument s = rejection .whitespace s := by
    simp [nextArgument, h.skipBlanks_eq, h.not_atEnd, hredirect]
  rintro (⟨fault', hpasses⟩ | ⟨v, r, hpasses⟩)
  · rw [hread] at hpasses
    simp [rejection] at hpasses
  · rw [hread] at hpasses
    simp [rejection] at hpasses

theorem not_nextRedirect_of_unclosed {s : List Char} (h : Unclosed (skipBlanks s)) :
    ¬ Passes retry.nextRedirect s := by
  obtain ⟨fault, hredirect⟩ := keeps_redirect.mismatches h.redirect_mismatches
  have hread : retry.nextRedirect s = rejection .redirect (skipBlanks s) := by
    simp [nextRedirect, h.not_atEnd, hredirect]
  rintro (⟨fault', hpasses⟩ | ⟨v, r, hpasses⟩)
  · rw [hread] at hpasses
    simp [rejection] at hpasses
  · rw [hread] at hpasses
    simp [rejection] at hpasses

theorem DanglingOperator.head {s : List Char} (h : DanglingOperator s) {run : List Char}
    (hrun : ∀ c ∈ run, isDigitChar c = true) :
    ∃ c t, run ++ s = c :: t ∧ isRedirectStart c = true ∧ isFragmentStart c = isPathChar c := by
  cases run with
  | nil =>
    obtain ⟨c, t, rfl, rfl | rfl⟩ := exists_operator h.startsOperator
    · exact ⟨'<', t, rfl, by decide, by decide⟩
    · exact ⟨'>', t, rfl, by decide, by decide⟩
  | cons c run =>
    have hc : isDigitChar c = true := hrun c List.mem_cons_self
    refine ⟨c, run ++ s, rfl, by simp [isRedirectStart, hc], ?_⟩
    cases hpath : isPathChar c with
    | true => simp [isFragmentStart, hpath]
    | false =>
      cases hstart : isFragmentStart c with
      | false => rfl
      | true =>
        rw [isDigitChar_of_isFragmentStart hstart hpath] at hc
        exact absurd hc (by decide)

/-- Behind a word that is the beginning of a dangling redirect no argument follows. -/
theorem DanglingOperator.not_nextArgument {s : List Char} (h : DanglingOperator s)
    {run : List Char} (hrun : ∀ c ∈ run, isDigitChar c = true) :
    ¬ Passes retry.nextArgument (run ++ s) := by
  obtain ⟨c, t, hs, hc, -⟩ := h.head hrun
  have hskip : skipBlanks (run ++ s) = run ++ s := by
    rw [hs]
    exact (stops_cons.mpr (isBlank_of_isRedirectStart hc)).dropWhile_eq
  have hend : atEnd (run ++ s) = false := by
    cases hend : atEnd (run ++ s) with
    | false => rfl
    | true =>
      obtain ⟨rfl, -⟩ : c = '\n' ∧ t = [] := by simpa [atEnd, hs] using hend
      exact absurd hc (by decide)
  have hfails : ∃ failure, retry.nextArgument (run ++ s) = .error failure ∧
      ∀ fault, failure ≠ .mismatch fault := by
    cases hread : retry.redirect (run ++ s) with
    | ok reading => exact absurd hread (h.not_redirect hrun)
    | error failure =>
      cases failure with
      | mismatch fault =>
        refine ⟨.rejection ⟨.whitespace, run ++ s⟩, ?_, by simp⟩
        simp [nextArgument, hskip, hend, hread, rejection]
      | rejection fault =>
        exact ⟨.rejection fault, by simp [nextArgument, hskip, hend, hread], by simp⟩
      | numeral error =>
        exact ⟨.numeral error, by simp [nextArgument, hskip, hend, hread], by simp⟩
  obtain ⟨failure, hread, hfailure⟩ := hfails
  rintro (⟨fault, hpasses⟩ | ⟨v, r, hpasses⟩)
  · rw [hread] at hpasses
    exact hfailure fault (Except.error.inj hpasses)
  · rw [hread] at hpasses
    simp at hpasses

/-- A word that begins like a dangling redirect ends within the operand before the operator. -/
theorem word_dangling {w s r : List Char} {left : Option Operand} {v : Word}
    (hw : LeftText w left) (h : DanglingOperator s) (hword : Parser.word (w ++ s) = .ok (v, r)) :
    ∃ run, (∀ c ∈ run, isDigitChar c = true) ∧ r = run ++ s := by
  have hrest : ∃ run, (∀ c ∈ run, isDigitChar c = true) ∧
      (w ++ s).dropWhile isPathChar = run ++ s := by
    have hstop : Stops isPathChar s :=
      stops_of_startsOperator (by decide) (by decide) h.startsOperator
    cases hw with
    | none => exact ⟨[], by simp, hstop.dropWhile_eq⟩
    | file _ hp _ => exact ⟨[], by simp, dropWhile_append_of_stops hp hstop⟩
    | descriptor hrun _ =>
      refine ⟨w.dropWhile isPathChar, ?_, ?_⟩
      · intro c hc
        exact hrun.2 c ((List.dropWhile_suffix isPathChar).mem hc)
      · rw [List.dropWhile_append]
        split
        · next hnil =>
          rw [hstop.dropWhile_eq, List.isEmpty_iff.mp hnil]
          rfl
        · rfl
  obtain ⟨run, hrun, hdrop⟩ := hrest
  rcases dropWhile_isPathChar_of_word hword with heq | ⟨c, t, heq, hstart, hpath⟩
  · exact ⟨run, hrun, by rw [← heq, hdrop]⟩
  · obtain ⟨d, x, hd, -, hplain⟩ := h.head hrun
    rw [hdrop, hd] at heq
    obtain ⟨rfl, -⟩ := List.cons.inj heq
    rw [hstart, hpath] at hplain
    exact absurd hplain (by decide)

theorem nextArgument_of_retry {s r : List Char} {w : Word}
    (h : retry.nextArgument s = .ok (w, r)) (hr : Passes retry.nextArgument r) :
    Parser.nextArgument s = .ok (w, r) := by
  obtain ⟨hblank, hredirect, hword⟩ := nextArgument_ok h
  have hread : Parser.word (skipBlanks s) = .ok (w, r) := by
    rcases word_of_retry hword with hread | hend
    · exact hread
    · exact absurd hr (not_nextArgument_of_unclosed hend)
  refine nextArgument_eq_ok_iff.mpr ⟨hblank, ?_, hread⟩
  rcases redirect_fails_of_retry hredirect with hnone | ⟨x, left, t, hx, hsplit, hdangling⟩
  · exact hnone
  · rw [hsplit] at hread
    obtain ⟨run, hrun, rfl⟩ := word_dangling hx hdangling hread
    exact absurd hr (hdangling.not_nextArgument hrun)

theorem nextRedirect_of_retry {s r : List Char} {d : Redirect}
    (h : retry.nextRedirect s = .ok (d, r)) (hr : Passes retry.nextRedirect r) :
    Parser.nextRedirect s = .ok (d, r) := by
  apply nextRedirect_eq_ok_iff.mpr
  rcases redirect_of_retry (nextRedirect_ok h) with hread | hend
  · exact hread
  · exact absurd hr (not_nextRedirect_of_unclosed hend)

/-! ## Commands -/

theorem retry_nextRedirect_mismatches {s : List Char} (h : Mismatches retry.nextRedirect s) :
    skipBlanks s = ['\n'] := by
  obtain ⟨fault, h⟩ := h
  simp only [nextRedirect] at h
  split at h
  · next hend => exact skipBlanks_eq_newline hend
  · split at h
    · simp [rejection] at h
    · next hnot => exact absurd h (hnot fault)

theorem openCommand_ok {g : Regime} {s r : List Char} {c : Command}
    (h : g.openCommand s = .ok (c, r)) :
    ∃ t u v w ws r₀, g.assignmentPrefix (skipBlanks s) = .ok (c.assignments, t) ∧
      g.word t = .ok (w, u) ∧ Production.repeated g.nextArgument u = .ok (ws, v) ∧
      Production.repeated g.nextRedirect v = .ok (c.redirects, r₀) ∧ c.arguments = w :: ws ∧
      skipBlanks r₀ = r := by
  unfold openCommand at h
  split at h
  · simp at h
  · next as t has =>
    split at h
    · simp at h
    · next w u hw =>
      unfold argumentsAndRedirects redirects at h
      cases harguments : Production.repeated g.nextArgument u with
      | error failure => simp [harguments] at h
      | ok reading =>
        obtain ⟨ws, v⟩ := reading
        cases hredirects : Production.repeated g.nextRedirect v with
        | error failure => simp [harguments, hredirects] at h
        | ok reading =>
          obtain ⟨ds, r₀⟩ := reading
          simp only [harguments, hredirects, Except.ok.injEq, Prod.mk.injEq] at h
          obtain ⟨rfl, rfl⟩ := h
          exact ⟨t, u, v, w, ws, r₀, has, hw, harguments, hredirects, rfl, rfl⟩

theorem command_of_retry {s r : List Char} {c : Command} (h : retry.command s = .ok (c, r)) :
    Parser.command s = .ok (c, r) := by
  have hopen : retry.openCommand s = .ok (c, r) := retry.guard_eq_ok_iff.mp h
  obtain ⟨t, u, v, w, ws, r₀, has, hw, hws, hds, hargs, rfl⟩ := openCommand_ok hopen
  obtain ⟨hwsteps, hwend⟩ := (Production.repeated_eq_ok_iff retry.nextArgument_consumes).mp hws
  obtain ⟨hdsteps, hdend⟩ := (Production.repeated_eq_ok_iff retry.nextRedirect_consumes).mp hds
  have hword : Parser.word t = .ok (w, u) := by
    rcases word_of_retry hw with hread | hend
    · exact hread
    · exact absurd (hwsteps.passes (Or.inl hwend)) (not_nextArgument_of_unclosed hend)
  have hend := retry_nextRedirect_mismatches hdend
  refine command_eq_ok_iff.mpr ⟨hend, r₀, ⟨t, u, v, w, ws, assignmentPrefix_of_retry has, hword, ?_,
    ?_, hargs⟩, hend⟩
  · exact hwsteps.transfer (Or.inl hwend) nextArgument_of_retry
  · exact hdsteps.transfer (Or.inl hdend) nextRedirect_of_retry

/-! ## Lines -/

/-- The three ways to account for a whole line: as a command, as assignments with blanks behind
them, and as blanks alone. -/
inductive ReadsWhole (g : Regime) (s : List Char) : Line → Prop where
  | command {c : Command} {r : List Char} (h : g.command s = .ok (c, r)) (hr : atEnd r = true) :
      ReadsWhole g s (.command c)
  | assignments {as : List Assignment} {r : List Char} (h : g.assignments s = .ok (as, r))
      (hr : atEnd (skipBlanks r) = true) : ReadsWhole g s (.assignments as)
  | blank (h : atEnd (skipBlanks s) = true) : ReadsWhole g s .blank

theorem assignments_eq_ok_iff (g : Regime) {s r : List Char} {as : List Assignment} :
    g.assignments s = .ok (as, r) ↔ as ≠ [] ∧ g.assignmentPrefix (skipBlanks s) = .ok (as, r) := by
  unfold assignments
  split
  · next failure h => simp [h]
  · next t h =>
    rw [h]
    simp only [mismatch, reduceCtorEq, Except.ok.injEq, Prod.mk.injEq, false_iff, not_and]
    exact fun hne hnil => absurd hnil.symm hne
  · next a as' t h =>
    rw [h]
    simp only [Except.ok.injEq, Prod.mk.injEq, iff_and_self]
    rintro ⟨rfl, -⟩
    simp

theorem assignmentPrefix_iff (g : Regime) {s r : List Char} {as : List Assignment} :
    g.assignmentPrefix s = .ok (as, r) ↔ Parser.assignmentPrefix s = .ok (as, r) := by
  cases g with
  | refuse => rw [refuse_assignmentPrefix]
  | retry => exact ⟨assignmentPrefix_of_retry, retry_assignmentPrefix_of_ok⟩

theorem command_iff (g : Regime) {s r : List Char} {c : Command} :
    g.command s = .ok (c, r) ↔ Parser.command s = .ok (c, r) := by
  cases g with
  | refuse => rw [refuse_command]
  | retry => exact ⟨command_of_retry, retry_command_of_ok⟩

theorem readsWhole_iff (g : Regime) {s : List Char} {v : Line} :
    g.ReadsWhole s v ↔ refuse.ReadsWhole s v := by
  have hassignments {as : List Assignment} {r : List Char} :
      g.assignments s = .ok (as, r) ↔ refuse.assignments s = .ok (as, r) := by
    rw [assignments_eq_ok_iff, assignments_eq_ok_iff, g.assignmentPrefix_iff,
      refuse.assignmentPrefix_iff]
  have hcommand {c : Command} {r : List Char} :
      g.command s = .ok (c, r) ↔ refuse.command s = .ok (c, r) := by
    rw [g.command_iff, refuse.command_iff]
  constructor
  · rintro (⟨h, hr⟩ | ⟨h, hr⟩ | h)
    · exact .command (hcommand.mp h) hr
    · exact .assignments (hassignments.mp h) hr
    · exact .blank h
  · rintro (⟨h, hr⟩ | ⟨h, hr⟩ | h)
    · exact .command (hcommand.mpr h) hr
    · exact .assignments (hassignments.mpr h) hr
    · exact .blank h

/-- What assignments leave of a line does not begin with a blank. -/
theorem assignmentPrefix_to_end {s r : List Char} {as : List Assignment}
    (h : Parser.assignmentPrefix (skipBlanks s) = .ok (as, r)) (hr : atEnd (skipBlanks r) = true) :
    r = ['\n'] := by
  obtain ⟨before, hbefore, -⟩ := exists_blanks s
  obtain ⟨-, -, -, -, -, -, hstop, -⟩ := assignmentPrefix_ok h (stops_skipBlanks s) hbefore
  rw [← skipBlanks_eq_newline hr, skipBlanks, hstop.dropWhile_eq]

theorem assignmentPrefix_newline : Parser.assignmentPrefix ['\n'] = .ok ([], ['\n']) := by cbv

/-- Where the line ends behind the assignments, no command is read. -/
theorem command_mismatches (g : Regime) {s : List Char} {as : List Assignment}
    (h : Parser.assignmentPrefix (skipBlanks s) = .ok (as, ['\n'])) : Mismatches g.command s := by
  cases g with
  | refuse =>
    rw [refuse_command]
    exact command_mismatches_of_prefix h
  | retry =>
    obtain ⟨fault, hword⟩ := keeps_word.mismatches (word_mismatches endsWord_newline.1)
    have hopen : retry.openCommand s = .error (.mismatch fault) := by
      simp [openCommand, retry_assignmentPrefix_of_ok h, hword]
    exact Production.soften_mismatches_iff.mpr (Or.inl ⟨fault, hopen⟩)

theorem ReadsWhole.line {g : Regime} {s : List Char} {v : Line} (h : g.ReadsWhole s v) :
    ∃ r, g.line s = .ok (v, r) ∧ atEnd r = true := by
  cases h with
  | command h hr => exact ⟨_, by rw [Regime.line, h], hr⟩
  | @assignments as r h hr =>
    have hprefix := g.assignmentPrefix_iff.mp (g.assignments_eq_ok_iff.mp h).2
    rw [assignmentPrefix_to_end hprefix hr] at hprefix
    obtain ⟨fault, hcommand⟩ := g.command_mismatches hprefix
    exact ⟨skipBlanks r, by simp [Regime.line, hcommand, h], hr⟩
  | blank h =>
    have hskip := skipBlanks_eq_newline h
    have hprefix : Parser.assignmentPrefix (skipBlanks s) = .ok ([], ['\n']) := by
      rw [hskip, assignmentPrefix_newline]
    obtain ⟨fault, hcommand⟩ := g.command_mismatches hprefix
    have hassignments : g.assignments s = mismatch .variableAssignment s := by
      simp [Regime.assignments, g.assignmentPrefix_iff.mpr hprefix]
    exact ⟨skipBlanks s, by simp [Regime.line, hcommand, hassignments, mismatch, h], h⟩

theorem readsWhole_of_line {g : Regime} {s r : List Char} {v : Line}
    (h : g.line s = .ok (v, r)) (hr : atEnd r = true) : g.ReadsWhole s v := by
  unfold Regime.line at h
  split at h
  · next c t hcommand =>
    simp only [Except.ok.injEq, Prod.mk.injEq] at h
    obtain ⟨rfl, rfl⟩ := h
    exact .command hcommand hr
  · split at h
    · next as t hassignments =>
      simp only [Except.ok.injEq, Prod.mk.injEq] at h
      obtain ⟨rfl, rfl⟩ := h
      exact .assignments hassignments hr
    · simp only at h
      split at h
      · next hend =>
        simp only [Except.ok.injEq, Prod.mk.injEq] at h
        obtain ⟨rfl, rfl⟩ := h
        exact .blank hend
      · simp at h
    · simp at h
  · simp at h

theorem parse_eq_ok_iff_readsWhole (g : Regime) {text : String} {v : Line} :
    g.parse text = .ok v ↔ g.ReadsWhole (terminated text.toList) v := by
  constructor
  · intro h
    simp only [parse, whole] at h
    split at h
    · simp at h
    · simp at h
    · next v' r hline =>
      split at h
      · next hend =>
        obtain rfl := Except.ok.inj h
        exact readsWhole_of_line hline hend
      · simp at h
  · intro h
    obtain ⟨r, hline, hend⟩ := h.line
    simp [parse, whole, hline, hend]

theorem readsWhole_unique {g : Regime} {s : List Char} {v v' : Line} (h : g.ReadsWhole s v)
    (h' : g.ReadsWhole s v') : v = v' := by
  -- the line is read in one way, and each account of it is this reading
  obtain ⟨r, hline, -⟩ := h.line
  obtain ⟨r', hline', -⟩ := h'.line
  rw [hline] at hline'
  exact (Prod.mk.inj (Except.ok.inj hline')).1

/-- The parser accepts the same lines with the same values if its rejections are only mismatches,
and a line can be accounted for as a whole in one way at most. -/
theorem rejections_refuse_nothing :
    refuse.parse = LineShell.parse ∧
    (∀ (text : String) (v : Line), retry.parse text = .ok v ↔ LineShell.parse text = .ok v) ∧
    ∀ (g : Regime) (text : String),
      (∀ v, g.parse text = .ok v ↔ g.ReadsWhole (terminated text.toList) v) ∧
      ∀ v v', g.ReadsWhole (terminated text.toList) v → g.ReadsWhole (terminated text.toList) v' →
        v = v' := by
  refine ⟨refuse_parse, ?_, ?_⟩
  · intro text v
    rw [retry.parse_eq_ok_iff_readsWhole, retry.readsWhole_iff,
      ← refuse.parse_eq_ok_iff_readsWhole, refuse_parse]
  · intro g text
    exact ⟨fun v => g.parse_eq_ok_iff_readsWhole, fun v v' => readsWhole_unique⟩

end Regime

end LineShell
