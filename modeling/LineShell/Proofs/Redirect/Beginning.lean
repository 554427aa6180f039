import LineShell.Proofs.Parser.Softening
import LineShell.Proofs.Redirect.Extent

/-!
# Where redirects begin

A text begins a redirect if there is an operator in it behind what can be an operand before the
operator.  From there on it may fail in many ways, but not by being no redirect.  So the decision
is made at the operator, and the text behind it can be exchanged.
-/

namespace LineShell

open Production (Mismatches)

namespace Parser

/-- The text has an operator behind what can be an operand before it. -/
def BeginsRedirect (s : List Char) : Prop :=
  ∃ w o u, s = w ++ o :: u ∧
    ((∀ c ∈ w, isDigitChar c = true) ∧ (o = '<' ∨ o = '>') ∨
      (∀ c ∈ w, isPathChar c = true) ∧ o = '<')

theorem rightOperand_not_mismatches (s : List Char) : ¬ Mismatches rightOperand s := by
  rintro ⟨fault, h⟩
  unfold rightOperand at h
  split at h
  · next t =>
    simp only at h
    split at h
    · simp [rejection] at h
    · unfold descriptorNumber at h
      cases hread : Numeral.read (String.ofList (t.takeWhile isDigitChar)) <;> simp [hread] at h
  · exact Production.optional_not_mismatches _ _ ⟨fault, h⟩

theorem exists_redirectKind {t : List Char} (h : startsOperator t = true) :
    ∃ kind u, redirectKind t = .ok (kind, u) ∧ (t.head? = some '<' → kind = .input) := by
  obtain ⟨c, u, rfl, rfl | rfl⟩ := exists_operator h
  · exact ⟨.input, u, rfl, fun _ => rfl⟩
  · cases u with
    | nil => exact ⟨.truncate, [], rfl, by simp⟩
    | cons d u =>
      by_cases hd : d = '>'
      · subst hd
        exact ⟨.append, u, rfl, by simp⟩
      · exact ⟨.truncate, d :: u, redirectKind_eq_ok_iff.mpr ⟨rfl, by simpa using hd⟩, by simp⟩

theorem redirect_of_left_not_mismatches {w t : List Char} {left : Option Operand}
    (hw : LeftText w left) (ht : startsOperator t = true)
    (hfits : left.any Operand.isFile = true → t.head? = some '<') :
    ¬ Mismatches redirect (w ++ t) := by
  rintro ⟨fault, h⟩
  obtain ⟨kind, u, hkind, hinput⟩ := exists_redirectKind ht
  obtain ⟨rfl, hu⟩ := redirectKind_eq_ok_iff.mp hkind
  rw [redirect_of_left hw (fun hany => hinput (hfits hany)) hu] at h
  split at h
  · next failure hright =>
    rw [Except.error.inj h] at hright
    exact rightOperand_not_mismatches _ ⟨fault, hright⟩
  · simp at h
  · simp at h

theorem redirect_of_digits_not_mismatches {w t : List Char} (hw : ∀ c ∈ w, isDigitChar c = true)
    (ht : startsOperator t = true) : ¬ Mismatches redirect (w ++ t) := by
  by_cases hnil : w = []
  · subst hnil
    exact redirect_of_left_not_mismatches .none ht (by simp)
  · have hrun : IsDigitRun w := ⟨hnil, hw⟩
    cases hnumber : descriptorNumber w with
    | ok n =>
      exact redirect_of_left_not_mismatches (.descriptor hrun hnumber) ht
        (by simp [Operand.isFile])
    | error failure =>
      have hleft := leftOperand_of_digitRun hrun ht
      rw [hnumber] at hleft
      rintro ⟨fault, h⟩
      have hfailure : failure = .mismatch fault := by simpa [redirect, hleft] using h
      unfold descriptorNumber at hnumber
      cases hread : Numeral.read (String.ofList w) <;> simp [hread, hfailure] at hnumber

theorem exists_path_operand {s : List Char}
    (h : s.takeWhile isDigitChar = [] ∨ startsOperator (s.dropWhile isDigitChar) = false) :
    ∃ w left t, leftOperand s = .ok (left, t) ∧ s = w ++ t ∧ (∀ c ∈ w, isPathChar c = true) ∧
      (w = [] ∨ left.any Operand.isFile = true) := by
  rw [leftOperand_of_not_descriptor h]
  by_cases hnil : s.takeWhile isPathChar = []
  · have hstop : Stops isPathChar s := by
      rw [← List.takeWhile_append_dropWhile (p := isPathChar) (l := s), hnil]
      exact stops_dropWhile isPathChar s
    exact ⟨[], none, s, optional_path_eq_ok_iff.mpr (Or.inl ⟨rfl, rfl, hstop⟩), rfl, by simp,
      Or.inl rfl⟩
  · have hchars : ∀ c ∈ s.takeWhile isPathChar, isPathChar c = true :=
      fun _ => List.mem_takeWhile_imp
    have hsplit : s = s.takeWhile isPathChar ++ s.dropWhile isPathChar :=
      List.takeWhile_append_dropWhile.symm
    refine ⟨_, _, _, optional_path_eq_ok_iff.mpr (Or.inr ⟨_, hnil, hchars, rfl, hsplit,
      stops_dropWhile isPathChar s⟩), hsplit, hchars, Or.inr rfl⟩

theorem redirect_mismatches_iff {s : List Char} : Mismatches redirect s ↔ ¬ BeginsRedirect s := by
  constructor
  · rintro h ⟨w, o, u, rfl, ⟨hw, ho⟩ | ⟨hw, rfl⟩⟩
    · exact redirect_of_digits_not_mismatches hw (by rcases ho with rfl | rfl <;> rfl) h
    · rcases forall_or_exists isDigitChar w with hdigits | hmixed
      · exact redirect_of_digits_not_mismatches hdigits rfl h
      · have hne : w ≠ [] := by
          rintro rfl
          simp at hmixed
        exact redirect_of_left_not_mismatches (.file hne hw hmixed) rfl (fun _ => rfl) h
  · intro h
    rcases digitRun_or_not_descriptor s with ⟨run, t, rfl, hrun, -, ht⟩ | hnot
    · obtain ⟨o, u, rfl, ho⟩ := exists_operator ht
      exact absurd ⟨run, o, u, rfl, Or.inl ⟨hrun.2, ho⟩⟩ h
    · obtain ⟨w, left, t, hread, rfl, hw, hfile⟩ := exists_path_operand hnot
      cases hop : startsOperator t with
      | false =>
        obtain ⟨fault, hkind⟩ := redirectKind_mismatches hop
        exact ⟨fault, by simp [redirect, hread, hkind]⟩
      | true =>
        obtain ⟨o, u, rfl, ho⟩ := exists_operator hop
        rcases hfile with rfl | hfile
        · exact absurd ⟨[], o, u, rfl, Or.inl ⟨by simp, ho⟩⟩ h
        · rcases ho with rfl | rfl
          · exact absurd ⟨w, '<', u, rfl, Or.inr ⟨hw, rfl⟩⟩ h
          · obtain ⟨kind, v, hkind, -⟩ := exists_redirectKind hop
            have hkind' : (kind != .input) = true := by
              obtain ⟨hsplit, -⟩ := redirectKind_eq_ok_iff.mp hkind
              cases kind with
              | input => simp [RedirectKind.symbol] at hsplit
              | truncate => rfl
              | append => rfl
            exact ⟨⟨.redirect, w ++ '>' :: u⟩,
              by simp [redirect, hread, hkind, hfile, hkind', mismatch]⟩

/-- Whether a redirect begins is decided before the first character that no operand can have. -/
theorem BeginsRedirect.exchange {b x y : List Char} {c : Char} (hdigit : isDigitChar c = false)
    (hpath : isPathChar c = false) (h : BeginsRedirect (b ++ c :: x)) :
    BeginsRedirect (b ++ c :: y) := by
  obtain ⟨w, o, u, heq, hw⟩ := h
  have hc : c ∉ w := by
    intro hmem
    rcases hw with ⟨hdigits, -⟩ | ⟨hchars, -⟩
    · rw [hdigits c hmem] at hdigit
      exact absurd hdigit (by decide)
    · rw [hchars c hmem] at hpath
      exact absurd hpath (by decide)
  rcases List.append_eq_append_iff.mp heq with ⟨z, rfl, hz⟩ | ⟨z, rfl, hz⟩
  · cases z with
    | nil =>
      obtain ⟨rfl, -⟩ := List.cons.inj hz
      exact ⟨b, c, y, rfl, by simpa using hw⟩
    | cons d z =>
      obtain ⟨rfl, -⟩ := List.cons.inj hz
      exact absurd (by simp) hc
  · cases z with
    | nil =>
      obtain ⟨rfl, -⟩ := List.cons.inj hz
      exact ⟨w, o, y, by simp, hw⟩
    | cons d z =>
      obtain ⟨rfl, rfl⟩ := List.cons.inj hz
      exact ⟨w, o, z ++ c :: y, by simp, hw⟩

end Parser

end LineShell
