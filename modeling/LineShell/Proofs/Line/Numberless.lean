import LineShell.Proofs.Line.Reading
import LineShell.Proofs.Word.Rejection

/-!
# Readings without numbers

Descriptors are the only numbers on a line.  No other production fails on one, so a failure on a
number can be traced to the descriptor that it comes from.
-/

namespace LineShell

open LineShell.Parser

/-- The production does not read numbers, so it can not fail on one. -/
def Production.Numberless {α : Type} (p : Production α) : Prop :=
  ∀ s error, p s ≠ .error (.numeral error)

theorem Production.Numberless.ne {α : Type} {p : Production α} (hp : p.Numberless)
    {s : List Char} {failure : Failure} (h : p s = .error failure) (error : NumeralError) :
    failure ≠ .numeral error := by
  rintro rfl
  exact hp s error h

theorem path_numberless : Production.Numberless path := by
  intro s error h
  simp only [path] at h
  split at h
  · simp [mismatch] at h
  · simp at h

theorem glob_numberless : Production.Numberless glob := by
  intro s error h
  unfold glob at h
  split at h
  · simp at h
  · simp at h
  · simp at h
  · split at h
    · simp at h
    · simp [mismatch] at h
  · simp [mismatch] at h

theorem doubleQuoted_numberless : Production.Numberless doubleQuoted := by
  intro s error h
  by_cases hquote : s.head? = some '"'
  · obtain ⟨t, rfl⟩ := List.head?_eq_some_iff.mp hquote
    obtain ⟨fault, hfault⟩ := doubleQuoted_rejects h
    cases hfault
  · rw [doubleQuoted_of_head?_ne hquote] at h
    cases h

theorem singleQuoted_numberless : Production.Numberless singleQuoted := by
  intro s error h
  by_cases hquote : s.head? = some '\''
  · obtain ⟨t, rfl⟩ := List.head?_eq_some_iff.mp hquote
    obtain ⟨fault, hfault⟩ := singleQuoted_rejects h
    cases hfault
  · rw [singleQuoted_of_head?_ne hquote] at h
    cases h

theorem firstOf_numberless {α : Type} {expected : Expected} {ps : List (Production α)}
    (hps : ∀ p ∈ ps, Production.Numberless p) :
    Production.Numberless (Production.firstOf expected ps) := by
  induction ps with
  | nil => simp [Production.Numberless, Production.firstOf, mismatch]
  | cons p ps ih =>
    intro s error h
    simp only [Production.firstOf] at h
    split at h
    · exact ih (fun q hq => hps q (List.mem_cons_of_mem p hq)) s error h
    · exact hps p List.mem_cons_self s error h

theorem fragment_numberless : Production.Numberless fragment := by
  apply firstOf_numberless
  intro p hp
  simp only [fragments, List.mem_cons, List.not_mem_nil, or_false] at hp
  rcases hp with rfl | rfl | rfl | rfl
  · exact path_numberless
  · exact glob_numberless
  · exact doubleQuoted_numberless
  · exact singleQuoted_numberless

theorem word_numberless : Production.Numberless word := by
  intro s error h
  unfold word at h
  split at h
  · next failure hrepeated =>
    rcases (Production.repeated_eq_error_iff fragment_consumes).mp hrepeated with
      ⟨vs, r, -, hr, -⟩
    exact fragment_numberless.ne hr error (Except.error.inj h)
  · simp [mismatch] at h
  · simp at h

theorem optional_numberless {α : Type} {p : Production α} (hp : Production.Numberless p) :
    Production.Numberless (Production.optional p) := by
  intro s error h
  unfold Production.optional at h
  split at h
  · simp at h
  · next hread =>
    exact hp.ne hread error (Except.error.inj h)
  · simp at h

theorem map_numberless {α β : Type} (f : α → β) {p : Production α}
    (hp : Production.Numberless p) : Production.Numberless (Production.map f p) := by
  intro s error h
  unfold Production.map at h
  split at h
  · next hread =>
    exact hp.ne hread error (Except.error.inj h)
  · simp at h

theorem assignment_numberless : Production.Numberless assignment := by
  intro s error h
  unfold assignment at h
  split at h
  · next hname =>
    rw [variableName_error hname] at h
    simp at h
  · split at h
    · next hvalue =>
      exact (optional_numberless word_numberless).ne hvalue error (Except.error.inj h)
    · simp at h
  · simp [mismatch] at h

theorem assignmentPrefix_numberless : Production.Numberless assignmentPrefix := by
  intro s error h
  fun_induction assignmentPrefix s with
  | case1 => simp at h
  | case2 s failure _ hread =>
    exact assignment_numberless.ne hread error (Except.error.inj h)
  | case3 s a t _ failure hseparator =>
    unfold separator at hseparator
    split at hseparator
    · simp at hseparator
    · have hfailure : Failure.mismatch ⟨.whitespace, t⟩ = failure := Except.error.inj hseparator
      rw [← hfailure] at h
      simp at h
  | case4 =>
    rename_i hassign ih
    exact ih (hassign.trans h)
  | case5 => simp at h
  | case6 => simp at h

end LineShell
