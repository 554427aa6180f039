import LineShell.Proofs.Line.Reading
import LineShell.Proofs.Word.Bounds

/-!
# Lines stay in the text

No part of a line is read beyond the line feed at its end, and each loop over the parts of a line
ends because the parts are not empty.
-/

namespace LineShell

open Production (Advances Bounded Loop StaysInText)

namespace Parser

theorem leaves_skipBlanks (s : List Char) : Leaves s (skipBlanks s) :=
  leaves_dropWhile (by decide) s

/-! ## Assignments -/

theorem assignment_bounded : Bounded assignment := by
  intro s
  unfold assignment
  split
  · next failure h => exact variableName_bounded.foundIn h
  · next name t h =>
    have hbehind : Leaves s t :=
      (variableName_bounded.leaves h).trans (leaves_cons (by decide) t)
    split
    · next failure h => exact (word_bounded.optional.foundIn h).trans hbehind.suffix
    · next value r h => exact hbehind.trans (word_bounded.optional.leaves h)
  · next name t _ h => exact within_mismatch _ (variableName_bounded.leaves h).suffix

theorem separator_leaves {s r : List Char} (h : separator s = .ok r) : Leaves s r := by
  rw [separator_ok h]
  exact leaves_skipBlanks s

theorem separator_foundIn {s : List Char} {failure : Failure} (h : separator s = .error failure) :
    failure.FoundIn s := by
  unfold separator at h
  split at h
  · simp at h
  · rw [← Except.error.inj h]
    simp

theorem assignmentPrefix_bounded : Bounded assignmentPrefix := by
  intro s
  fun_induction assignmentPrefix s with
  | case1 s => exact Leaves.refl s
  | case2 s failure _ h => exact assignment_bounded.foundIn h
  | case3 s a t ha failure h =>
    exact (separator_foundIn h).trans (assignment_bounded.leaves ha).suffix
  | case4 s a t ha u hu _ failure hfailure ih =>
    rw [hfailure] at ih
    exact Failure.FoundIn.trans ih
      ((assignment_bounded.leaves ha).trans (separator_leaves hu)).suffix
  | case5 s a t ha u hu _ as r has ih =>
    rw [has] at ih
    exact ((assignment_bounded.leaves ha).trans (separator_leaves hu)).trans ih
  | case6 s a t ha u hu _ => exact (assignment_bounded.leaves ha).trans (separator_leaves hu)

theorem assignments_bounded : Bounded assignments := by
  intro s
  unfold assignments
  have hbegin := leaves_skipBlanks s
  split
  · next failure h => exact (assignmentPrefix_bounded.foundIn h).trans hbegin.suffix
  · exact within_mismatch _ List.suffix_rfl
  · next a as r h => exact hbegin.trans (assignmentPrefix_bounded.leaves h)

/-- One turn of the loop over the assignments in front of a command. -/
def assignmentTurn (again : Production (List Assignment)) : Production (List Assignment) := fun s =>
  match assignment s with
  | .error (.mismatch _) => .ok ([], s)
  | .error failure => .error failure
  | .ok (a, t) =>
      match separator t with
      | .error failure => .error failure
      | .ok u => Production.map (a :: ·) again u

theorem assignmentPrefix_unrolls (s : List Char) :
    assignmentPrefix s = assignmentTurn assignmentPrefix s := by
  rw [assignmentPrefix]
  cases ha : assignment s with
  | error failure => cases failure <;> simp only [assignmentTurn, ha]
  | ok reading =>
    cases hu : separator reading.2 with
    | error failure => simp only [assignmentTurn, ha, hu]
    | ok u =>
      simp only [assignmentTurn, ha, hu, if_pos (length_separator_lt ha hu)]
      cases hrest : assignmentPrefix u <;> simp only [Production.map, hrest]

theorem assignmentPrefix_loop : Loop assignmentTurn assignmentPrefix := by
  refine Production.loop_of_shortens assignmentPrefix_unrolls (fun {q q' s} h => ?_)
  unfold assignmentTurn
  split
  · rfl
  · rfl
  · next a t ha =>
    split
    · rfl
    · next u hu => exact Production.map_congr (h u (length_separator_lt ha hu)) _

theorem length_assignmentPrefix_lt {s r : List Char} {a : Assignment} {as : List Assignment}
    (h : assignmentPrefix s = .ok (a :: as, r)) : r.length < s.length := by
  rw [assignmentPrefix] at h
  split at h
  · simp at h
  · simp at h
  · next a' t ha =>
    split at h
    · simp at h
    · next u hu =>
      have hlt := length_separator_lt ha hu
      rw [if_pos hlt] at h
      split at h
      · simp at h
      · next as' r' has =>
        obtain ⟨-, rfl⟩ := Prod.mk.inj (Except.ok.inj h)
        exact Nat.lt_of_le_of_lt (assignmentPrefix_bounded.leaves has).suffix.length_le hlt

theorem assignments_consumes : Production.Consumes assignments := by
  apply assignments_bounded.consumes
  intro s r as h
  unfold assignments at h
  split at h
  · simp at h
  · simp [mismatch] at h
  · next a as' r' has =>
    obtain ⟨-, rfl⟩ := Prod.mk.inj (Except.ok.inj h)
    exact Nat.lt_of_lt_of_le (length_assignmentPrefix_lt has) (length_skipBlanks_le s)

/-! ## Redirects -/

theorem redirectKind_bounded : Bounded redirectKind := by
  intro s
  unfold redirectKind
  split
  · next r => exact (leaves_cons (by decide) _).trans (leaves_cons (by decide) r)
  · next r _ => exact leaves_cons (by decide) r
  · next r => exact leaves_cons (by decide) r
  · exact within_mismatch _ List.suffix_rfl

theorem descriptorNumber_foundIn {digits s : List Char} {failure : Failure}
    (h : descriptorNumber digits = .error failure) : failure.FoundIn s := by
  unfold descriptorNumber at h
  split at h
  · rw [← Except.error.inj h]
    simp
  · simp at h

theorem leftOperand_bounded : Bounded leftOperand := by
  intro s
  simp only [leftOperand]
  split
  · split
    · next failure h => exact descriptorNumber_foundIn h
    · exact leaves_dropWhile (by decide) s
  · exact (path_bounded.map _).optional s

theorem rightOperand_bounded : Bounded rightOperand := by
  intro s
  unfold rightOperand
  split
  · next t =>
    simp only
    split
    · exact within_rejection _ (List.suffix_cons '&' t)
    · split
      · next failure h => exact descriptorNumber_foundIn h
      · exact (leaves_cons (by decide) t).trans (leaves_dropWhile (by decide) t)
  · exact (word_bounded.map _).optional _

theorem redirect_bounded : Bounded redirect := by
  intro s
  unfold redirect
  split
  · next failure h => exact leftOperand_bounded.foundIn h
  · next left t hleft =>
    have hoperand := leftOperand_bounded.leaves hleft
    split
    · next failure h => exact (redirectKind_bounded.foundIn h).trans hoperand.suffix
    · next kind u hkind =>
      have hoperator := hoperand.trans (redirectKind_bounded.leaves hkind)
      have hbehind := hoperator.trans (leaves_skipBlanks u)
      split
      · exact within_mismatch _ List.suffix_rfl
      · split
        · next failure h => exact (rightOperand_bounded.foundIn h).trans hbehind.suffix
        · exact hoperator
        · next right r h => exact hbehind.trans (rightOperand_bounded.leaves h)

theorem nextRedirect_bounded : Bounded nextRedirect := by
  intro s
  have hbegin := leaves_skipBlanks s
  simp only [nextRedirect]
  split
  · exact within_mismatch _ hbegin.suffix
  · split
    · exact within_rejection _ hbegin.suffix
    · exact (redirect_bounded _).trans hbegin

theorem redirects_bounded : Bounded redirects := by
  intro s
  unfold redirects
  split
  · next failure h => exact nextRedirect_bounded.repeated.foundIn h
  · next ds r h => exact (nextRedirect_bounded.repeated.leaves h).trans (leaves_skipBlanks r)

/-! ## Commands and lines -/

theorem nextArgument_bounded : Bounded nextArgument := by
  intro s
  have hbegin := leaves_skipBlanks s
  simp only [nextArgument]
  split
  · exact within_mismatch _ hbegin.suffix
  · split
    · exact within_mismatch _ hbegin.suffix
    · split
      · exact within_rejection _ hbegin.suffix
      · split
        · exact within_rejection _ hbegin.suffix
        · exact (word_bounded _).trans hbegin
    · next failure h => exact (redirect_bounded.foundIn h).trans hbegin.suffix

theorem argumentsAndRedirects_bounded : Bounded argumentsAndRedirects := by
  intro s
  unfold argumentsAndRedirects
  split
  · next failure h => exact nextArgument_bounded.repeated.foundIn h
  · next ws t hws =>
    have hbehind := nextArgument_bounded.repeated.leaves hws
    split
    · next failure h => exact (redirects_bounded.foundIn h).trans hbehind.suffix
    · next ds r h => exact hbehind.trans (redirects_bounded.leaves h)

theorem command_bounded : Bounded command := by
  intro s
  have hbegin := leaves_skipBlanks s
  unfold command
  split
  · next failure h => exact (assignmentPrefix_bounded.foundIn h).trans hbegin.suffix
  · next as t has =>
    have hname := hbegin.trans (assignmentPrefix_bounded.leaves has)
    split
    · next failure h => exact (word_bounded.foundIn h).trans hname.suffix
    · next w u hw =>
      have hbehind := hname.trans (word_bounded.leaves hw)
      split
      · next failure h => exact (argumentsAndRedirects_bounded.foundIn h).trans hbehind.suffix
      · next ws ds r h => exact hbehind.trans (argumentsAndRedirects_bounded.leaves h)

theorem command_consumes : Production.Consumes command := by
  apply command_bounded.consumes
  intro s r c h
  unfold command at h
  split at h
  · simp at h
  · next as t has =>
    split at h
    · simp at h
    · next w u hw =>
      split at h
      · simp at h
      · next ws ds r' hrest =>
        obtain ⟨-, rfl⟩ := Prod.mk.inj (Except.ok.inj h)
        calc r'.length
            ≤ u.length := (argumentsAndRedirects_bounded.leaves hrest).suffix.length_le
          _ < t.length := word_consumes.length_lt hw
          _ ≤ (skipBlanks s).length := (assignmentPrefix_bounded.leaves has).suffix.length_le
          _ ≤ s.length := length_skipBlanks_le s

theorem line_bounded : Bounded line := by
  intro s
  have hbegin := leaves_skipBlanks s
  unfold line
  split
  · next c r h => exact command_bounded.leaves h
  · split
    · next as r h => exact (assignments_bounded.leaves h).trans (leaves_skipBlanks r)
    · next fault h =>
      simp only
      split
      · exact hbegin
      · exact assignments_bounded.foundIn h
    · next failure _ h => exact assignments_bounded.foundIn h
  · next failure _ h => exact command_bounded.foundIn h

end Parser

open LineShell.Parser

/-- Every production ends in the text, in front of the line feed that ends the text, and fails at
an offset in the text that is not before its beginning.  Those that read a part of a line have read
something if they succeed.  The loops end, because each turn leaves less of the text. -/
theorem productions_stay_in_text :
    (Advances variableName ∧ Advances variableReference ∧ Advances path ∧ Advances glob ∧
      Advances doubleQuoted ∧ Advances singleQuoted ∧ Advances word ∧ Advances assignment ∧
      Advances assignments ∧ Advances redirectKind ∧ Advances redirect ∧ Advances command) ∧
    (StaysInText assignmentPrefix ∧ StaysInText leftOperand ∧ StaysInText rightOperand ∧
      StaysInText line) ∧
    Loop quotedTurn quotedItems ∧
    Loop (Production.repeatedTurn fragment) (Production.repeated fragment) ∧
    Loop assignmentTurn assignmentPrefix ∧
    Loop (Production.repeatedTurn nextArgument) (Production.repeated nextArgument) ∧
    Loop (Production.repeatedTurn nextRedirect) (Production.repeated nextRedirect) := by
  refine ⟨⟨variableName_bounded.advances variableName_consumes,
    variableReference_bounded.advances variableReference_consumes,
    path_bounded.advances path_consumes, glob_bounded.advances glob_consumes,
    doubleQuoted_bounded.advances doubleQuoted_consumes,
    singleQuoted_bounded.advances singleQuoted_consumes,
    word_bounded.advances word_consumes, assignment_bounded.advances assignment_consumes,
    assignments_bounded.advances assignments_consumes,
    redirectKind_bounded.advances redirectKind_consumes,
    redirect_bounded.advances redirect_consumes,
    command_bounded.advances command_consumes⟩, ?_, quotedItems_loop,
    Production.repeated_loop fragment_consumes, assignmentPrefix_loop,
    Production.repeated_loop nextArgument_consumes,
    Production.repeated_loop nextRedirect_consumes⟩
  exact ⟨assignmentPrefix_bounded.staysInText, leftOperand_bounded.staysInText,
    rightOperand_bounded.staysInText, line_bounded.staysInText⟩

/-- A line feed in quotes is read, and the one behind the quotes is not. -/
example : singleQuoted.readAt "'\n'\n".toList 0 = .ok ([.fixed "\n"], 3) := by cbv

end LineShell
