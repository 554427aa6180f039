import LineShell.Proofs.Line.Regime

/-!
# What is accepted without a rejection

A line that is accepted raises no rejection on the way, so it does not matter what a rejection
would do.  This goes through all productions: what is read is read in the same way by the parser
that backtracks, and where a production does not match, it does not match there either.
-/

namespace LineShell

open LineShell.Parser
open Production (Keeps)

namespace Regime

theorem keeps_fragment : Keeps Parser.fragment retry.fragment := by
  apply Keeps.firstOf
  have hdouble : Keeps doubleQuoted (retry.guard doubleQuoted) := (Keeps.refl _).soften
  have hsingle : Keeps singleQuoted (retry.guard singleQuoted) := (Keeps.refl _).soften
  exact .cons (.refl _) (.cons (.refl _) (.cons hdouble (.cons hsingle .nil)))

theorem keeps_fragments :
    Keeps (Production.repeated Parser.fragment) (Production.repeated retry.fragment) :=
  keeps_fragment.repeated Parser.fragment_consumes retry.fragment_consumes

theorem keeps_word : Keeps Parser.word retry.word := by
  constructor
  · intro s r v h
    unfold Parser.word at h
    split at h
    · simp at h
    · simp [mismatch] at h
    · next w ws u hws => simpa [word, keeps_fragments.ok hws] using h
  · intro s h
    have hfragment := keeps_fragment.mismatches (fragment_mismatches_of_word h)
    have hnone := Production.repeated_of_mismatches hfragment
    exact ⟨⟨.argument, s⟩, by rw [word, hnone]; rfl⟩

theorem keeps_assignment : Keeps Parser.assignment retry.assignment := by
  constructor
  · intro s r a h
    unfold Parser.assignment at h
    split at h
    · simp at h
    · next name t hname =>
      split at h
      · simp at h
      · next value u hvalue =>
        simpa [assignment, hname, keeps_word.optional.ok hvalue] using h
    · simp [mismatch] at h
  · rintro s ⟨fault, h⟩
    unfold Parser.assignment at h
    split at h
    · next failure hname =>
      refine ⟨fault, ?_⟩
      rw [assignment, hname]
      exact h
    · next name t hname =>
      split at h
      · next failure hvalue =>
        rw [Except.error.inj h] at hvalue
        exact absurd ⟨fault, hvalue⟩ (Production.optional_not_mismatches _ _)
      · simp at h
    · next name t hne hname =>
      refine ⟨⟨.equalsSign, t⟩, ?_⟩
      unfold assignment
      split
      · next hread => simp [hname] at hread
      · next name' u hread =>
        rw [hname] at hread
        exact absurd (Prod.mk.inj (Except.ok.inj hread)).2 (hne u)
      · next name' u _ hread =>
        rw [hname] at hread
        rw [(Prod.mk.inj (Except.ok.inj hread)).2]
        rfl

theorem retry_assignmentPrefix_of_ok {s r : List Char} {as : List Assignment}
    (h : Parser.assignmentPrefix s = .ok (as, r)) : retry.assignmentPrefix s = .ok (as, r) := by
  fun_induction Parser.assignmentPrefix s generalizing as r with
  | case1 s fault hfault =>
    obtain ⟨fault', hretry⟩ := keeps_assignment.mismatches ⟨fault, hfault⟩
    rw [assignmentPrefix, hretry]
    exact h
  | case2 => simp at h
  | case3 => simp at h
  | case4 => simp at h
  | case5 s a t ha u hsep hlt as' r' hrest ih =>
    rw [assignmentPrefix, keeps_assignment.ok ha]
    simpa [hsep, hlt, ih hrest] using h
  | case6 s a t ha u hsep hlt =>
    rw [assignmentPrefix, keeps_assignment.ok ha]
    simpa [hsep, hlt] using h

theorem keeps_openOperand : Keeps Parser.rightOperand retry.openOperand := by
  have hword : Keeps (Production.optional (Production.map Operand.file Parser.word))
      (Production.optional (Production.map Operand.file retry.word)) := (keeps_word.map _).optional
  constructor
  · intro s r v h
    unfold Parser.rightOperand at h
    split at h
    · exact h
    · next hamp =>
      rw [openOperand]
      · exact hword.ok h
      · exact hamp
  · rintro s ⟨fault, h⟩
    unfold Parser.rightOperand at h
    split at h
    · exact ⟨fault, h⟩
    · exact absurd ⟨fault, h⟩ (Production.optional_not_mismatches _ _)

theorem keeps_rightOperand : Keeps Parser.rightOperand retry.rightOperand :=
  keeps_openOperand.soften

theorem keeps_redirect : Keeps Parser.redirect retry.redirect := by
  constructor
  · intro s r d h
    rw [← refuse_redirect] at h
    obtain ⟨left, t, kind, u, hleft, hkind, hfits, hright⟩ := redirect_ok h
    rcases hright with ⟨v, hright, rfl, rfl⟩ | ⟨right, hright, rfl⟩
    · simp [redirect, hleft, hkind, hfits, keeps_rightOperand.ok hright]
    · simp [redirect, hleft, hkind, hfits, keeps_rightOperand.ok hright]
  · rintro s ⟨fault, h⟩
    unfold Parser.redirect at h
    split at h
    · next failure hleft => exact ⟨fault, by simpa [redirect, hleft] using h⟩
    · next left t hleft =>
      split at h
      · next failure hkind => exact ⟨fault, by simpa [redirect, hleft, hkind] using h⟩
      · next kind u hkind =>
        split at h
        · next hfile => exact ⟨⟨.redirect, s⟩, by simp [redirect, hleft, hkind, hfile, mismatch]⟩
        · next hfits =>
          split at h
          · next failure hright =>
            rw [Except.error.inj h] at hright
            obtain ⟨fault', hretry⟩ := keeps_rightOperand.mismatches ⟨fault, hright⟩
            exact ⟨fault', by simp [redirect, hleft, hkind, hfits, hretry]⟩
          · simp at h
          · simp at h

theorem keeps_nextRedirect : Keeps Parser.nextRedirect retry.nextRedirect := by
  constructor
  · intro s r d h
    have hread := keeps_redirect.ok (nextRedirect_eq_ok_iff.mp h)
    have hend : atEnd (skipBlanks s) = false := by
      cases hend : atEnd (skipBlanks s) with
      | false => rfl
      | true => simp [Parser.nextRedirect, hend, mismatch] at h
    simp [nextRedirect, hend, hread]
  · intro s h
    have hend := nextRedirect_mismatches_iff.mp h
    exact ⟨⟨.redirect, ['\n']⟩, by simp [nextRedirect, hend, atEnd, mismatch]⟩

theorem keeps_nextArgument : Keeps Parser.nextArgument retry.nextArgument := by
  constructor
  · intro s r w h
    obtain ⟨hblank, hmismatch, hword⟩ := nextArgument_eq_ok_iff.mp h
    obtain ⟨fault, hredirect⟩ := keeps_redirect.mismatches hmismatch
    have hend : atEnd (skipBlanks s) = false := by
      cases hend : atEnd (skipBlanks s) with
      | false => rfl
      | true => simp [Parser.nextArgument, hend, mismatch] at h
    simp [nextArgument, hend, hredirect, hblank, keeps_word.ok hword]
  · rintro s ⟨fault, h⟩
    simp only [Parser.nextArgument] at h
    split at h
    · next hend => exact ⟨⟨.argument, skipBlanks s⟩, by simp [nextArgument, hend, mismatch]⟩
    · next hend =>
      split at h
      · next reading hread =>
        obtain ⟨d, r⟩ := reading
        exact ⟨⟨.argument, skipBlanks s⟩,
          by simp [nextArgument, hend, keeps_redirect.ok hread, mismatch]⟩
      · split at h
        · simp [rejection] at h
        · split at h
          · simp [rejection] at h
          · next hne => exact absurd h (hne fault)
      · next hne hread =>
        rw [Except.error.inj h] at hne
        exact absurd rfl (hne fault)

theorem retry_command_of_ok {s r : List Char} {c : Command} (h : Parser.command s = .ok (c, r)) :
    retry.command s = .ok (c, r) := by
  obtain ⟨as, args, ds⟩ := c
  obtain ⟨rfl, r₀, ⟨t, u, v, w, ws, has, hw, hws, hds, rfl⟩, hend⟩ := command_eq_ok_iff.mp h
  have hprefix := retry_assignmentPrefix_of_ok has
  have hword := keeps_word.ok hw
  have harguments : Production.repeated retry.nextArgument u = .ok (ws, v) :=
    (hws.mono keeps_nextArgument.ok).repeated_eq_ok retry.nextArgument_consumes
      (keeps_nextArgument.mismatches (nextArgument_mismatches hds fun _ => hend))
  have hredirects : Production.repeated retry.nextRedirect v = .ok (ds, r₀) :=
    (hds.mono keeps_nextRedirect.ok).repeated_eq_ok retry.nextRedirect_consumes
      (keeps_nextRedirect.mismatches (nextRedirect_mismatches_iff.mpr hend))
  refine retry.guard_eq_ok_iff.mpr ?_
  simp [openCommand, hprefix, hword, argumentsAndRedirects, harguments, redirects, hredirects, hend]

end Regime

end LineShell
