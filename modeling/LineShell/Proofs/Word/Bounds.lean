import LineShell.Proofs.Parser.Bounds
import LineShell.Proofs.Word.Rejection

/-!
# Words stay in the text

What is read of a word does not end with a line feed, and the faults of a word are in its input.
The loop over a text in double quotes goes on behind each item, and the loop over a word behind each
fragment.
-/

namespace LineShell

open Production (Bounded Loop)

theorem Solid.leaves {w : List Char} (h : Solid w) (r : List Char) : Leaves (w ++ r) r :=
  ⟨w, rfl, h.getLast?_ne⟩

namespace Parser

theorem variableName_bounded : Bounded variableName := by
  refine Production.bounded_of (fun h => ?_) (fun h => ?_)
  · obtain ⟨hname, rfl, -⟩ := variableName_eq_ok_iff.mp h
    exact ⟨_, rfl, mt List.mem_of_getLast? (newline_not_mem_name hname)⟩
  · rw [variableName_error h]
    simp

theorem variableReference_bounded : Bounded variableReference := by
  intro s
  unfold variableReference
  split
  · next t =>
    have hopen : Leaves ('$' :: '\x7b' :: t) t :=
      (leaves_cons (by decide) _).trans (leaves_cons (by decide) t)
    split
    · next name r hname =>
      exact (hopen.trans (variableName_bounded.leaves hname)).trans (leaves_cons (by decide) r)
    · next name r _ hname =>
      exact within_rejection _ (hopen.trans (variableName_bounded.leaves hname)).suffix
    · exact within_rejection _ hopen.suffix
  · next t _ => exact within_rejection _ (List.suffix_cons '$' t)
  · exact within_mismatch _ List.suffix_rfl

theorem path_bounded : Bounded path := by
  intro s
  simp only [path]
  split
  · exact within_mismatch _ List.suffix_rfl
  · exact leaves_dropWhile (by decide) s

theorem glob_bounded : Bounded glob := by
  refine Production.bounded_of (fun h => ?_) (fun h => ?_)
  · obtain ⟨p, hp, -, rfl, -⟩ := glob_eq_ok_iff.mp h
    exact hp.solid.leaves _
  · rw [glob_error h]
    simp

/-! ## Quoted texts -/

theorem quotedItems_foundIn {s : List Char} {failure : Failure}
    (h : quotedItems s = .error failure) : failure.FoundIn s := by
  fun_induction quotedItems s with
  | case1 =>
    rw [← Except.error.inj h]
    simp
  | case2 => simp at h
  | case3 t failure' _ hname =>
    rw [← Except.error.inj h]
    exact variableReference_bounded.foundIn hname
  | case4 t name r _ failure' hitems _ hname ih =>
    exact (ih (hitems.trans h)).trans (variableReference_bounded.leaves hname).suffix
  | case5 => simp at h
  | case6 => simp at h
  | case7 =>
    rw [← Except.error.inj h]
    simp
  | case8 =>
    rw [← Except.error.inj h]
    simp
  | case9 e r d _ failure' hitems _ _ ih =>
    exact (ih (hitems.trans h)).trans (List.suffix_append ['\\', e] r)
  | case10 => simp at h
  | case11 =>
    rw [← Except.error.inj h]
    simp
  | case12 c t _ _ _ _ failure' hitems ih =>
    exact (ih (hitems.trans h)).trans (List.suffix_cons c t)
  | case13 => simp at h

theorem literalText_foundIn {s : List Char} {failure : Failure}
    (h : literalText s = .error failure) : failure.FoundIn s := by
  fun_induction literalText s with
  | case1 =>
    rw [← Except.error.inj h]
    simp
  | case2 => simp at h
  | case3 t failure' htext ih =>
    exact (ih (htext.trans h)).trans (List.suffix_append ['\\', '\\'] t)
  | case4 => simp at h
  | case5 t failure' htext ih =>
    exact (ih (htext.trans h)).trans (List.suffix_append ['\\', '\''] t)
  | case6 => simp at h
  | case7 =>
    rw [← Except.error.inj h]
    simp
  | case8 c t _ _ _ _ failure' htext ih =>
    exact (ih (htext.trans h)).trans (List.suffix_cons c t)
  | case9 => simp at h

theorem doubleQuoted_bounded : Bounded doubleQuoted := by
  refine Production.bounded_of (fun h => ?_) (fun h => ?_)
  · obtain ⟨w, items, -, -, rfl⟩ := doubleQuoted_eq_ok_iff.mp h
    exact ⟨'"' :: w ++ ['"'], by simp, (solid_concat (by decide)).getLast?_ne⟩
  · unfold doubleQuoted at h
    split at h
    · next t =>
      split at h
      · next failure hitems =>
        rw [← Except.error.inj h]
        exact (quotedItems_foundIn hitems).trans (List.suffix_cons '"' t)
      · simp at h
    · rw [← Except.error.inj h]
      simp

theorem singleQuoted_bounded : Bounded singleQuoted := by
  refine Production.bounded_of (fun h => ?_) (fun h => ?_)
  · obtain ⟨w, cs, -, -, rfl⟩ := singleQuoted_eq_ok_iff.mp h
    exact ⟨'\'' :: w ++ ['\''], by simp, (solid_concat (by decide)).getLast?_ne⟩
  · unfold singleQuoted at h
    split at h
    · next t =>
      split at h
      · next failure htext =>
        rw [← Except.error.inj h]
        exact (literalText_foundIn htext).trans (List.suffix_cons '\'' t)
      · simp at h
    · rw [← Except.error.inj h]
      simp

/-! ## Words -/

theorem fragment_bounded : Bounded fragment := by
  apply Production.firstOf_bounded
  intro p hp
  simp only [fragments, List.mem_cons, List.not_mem_nil, or_false] at hp
  rcases hp with rfl | rfl | rfl | rfl
  · exact path_bounded
  · exact glob_bounded
  · exact doubleQuoted_bounded
  · exact singleQuoted_bounded

theorem word_bounded : Bounded word := by
  intro s
  unfold word
  split
  · next failure h => exact fragment_bounded.repeated.foundIn h
  · exact within_mismatch _ List.suffix_rfl
  · next w ws r h => exact fragment_bounded.repeated.leaves h

/-! ## The loop over a text in double quotes -/

/-- One turn: the text ends, or an item is read. -/
def quotedTurn (again : Production (List QuotedItem)) : Production (List QuotedItem)
  | [] => rejection .closingDoubleQuote []
  | c :: t =>
      if c = '"' then .ok ([], t)
      else if c = '$' then
        match variableReference (c :: t) with
        | .error failure => .error failure
        | .ok (name, r) => Production.map (.reference name :: ·) again r
      else if c = '\\' then
        match t with
        | [] => rejection .escapeSequence (c :: t)
        | e :: r =>
            match unescape? e with
            | none => rejection .escapeSequence (c :: t)
            | some d => Production.map (.char d :: ·) again r
      else if c = '\n' ∧ t = [] then rejection .closingDoubleQuote (c :: t)
      else Production.map (.char c :: ·) again t

theorem quotedItems_unrolls (s : List Char) : quotedItems s = quotedTurn quotedItems s := by
  fun_cases quotedItems s with
  | case1 => rfl
  | case2 t => rfl
  | case3 t failure _ hname => simp [quotedTurn, hname]
  | case4 t name r _ failure hitems _ hname => simp [quotedTurn, hname, Production.map, hitems]
  | case5 t name r _ items u hitems _ hname => simp [quotedTurn, hname, Production.map, hitems]
  | case6 t name r hlt _ hname => exact absurd (variableReference_consumes.length_lt hname) hlt
  | case7 => rfl
  | case8 e r hescape => simp [quotedTurn, hescape]
  | case9 e r d hescape failure hitems => simp [quotedTurn, hescape, Production.map, hitems]
  | case10 e r d hescape items u hitems => simp [quotedTurn, hescape, Production.map, hitems]
  | case11 c t hquote hdollar hbackslash hend =>
    obtain ⟨rfl, rfl⟩ := hend
    rfl
  | case12 c t hquote hdollar hbackslash hend failure hitems =>
    simp only [quotedTurn, hquote, hdollar, hbackslash, hend, if_false, Production.map, hitems]
  | case13 c t hquote hdollar hbackslash hend items u hitems =>
    simp only [quotedTurn, hquote, hdollar, hbackslash, hend, if_false, Production.map, hitems]

theorem quotedItems_loop : Loop quotedTurn quotedItems := by
  refine Production.loop_of_shortens quotedItems_unrolls (fun {q q' s} h => ?_)
  cases s with
  | nil => rfl
  | cons c t =>
    simp only [quotedTurn]
    split
    · rfl
    · split
      · split
        · rfl
        · next name r hname =>
          exact Production.map_congr (h r (variableReference_consumes.length_lt hname)) _
      · split
        · split
          · rfl
          · split
            · rfl
            · exact Production.map_congr (h _ (by simp only [List.length_cons]; omega)) _
        · split
          · rfl
          · exact Production.map_congr (h t (Nat.lt_succ_self _)) _

end Parser

end LineShell
