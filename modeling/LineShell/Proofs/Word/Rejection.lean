import LineShell.Proofs.Parser.Softening
import LineShell.Proofs.Word.Extent

/-!
# Words that are not finished

Only quoted texts are rejected within a word: bare texts and wildcards either stand at a place or
do not.  The input that is rejected is cut off by the fault.  What stands before the fault is the
beginning of a quoted text, and it is shown here how to go on from there: with the end of the
variable reference, if the fault is in one, and with the closing quote.
-/

namespace LineShell

open Production (Steps Mismatches Rejects Gentle)

/-- The input has the line feed that ends it. -/
def Ended (s : List Char) : Prop :=
  s.getLast? = some '\n'

theorem Ended.ne_nil {s : List Char} (h : Ended s) : s ≠ [] := by
  rintro rfl
  simp [Ended] at h

theorem Ended.of_append {w r : List Char} (h : Ended (w ++ r)) (hr : r ≠ []) : Ended r := by
  rw [Ended, List.getLast?_append_of_ne_nil w hr] at h
  exact h

/-- The line feed that ends the input is not read by what does not end with one. -/
theorem Ended.rest {w r : List Char} (h : Ended (w ++ r)) (hw : w.getLast? ≠ some '\n') :
    Ended r := by
  apply h.of_append
  rintro rfl
  rw [List.append_nil] at h
  exact hw h

theorem Ended.tail {c : Char} {s : List Char} (h : Ended (c :: s)) (hc : c ≠ '\n') : Ended s :=
  Ended.rest (w := [c]) h (by simpa using hc)

namespace Parser

/-! ## Bare texts and wildcards -/

theorem path_error {s : List Char} {failure : Failure} (h : path s = .error failure) :
    failure = .mismatch ⟨.path, s⟩ := by
  simp only [path] at h
  split at h
  · exact (Except.error.inj h).symm
  · simp at h

theorem path_gentle : Gentle path := fun s failure h => ⟨⟨.path, s⟩, by rw [h, path_error h]⟩

theorem glob_error {s : List Char} {failure : Failure} (h : glob s = .error failure) :
    failure = .mismatch ⟨.glob, s⟩ := by
  unfold glob at h
  split at h
  · simp at h
  · simp at h
  · simp at h
  · split at h
    · simp at h
    · exact (Except.error.inj h).symm
  · exact (Except.error.inj h).symm

theorem glob_gentle : Gentle glob := fun s failure h => ⟨⟨.glob, s⟩, by rw [h, glob_error h]⟩

/-! ## Quoted texts

Behind the opening quote there is no way back: whatever fails there is rejected. -/

theorem variableReference_rejects {t : List Char} {failure : Failure}
    (h : variableReference ('$' :: t) = .error failure) : ∃ fault, failure = .rejection fault := by
  unfold variableReference at h
  split at h
  · split at h
    · simp at h
    · exact ⟨_, (Except.error.inj h).symm⟩
    · exact ⟨_, (Except.error.inj h).symm⟩
  · exact ⟨_, (Except.error.inj h).symm⟩
  · next hdollar => exact absurd rfl (hdollar t)

theorem quotedItems_rejects {s : List Char} {failure : Failure}
    (h : quotedItems s = .error failure) : ∃ fault, failure = .rejection fault := by
  fun_induction quotedItems s with
  | case1 => exact ⟨_, (Except.error.inj h).symm⟩
  | case2 => simp at h
  | case3 t failure' hquote hname =>
    rw [← Except.error.inj h]
    exact variableReference_rejects hname
  | case4 t name r hlt failure' hitems hquote hname ih => exact ih (hitems.trans h)
  | case5 => simp at h
  | case6 => simp at h
  | case7 => exact ⟨_, (Except.error.inj h).symm⟩
  | case8 => exact ⟨_, (Except.error.inj h).symm⟩
  | case9 =>
    rename_i hitems _ _ ih
    exact ih (hitems.trans h)
  | case10 => simp at h
  | case11 => exact ⟨_, (Except.error.inj h).symm⟩
  | case12 =>
    rename_i hitems ih
    exact ih (hitems.trans h)
  | case13 => simp at h

theorem doubleQuoted_rejects {t : List Char} {failure : Failure}
    (h : doubleQuoted ('"' :: t) = .error failure) : ∃ fault, failure = .rejection fault := by
  cases hitems : quotedItems t with
  | error failure' =>
    rw [doubleQuoted, hitems] at h
    rw [← Except.error.inj h]
    exact quotedItems_rejects hitems
  | ok reading =>
    rw [doubleQuoted, hitems] at h
    simp at h

theorem literalText_rejects {s : List Char} {failure : Failure}
    (h : literalText s = .error failure) : ∃ fault, failure = .rejection fault := by
  fun_induction literalText s with
  | case1 => exact ⟨_, (Except.error.inj h).symm⟩
  | case2 => simp at h
  | case3 t failure' htext ih => exact ih (htext.trans h)
  | case4 => simp at h
  | case5 t failure' htext ih => exact ih (htext.trans h)
  | case6 => simp at h
  | case7 => exact ⟨_, (Except.error.inj h).symm⟩
  | case8 =>
    rename_i htext ih
    exact ih (htext.trans h)
  | case9 => simp at h

theorem singleQuoted_rejects {t : List Char} {failure : Failure}
    (h : singleQuoted ('\'' :: t) = .error failure) : ∃ fault, failure = .rejection fault := by
  cases htext : literalText t with
  | error failure' =>
    rw [singleQuoted, htext] at h
    rw [← Except.error.inj h]
    exact literalText_rejects htext
  | ok reading =>
    rw [singleQuoted, htext] at h
    simp at h

/-! ## Double quotes -/

theorem newline_not_mem_name {name : String} (h : IsName name.toList) : '\n' ∉ name.toList := by
  intro hmem
  exact absurd (h.isNameChar '\n' hmem) (by decide)

theorem newline_not_mem_reference {name : String} (h : IsName name.toList) :
    '\n' ∉ referenceText name := by
  simp [referenceText, newline_not_mem_name h]

theorem isName_x : IsName "x".toList := by decide

/-- A reference that is cut off can be completed. -/
theorem variableReference_rejection {s : List Char} {fault : Fault}
    (h : variableReference s = .error (.rejection fault)) (hs : Ended s) :
    ∃ w tail name, s = w ++ fault.rest ∧ Ended fault.rest ∧ IsName name.toList ∧
      referenceText name = w ++ tail := by
  unfold variableReference at h
  split at h
  · next t =>
    split at h
    · simp at h
    · next name r hne hread =>
      obtain ⟨hname, rfl, -⟩ := variableName_eq_ok_iff.mp hread
      obtain rfl : Fault.mk .closeBrace r = fault := by simpa [rejection] using h
      refine ⟨'$' :: '\x7b' :: name.toList, ['\x7d'], name, rfl, ?_, hname, rfl⟩
      apply Ended.rest (w := '$' :: '\x7b' :: name.toList) hs
      exact mt List.mem_of_getLast? (by simp [newline_not_mem_name hname])
    · obtain rfl : Fault.mk .variableName t = fault := by simpa [rejection] using h
      exact ⟨['$', '\x7b'], ['x', '\x7d'], "x", rfl, (hs.tail (by decide)).tail (by decide),
        isName_x, rfl⟩
  · next t _ =>
    obtain rfl : Fault.mk .openBrace t = fault := by simpa [rejection] using h
    exact ⟨['$'], ['\x7b', 'x', '\x7d'], "x", rfl, hs.tail (by decide), isName_x, rfl⟩
  · simp [mismatch] at h

/-- What stands before the fault between double quotes is the beginning of a text of items. -/
theorem quotedItems_rejection {s : List Char} {fault : Fault}
    (h : quotedItems s = .error (.rejection fault)) (hs : Ended s) :
    ∃ w tail items, s = w ++ fault.rest ∧ Ended fault.rest ∧ ItemsText (w ++ tail) items := by
  fun_induction quotedItems s with
  | case1 => exact absurd rfl hs.ne_nil
  | case2 => simp at h
  | case3 t failure _ hname =>
    rw [Except.error.inj h] at hname
    obtain ⟨w, tail, name, hsplit, hrest, hvalid, htext⟩ := variableReference_rejection hname hs
    refine ⟨w, tail, [.reference name], hsplit, hrest, ?_⟩
    rw [← htext, ← List.append_nil (referenceText name)]
    exact .cons (.reference hvalid) .nil
  | case4 t name r _ failure hitems _ hname ih =>
    obtain ⟨hvalid, hsplit⟩ := variableReference_eq_ok_iff.mp hname
    rw [hsplit] at hs
    obtain ⟨w, tail, items, rfl, hrest, hitem⟩ :=
      ih (hitems.trans h) (hs.rest (mt List.mem_of_getLast? (newline_not_mem_reference hvalid)))
    refine ⟨referenceText name ++ w, tail, .reference name :: items, ?_, hrest, ?_⟩
    · rw [hsplit, List.append_assoc]
    · rw [List.append_assoc]
      exact .cons (.reference hvalid) hitem
  | case5 => simp at h
  | case6 => simp at h
  | case7 =>
    obtain rfl := Failure.rejection.inj (Except.error.inj h)
    exact ⟨[], [], [], rfl, hs, .nil⟩
  | case8 =>
    obtain rfl := Failure.rejection.inj (Except.error.inj h)
    exact ⟨[], [], [], rfl, hs, .nil⟩
  | case9 e r d he failure hitems _ _ ih =>
    have hnewline : e ≠ '\n' := by
      rintro rfl
      simp [unescape?] at he
    obtain ⟨w, tail, items, rfl, hrest, hitem⟩ :=
      ih (hitems.trans h) ((hs.tail (by decide)).tail hnewline)
    have htext : ItemsText (['\\', e] ++ (w ++ tail)) (.char d :: items) :=
      .cons (.escape he) hitem
    exact ⟨'\\' :: e :: w, tail, .char d :: items, rfl, hrest, htext⟩
  | case10 => simp at h
  | case11 =>
    obtain rfl := Failure.rejection.inj (Except.error.inj h)
    exact ⟨[], [], [], rfl, hs, .nil⟩
  | case12 c t hquote hdollar hbackslash hend failure hitems ih =>
    have ht : t ≠ [] := by
      rintro rfl
      have hc : c = '\n' := by simpa [Ended] using hs
      exact hend ⟨hc, rfl⟩
    obtain ⟨w, tail, items, rfl, hrest, hitem⟩ :=
      ih (hitems.trans h) (Ended.of_append (w := [c]) hs ht)
    have htext : ItemsText ([c] ++ (w ++ tail)) (.char c :: items) :=
      .cons (.plain hquote hdollar hbackslash) hitem
    exact ⟨c :: w, tail, .char c :: items, rfl, hrest, htext⟩
  | case13 => simp at h

theorem doubleQuoted_rejection {s : List Char} {fault : Fault}
    (h : doubleQuoted s = .error (.rejection fault)) (hs : Ended s) :
    ∃ w tail v, s = '"' :: w ++ fault.rest ∧ Ended fault.rest ∧
      ∀ r, doubleQuoted ('"' :: w ++ (tail ++ r)) = .ok (v, r) := by
  unfold doubleQuoted at h
  split at h
  · next t =>
    split at h
    · next failure hitems =>
      rw [Except.error.inj h] at hitems
      obtain ⟨w, tail, items, rfl, hrest, htext⟩ :=
        quotedItems_rejection hitems (hs.tail (by decide))
      refine ⟨w, tail ++ ['"'], fuse items, rfl, hrest, fun r => ?_⟩
      exact doubleQuoted_eq_ok_iff.mpr ⟨w ++ tail, items, htext, rfl, by simp⟩
    · simp at h
  · simp [mismatch] at h

/-! ## Single quotes -/

/-- What stands before the fault between single quotes is the beginning of a text, of one that
goes on with a letter. -/
theorem literalText_rejection {s : List Char} {fault : Fault}
    (h : literalText s = .error (.rejection fault)) (hs : Ended s) :
    ∃ w cs, s = w ++ fault.rest ∧ Ended fault.rest ∧ LiteralText (w ++ ['x']) cs := by
  have hx : LiteralText ['x'] ['x'] := .plain (by decide) (by decide) .nil
  fun_induction literalText s with
  | case1 => exact absurd rfl hs.ne_nil
  | case2 => simp at h
  | case3 t failure htext ih =>
    obtain ⟨w, cs, rfl, hrest, hliteral⟩ :=
      ih (htext.trans h) ((hs.tail (by decide)).tail (by decide))
    exact ⟨'\\' :: '\\' :: w, '\\' :: cs, rfl, hrest, .escape (Or.inl rfl) hliteral⟩
  | case4 => simp at h
  | case5 t failure htext ih =>
    obtain ⟨w, cs, rfl, hrest, hliteral⟩ :=
      ih (htext.trans h) ((hs.tail (by decide)).tail (by decide))
    exact ⟨'\\' :: '\'' :: w, '\'' :: cs, rfl, hrest, .escape (Or.inr rfl) hliteral⟩
  | case6 => simp at h
  | case7 =>
    obtain rfl := Failure.rejection.inj (Except.error.inj h)
    exact ⟨[], ['x'], rfl, hs, hx⟩
  | case8 c t hquote hdouble hsingle hend failure htext ih =>
    have ht : t ≠ [] := by
      rintro rfl
      have hc : c = '\n' := by simpa [Ended] using hs
      exact hend ⟨hc, rfl⟩
    obtain ⟨w, cs, rfl, hrest, hliteral⟩ :=
      ih (htext.trans h) (Ended.of_append (w := [c]) hs ht)
    refine ⟨c :: w, c :: cs, rfl, hrest, .plain hquote ?_ hliteral⟩
    -- a backslash that stands for itself still does if a letter follows the text
    intro hc
    refine ⟨by simp, ?_, ?_⟩
    · cases w with
      | nil => simp
      | cons d w =>
        intro hd
        obtain rfl : d = '\\' := by simpa using hd
        exact hdouble _ hc rfl
    · cases w with
      | nil => simp
      | cons d w =>
        intro hd
        obtain rfl : d = '\'' := by simpa using hd
        exact hsingle _ hc rfl
  | case9 => simp at h

theorem singleQuoted_rejection {s : List Char} {fault : Fault}
    (h : singleQuoted s = .error (.rejection fault)) (hs : Ended s) :
    ∃ w tail v, s = '\'' :: w ++ fault.rest ∧ Ended fault.rest ∧
      ∀ r, singleQuoted ('\'' :: w ++ (tail ++ r)) = .ok (v, r) := by
  unfold singleQuoted at h
  split at h
  · next t =>
    split at h
    · next failure htext =>
      rw [Except.error.inj h] at htext
      obtain ⟨w, cs, rfl, hrest, hliteral⟩ := literalText_rejection htext (hs.tail (by decide))
      refine ⟨w, ['x', '\''], literalWord cs, rfl, hrest, fun r => ?_⟩
      exact singleQuoted_eq_ok_iff.mpr ⟨w ++ ['x'], cs, hliteral, rfl, by simp⟩
    · simp at h
  · simp [mismatch] at h

/-! ## Fragments -/

theorem fragment_rejection {s : List Char} {fault : Fault}
    (h : fragment s = .error (.rejection fault)) :
    doubleQuoted s = .error (.rejection fault) ∨ singleQuoted s = .error (.rejection fault) := by
  obtain ⟨p, hp, hread⟩ := Production.exists_of_firstOf_error h (by simp)
  simp only [fragments, List.mem_cons, List.not_mem_nil, or_false] at hp
  rcases hp with rfl | rfl | rfl | rfl
  · exact absurd ⟨fault, hread⟩ (path_gentle.not_rejects s)
  · exact absurd ⟨fault, hread⟩ (glob_gentle.not_rejects s)
  · exact Or.inl hread
  · exact Or.inr hread

end Parser

open LineShell.Parser

/-- A quoted text begins here which is not finished. -/
def Unclosed (s : List Char) : Prop :=
  Rejects fragment s

theorem Unclosed.head {s : List Char} (h : Unclosed s) :
    ∃ c t, s = c :: t ∧ (c = '"' ∨ c = '\'') := by
  obtain ⟨fault, hread⟩ := h
  rcases fragment_rejection hread with hread | hread
  · by_cases hquote : s.head? = some '"'
    · obtain ⟨t, rfl⟩ := List.head?_eq_some_iff.mp hquote
      exact ⟨'"', t, rfl, Or.inl rfl⟩
    · simp [doubleQuoted_of_head?_ne hquote, mismatch] at hread
  · by_cases hquote : s.head? = some '\''
    · obtain ⟨t, rfl⟩ := List.head?_eq_some_iff.mp hquote
      exact ⟨'\'', t, rfl, Or.inr rfl⟩
    · simp [singleQuoted_of_head?_ne hquote, mismatch] at hread

theorem Unclosed.stops {s : List Char} (h : Unclosed s) {p : Char → Bool} (hdouble : p '"' = false)
    (hsingle : p '\'' = false) : Stops p s := by
  obtain ⟨c, t, rfl, rfl | rfl⟩ := h.head
  · exact stops_cons.mpr hdouble
  · exact stops_cons.mpr hsingle

namespace Parser

/-- A quoted text that is cut off can be completed, whatever follows it then. -/
theorem fragment_completes {s : List Char} {fault : Fault}
    (h : fragment s = .error (.rejection fault)) (hs : Ended s) :
    ∃ c w tail v, s = c :: w ++ fault.rest ∧ Ended fault.rest ∧
      ∀ r, fragment (c :: w ++ (tail ++ r)) = .ok (v, r) := by
  rcases fragment_rejection h with h | h
  · obtain ⟨w, tail, v, hsplit, hrest, hread⟩ := doubleQuoted_rejection h hs
    exact ⟨'"', w, tail, v, hsplit, hrest,
      fun r => fragment_eq_ok_iff.mpr (Or.inr (Or.inr (Or.inl (hread r))))⟩
  · obtain ⟨w, tail, v, hsplit, hrest, hread⟩ := singleQuoted_rejection h hs
    exact ⟨'\'', w, tail, v, hsplit, hrest,
      fun r => fragment_eq_ok_iff.mpr (Or.inr (Or.inr (Or.inr (hread r))))⟩

/-! ## Words -/

theorem word_rejection {s : List Char} {fault : Fault} (h : word s = .error (.rejection fault)) :
    ∃ vs q, Steps fragment s vs q ∧ fragment q = .error (.rejection fault) := by
  unfold word at h
  split at h
  · next failure hread =>
    rw [Except.error.inj h] at hread
    obtain ⟨vs, q, hsteps, hq, -⟩ :=
      (Production.repeated_eq_error_iff fragment_consumes).mp hread
    exact ⟨vs, q, hsteps, hq⟩
  · simp [mismatch] at h
  · simp at h

/-- A word that is cut off can be completed.  It has the same bare text at its beginning. -/
theorem word_completes {s : List Char} {fault : Fault}
    (h : word s = .error (.rejection fault)) (hs : Ended s) :
    ∃ u q w tail v, s = u ++ (q :: w) ++ fault.rest ∧ isPathChar q = false ∧ Ended fault.rest ∧
      ∀ r, EndsWord r → word (u ++ (q :: w) ++ (tail ++ r)) = .ok (v, r) := by
  obtain ⟨vs, q, hsteps, hq⟩ := word_rejection h
  obtain ⟨c, t, hquote, hc⟩ := Unclosed.head ⟨fault, hq⟩
  obtain ⟨u, rfl, -, hextent⟩ := fragments_extent hsteps
  obtain ⟨d, w, tail, v, hsplit, hrest, hread⟩ :=
    fragment_completes hq (hs.of_append (by simp [hquote]))
  obtain ⟨rfl, -⟩ := List.cons.inj (hquote.symm.trans hsplit)
  refine ⟨u, c, w, tail, (vs ++ [v]).flatten, by rw [hsplit]; simp, ?_, hrest, ?_⟩
  · rcases hc with rfl | rfl <;> decide
  · intro r hr
    rw [List.append_assoc]
    refine word_eq_ok_iff.mpr ⟨vs ++ [v], by simp, ?_, fragment_mismatches hr.1, rfl⟩
    exact (hextent _ (Or.inl (by rw [hsplit]; rfl))).append (.cons (hread r) (.nil r))

end Parser

end LineShell
