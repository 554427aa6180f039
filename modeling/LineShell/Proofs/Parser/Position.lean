import LineShell.Parser.Basic

/-!
# Reading at a position

A production reads the text from a position on.  Here its readings are told by the positions
alone: what is read is the extract of the text from the one position to the other, and what is
left is the text from there on.
-/

namespace LineShell

theorem drop_eq_extract_append {text : List Char} {start stop : Nat} (h : start ≤ stop) :
    text.drop start = text.extract start stop ++ text.drop stop := by
  rw [List.extract_eq_take_drop]
  conv => lhs; rw [← List.take_append_drop (stop - start) (text.drop start)]
  rw [List.drop_drop, Nat.add_sub_cancel' h]

theorem extract_of_drop_eq {text w rest : List Char} {start : Nat}
    (h : text.drop start = w ++ rest) : text.extract start (start + w.length) = w := by
  rw [List.extract_eq_take_drop, h, Nat.add_sub_cancel_left, List.take_left]

theorem drop_of_drop_eq {text w rest : List Char} {start : Nat}
    (h : text.drop start = w ++ rest) : text.drop (start + w.length) = rest := by
  rw [← List.drop_drop, h, List.drop_left]

/-- What stands in a text from one position to another. -/
theorem extract_eq_iff {text w : List Char} {start stop : Nat} (hw : w ≠ []) :
    stop ≤ text.length ∧ text.extract start stop = w ↔
      start < stop ∧ stop ≤ text.length ∧ text.drop start = w ++ text.drop stop := by
  constructor
  · rintro ⟨hstop, rfl⟩
    have hlt : start < stop := by
      apply Nat.lt_of_not_le
      intro hge
      apply hw
      simp [List.extract_eq_take_drop, Nat.sub_eq_zero_of_le hge]
    exact ⟨hlt, hstop, drop_eq_extract_append (Nat.le_of_lt hlt)⟩
  · rintro ⟨hlt, hstop, htext⟩
    refine ⟨hstop, ?_⟩
    rw [drop_eq_extract_append (Nat.le_of_lt hlt)] at htext
    exact List.append_cancel_right htext

theorem drop_injective {text : List Char} {stop stop' : Nat} (h : stop ≤ text.length)
    (h' : stop' ≤ text.length) (heq : text.drop stop = text.drop stop') : stop = stop' := by
  have hlength := congrArg List.length heq
  rw [List.length_drop, List.length_drop] at hlength
  omega

theorem drop_of_getElem? {text : List Char} {start : Nat} {c : Char} (h : text[start]? = some c) :
    text.drop start = c :: text.drop (start + 1) := by
  obtain ⟨hlt, rfl⟩ := List.getElem?_eq_some_iff.mp h
  exact List.drop_eq_getElem_cons hlt

namespace Production

variable {α : Type} {p : Production α} {text : List Char} {start stop : Nat} {v : α}

theorem readAt_eq_ok_iff (hp : Consumes p) :
    p.readAt text start = .ok (v, stop) ↔
      start < stop ∧ stop ≤ text.length ∧ p (text.drop start) = .ok (v, text.drop stop) := by
  constructor
  · intro h
    cases hread : p (text.drop start) with
    | error failure => simp [readAt, hread] at h
    | ok reading =>
      obtain ⟨u, rest⟩ := reading
      simp only [readAt, hread, Except.ok.injEq, Prod.mk.injEq] at h
      obtain ⟨rfl, hstop⟩ := h
      obtain ⟨w, hw, htext⟩ := hp _ _ _ hread
      have hlength := congrArg List.length htext
      have hpos := List.length_pos_iff.mpr hw
      rw [List.length_drop, List.length_append] at hlength
      have hstop : stop = start + w.length := by
        rw [← hstop, offsetOf, htext, List.length_append]
        omega
      have hrest : text.drop stop = rest := by
        rw [hstop]
        exact drop_of_drop_eq htext
      exact ⟨by omega, by omega, by rw [hrest]⟩
  · rintro ⟨hlt, hstop, hread⟩
    have hoffset : offsetOf start (text.drop start) (text.drop stop) = stop := by
      rw [offsetOf, List.length_drop, List.length_drop]
      omega
    simp only [readAt, hread, hoffset]

theorem readAt_eq_error {failure : Failure} (h : p (text.drop start) = .error failure) :
    p.readAt text start = .error (failure.locate start (text.drop start)) := by
  simp only [readAt, h]

/-- A mismatch that is found at once is told with the position of the reading. -/
theorem readAt_of_mismatch {expected : Expected}
    (h : p (text.drop start) = mismatch expected (text.drop start)) :
    p.readAt text start = .error (.mismatch expected start) := by
  rw [readAt_eq_error h, Failure.locate, offsetOf, Nat.sub_self, Nat.add_zero]

theorem readAt_rejects (hp : ∀ failure, p (text.drop start) = .error failure →
      ∃ fault, failure = .rejection fault)
    (hnone : ∀ v stop, p.readAt text start ≠ .ok (v, stop)) :
    ∃ expected offset, p.readAt text start = .error (.rejection expected offset) := by
  cases hread : p (text.drop start) with
  | error failure =>
    obtain ⟨fault, rfl⟩ := hp failure hread
    exact ⟨_, _, readAt_eq_error hread⟩
  | ok reading =>
    have hok : p.readAt text start =
        .ok (reading.1, offsetOf start (text.drop start) reading.2) := by
      simp only [readAt, hread]
    exact absurd hok (hnone _ _)

end Production

end LineShell
