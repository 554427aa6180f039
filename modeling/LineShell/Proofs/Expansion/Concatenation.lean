import LineShell.NamePattern
import LineShell.Proofs.Text.Span

/-!
# Patterns one behind the other

A name is matched symbol by symbol.  What matches two lists of symbols, one behind the other, is a
name for the first with a name for the second behind it.  The text of a pattern does not always
have this property: two stars that meet become one, which makes no difference, but a bracket takes
everything up to the bracket that closes it.
-/

namespace LineShell

/-- A symbol for one character stands for this one. -/
def Symbol.admits : Symbol → Char → Bool
  | .literal c, d => c == d
  | .anyChar, _ => true
  | .member k, d => k.contains d
  | .anyText, _ => false

namespace NamePattern

variable {ps qs : List Symbol} {s t : List Char}

theorem accepts_nil_iff : accepts [] s = true ↔ s = [] := by
  simp [accepts]

theorem accepts_cons_iff {a : Symbol} (ha : a ≠ .anyText) :
    accepts (a :: ps) s = true ↔
      ∃ c t, s = c :: t ∧ a.admits c = true ∧ accepts ps t = true := by
  cases s with
  | nil => cases a <;> simp_all [accepts]
  | cons d t =>
    have hcons : accepts (a :: ps) (d :: t) = (a.admits d && accepts ps t) := by
      cases a with
      | anyText => exact absurd rfl ha
      | literal | anyChar | member => simp [accepts, Symbol.admits]
    rw [hcons, Bool.and_eq_true]
    constructor
    · intro h
      exact ⟨d, t, rfl, h⟩
    · rintro ⟨c, u, hu, h⟩
      obtain ⟨rfl, rfl⟩ := List.cons.inj hu
      exact h

theorem accepts_append :
    accepts (ps ++ qs) s = true ↔
      ∃ front back, s = front ++ back ∧ accepts ps front = true ∧ accepts qs back = true := by
  induction ps generalizing s with
  | nil =>
    simp only [List.nil_append, accepts_nil_iff]
    constructor
    · intro h
      exact ⟨[], s, rfl, rfl, h⟩
    · rintro ⟨front, back, rfl, rfl, h⟩
      exact h
  | cons a ps ih =>
    rw [List.cons_append]
    by_cases ha : a = .anyText
    · subst ha
      simp only [accepts_anyText, ih]
      constructor
      · rintro ⟨taken, rest, rfl, front, back, rfl, hfront, hback⟩
        exact ⟨taken ++ front, back, by simp, ⟨taken, front, rfl, hfront⟩, hback⟩
      · rintro ⟨front, back, rfl, ⟨taken, rest, rfl, hrest⟩, hback⟩
        exact ⟨taken, rest ++ back, by simp, rest, back, rfl, hrest, hback⟩
    · simp only [accepts_cons_iff ha, ih]
      constructor
      · rintro ⟨c, rest, rfl, hc, front, back, rfl, hfront, hback⟩
        exact ⟨c :: front, back, rfl, ⟨c, front, rfl, hc, hfront⟩, hback⟩
      · rintro ⟨front, back, rfl, ⟨c, rest, rfl, hc, hrest⟩, hback⟩
        exact ⟨c, rest ++ back, rfl, hc, rest, back, rfl, hrest, hback⟩

/-! ## The symbols of a text -/

theorem symbols_literal {c : Char} (h : hasMagic [c] = false) (s : List Char) :
    symbols (c :: s) = .literal c :: symbols s := by
  have hc : c ≠ '*' ∧ c ≠ '?' ∧ c ≠ '[' := by simpa [hasMagic, and_assoc] using h
  rw [symbols]
  simp [hc]

theorem symbols_question (s : List Char) : symbols ('?' :: s) = .anyChar :: symbols s := by
  rw [symbols]
  simp

theorem symbols_star (s : List Char) :
    symbols ('*' :: s) = .anyText :: symbols (s.dropWhile (· == '*')) := by
  rw [symbols]
  simp

/-- A bracket that is never closed stands for itself. -/
theorem symbols_unclosed (h : closeClass s = none) :
    symbols ('[' :: s) = .literal '[' :: symbols s := by
  rw [symbols]
  simp [h]

/-- It makes no difference that stars which follow each other are one. -/
theorem accepts_star : accepts (symbols ('*' :: s)) t = true ↔
    accepts (.anyText :: symbols s) t = true := by
  rw [symbols_star]
  by_cases hstar : ∃ u, s = '*' :: u
  · obtain ⟨u, rfl⟩ := hstar
    have hdrop : ('*' :: u).dropWhile (· == '*') = u.dropWhile (· == '*') := by simp
    rw [hdrop, symbols_star]
    simp only [accepts_anyText]
    constructor
    · rintro ⟨front, back, rfl, hback⟩
      exact ⟨front, back, rfl, [], back, rfl, hback⟩
    · rintro ⟨front, back, rfl, middle, rest, rfl, hrest⟩
      exact ⟨front ++ middle, rest, by simp, hrest⟩
  · have hdrop : s.dropWhile (· == '*') = s := by
      cases s with
      | nil => rfl
      | cons c u =>
        have hc : c ≠ '*' := fun hc => hstar ⟨u, by rw [hc]⟩
        simp [hc]
    rw [hdrop]

/-! ## Classes -/

theorem forall_ne_closing {body : List Char} (h : ']' ∉ body) :
    ∀ c ∈ body, (c != ']') = true := by
  intro c hc
  rw [bne_iff_ne]
  rintro rfl
  exact h hc

theorem stops_closing (rest : List Char) : Stops (· != ']') (']' :: rest) :=
  stops_cons.mpr (by decide)

theorem closeClass_plain {c : Char} {body : List Char} (hbang : c ≠ '!')
    (hclose : ']' ∉ c :: body) (rest : List Char) :
    closeClass (c :: (body ++ ']' :: rest)) = some (c :: body, rest) := by
  have hc : c ≠ ']' := fun hc => hclose (by simp [hc])
  have hmembers := forall_ne_closing hclose
  have htake := takeWhile_append_of_stops hmembers (stops_closing rest)
  have hdrop := dropWhile_append_of_stops hmembers (stops_closing rest)
  rw [List.cons_append] at htake hdrop
  simp [closeClass, hbang, hc, htake, hdrop]

theorem closeClass_negated {c : Char} {body : List Char} (hclose : ']' ∉ c :: body)
    (rest : List Char) :
    closeClass ('!' :: c :: (body ++ ']' :: rest)) = some ('!' :: c :: body, rest) := by
  have hc : c ≠ ']' := fun hc => hclose (by simp [hc])
  have hmembers := forall_ne_closing hclose
  have htake := takeWhile_append_of_stops hmembers (stops_closing rest)
  have hdrop := dropWhile_append_of_stops hmembers (stops_closing rest)
  rw [List.cons_append] at htake hdrop
  simp [closeClass, hc, htake, hdrop]

/-- A class with no closing bracket as a member is closed by the first one. -/
theorem closeClass_of_not_mem {body : List Char} (hne : body ≠ []) (hbang : body ≠ ['!'])
    (hclose : ']' ∉ body) (rest : List Char) :
    closeClass (body ++ ']' :: rest) = some (body, rest) := by
  cases body with
  | nil => exact absurd rfl hne
  | cons c body =>
    by_cases hc : c = '!'
    · subst hc
      cases body with
      | nil => exact absurd rfl hbang
      | cons d body =>
        exact closeClass_negated (fun hmem => hclose (List.mem_cons_of_mem '!' hmem)) rest
    · exact closeClass_plain hc hclose rest

theorem closeClass_closing (rest : List Char) :
    closeClass (']' :: ']' :: rest) = some ([']'], rest) := by
  simp [closeClass]

theorem closeClass_negated_closing {body : List Char} (hclose : ']' ∉ body) (rest : List Char) :
    closeClass ('!' :: ']' :: (body ++ ']' :: rest)) = some ('!' :: ']' :: body, rest) := by
  have hmembers := forall_ne_closing hclose
  have htake := takeWhile_append_of_stops hmembers (stops_closing rest)
  have hdrop := dropWhile_append_of_stops hmembers (stops_closing rest)
  simp [closeClass, htake, hdrop]

theorem closeClass_negated_unclosed {rest : List Char} (h : ']' ∉ rest) :
    closeClass ('!' :: ']' :: rest) = none := by
  have hdrop := dropWhile_append_of_stops (forall_ne_closing h) (stops_nil _)
  rw [List.append_nil] at hdrop
  simp [closeClass, hdrop]

end NamePattern

end LineShell
