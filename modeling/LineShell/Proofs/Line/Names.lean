import Mathlib.Tactic.TFAE
import LineShell.Proofs.Line.Prefix
import LineShell.Proofs.Parser.Position

/-!
# Names of variables

Names are read in three places: at the beginning of an assignment, in a reference, and by `export`
in its arguments.  In each of them another character ends the name, and a text that is no name may
well be read in another way.  But the texts that are read as one name are the same in all of them.
-/

namespace LineShell

open LineShell.Parser

def IsLetter (c : Char) : Prop :=
  'A' ≤ c ∧ c ≤ 'Z' ∨ 'a' ≤ c ∧ c ≤ 'z'

def IsDigit (c : Char) : Prop :=
  '0' ≤ c ∧ c ≤ '9'

theorem isNameStart_iff {c : Char} : isNameStart c = true ↔ IsLetter c ∨ c = '_' := by
  simp [isNameStart, Char.isAlpha, Char.isUpper, Char.isLower, IsLetter, Char.le_def]

theorem isNameChar_iff {c : Char} :
    isNameChar c = true ↔ IsLetter c ∨ IsDigit c ∨ c = '_' := by
  simp [isNameChar, Char.isAlphanum, Char.isAlpha, Char.isUpper, Char.isLower, Char.isDigit,
    IsLetter, IsDigit, Char.le_def, or_assoc]

theorem isName_iff {cs : List Char} :
    IsName cs ↔ ∃ c t, cs = c :: t ∧ (IsLetter c ∨ c = '_') ∧
      ∀ d ∈ t, IsLetter d ∨ IsDigit d ∨ d = '_' := by
  cases cs with
  | nil => simp [IsName]
  | cons c t => simp [IsName, isNameStart_iff, isNameChar_iff]

theorem isValidName_iff {name : String} : isValidName name = true ↔ IsName name.toList := by
  constructor
  · intro h
    unfold isValidName at h
    split at h
    · next read rest hread =>
      obtain rfl : rest = ['\n'] := by simpa using h
      obtain ⟨hname, htext, -⟩ := variableName_eq_ok_iff.mp hread
      rw [List.append_cancel_right htext]
      exact hname
    · simp at h
  · intro h
    have hread : variableName (name.toList ++ ['\n']) = .ok (name, ['\n']) :=
      variableName_eq_ok_iff.mpr ⟨h, rfl, stops_cons.mpr (by decide)⟩
    simp [isValidName, hread]

/-! ## Assignments and references -/

/-- A word behind a name and an equals sign is the value of an assignment. -/
def Source.assigned {name : String} (h : IsName name.toList) (t : Source word) :
    Source assignment where
  text := name.toList ++ '=' :: t.text
  value := ⟨name, t.value⟩
  reads := assignment_eq_ok_iff.mpr
    ⟨t.text ++ ['\n'], h, by simp, Or.inl t.reads⟩

theorem Source.parse_assignment (t : Source assignment) :
    parse (String.ofList t.text) = .ok (.assignments [t.value]) := by
  have hjoined := @parse_joined [t] [] [] (by simp) (by simp) List.isChain_nil
  simpa [lineOf] using hjoined

theorem variableReference_readAt_iff {name : String} :
    Production.readAt variableReference (referenceText name) 0 =
        .ok (name, (referenceText name).length) ↔ IsName name.toList := by
  rw [Production.readAt_eq_ok_iff variableReference_consumes, List.drop_zero, List.drop_length,
    variableReference_eq_ok_iff, List.append_nil]
  constructor
  · rintro ⟨-, -, hname, -⟩
    exact hname
  · intro hname
    exact ⟨by simp [referenceText], Nat.le_refl _, hname, rfl⟩

theorem parse_assigned_iff {name : String} :
    parse (name ++ "=x") = .ok (.assignments [⟨name, [.fixed "x"]⟩]) ↔ IsName name.toList := by
  constructor
  · intro h
    exact (names_of_parse h).2 name (by simp)
  · intro h
    let x : Source word := ⟨"x".toList, [.fixed "x"], word_name (by decide)⟩
    have htext : String.ofList (x.assigned h).text = name ++ "=x" := by
      rw [← String.toList_inj, String.toList_ofList, String.toList_append]
      rfl
    rw [← htext]
    exact (x.assigned h).parse_assignment

/-- What is a valid name, what is assigned under this name, and what is referred to by it, are the
same: a letter or an underscore, and then letters, digits and underscores, all of them ASCII. -/
theorem names_agree (n : String) :
    List.TFAE [
      isValidName n = true,
      ∃ c t, n.toList = c :: t ∧ (IsLetter c ∨ c = '_') ∧
        ∀ d ∈ t, IsLetter d ∨ IsDigit d ∨ d = '_',
      parse (n ++ "=x") = .ok (.assignments [⟨n, [.fixed "x"]⟩]),
      Production.readAt variableReference (referenceText n) 0 =
        .ok (n, (referenceText n).length)] := by
  tfae_have 1 ↔ 2 := isValidName_iff.trans isName_iff
  tfae_have 3 ↔ 2 := parse_assigned_iff.trans isName_iff
  tfae_have 4 ↔ 2 := variableReference_readAt_iff.trans isName_iff
  tfae_finish

end LineShell
