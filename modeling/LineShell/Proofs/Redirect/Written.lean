import LineShell.Proofs.Redirect.Extent
import LineShell.Proofs.Word.Written

/-!
# Writing redirects

Every redirect that can be read has a text.  The operand before the operator has to be written
bare, so only a word of the shape of a path can stand there.  A descriptor before the operator
can be written in a script whose digits are no path characters; then it can not be mistaken for
the operand of the redirect before it.
-/

namespace LineShell

open LineShell.Parser

/-! ## Bare paths -/

/-- A word that a bare run of path characters can stand for, if the run is not a number. -/
def Word.PathShaped (w : Word) : Prop :=
  (∃ text : String, w = [.fixed text] ∧ (∀ c ∈ text.toList, isPathChar c = true) ∧
      (∃ c ∈ text.toList, isDigitChar c = false) ∧ text ≠ "~" ∧ ¬ ['~', '/'] <+: text.toList) ∨
    w = [.reference "HOME"] ∨
    ∃ text : String, w = [.reference "HOME", .fixed text] ∧
      (∀ c ∈ text.toList, isPathChar c = true) ∧ ['/'] <+: text.toList

def Word.pathText : Word → List Char
  | [.reference _] => ['~']
  | [.reference _, .fixed text] => '~' :: text.toList
  | [.fixed text] => text.toList
  | _ => []

theorem pathWord_pathShaped {p : List Char} (hp : ∀ c ∈ p, isPathChar c = true)
    (hdigit : ∃ c ∈ p, isDigitChar c = false) : (pathWord p).PathShaped := by
  unfold pathWord
  split
  · exact Or.inr (Or.inl rfl)
  · next t =>
    refine Or.inr (Or.inr ⟨_, rfl, ?_, ?_⟩)
    · rw [String.toList_ofList]
      intro c hc
      exact hp c (List.mem_cons_of_mem '~' hc)
    · rw [String.toList_ofList]
      exact ⟨t, rfl⟩
  · next halone hhome =>
    refine Or.inl ⟨_, rfl, ?_, ?_, ?_, ?_⟩
    · rwa [String.toList_ofList]
    · rwa [String.toList_ofList]
    · intro htilde
      apply halone
      rw [← String.toList_ofList (l := p), htilde]
      rfl
    · rw [String.toList_ofList]
      rintro ⟨t, ht⟩
      exact hhome t ht.symm

theorem Word.PathShaped.leftText {w : Word} (h : w.PathShaped) :
    LeftText w.pathText (some (.file w)) := by
  rcases h with ⟨text, rfl, hp, hdigit, halone, hhome⟩ | rfl | ⟨text, rfl, hp, t, ht⟩
  · have hword : pathWord text.toList = [.fixed text] := by
      unfold pathWord
      split
      · next htilde =>
        exact absurd (String.toList_inj.mp htilde) halone
      · next t ht => exact absurd ⟨t, ht.symm⟩ hhome
      · rw [String.ofList_toList]
    have hne : text.toList ≠ [] := by
      rcases hdigit with ⟨c, hc, -⟩
      exact List.ne_nil_of_mem hc
    have hfile : LeftText text.toList (some (.file (pathWord text.toList))) := .file hne hp hdigit
    rw [hword] at hfile
    exact hfile
  · have htilde : ∀ c ∈ ['~'], isPathChar c = true := by
      intro c hc
      rw [List.mem_singleton.mp hc]
      decide
    exact .file (List.cons_ne_nil '~' []) htilde ⟨'~', List.mem_cons_self, by decide⟩
  · have hword : pathWord ('~' :: text.toList) = [.reference "HOME", .fixed text] := by
      rw [← ht, List.cons_append, List.nil_append, pathWord]
      rw [← String.ofList_toList (s := text), ← ht]
      rfl
    have hall : ∀ c ∈ '~' :: text.toList, isPathChar c = true := by
      intro c hc
      rcases List.mem_cons.mp hc with rfl | hc
      · decide
      · exact hp c hc
    have hfile := LeftText.file (by simp) hall ⟨'~', List.mem_cons_self, by decide⟩
    rw [hword] at hfile
    exact hfile

/-! ## Redirects that can be read -/

def Operand.WellFormed : Operand → Prop
  | .file path => path.WellFormed
  | .descriptor _ => True

def Operand.Bounded : Operand → Prop
  | .file _ => True
  | .descriptor number => (decimalDigits number).length ≤ Numeral.maxDigits

def Redirect.Operands (P : Operand → Prop) (d : Redirect) : Prop :=
  (∀ o ∈ d.source, P o) ∧ ∀ o ∈ d.target, P o

/-- The operand of an input redirect that can stand before the operator is its target, and that
of an output redirect is its source. -/
def Redirect.WellFormed (d : Redirect) : Prop :=
  d.Operands Operand.WellFormed ∧
    match d.kind with
    | .input => ∀ path, d.target = some (.file path) → path.PathShaped
    | .truncate | .append => ∀ path, d.source ≠ some (.file path)

theorem Redirect.operands_iff {P : Operand → Prop} {d : Redirect} :
    d.Operands P ↔ (∀ o ∈ d.left, P o) ∧ ∀ o ∈ d.right, P o := by
  rcases d with ⟨kind, source, target⟩
  cases kind
  · exact and_comm
  · exact Iff.rfl
  · exact Iff.rfl

theorem Redirect.wellFormed_iff {d : Redirect} :
    d.WellFormed ↔ d.Operands Operand.WellFormed ∧ LeftFits d.kind d.left ∧
      ∀ path, d.left = some (.file path) → path.PathShaped := by
  have hside : ∀ operand : Option Operand, operand.any Operand.isFile = false ↔
      ∀ path, operand ≠ some (.file path) := by
    intro operand
    rcases operand with _ | path | number
    · simp
    · simp [Operand.isFile]
    · simp [Operand.isFile]
  rcases d with ⟨kind, source, target⟩
  apply and_congr_right
  intro _
  cases kind with
  | input => simp [LeftFits, Redirect.left]
  | truncate =>
    simp only [LeftFits, Redirect.left, reduceCtorEq, imp_false, Bool.not_eq_true, hside]
    exact ⟨fun h => ⟨h, fun path hpath => absurd hpath (h path)⟩, fun h => h.1⟩
  | append =>
    simp only [LeftFits, Redirect.left, reduceCtorEq, imp_false, Bool.not_eq_true, hside]
    exact ⟨fun h => ⟨h, fun path hpath => absurd hpath (h path)⟩, fun h => h.1⟩

theorem leftText_fits {w : List Char} {left : Option Operand} (h : LeftText w left) :
    (∀ o ∈ left, o.WellFormed) ∧ (∀ o ∈ left, o.Bounded) ∧
      ∀ path, left = some (.file path) → path.PathShaped := by
  cases h with
  | none => simp
  | descriptor hrun hn =>
    have hlength := length_decimalDigits_of_descriptorNumber hrun hn
    simpa [Operand.WellFormed, Operand.Bounded] using hlength
  | file hne hp hdigit =>
    have hshape := pathWord_pathShaped hp hdigit
    have hword := pathWord_wellFormed hne
    simpa [Operand.WellFormed, Operand.Bounded, hword] using hshape

theorem readsRight_fits {u r : List Char} {right : Option Operand} (h : ReadsRight u right r) :
    (∀ o ∈ right, o.WellFormed) ∧ ∀ o ∈ right, o.Bounded := by
  rcases h with ⟨rfl, -, -⟩ | ⟨operand, rfl, hread⟩
  · simp
  · rcases rightOperand_ok hread with ⟨h, -⟩ | ⟨run, n, hrun, hn, hop, -, -⟩ | ⟨v, hop, hword⟩
    · simp at h
    · have hlength := length_decimalDigits_of_descriptorNumber hrun hn
      cases hop
      simpa [Operand.WellFormed, Operand.Bounded] using hlength
    · have hfits := word_wellFormed hword
      cases hop
      simpa [Operand.WellFormed, Operand.Bounded] using hfits

theorem redirect_wellFormed {s r : List Char} {d : Redirect} (h : redirect s = .ok (d, r)) :
    d.WellFormed ∧ d.Operands Operand.Bounded := by
  rcases redirect_eq_ok_iff.mp h with ⟨w, u, hw, hfits, -, -, hright⟩
  have hleft := leftText_fits hw
  have hright := readsRight_fits hright
  rw [Redirect.wellFormed_iff, Redirect.operands_iff, Redirect.operands_iff]
  exact ⟨⟨⟨hleft.1, hright.1⟩, hfits, hleft.2.2⟩, hleft.2.1, hright.2⟩

/-! ## Written redirects -/

def leftWritten (script : Script) : Option Operand → List Char
  | none => []
  | some (.descriptor n) => script.numeral n
  | some (.file path) => path.pathText

def rightWritten : Option Operand → List Char
  | none => []
  | some (.descriptor n) => '&' :: Script.ascii.numeral n
  | some (.file path) => path.written

/-- The text of a redirect, with a descriptor before the operator in the given script. -/
def Redirect.written (script : Script) (d : Redirect) : List Char :=
  leftWritten script d.left ++ (d.kind.symbol.toList ++ rightWritten d.right)

theorem leftText_leftWritten (script : Script) {left : Option Operand}
    (hbounded : ∀ o ∈ left, o.Bounded)
    (hshape : ∀ path, left = some (.file path) → path.PathShaped) :
    LeftText (leftWritten script left) left := by
  rcases left with _ | path | n
  · exact .none
  · exact (hshape path rfl).leftText
  · have hn : (decimalDigits n).length ≤ Numeral.maxDigits := hbounded _ rfl
    exact .descriptor (Script.isDigitRun_numeral script n)
      (Script.descriptorNumber_numeral script hn)

theorem Word.WellFormed.head_written {w : Word} (h : w.WellFormed) :
    ∃ c t, w.written = c :: t ∧ isFragmentStart c = true := by
  have hread := h.word_written (stops_nil isFragmentStart)
  rw [List.append_nil] at hread
  exact word_head hread

theorem readsRight_rightWritten {right : Option Operand} (hfits : ∀ o ∈ right, o.WellFormed)
    (hbounded : ∀ o ∈ right, o.Bounded) :
    ReadsRight (rightWritten right ++ ['\n']) right ['\n'] := by
  rcases right with _ | path | n
  · refine Or.inl ⟨rfl, ?_, rfl⟩
    exact rightOperand_of_noOperand ⟨by decide, stops_cons.mpr (by decide)⟩
  · have hpath : path.WellFormed := hfits _ rfl
    have hread := hpath.word_written (r := ['\n']) (stops_cons.mpr (by decide))
    rcases hpath.head_written with ⟨c, t, ht, hc⟩
    have hskip : skipBlanks (path.written ++ ['\n']) = path.written ++ ['\n'] := by
      rw [ht]
      exact (stops_cons.mpr (isBlank_of_isFragmentStart hc)).dropWhile_eq
    refine Or.inr ⟨_, rfl, ?_⟩
    rw [rightWritten, hskip]
    exact rightOperand_of_word hread
  · have hn : (decimalDigits n).length ≤ Numeral.maxDigits := hbounded _ rfl
    have hstop : Stops isDigitChar ['\n'] := stops_cons.mpr (by decide)
    refine Or.inr ⟨_, rfl, ?_⟩
    have hread := rightOperand_ampersand (Script.isDigitRun_numeral .ascii n) hstop
    rw [Script.descriptorNumber_numeral .ascii hn] at hread
    exact hread

theorem head?_rightWritten_ne {right : Option Operand} (hfits : ∀ o ∈ right, o.WellFormed) :
    (rightWritten right ++ ['\n']).head? ≠ some '>' := by
  rcases right with _ | path | n
  · decide
  · have hpath : path.WellFormed := hfits _ rfl
    rcases hpath.head_written with ⟨c, t, ht, hc⟩
    rw [rightWritten, ht]
    intro hhead
    cases hhead
    exact absurd hc (by decide)
  · simp [rightWritten]

theorem Redirect.WellFormed.redirect_written {d : Redirect} (h : d.WellFormed)
    (hbounded : d.Operands Operand.Bounded) (script : Script) :
    redirect (d.written script ++ ['\n']) = .ok (d, ['\n']) := by
  rw [Redirect.wellFormed_iff, Redirect.operands_iff] at h
  rw [Redirect.operands_iff] at hbounded
  rcases h with ⟨⟨-, hright⟩, hfits, hshape⟩
  apply redirect_eq_ok_iff.mpr
  refine ⟨leftWritten script d.left, rightWritten d.right ++ ['\n'], ?_, hfits, ?_, ?_, ?_⟩
  · exact leftText_leftWritten script hbounded.1 hshape
  · simp [Redirect.written]
  · intro _
    exact head?_rightWritten_ne hright
  · exact readsRight_rightWritten hright hbounded.2

end LineShell
