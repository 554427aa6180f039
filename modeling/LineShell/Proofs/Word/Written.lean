import LineShell.Proofs.Word.Extent

/-!
# Writing words

Every word that can be read has a text in which all that could have another meaning is quoted:
texts stand in single quotes, references in double quotes, and a wildcard is followed by an
empty text that keeps it apart from what comes next.  Such a text is read as the word again,
whatever is behind it, as long as no fragment begins there.
-/

namespace LineShell

open LineShell.Parser
open Production (Steps Mismatches)

/-! ## Words that can be read -/

def Piece.WellFormed : Piece → Prop
  | .fixed text => text ≠ ""
  | .reference name => IsName name.toList
  | .glob pattern => IsGlobPattern pattern.toList

def Word.WellFormed (w : Word) : Prop :=
  ∀ p ∈ w, p.WellFormed

namespace Word

theorem wellFormed_nil : WellFormed [] := by
  simp [WellFormed]

@[simp] theorem wellFormed_cons {p : Piece} {w : Word} :
    WellFormed (p :: w) ↔ p.WellFormed ∧ WellFormed w := by
  simp [WellFormed]

theorem WellFormed.append {v w : Word} (hv : v.WellFormed) (hw : w.WellFormed) :
    WellFormed (v ++ w) := by
  intro p hp
  rcases List.mem_append.mp hp with hp | hp
  · exact hv p hp
  · exact hw p hp

end Word

theorem isName_home : IsName "HOME".toList := by decide

/-! ## Readings of words -/

namespace Parser

theorem pathWord_wellFormed {p : List Char} (hp : p ≠ []) : (pathWord p).WellFormed := by
  unfold pathWord
  split
  · exact Word.wellFormed_cons.mpr ⟨isName_home, Word.wellFormed_nil⟩
  · next t =>
    have ht : String.ofList ('/' :: t) ≠ "" := mt String.ofList_eq_empty_iff.mp (by simp)
    rw [Word.wellFormed_cons, Word.wellFormed_cons]
    exact ⟨isName_home, ht, Word.wellFormed_nil⟩
  · exact Word.wellFormed_cons.mpr ⟨mt String.ofList_eq_empty_iff.mp hp, Word.wellFormed_nil⟩

theorem consChar_wellFormed (c : Char) {w : Word} (hw : w.WellFormed) :
    (consChar c w).WellFormed := by
  unfold consChar
  split
  · next text w =>
    have htext : String.ofList (c :: text.toList) ≠ "" := mt String.ofList_eq_empty_iff.mp (by simp)
    rw [Word.wellFormed_cons] at hw ⊢
    exact ⟨htext, hw.2⟩
  · have htext : String.ofList [c] ≠ "" := mt String.ofList_eq_empty_iff.mp (by simp)
    rw [Word.wellFormed_cons]
    exact ⟨htext, hw⟩

theorem fuse_wellFormed {w : List Char} {items : List QuotedItem} (h : ItemsText w items) :
    (fuse items).WellFormed := by
  induction h with
  | nil => exact Word.wellFormed_nil
  | cons head _ ih =>
    cases head with
    | plain => exact consChar_wellFormed _ ih
    | escape => exact consChar_wellFormed _ ih
    | reference hname => exact Word.wellFormed_cons.mpr ⟨hname, ih⟩

theorem literalWord_wellFormed (cs : List Char) : (literalWord cs).WellFormed := by
  cases cs with
  | nil => exact Word.wellFormed_nil
  | cons c cs =>
    have htext : String.ofList (c :: cs) ≠ "" := mt String.ofList_eq_empty_iff.mp (by simp)
    exact Word.wellFormed_cons.mpr ⟨htext, Word.wellFormed_nil⟩

theorem fragment_wellFormed {s r : List Char} {v : Word} (h : fragment s = .ok (v, r)) :
    v.WellFormed := by
  rcases fragment_eq_ok_iff.mp h with h | h | h | h
  · obtain ⟨p, hp, -, rfl, -⟩ := path_eq_ok_iff.mp h
    exact pathWord_wellFormed hp
  · obtain ⟨p, hp, rfl, -⟩ := glob_eq_ok_iff.mp h
    rw [Word.wellFormed_cons]
    refine ⟨?_, Word.wellFormed_nil⟩
    rw [Piece.WellFormed, String.toList_ofList]
    exact hp
  · obtain ⟨w, items, hitems, rfl, -⟩ := doubleQuoted_eq_ok_iff.mp h
    exact fuse_wellFormed hitems
  · obtain ⟨w, cs, -, rfl, -⟩ := singleQuoted_eq_ok_iff.mp h
    exact literalWord_wellFormed cs

theorem word_wellFormed {s r : List Char} {v : Word} (h : word s = .ok (v, r)) : v.WellFormed := by
  obtain ⟨vs, -, hsteps, -, rfl⟩ := word_eq_ok_iff.mp h
  clear h
  induction hsteps with
  | nil => exact Word.wellFormed_nil
  | cons head _ ih => exact (fragment_wellFormed head).append ih

end Parser

/-! ## Quoted texts -/

def escapeLiteral (c : Char) : List Char :=
  if c = '\\' ∨ c = '\'' then ['\\', c] else [c]

def quoteLiteral (cs : List Char) : List Char :=
  '\'' :: (cs.flatMap escapeLiteral ++ ['\''])

def quoteReference (name : String) : List Char :=
  '"' :: (referenceText name ++ ['"'])

theorem literalText_escaped (cs : List Char) : LiteralText (cs.flatMap escapeLiteral) cs := by
  induction cs with
  | nil => exact .nil
  | cons c cs ih =>
    rw [List.flatMap_cons, escapeLiteral]
    split
    · next hc => exact .escape hc ih
    · next hc =>
      rw [not_or] at hc
      exact .plain hc.2 (fun hback => absurd hback hc.1) ih

theorem fragment_quoteLiteral (cs r : List Char) :
    fragment (quoteLiteral cs ++ r) = .ok (literalWord cs, r) := by
  have hread : singleQuoted (quoteLiteral cs ++ r) = .ok (literalWord cs, r) :=
    singleQuoted_eq_ok_iff.mpr
      ⟨_, cs, literalText_escaped cs, rfl, by simp [quoteLiteral]⟩
  exact fragment_eq_ok_iff.mpr (Or.inr (Or.inr (Or.inr hread)))

theorem fragment_quoteReference {name : String} (h : IsName name.toList) (r : List Char) :
    fragment (quoteReference name ++ r) = .ok ([.reference name], r) := by
  have hitems : ItemsText (referenceText name ++ []) [.reference name] :=
    .cons (.reference h) .nil
  have hread : doubleQuoted (quoteReference name ++ r) = .ok ([.reference name], r) :=
    doubleQuoted_eq_ok_iff.mpr ⟨_, _, hitems, rfl, by simp [quoteReference]⟩
  exact fragment_eq_ok_iff.mpr (Or.inr (Or.inr (Or.inl hread)))

/-! ## Written words -/

/-- Behind a wildcard stands an empty text, in front of which no wildcard goes on. -/
def Piece.written : Piece → List Char
  | .fixed text => quoteLiteral text.toList
  | .reference name => quoteReference name
  | .glob pattern => pattern.toList ++ quoteLiteral []

/-- The text of a word.  A word without pieces is an empty text. -/
def Word.written (w : Word) : List Char :=
  if w = [] then quoteLiteral [] else w.flatMap Piece.written

theorem Piece.WellFormed.steps {p : Piece} (h : p.WellFormed) (r : List Char) :
    ∃ vs, vs.flatten = [p] ∧ Steps fragment (p.written ++ r) vs r := by
  cases p with
  | fixed text =>
    have hword : literalWord text.toList = [.fixed text] := by
      have hne : text.toList ≠ [] := fun hnil => h (String.toList_eq_nil_iff.mp hnil)
      simp [literalWord, hne]
    refine ⟨[[.fixed text]], rfl, .cons ?_ (.nil r)⟩
    rw [Piece.written, fragment_quoteLiteral, hword]
  | reference name => exact ⟨[[.reference name]], rfl, .cons (fragment_quoteReference h r) (.nil r)⟩
  | glob pattern =>
    have hends : EndsPattern pattern.toList (quoteLiteral [] ++ r) := by
      constructor <;> intro _ <;> simp [quoteLiteral]
    have hread : Parser.glob (pattern.toList ++ (quoteLiteral [] ++ r)) =
        .ok ([.glob pattern], quoteLiteral [] ++ r) :=
      glob_eq_ok_iff.mpr ⟨_, h, by rw [String.ofList_toList], rfl, hends⟩
    have hfragment := fragment_eq_ok_iff.mpr (Or.inr (Or.inl hread))
    refine ⟨[[.glob pattern], []], rfl, ?_⟩
    rw [Piece.written, List.append_assoc]
    exact .cons hfragment (.cons (fragment_quoteLiteral [] r) (.nil r))

theorem Word.WellFormed.steps {w : Word} (h : w.WellFormed) (r : List Char) :
    ∃ vs, vs.flatten = w ∧ Steps fragment (w.flatMap Piece.written ++ r) vs r := by
  induction w with
  | nil => exact ⟨[], rfl, .nil r⟩
  | cons p w ih =>
    rw [Word.wellFormed_cons] at h
    obtain ⟨us, hus, husteps⟩ := h.1.steps (w.flatMap Piece.written ++ r)
    obtain ⟨vs, hvs, hvsteps⟩ := ih h.2
    refine ⟨us ++ vs, by rw [List.flatten_append, hus, hvs]; rfl, ?_⟩
    rw [List.flatMap_cons, List.append_assoc]
    exact husteps.append hvsteps

theorem Word.WellFormed.word_written {w : Word} (h : w.WellFormed) {r : List Char}
    (hr : Stops isFragmentStart r) : word (w.written ++ r) = .ok (w, r) := by
  rw [word_eq_ok_iff, Word.written]
  split
  · next hnil =>
    subst hnil
    exact ⟨[[]], by simp, .cons (fragment_quoteLiteral [] r) (.nil r), fragment_mismatches hr, rfl⟩
  · next hne =>
    obtain ⟨vs, hvs, hsteps⟩ := h.steps r
    refine ⟨vs, ?_, hsteps, fragment_mismatches hr, hvs.symm⟩
    rintro rfl
    exact hne hvs.symm

end LineShell
