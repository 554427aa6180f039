import LineShell.Proofs.Word.References

/-!
# The order of expansion

Words are expanded from left to right, each with its own pieces from left to right.  In strict mode
the first reference without a value in this order ends the work, whatever is made of the words
otherwise: neither the files nor the quoting of patterns nor the words before it have an influence
on that.  Where every variable has a value, strict mode changes nothing, and each word stands for
its own texts, whichever words stand around it.
-/

namespace LineShell

theorem pairwise_mergeSort_le (texts : List String) :
    (texts.mergeSort fun a b => a ≤ b).Pairwise (· ≤ ·) := by
  have hsorted : (texts.mergeSort fun a b => a ≤ b).Pairwise fun a b => decide (a ≤ b) = true :=
    List.pairwise_mergeSort
      (by simpa using fun a b c => String.le_trans)
      (by simpa using String.le_total) texts
  exact hsorted.imp of_decide_eq_true

/-! ## Unset variables -/

/-- The first reference without a value, in reading order. -/
def FirstUnset (lookup : Lookup) (w : Word) (name : String) : Prop :=
  ∃ front back, w = front ++ .reference name :: back ∧ lookup name = none ∧
    ∀ other, .reference other ∈ front → lookup other ≠ none

namespace Word

variable {lookup : Lookup} {w : Word} {name : String}

theorem unset?_append (v w : Word) :
    unset? lookup (v ++ w) = (unset? lookup v).or (unset? lookup w) := by
  induction v with
  | nil => rfl
  | cons p v ih =>
    cases p with
    | fixed text => exact ih
    | glob pattern => exact ih
    | reference name =>
      rw [List.cons_append, unset?, unset?, ih]
      split <;> rfl

theorem unset?_eq_none_iff :
    unset? lookup w = none ↔ ∀ name, .reference name ∈ w → lookup name ≠ none := by
  induction w with
  | nil => simp [unset?]
  | cons p w ih =>
    cases p with
    | fixed text => simpa [unset?] using ih
    | glob pattern => simpa [unset?] using ih
    | reference name =>
      rw [unset?]
      split
      · next h => simp_all
      · next h => simp_all

theorem unset?_eq_some_iff : unset? lookup w = some name ↔ FirstUnset lookup w name := by
  constructor
  · intro h
    induction w with
    | nil => cases h
    | cons p w ih =>
      have hbehind : unset? lookup w = some name →
          (∀ other, p = .reference other → lookup other ≠ none) →
            FirstUnset lookup (p :: w) name := by
        intro hw hp
        obtain ⟨front, back, rfl, hnone, hfront⟩ := ih hw
        refine ⟨p :: front, back, rfl, hnone, fun other hother => ?_⟩
        rcases List.mem_cons.mp hother with heq | hmem
        · exact hp other heq.symm
        · exact hfront other hmem
      cases p with
      | fixed text => exact hbehind h (by simp)
      | glob pattern => exact hbehind h (by simp)
      | reference other =>
        rw [unset?] at h
        split at h
        · next hnone =>
          cases h
          exact ⟨[], w, rfl, by simpa using hnone, by simp⟩
        · next hsome => exact hbehind h (by simpa using hsome)
  · rintro ⟨front, back, rfl, hnone, hfront⟩
    rw [unset?_append, unset?_eq_none_iff.mpr hfront, Option.none_or, unset?]
    simp [hnone]

theorem reference_mem_of_unset? (h : unset? lookup w = some name) :
    .reference name ∈ w ∧ lookup name = none := by
  obtain ⟨front, back, rfl, hnone, -⟩ := unset?_eq_some_iff.mp h
  exact ⟨by simp, hnone⟩

theorem exists_of_unset?_flatten {ws : List Word} (h : unset? lookup ws.flatten = some name) :
    ∃ w ∈ ws, .reference name ∈ w ∧ lookup name = none := by
  obtain ⟨hmem, hnone⟩ := reference_mem_of_unset? h
  obtain ⟨w, hw, hname⟩ := List.mem_flatten.mp hmem
  exact ⟨w, hw, hname, hnone⟩

end Word

namespace Expansion

variable {lookup : Lookup}

/-! ## The texts of a word -/

/-- A word without wildcards contributes its text, whatever that is.  Any other word contributes the
paths that match its pattern, sorted. -/
inductive Contributes (setting : Setting) (lookup : Lookup) (w : Word) : List String → Prop where
  | text (hw : ∀ p ∈ w, p.isGlob = false) : Contributes setting lookup w [w.render lookup]
  | matches {found : List String} (hw : ∃ p ∈ w, p.isGlob = true)
      (hfound : found.Perm (setting.files.pathsMatching setting.cwd
        (FileSystem.patternRoot setting.directory (pattern setting.quote lookup w))
        (pattern setting.quote lookup w)))
      (hsorted : found.Pairwise (· ≤ ·)) : Contributes setting lookup w found

theorem contributes_texts (setting : Setting) (w : Word) :
    Contributes setting lookup w (texts setting lookup w) := by
  unfold texts
  split
  · next hglob =>
    exact .matches (List.any_eq_true.mp hglob) (List.mergeSort_perm _ _) (pairwise_mergeSort_le _)
  · next hglob =>
    refine .text fun p hp => ?_
    simp only [Word.hasGlob, List.any_eq_true, not_exists, not_and] at hglob
    simpa using hglob p hp

theorem words_lenient (setting : Setting) (lookup : Lookup) (ws : List Word) :
    words { setting with strict := false } lookup ws = .ok (ws.flatMap (texts setting lookup)) := by
  induction ws with
  | nil => rfl
  | cons w ws ih =>
    rw [words, ih]
    rfl

theorem word_strict (setting : Setting) (w : Word) :
    word { setting with strict := true } lookup w =
      match w.unset? lookup with
      | some name => .error name
      | none => .ok (texts setting lookup w) := rfl

theorem words_strict (setting : Setting) (ws : List Word) :
    words { setting with strict := true } lookup ws =
      match Word.unset? lookup ws.flatten with
      | some name => .error name
      | none => .ok (ws.flatMap (texts setting lookup)) := by
  induction ws with
  | nil => rfl
  | cons w ws ih =>
    rw [words, word_strict, ih, List.flatten_cons, Word.unset?_append]
    cases Word.unset? lookup w with
    | some name => rfl
    | none =>
      rw [Option.none_or]
      cases Word.unset? lookup ws.flatten <;> rfl

/-! ## Looking up on the way -/

/-- A piece as a text, if it is no reference without a value. -/
def lookedUp (lookup : Lookup) (text : Piece → String) : Piece → Except String String
  | .reference name =>
      if (lookup name).isNone then .error name else .ok (text (.reference name))
  | p => .ok (text p)

theorem mapM_lookedUp (text : Piece → String) (w : Word) :
    w.mapM (lookedUp lookup text) =
      match w.unset? lookup with
      | some name => .error name
      | none => .ok (w.map text) := by
  induction w with
  | nil => rfl
  | cons p w ih =>
    rw [List.mapM_cons, ih]
    cases p with
    | fixed fixed => cases hw : Word.unset? lookup w <;> simp [lookedUp, Word.unset?, hw] <;> rfl
    | glob pattern => cases hw : Word.unset? lookup w <;> simp [lookedUp, Word.unset?, hw] <;> rfl
    | reference name =>
      rw [lookedUp, Word.unset?]
      cases lookup name with
      | none => rfl
      | some value => cases Word.unset? lookup w <;> rfl

/-- The text of a word as it is handed on: its pattern if there are wildcards in it. -/
def strictText (setting : Setting) (lookup : Lookup) (w : Word) : Except String String := do
  let parts ← w.mapM <| lookedUp lookup <|
    if w.hasGlob && setting.quote then quotedPiece lookup else Piece.render lookup
  return parts.foldr (· ++ ·) ""

theorem render_eq_foldr (w : Word) :
    w.render lookup = (w.map (Piece.render lookup)).foldr (· ++ ·) "" := by
  induction w with
  | nil => rfl
  | cons p w ih => rw [Word.render_cons, ih, List.map_cons, List.foldr_cons]

/-- It makes no difference that unset variables are looked for before a text is made. -/
theorem word_strict_eq (setting : Setting) (w : Word) :
    word { setting with strict := true } lookup w = do
      let found ← strictText setting lookup w
      return if w.hasGlob then setting.files.glob setting.cwd setting.directory found
        else [found] := by
  rw [word_strict, strictText, mapM_lookedUp]
  cases w.unset? lookup with
  | some name => rfl
  | none =>
    rw [texts, pattern, render_eq_foldr]
    cases w.hasGlob with
    | false => rfl
    | true => cases setting.quote <;> rfl

/-! ## Lists of words -/

theorem words_append_eq_ok_iff {setting : Setting} {vs ws : List Word} {out : List String} :
    words setting lookup (vs ++ ws) = .ok out ↔
      ∃ front back, words setting lookup vs = .ok front ∧ words setting lookup ws = .ok back ∧
        out = front ++ back := by
  rw [words_append]
  cases words setting lookup vs with
  | error name => simp
  | ok front =>
    cases words setting lookup ws with
    | error name => simp
    | ok back => simp [eq_comm]

/-- Words are expanded in order.  In strict mode the error is the first reference without a value in
the pieces of all words, which does not depend on anything but the variables, and it is found on
the way, where the text of a word is made piece by piece.  Otherwise the result is the one without
strict mode.  That is for each word, one after the other, its text, or the paths that match its
pattern in order. -/
theorem words_expand_in_order (setting : Setting) (lookup : Lookup) (ws : List Word) :
    (∀ name, words { setting with strict := true } lookup ws = .error name ↔
      FirstUnset lookup ws.flatten name) ∧
    ((∃ name, words { setting with strict := true } lookup ws = .error name) ↔
      ∃ w ∈ ws, ∃ name, .reference name ∈ w ∧ lookup name = none) ∧
    (∀ w, word { setting with strict := true } lookup w = do
      let found ← strictText setting lookup w
      return if w.hasGlob then setting.files.glob setting.cwd setting.directory found
        else [found]) ∧
    ((∃ name, words { setting with strict := true } lookup ws = .error name) ∨
      words { setting with strict := true } lookup ws =
        words { setting with strict := false } lookup ws) ∧
    words { setting with strict := false } lookup ws = .ok (ws.flatMap (texts setting lookup)) ∧
    (∀ w, Contributes setting lookup w (texts setting lookup w)) ∧
    ∀ vs out, words setting lookup (ws ++ vs) = .ok out ↔
      ∃ front back, words setting lookup ws = .ok front ∧ words setting lookup vs = .ok back ∧
        out = front ++ back := by
  have herror : ∀ name, words { setting with strict := true } lookup ws = .error name ↔
      Word.unset? lookup ws.flatten = some name := by
    intro name
    rw [words_strict]
    cases Word.unset? lookup ws.flatten <;> simp
  refine ⟨fun name => (herror name).trans Word.unset?_eq_some_iff, ?_, word_strict_eq setting, ?_,
    words_lenient setting lookup ws, contributes_texts setting,
    fun vs out => words_append_eq_ok_iff⟩
  · constructor
    · rintro ⟨name, h⟩
      obtain ⟨w, hw, hname, hunset⟩ := Word.exists_of_unset?_flatten ((herror name).mp h)
      exact ⟨w, hw, name, hname, hunset⟩
    · rintro ⟨w, hw, name, hname, hunset⟩
      cases h : Word.unset? lookup ws.flatten with
      | some first => exact ⟨first, (herror first).mpr h⟩
      | none =>
        have hmem : .reference name ∈ ws.flatten := List.mem_flatten.mpr ⟨w, hw, hname⟩
        exact absurd hunset (Word.unset?_eq_none_iff.mp h name hmem)
  · rw [words_lenient, words_strict]
    cases Word.unset? lookup ws.flatten with
    | none => exact Or.inr rfl
    | some name => exact Or.inl ⟨name, rfl⟩

end Expansion

end LineShell
