import LineShell.Expansion

/-!
# What a word refers to

A word is expanded with the values of the variables that it refers to.  So its expansion is the
same with any variables that agree on these names, be it that they have the same value or that
they are both unset.
-/

namespace LineShell

def Piece.reference? : Piece → Option String
  | .reference name => some name
  | _ => none

/-- The names that a word refers to. -/
def Word.references (w : Word) : List String :=
  w.filterMap Piece.reference?

theorem Piece.render_congr {lookup lookup' : Lookup} {p : Piece}
    (h : ∀ name ∈ p.reference?, lookup name = lookup' name) :
    p.render lookup = p.render lookup' := by
  cases p with
  | fixed text => rfl
  | reference name => rw [render, render, h name rfl]
  | glob pattern => rfl

namespace Word

theorem reference?_subset {p : Piece} {w : Word} (hp : p ∈ w) {name : String}
    (h : name ∈ p.reference?) : name ∈ w.references :=
  List.mem_filterMap.mpr ⟨p, hp, h⟩

theorem references_subset_cons (p : Piece) (w : Word) :
    references w ⊆ references (p :: w) :=
  ((List.sublist_cons_self p w).filterMap Piece.reference?).subset

variable {lookup lookup' : Lookup} {w : Word}

theorem render_congr (h : ∀ name ∈ w.references, lookup name = lookup' name) :
    w.render lookup = w.render lookup' := by
  induction w with
  | nil => rfl
  | cons p w ih =>
    have hp := Piece.render_congr fun name hname =>
      h name (reference?_subset List.mem_cons_self hname)
    have hw := ih fun name hname => h name (references_subset_cons p w hname)
    rw [render_cons, render_cons, hp, hw]

theorem unset?_congr (h : ∀ name ∈ w.references, lookup name = lookup' name) :
    w.unset? lookup = w.unset? lookup' := by
  induction w with
  | nil => rfl
  | cons p w ih =>
    have hw := ih fun name hname => h name (references_subset_cons p w hname)
    cases p with
    | fixed text => exact hw
    | reference name =>
      have hname := h name (reference?_subset List.mem_cons_self rfl)
      rw [unset?, unset?, hname, hw]
    | glob pattern => exact hw

end Word

namespace Expansion

variable {lookup lookup' : Lookup}

theorem one_congr {w : Word} (h : ∀ name ∈ w.references, lookup name = lookup' name)
    (strict : Bool) : one strict lookup w = one strict lookup' w := by
  rw [one, one, Word.unset?_congr h, Word.render_congr h]

theorem pattern_congr {w : Word} (h : ∀ name ∈ w.references, lookup name = lookup' name)
    (quote : Bool) : pattern quote lookup w = pattern quote lookup' w := by
  have hpieces : w.map (quotedPiece lookup) = w.map (quotedPiece lookup') := by
    apply List.map_congr_left
    intro p hp
    have hrender := Piece.render_congr fun name hname =>
      h name (Word.reference?_subset hp hname)
    cases p with
    | fixed text => rfl
    | reference name => rw [quotedPiece, quotedPiece, hrender] <;> simp
    | glob pattern => rfl
  rw [pattern, pattern, hpieces, Word.render_congr h]

theorem texts_congr {w : Word} (h : ∀ name ∈ w.references, lookup name = lookup' name)
    (setting : Setting) : texts setting lookup w = texts setting lookup' w := by
  rw [texts, texts, pattern_congr h, Word.render_congr h]

theorem words_congr {ws : List Word}
    (h : ∀ w ∈ ws, ∀ name ∈ w.references, lookup name = lookup' name) (setting : Setting) :
    words setting lookup ws = words setting lookup' ws := by
  induction ws with
  | nil => rfl
  | cons w ws ih =>
    have hfirst := h w List.mem_cons_self
    have hword : word setting lookup w = word setting lookup' w := by
      rw [word, word, Word.unset?_congr hfirst, texts_congr hfirst]
    rw [words, words, hword, ih fun v hv => h v (List.mem_cons_of_mem w hv)]

end Expansion

end LineShell
