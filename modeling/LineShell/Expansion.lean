import LineShell.FileSystem.PathPattern
import LineShell.Word

/-!
# Expansion

Words become texts when a line is run.  A word without wildcards becomes one text.  A word with
wildcards becomes one pattern, and then the paths that match it, none or more, in order.  What
the fixed texts and the variables contribute to a pattern takes part in the matching, unless it
is quoted.

In strict mode a reference to an unset variable is an error.  It is the first one, in the order
of the words and their pieces, that is told.
-/

namespace LineShell

def Word.unset? (lookup : Lookup) : Word → Option String
  | [] => none
  | .reference name :: ps => if (lookup name).isNone then some name else unset? lookup ps
  | _ :: ps => unset? lookup ps

namespace Expansion

/-- A word as one text, with wildcards as they are.  In strict mode the name of an unset variable
is an error. -/
def one (strict : Bool) (lookup : Lookup) (w : Word) : Except String String :=
  match if strict then w.unset? lookup else none with
  | some name => .error name
  | none => .ok (w.render lookup)

/-- A piece as part of a pattern in which only the wildcards have a meaning. -/
def quotedPiece (lookup : Lookup) : Piece → String
  | .glob pattern => pattern
  | p => NamePattern.escape (p.render lookup)

def pattern (quote : Bool) (lookup : Lookup) (w : Word) : String :=
  if quote then (w.map (quotedPiece lookup)).foldr (· ++ ·) "" else w.render lookup

structure Setting where
  files : FileSystem
  /-- The working directory of the process. -/
  cwd : String
  /-- The directory in which relative patterns are matched, if it is another one. -/
  directory : Option String
  strict : Bool
  quote : Bool

/-- What a word stands for if all of its variables have a value, or empty values are put in for
those that have none. -/
def texts (setting : Setting) (lookup : Lookup) (w : Word) : List String :=
  if w.hasGlob then
    setting.files.glob setting.cwd setting.directory (pattern setting.quote lookup w)
  else [w.render lookup]

def word (setting : Setting) (lookup : Lookup) (w : Word) : Except String (List String) :=
  match if setting.strict then w.unset? lookup else none with
  | some name => .error name
  | none => .ok (texts setting lookup w)

def words (setting : Setting) (lookup : Lookup) : List Word → Except String (List String)
  | [] => .ok []
  | w :: ws =>
      match word setting lookup w with
      | .error name => .error name
      | .ok front =>
          match words setting lookup ws with
          | .error name => .error name
          | .ok back => .ok (front ++ back)

theorem one_of_not_strict (lookup : Lookup) (w : Word) :
    one false lookup w = .ok (w.render lookup) := rfl

/-- A word without wildcards is one text. -/
theorem word_of_not_hasGlob (setting : Setting) (lookup : Lookup) {w : Word}
    (h : w.hasGlob = false) :
    word setting lookup w = (one setting.strict lookup w).map fun text => [text] := by
  have htexts : texts setting lookup w = [w.render lookup] := by simp [texts, h]
  rw [word, one, htexts]
  cases if setting.strict then w.unset? lookup else none <;> rfl

theorem word_fixed (setting : Setting) (lookup : Lookup) (text : String) :
    word setting lookup [.fixed text] = .ok [text] := by
  have hrender : Word.render lookup [.fixed text] = text := by
    rw [Word.render_cons, Word.render_nil, Piece.render, String.append_empty]
  rw [word_of_not_hasGlob _ _ rfl, one, hrender]
  cases setting.strict <;> rfl

theorem words_append (setting : Setting) (lookup : Lookup) (vs ws : List Word) :
    words setting lookup (vs ++ ws) =
      match words setting lookup vs with
      | .error name => .error name
      | .ok front =>
          match words setting lookup ws with
          | .error name => .error name
          | .ok back => .ok (front ++ back) := by
  induction vs with
  | nil => cases h : words setting lookup ws <;> simp [words, h]
  | cons v vs ih =>
    simp only [List.cons_append, words, ih]
    cases word setting lookup v with
    | error name => rfl
    | ok front =>
      cases words setting lookup vs with
      | error name => rfl
      | ok middle =>
        cases words setting lookup ws with
        | error name => rfl
        | ok back => simp

end Expansion

end LineShell
