import LineShell.Text.Quoted

/-!
# Words

An argument of a command, the value of an assignment and the path of a redirect are *words*.  A
word is not a text yet: it is the sequence of the fixed texts, the variable references and the
file-name wildcards it was written with.  It becomes a text, or a list of file names, when it
is expanded, so a variable counts with the value that it has at that time.

Pieces that were written next to each other are never merged, so words form the free monoid
over pieces: joining two words is appending their lists.
-/

namespace LineShell

inductive Piece where
  /-- A text that stands for itself. -/
  | fixed (text : String)
  /-- The value of a variable. -/
  | reference (name : String)
  /-- A wildcard: `?`, `*`, `**` or a character class in brackets. -/
  | glob (pattern : String)
  deriving DecidableEq

abbrev Word := List Piece

abbrev Lookup := String → Option String

/-- A piece as text.  An unset variable is empty, and a wildcard is its own pattern. -/
def Piece.render (lookup : Lookup) : Piece → String
  | .fixed text => text
  | .reference name => (lookup name).getD ""
  | .glob pattern => pattern

def Piece.isGlob : Piece → Bool
  | .glob _ => true
  | _ => false

namespace Word

def render (lookup : Lookup) : Word → String
  | [] => ""
  | p :: ps => p.render lookup ++ render lookup ps

def hasGlob (w : Word) : Bool :=
  w.any Piece.isGlob

@[simp] theorem render_nil (lookup : Lookup) : render lookup [] = "" := rfl

@[simp] theorem render_cons (lookup : Lookup) (p : Piece) (ps : Word) :
    render lookup (p :: ps) = p.render lookup ++ render lookup ps := rfl

theorem render_append (lookup : Lookup) (v w : Word) :
    render lookup (v ++ w) = render lookup v ++ render lookup w := by
  induction v with
  | nil => simp
  | cons p ps ih => simp [ih, String.append_assoc]

theorem hasGlob_append (v w : Word) : hasGlob (v ++ w) = (hasGlob v || hasGlob w) := by
  simp [hasGlob, List.any_append]

end Word

/-! ## The form shown in diagnostics -/

/-- A piece as diagnostics show it: its kind, and its text between quotation marks. -/
def Piece.description : Piece → String
  | .fixed text => "Fixed(text=" ++ quoted text ++ ")"
  | .reference name => "Variable(name=" ++ quoted name ++ ")"
  | .glob pattern => "Glob(pattern=" ++ quoted pattern ++ ")"

def Word.description (w : Word) : String :=
  "ShellString([" ++ String.intercalate ", " (w.map Piece.description) ++ "])"

end LineShell
