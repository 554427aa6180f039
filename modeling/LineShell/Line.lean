import LineShell.Word

/-!
# Lines

A line asks for nothing, for some assignments, or for a command.  A redirect is kept by what it
does and not by how it was written: its source is where the data comes from and its target
where the data goes, whichever side of the operator either was written on.
-/

namespace LineShell

inductive Operand where
  /-- A file, named by a word. -/
  | file (path : Word)
  /-- A numbered stream of the command. -/
  | descriptor (number : Nat)
  deriving DecidableEq

inductive RedirectKind where
  /-- `<` reads a file. -/
  | input
  /-- `>` writes a file from its beginning. -/
  | truncate
  /-- `>>` writes at the end of a file. -/
  | append
  deriving DecidableEq

def RedirectKind.symbol : RedirectKind → String
  | .input => "<"
  | .truncate => ">"
  | .append => ">>"

theorem RedirectKind.symbol_injective : ∀ k l : RedirectKind, k.symbol = l.symbol → k = l := by
  intro k l
  cases k <;> cases l <;> decide

/-- A redirect, with an operand left out where none was written. -/
structure Redirect where
  kind : RedirectKind
  source : Option Operand
  target : Option Operand
  deriving DecidableEq

structure Assignment where
  name : String
  value : Word
  deriving DecidableEq

/-- A command: its first argument names it, and its assignments only hold while it runs. -/
structure Command where
  assignments : List Assignment
  arguments : List Word
  redirects : List Redirect
  deriving DecidableEq

inductive Line where
  | blank
  | assignments (assignments : List Assignment)
  | command (command : Command)
  deriving DecidableEq

end LineShell
