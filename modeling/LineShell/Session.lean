import LineShell.FileSystem.Canonical
import LineShell.Variables

/-!
# Sessions

A session is what a line of input can change about the shell itself: the variables, which of
them programs get to see, the working directory, and the stack of directories to go back to.
It is a plain value.  Work on a copy of a session can not be seen in the session.
-/

namespace LineShell

structure Session where
  vars : Variables
  /-- The names that are exported, with or without a value. -/
  exported : List String
  directory : String
  /-- The directories to go back to, the next one first. -/
  stack : List String
  /-- A reference to an unset variable is an error, and not just empty. -/
  strict : Bool
  deriving DecidableEq

namespace Session

def get? (s : Session) (name : String) : Option String :=
  s.vars.get? name

def set (s : Session) (name value : String) : Session :=
  { s with vars := s.vars.set name value }

def markExported (s : Session) (name : String) : Session :=
  { s with exported := if s.exported.contains name then s.exported else s.exported ++ [name] }

def exportedVariables (s : Session) : Variables :=
  s.vars.restrict s.exported

def searchPath (s : Session) : List String :=
  (((s.get? "PATH").getD "").toList.splitOn ':').filterMap fun dir =>
    if dir.isEmpty then none else some (String.ofList dir)

/-- Changes the working directory, also in the variable that tells it. -/
def enter (s : Session) (dir : String) : Session :=
  { s.set "PWD" dir with directory := dir }

/-- The session behind one assignment.  In front of a command it also exports the name. -/
def storeOne (exporting : Bool) (s : Session) (name value : String) : Session :=
  if exporting then (s.set name value).markExported name else s.set name value

/-- The directory that a session is asked to start in. -/
def requested (cwd : String) (dir : Option String) : String :=
  match dir with
  | some dir => if dir.isEmpty then cwd else dir
  | none => cwd

/-- A session with an environment of exported variables.  It begins in `dir`, or in the working
directory `cwd` of the shell if that is not given. -/
def start (fs : FileSystem) (cwd : String) (environment : Variables) (dir : Option String)
    (strict : Bool) : Except PathError Session :=
  match fs.canonicalPath cwd (requested cwd dir) with
  | .error e => .error e
  | .ok dir => .ok ⟨environment, environment.names, dir, [], strict⟩

@[simp] theorem get?_set (s : Session) (name value other : String) :
    (s.set name value).get? other = if other = name then some value else s.get? other :=
  Variables.get?_set s.vars name value other

theorem mem_exported_markExported (s : Session) (name other : String) :
    other ∈ (s.markExported name).exported ↔ other = name ∨ other ∈ s.exported := by
  by_cases h : name ∈ s.exported
  · constructor
    · intro hother
      exact Or.inr (by simpa [Session.markExported, h] using hother)
    · rintro (rfl | hother)
      · simp [Session.markExported, h]
      · simpa [Session.markExported, h] using hother
  · simp [Session.markExported, h, or_comm]

theorem get?_exportedVariables (s : Session) (name : String) :
    s.exportedVariables.get? name = if name ∈ s.exported then s.get? name else none :=
  Variables.get?_restrict s.vars s.exported name

end Session

end LineShell
