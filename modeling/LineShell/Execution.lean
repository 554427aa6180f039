import LineShell.Builtin
import LineShell.Redirection

/-!
# Running lines

A line is read as a whole before anything of it is done.  The arguments of a command are expanded
before the assignments in front of it are made, and these are made on a copy of the session, so
that they end with the command.
-/

namespace LineShell

def notFoundStatus : Int := 127

namespace Registry

/-- The work of a command whose streams are open: a builtin if there is one with its name, else a
program. -/
def dispatch (registry : Registry) (name : String) (arguments : List String) (streams : Streams) :
    Action Int :=
  match registry.lookup name with
  | some builtin => builtin.run ⟨arguments, streams⟩
  | none => do
      let s ← Action.session
      let host ← Action.host
      match Executable.find? host s name with
      | none =>
          Context.err ⟨[], streams⟩ (diagnostic ("command not found: " ++ name))
          return notFoundStatus
      | some path => Executable.run path name arguments streams

/-- Runs a command with its arguments.  The files of its redirects are closed when it ends. -/
def execute (registry : Registry) (name : String) (arguments : List String)
    (redirects : List Redirect) : Action Int := Action.closingFiles do
  let streams ← Redirection.applyAll .inherited redirects
  registry.dispatch name arguments streams

end Registry

/-- What words are expanded to. -/
def Machine.expand (m : Machine) (ws : List Word) : Except String (List String) :=
  Expansion.words
    { files := m.host.files, cwd := m.host.workingDirectory, directory := some m.session.directory
      strict := m.session.strict, quote := false }
    m.session.get? ws

namespace Execution

/-- Makes assignments from left to right, each with the ones before it in place. -/
def assign (exporting : Bool) : List Assignment → Action Unit
  | [] => return ()
  | a :: as => do
      let s ← Action.session
      match Expansion.one s.strict s.get? a.value with
      | .error name => Action.fail (.unset name)
      | .ok value =>
          Action.modifySession fun s => s.storeOne exporting a.name value
          assign exporting as

def expandArguments (ws : List Word) : Action (List String) := do
  match (← get).expand ws with
  | .error name => Action.fail (.unset name)
  | .ok arguments => return arguments

theorem expandArguments_eq (ws : List Word) (m : Machine) :
    expandArguments ws m =
      match m.expand ws with
      | .error name => .error (.failed (.unset name)) m
      | .ok arguments => .ok arguments m := by
  change (match m.expand ws with
    | .error name => Action.fail (.unset name)
    | .ok arguments => return arguments : Action (List String)) m = _
  cases m.expand ws <;> rfl

def runCommand (registry : Registry) (c : Command) : Action Int := do
  match ← expandArguments c.arguments with
  | [] => return 0
  | name :: arguments =>
      let work := registry.execute name arguments c.redirects
      if c.assignments.isEmpty then work
      else
        Action.onCopy do
          assign true c.assignments
          work

def runParsed (registry : Registry) : Line → Action Int
  | .blank => return 0
  | .assignments as => do
      assign false as
      return 0
  | .command c => runCommand registry c

def badLineStatus : Int := 2

def errorStatus : Int := 1

/-- What becomes of an interrupted line: errors that are reported end it with a diagnostic. -/
def reporting (work : Action Int) : Action Int :=
  tryCatch work fun interruption =>
    match interruption with
    | .failed error =>
        if error.isReported then do
          Action.writeText .errors (diagnostic error.message)
          return errorStatus
        else throw (.failed error)
    | other => throw other

end Execution

open Execution in
/-- Reads a line and runs it.  An overlong or malformed descriptor is not reported here. -/
def executeLine (registry : Registry) (text : String) : Action Int := do
  match parse text with
  | .error (.numeral error) => Action.fail (.numeral error)
  | .error failure =>
      Action.writeText .errors (diagnostic ("parse error: " ++ failure.message))
      return badLineStatus
  | .ok line => reporting (runParsed registry line)

/-- Runs a line on its own.  Leaving the shell is the end of the line. -/
def runLine (text : String) : Action Int :=
  tryCatch (executeLine .standard text) fun interruption =>
    match interruption with
    | .exit status => return status
    | other => throw other

end LineShell
