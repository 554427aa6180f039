import LineShell.Executable
import LineShell.Parser.Line

/-!
# Builtin commands

A builtin works on the session it is called in.  It gets its arguments, and the streams of the
command as far as they are redirected.
-/

namespace LineShell

/-- What a builtin of the user does: it writes, and then fails or ends. -/
structure Scripted where
  /-- Text before the arguments, on the output. -/
  output : Option String
  errors : Option String
  failure : Option ShellError
  status : Int
  deriving DecidableEq

inductive Builtin where
  | cd
  | dirs
  | exec
  | exit
  | «export»
  | popd
  | pushd
  | scripted (script : Scripted)
  deriving DecidableEq

abbrev Registry := List (String × Builtin)

def Registry.standard : Registry :=
  [("cd", .cd), ("dirs", .dirs), ("exec", .exec), ("exit", .exit), ("export", .export),
    ("popd", .popd), ("pushd", .pushd)]

/-- Adds a builtin, in place of one with the same name. -/
def Registry.register (registry : Registry) (name : String) (builtin : Builtin) : Registry :=
  (name, builtin) :: registry

structure Context where
  arguments : List String
  streams : Streams

namespace Context

def out (ctx : Context) (text : String) : Action Unit :=
  Action.writeText (ctx.streams.output.getD .output) text

def err (ctx : Context) (text : String) : Action Unit :=
  Action.writeText (ctx.streams.errors.getD .errors) text

end Context

namespace Builtin

/-! ## Directories -/

def changeDirectory (ctx : Context) (name target : String) : Action Int := do
  let s ← Action.session
  let host ← Action.host
  match host.files.canonicalPath host.workingDirectory (Path.join s.directory target) with
  | .error e => Action.fail (.path e (Path.join s.directory target))
  | .ok dir =>
      if host.files.isDirectory host.workingDirectory dir then
        Action.modifySession fun s => s.enter dir
        return 0
      else
        ctx.err (diagnostic (name ++ ": no such directory: " ++ target))
        return 1

/-- The directory of the user, from the session or else from the environment of the shell. -/
def homeDirectory (host : Host) (s : Session) : String :=
  match s.get? "HOME" with
  | some home => if home.isEmpty then Path.expandHome (host.environment.get? "HOME") "~" else home
  | none => Path.expandHome (host.environment.get? "HOME") "~"

def runCd (ctx : Context) : Action Int :=
  match ctx.arguments with
  | [] => do
      let s ← Action.session
      let host ← Action.host
      changeDirectory ctx "cd" (homeDirectory host s)
  | [target] => changeDirectory ctx "cd" target
  | _ => do
      ctx.err (diagnostic "cd: too many arguments")
      return 1

/-- Changes the working directory and puts the old one on the stack. -/
def runPushd (ctx : Context) : Action Int :=
  match ctx.arguments with
  | [target] => do
      let previous := (← Action.session).directory
      let status ← changeDirectory ctx "pushd" target
      if status = 0 then
        Action.modifySession fun s => { s with stack := previous :: s.stack }
      return status
  | _ => do
      ctx.err (diagnostic "pushd: usage: pushd DIR")
      return 1

/-- Takes a directory from the stack, and then tries to change to it. -/
def runPopd (ctx : Context) : Action Int := do
  let s ← Action.session
  match s.stack with
  | [] =>
      ctx.err (diagnostic "popd: directory stack empty")
      return 1
  | target :: rest =>
      Action.modifySession fun s => { s with stack := rest }
      changeDirectory ctx "popd" target

def runDirs (ctx : Context) : Action Int := do
  let s ← Action.session
  ctx.out (String.intercalate " " (s.directory :: s.stack) ++ "\n")
  return 0

/-! ## Variables -/

def listExported (ctx : Context) (s : Session) : List String → Action Unit
  | [] => return ()
  | name :: names => do
      match s.get? name with
      | some value => ctx.out ("export " ++ name ++ "=" ++ value ++ "\n")
      | none => pure ()
      listExported ctx s names

/-- Cuts a text at its first equals sign. -/
def splitAssignment (argument : String) : String × Option String :=
  let cs := argument.toList
  match cs.dropWhile (· != '=') with
  | [] => (argument, none)
  | _ :: value => (String.ofList (cs.takeWhile (· != '=')), some (String.ofList value))

def exportName (s : Session) (name : String) (value : Option String) : Session :=
  match value with
  | some value => (s.set name value).markExported name
  | none => s.markExported name

/-- Exports the names of the arguments one by one.  A name that is not valid does not keep the
others from being exported. -/
def exportAll (ctx : Context) (status : Int) : List String → Action Int
  | [] => return status
  | argument :: rest => do
      let (name, value) := splitAssignment argument
      if isValidName name then
        Action.modifySession fun s => exportName s name value
        exportAll ctx status rest
      else
        ctx.err (diagnostic ("export: not a valid identifier: " ++ name))
        exportAll ctx 1 rest

def runExport (ctx : Context) : Action Int :=
  match ctx.arguments with
  | [] => do
      let s ← Action.session
      listExported ctx s (s.exported.mergeSort fun a b => a ≤ b)
      return 0
  | arguments => exportAll ctx 0 arguments

/-! ## Leaving the shell -/

/-- The status of a shell that is left with something that is no number. -/
def badExitStatus : Int := 255

def exitStatus : List String → Int
  | [] => 0
  | argument :: _ =>
      match Numeral.read argument with
      | .ok n => n
      | .error _ => badExitStatus

def runExit (ctx : Context) : Action Int :=
  throw (.exit (exitStatus ctx.arguments))

def runExec (ctx : Context) : Action Int :=
  match ctx.arguments with
  | [] => return 0
  | name :: _ => do
      let s ← Action.session
      let host ← Action.host
      match Executable.find? host s name with
      | none =>
          ctx.err (diagnostic ("exec: command not found: " ++ name))
          return 127
      | some path => Executable.replace path ctx.arguments

def scriptedEnd (script : Scripted) : Action Int :=
  match script.failure with
  | some error => Action.fail error
  | none => return script.status

def runScripted (script : Scripted) (ctx : Context) : Action Int := do
  match script.output with
  | some text => ctx.out (text ++ String.intercalate " " ctx.arguments ++ "\n")
  | none => pure ()
  match script.errors with
  | some text => ctx.err text
  | none => pure ()
  scriptedEnd script

def run : Builtin → Context → Action Int
  | .cd => runCd
  | .dirs => runDirs
  | .exec => runExec
  | .exit => runExit
  | .export => runExport
  | .popd => runPopd
  | .pushd => runPushd
  | .scripted script => runScripted script

end Builtin

end LineShell
