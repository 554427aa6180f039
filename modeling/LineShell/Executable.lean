import LineShell.Machine

/-!
# Programs on the machine

A command that is not built in names a program.  A name with a slash is a path; any other name is
searched for in the directories of the variable `PATH`, and then in the working directory.

The directories of `PATH` are seen from the working directory of the shell itself, but a program
is started in the working directory of the session.
-/

namespace LineShell

namespace Executable

/-- The first program with a given name in a list of directories.  A directory that was searched
before is not searched again. -/
def search (host : Host) (name : String) (seen : List String) : List String → Option String
  | [] => none
  | dir :: dirs =>
      if seen.contains dir then search host name seen dirs
      else
        let path := Path.join dir name
        if host.files.isExecutable host.workingDirectory path then some path
        else search host name (dir :: seen) dirs

def check (host : Host) (path : String) : Option String :=
  if host.files.isExecutable host.workingDirectory path then some path else none

/-- What a name stands for on a search path, a text with a directory between each two of its colons.
A name that has a directory part of its own is not searched for. -/
def which (host : Host) (name searchPath : String) : Option String :=
  if (Path.split name).1.isEmpty then
    if searchPath.isEmpty then none
    else search host name [] ((searchPath.toList.splitOn ':').map String.ofList)
  else check host name

def find? (host : Host) (s : Session) (name : String) : Option String :=
  let here := Path.join s.directory name
  if Path.isAbsolute name then check host name
  else if name.toList.contains '/' then check host here
  else
    match which host name (String.intercalate ":" s.searchPath) with
    | some path => some path
    | none => check host here

def invocation (s : Session) (path : String) (arguments : List String) : Invocation :=
  ⟨path, arguments, s.exportedVariables, s.directory⟩

def checkDirectory (host : Host) (dir : String) : Except PathError Unit :=
  match host.files.resolve true host.workingDirectory dir with
  | .error e => .error e
  | .ok (_, some .directory) => .ok ()
  | .ok (_, some _) => .error .notDirectory
  | .ok (_, none) => .error .missing

/-- What comes of starting a program that is there. -/
def started (program : Program) : Except String Program :=
  match program.launch with
  | .refused reason => .error reason
  | _ => .ok program

/-- The program at a path, as seen from the directory it is started in, or why it can not be
started. -/
def programAt (host : Host) (dir path : String) : Except String Program :=
  match checkDirectory host dir with
  | .error e => .error e.reason
  | .ok () =>
      match host.files.resolve true dir path with
      | .error e => .error e.reason
      | .ok (_, none) => .error PathError.missing.reason
      | .ok (_, some (.file _ (some program))) => started program
      | .ok (_, some _) => .error "Permission denied"

def interruptedStatus : Int := 130

def refusedStatus : Int := 126

/-- What a running program does: first the arguments, then a copy of its input, then its text, and
at last its complaints. -/
def perform (program : Program) (arguments : List String) (streams : Streams) : Action Int := do
  let out := streams.output.getD .output
  if program.printsArguments then
    Action.writeText out (String.intercalate " " arguments ++ "\n")
  if program.copiesInput then
    match streams.input with
    | some handle => Action.modifyHost fun host => host.write out (host.remaining handle)
    | none => pure ()
  Action.writeText out program.output
  Action.writeText (streams.errors.getD .errors) program.errors
  return program.status

/-- Runs a program and waits for it.  A text with a null character in it, among the arguments or the
exported variables, is passed on like any other one: that the system takes no such text, and that
the command fails then, is left out. -/
def run (path name : String) (arguments : List String) (streams : Streams) : Action Int := do
  let s ← Action.session
  let host ← Action.host
  Action.record <|
    .run (invocation s path (name :: arguments))
      (streams.input.bind fun n => host.attachment (.file n))
      (streams.output.bind host.attachment) (streams.errors.bind host.attachment)
  match programAt host s.directory path with
  | .error reason =>
      Action.writeText .errors (diagnostic (name ++ ": " ++ reason))
      return refusedStatus
  | .ok program =>
      if program.launch = .interrupted then return interruptedStatus
      else perform program arguments streams

/-- Puts a program in the place of the shell.  Once the working directory can be entered, that is
taken to succeed.  So it is left out that the system may refuse the program, that nothing may be at
the path as it is seen from the working directory, and that an argument or an exported variable may
have a null character in it. -/
def replace (path : String) (arguments : List String) : Action Int := do
  let s ← Action.session
  let host ← Action.host
  match checkDirectory host s.directory with
  | .error e => Action.fail (.path e s.directory)
  | .ok () =>
      Action.record (.exec (invocation s path arguments))
      throw .replaced

end Executable

end LineShell
