import LineShell.Line
import LineShell.Session
import LineShell.Text.Numeral

/-!
# Machines

A machine is a session together with the host that it runs on: the files, the environment and
working directory of the shell itself, and a record of what leaves the shell.  That is the text
on its two streams, and the programs it started.

Work on a machine ends with a value, or it is interrupted: by an error, by the wish to leave the
shell, or because another program has taken the place of the shell.  What was done until then
stays done.
-/

namespace LineShell

/-! ## Streams -/

/-- An open file.  A writer that does not append has a position. -/
structure Handle where
  path : String
  mode : FileSystem.OpenMode
  location : Location
  position : Nat
  deriving DecidableEq

inductive Channel where
  | output
  | errors
  | file (handle : Nat)
  deriving DecidableEq

structure Streams where
  input : Option Nat
  output : Option Channel
  errors : Option Channel
  deriving DecidableEq

def Streams.inherited : Streams := ⟨none, none, none⟩

/-! ## What leaves the shell -/

/-- A line with which the shell comments on its work. -/
def diagnostic (text : String) : String :=
  "gesh: " ++ text ++ "\n"

structure Invocation where
  path : String
  arguments : List String
  environment : Variables
  directory : String
  deriving DecidableEq

inductive Attachment where
  | output
  | errors
  | file (path : String) (mode : FileSystem.OpenMode)
  deriving DecidableEq

/-- A program that was started, beside the shell or in its place.  A stream without an attachment
is the one of the shell. -/
inductive Call where
  | run (invocation : Invocation) (input output errors : Option Attachment)
  | exec (invocation : Invocation)
  deriving DecidableEq

/-! ## Errors -/

inductive RedirectError where
  | inputNeedsFile
  | inputTarget
  | outputSource
  | missingTarget (kind : RedirectKind)
  | unsupportedTarget (descriptor : Nat)
  deriving DecidableEq

def RedirectError.message : RedirectError → String
  | .inputNeedsFile => "input redirection requires a file"
  | .inputTarget => "input can only be redirected into stdin (0)"
  | .outputSource => "only stdout (1) and stderr (2) can be redirected for output"
  | .missingTarget kind => "missing target for '" ++ kind.symbol ++ "'"
  | .unsupportedTarget n =>
      "unsupported redirection target: DescriptorNode(fd=" ++ toString n ++ ")"

/-- Why a command, or a line, does not come to its end. -/
inductive ShellError where
  /-- A variable is unset in strict mode. -/
  | unset (name : String)
  | path (error : PathError) (path : String)
  | redirect (error : RedirectError)
  | numeral (error : NumeralError)
  /-- A command complains about what it is asked to do. -/
  | complaint (text : String)
  /-- A command breaks. -/
  | breakdown (text : String)
  deriving DecidableEq

namespace ShellError

def message : ShellError → String
  | .unset name => name ++ ": unset variable"
  | .path error place =>
      match error.code? with
      | some code => "[Errno " ++ toString code ++ "] " ++ error.reason ++ ": " ++ quoted place
      | none => error.reason
  | .redirect error => error.message
  | .numeral error => error.message
  | .complaint text => text
  | .breakdown text => text

/-- Whether a line that meets the error while it runs ends with a message. -/
def isReported : ShellError → Bool
  | .breakdown _ => false
  | _ => true

end ShellError

inductive Interruption where
  | failed (error : ShellError)
  | exit (status : Int)
  | replaced
  deriving DecidableEq

/-! ## Machines and actions -/

structure Host where
  files : FileSystem
  workingDirectory : String
  environment : Variables
  handles : List Handle
  output : String
  errors : String
  calls : List Call

structure Machine where
  session : Session
  host : Host

abbrev Action := EStateM Interruption Machine

namespace Host

def start (files : FileSystem) (workingDirectory : String) (environment : Variables) : Host :=
  ⟨files, workingDirectory, environment, [], "", "", []⟩

def cleared (host : Host) : Host :=
  { host with output := "", errors := "", calls := [] }

/-- Writes to an open file, where the writer is or at the end. -/
def writeFile (host : Host) (n : Nat) (data : Content) : Host :=
  match host.handles[n]? with
  | none => host
  | some handle =>
      let content := host.files.contentAt handle.location
      match handle.mode with
      | .append =>
          { host with files := host.files.setContent handle.location (content ++ data) }
      | _ =>
          { host with
            files :=
              host.files.setContent handle.location (content.writeAt handle.position data)
            handles :=
              host.handles.set n { handle with position := handle.position + data.length } }

def write (host : Host) (channel : Channel) (data : Content) : Host :=
  match channel with
  | .output => { host with output := host.output ++ data.toText }
  | .errors => { host with errors := host.errors ++ data.toText }
  | .file n => host.writeFile n data

def remaining (host : Host) (n : Nat) : Content :=
  match host.handles[n]? with
  | none => []
  | some handle => (host.files.contentAt handle.location).drop handle.position

/-- Opens a file.  The handle is the number of handles before it. -/
def openFile (host : Host) (path : String) (mode : FileSystem.OpenMode) :
    Except PathError (Nat × Host) :=
  let opened :=
    match mode with
    | .read =>
        (host.files.openForReading host.workingDirectory path).map fun loc => (loc, host.files)
    | .truncate => host.files.openForWriting host.workingDirectory path true
    | .append => host.files.openForWriting host.workingDirectory path false
  match opened with
  | .error e => .error e
  | .ok (loc, files) =>
      .ok (host.handles.length,
        { host with files := files, handles := host.handles ++ [⟨path, mode, loc, 0⟩] })

def attachment (host : Host) : Channel → Option Attachment
  | .output => some .output
  | .errors => some .errors
  | .file n => (host.handles[n]?).map fun handle => .file handle.path handle.mode

end Host

namespace Action

def session : Action Session := do
  return (← get).session

def host : Action Host := do
  return (← get).host

def modifySession (f : Session → Session) : Action Unit :=
  modify fun m => { m with session := f m.session }

def modifyHost (f : Host → Host) : Action Unit :=
  modify fun m => { m with host := f m.host }

def fail {α : Type} (error : ShellError) : Action α :=
  throw (.failed error)

def writeText (channel : Channel) (text : String) : Action Unit :=
  modifyHost fun host => host.write channel (Content.ofText text)

def record (call : Call) : Action Unit :=
  modifyHost fun host => { host with calls := host.calls ++ [call] }

/-- Changes the machine behind some work, however the work ends. -/
def andThen {α : Type} (f : Machine → Machine) (action : Action α) : Action α := fun m =>
  match action m with
  | .ok a m' => .ok a (f m')
  | .error e m' => .error e (f m')

/-- Works on a copy of the session.  Only what happens to the host is kept. -/
def onCopy {α : Type} (action : Action α) : Action α := fun m =>
  action.andThen (fun m' => { m' with session := m.session }) m

/-- Closes the files that are open when the work ends. -/
def closingFiles {α : Type} (action : Action α) : Action α :=
  action.andThen fun m => { m with host := { m.host with handles := [] } }

end Action

end LineShell
