import LineShell.Expansion
import LineShell.Machine

/-!
# Redirection

Before a command runs its redirects are carried out, from left to right.  An output redirect
changes where one of the two output streams leads; if its target is a descriptor, the stream
leads from then on to where that descriptor leads at that moment.  A redirect that can not be
carried out ends the command before it runs, but the files of the redirects before it have been
opened by then.
-/

namespace LineShell

namespace Redirection

/-- The path of the file that a word names, seen from the working directory of the session. -/
def filePath (w : Word) : Action String := do
  let s ← Action.session
  match Expansion.one s.strict s.get? w with
  | .error name => Action.fail (.unset name)
  | .ok path => return Path.join s.directory path

def openFile (w : Word) (mode : FileSystem.OpenMode) : Action Nat := do
  let path ← filePath w
  let host ← Action.host
  match host.openFile path mode with
  | .error e => Action.fail (.path e path)
  | .ok (handle, host) =>
      Action.modifyHost fun _ => host
      return handle

inductive OutputStream where
  | output
  | errors
  deriving DecidableEq

/-- The stream that an output redirect is about. -/
def outputSource : Option Operand → Except RedirectError OutputStream
  | none => .ok .output
  | some (.descriptor 1) => .ok .output
  | some (.descriptor 2) => .ok .errors
  | some _ => .error .outputSource

def current (streams : Streams) : OutputStream → Channel
  | .output => streams.output.getD .output
  | .errors => streams.errors.getD .errors

def connect (streams : Streams) (stream : OutputStream) (channel : Channel) : Streams :=
  match stream with
  | .output => { streams with output := some channel }
  | .errors => { streams with errors := some channel }

def outputTarget (streams : Streams) (kind : RedirectKind) : Option Operand → Action Channel
  | none => Action.fail (.redirect (.missingTarget kind))
  | some (.file w) => do
      let mode := if kind = .append then FileSystem.OpenMode.append else .truncate
      return .file (← openFile w mode)
  | some (.descriptor 1) => return current streams .output
  | some (.descriptor 2) => return current streams .errors
  | some (.descriptor n) => Action.fail (.redirect (.unsupportedTarget n))

def redirectInput (streams : Streams) (source target : Option Operand) : Action Streams :=
  match source with
  | some (.file w) =>
      if target = none ∨ target = some (.descriptor 0) then do
        return { streams with input := some (← openFile w .read) }
      else Action.fail (.redirect .inputTarget)
  | _ => Action.fail (.redirect .inputNeedsFile)

def apply (streams : Streams) (r : Redirect) : Action Streams :=
  match r.kind with
  | .input => redirectInput streams r.source r.target
  | kind =>
      match outputSource r.source with
      | .error e => Action.fail (.redirect e)
      | .ok stream => do
          return connect streams stream (← outputTarget streams kind r.target)

def applyAll (streams : Streams) : List Redirect → Action Streams
  | [] => return streams
  | r :: rs => do applyAll (← apply streams r) rs

theorem current_connect (streams : Streams) (stream other : OutputStream) (channel : Channel) :
    current (connect streams stream channel) other =
      if other = stream then channel else current streams other := by
  cases stream <;> cases other <;> simp [current, connect]

end Redirection

end LineShell
