import LineShell.Shell

/-!
# The command line

Runs a shell on an empty host, with lines from the standard input.
-/

namespace LineShell

def processStatus (n : Int) : UInt32 :=
  (n.emod 256).toNat.toUInt32

/-- Prints what has left the shell, and forgets it. -/
def flush (c : Conversation) : IO Conversation := do
  IO.print c.machine.host.output
  IO.eprint c.machine.host.errors
  (← IO.getStdout).flush
  return { c with machine := { c.machine with host := c.machine.host.cleared } }

def printError (error : ShellError) : IO UInt32 := do
  IO.eprintln error.message
  return processStatus Execution.errorStatus

def finish : Ending → IO UInt32
  | .status n => return processStatus n
  | .replaced => return 0
  | .failed error => printError error

partial def serve (c : Conversation) : IO UInt32 := do
  IO.print c.machine.session.prompt
  (← IO.getStdout).flush
  let line ← (← IO.getStdin).getLine
  if line.isEmpty then
    IO.println ""
    return processStatus c.status
  let (c, ending) := c.ask.react (.line line)
  let c ← flush c
  match ending with
  | some ending => finish ending
  | none => serve c

def start (options : Options) : IO UInt32 := do
  let host := Host.start .empty "/" .empty
  match options.command with
  | some _ =>
      match runShell ⟨false, false, none⟩ [] options host with
      | .error error => printError error
      | .ok (c, ending) =>
          let _ ← flush c
          finish ending
  | none =>
      match Session.start host.files host.workingDirectory host.environment none options.strict with
      | .error e => printError (.path e host.workingDirectory)
      | .ok session => serve (Conversation.begin ⟨session, host⟩)

end LineShell

def main (arguments : List String) : IO UInt32 :=
  match LineShell.Options.parse arguments with
  | .error refusal => return LineShell.processStatus refusal.status
  | .ok options => LineShell.start options
