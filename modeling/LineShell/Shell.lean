import LineShell.Interaction
import LineShell.Options

/-!
# The shell

A shell runs the one line that its options give it, or else holds a conversation with the user.
Its session begins with the environment and in the working directory that the shell was started
with.
-/

namespace LineShell

def runShell (editor : Editor) (inputs : List Input) (options : Options) (host : Host) :
    Except ShellError (Conversation × Ending) :=
  match Session.start host.files host.workingDirectory host.environment none options.strict with
  | .error e => .error (.path e host.workingDirectory)
  | .ok session =>
      let m : Machine := ⟨session, host⟩
      match options.command with
      | none => .ok (interact editor (historyPath host.environment options.history) inputs m)
      | some text =>
          match runLine text m with
          | .ok status m => .ok (Conversation.begin m, .status status)
          | .error (.exit status) m => .ok (Conversation.begin m, .status status)
          | .error .replaced m => .ok (Conversation.begin m, .replaced)
          | .error (.failed error) m => .ok (Conversation.begin m, .failed error)

end LineShell
