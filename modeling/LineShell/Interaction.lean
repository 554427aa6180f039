import LineShell.Execution

/-!
# Conversations with the user

The shell asks for a line, runs it, and asks again.  What the user gives is a list of inputs, and
when it has no more of them that is the end of the conversation.  So is a line that leaves the
shell, whose status is then the status of the shell; otherwise that is the status of the last
line.  Nothing else that happens to a line ends the conversation.

The lines are entered with the help of an editor, which may be missing.  It keeps a history in a
file: the file is read before the first line and written after the last one.
-/

namespace LineShell

inductive Input where
  | line (text : String)
  | interrupt
  deriving DecidableEq

structure Editor where
  available : Bool
  bindingFails : Bool
  /-- Why the history can not be written. -/
  writeError : Option String
  deriving DecidableEq

inductive EditorRequest where
  | bind (setting : String)
  | read (path : String)
  | write (path : String)
  deriving DecidableEq

inductive Ending where
  | status (n : Int)
  | replaced
  | failed (error : ShellError)
  deriving DecidableEq

structure Conversation where
  machine : Machine
  status : Int
  prompts : List String
  requests : List EditorRequest

def Session.prompt (s : Session) : String :=
  s.directory ++ "$ "

namespace Conversation

def begin (m : Machine) : Conversation :=
  ⟨m, 0, [], []⟩

def print (c : Conversation) (channel : Channel) (text : String) : Conversation :=
  { c with
    machine :=
      { c.machine with host := c.machine.host.write channel (Content.ofText text) } }

def request (c : Conversation) (r : EditorRequest) : Conversation :=
  { c with requests := c.requests ++ [r] }

def ask (c : Conversation) : Conversation :=
  { c with prompts := c.prompts ++ [c.machine.session.prompt] }

/-! ## The line editor -/

def settings : List String :=
  ["set editing-mode emacs", "Control-l: clear-screen"]

/-- Asks for the settings; after one that fails no further one is asked for. -/
def bindSettings (editor : Editor) (c : Conversation) : Conversation :=
  (if editor.bindingFails then settings.take 1 else settings).foldl
    (fun c setting => c.request (.bind setting)) c

def historyFile? (editor : Editor) (history : Option String) : Option String :=
  if editor.available then history.filter fun path => !path.isEmpty else none

/-- Prepares the editor.  A history that is not there, or can not be read, is empty. -/
def setUp (editor : Editor) (history : Option String) (c : Conversation) :
    Conversation × Option ShellError :=
  let c := if editor.available then c.bindSettings editor else c
  match historyFile? editor history with
  | none => (c, none)
  | some path =>
      let c := c.request (.read path)
      if path.toList.contains '\x00' then (c, some (.path .nullCharacter path)) else (c, none)

def saveHistory (editor : Editor) (history : Option String) (c : Conversation) : Conversation :=
  match historyFile? editor history with
  | none => c
  | some path =>
      let c := c.request (.write path)
      match editor.writeError with
      | none => c
      | some text => c.print .errors (diagnostic ("could not save history: " ++ text))

/-! ## The conversation -/

/-- Runs a line.  An ending is returned if the line ends the conversation. -/
def runLine (c : Conversation) (text : String) : Conversation × Option Ending :=
  match executeLine .standard text c.machine with
  | .ok status m => ({ c with machine := m, status := status }, none)
  | .error (.exit status) m => ({ c with machine := m }, some (.status status))
  | .error .replaced m => ({ c with machine := m }, some .replaced)
  | .error (.failed error) m =>
      let c := { c with machine := m, status := Execution.errorStatus }
      (c.print .errors (diagnostic ("error: " ++ error.message)), none)

def react (c : Conversation) : Input → Conversation × Option Ending
  | .line text => c.runLine text
  | .interrupt => (c.print .output "\n", none)

/-- Asks and reacts until there is no more input, or the shell is left. -/
def converse (c : Conversation) : List Input → Conversation × Ending
  | [] => (c.ask.print .output "\n", .status c.status)
  | input :: inputs =>
      match c.ask.react input with
      | (c, none) => c.converse inputs
      | (c, some ending) => (c, ending)

end Conversation

open Conversation in
/-- A whole conversation.  The history is written unless another program has taken the place of the
shell. -/
def interact (editor : Editor) (history : Option String) (inputs : List Input) (m : Machine) :
    Conversation × Ending :=
  match (Conversation.begin m).setUp editor history with
  | (c, some error) => (c, .failed error)
  | (c, none) =>
      match c.converse inputs with
      | (c, .replaced) => (c, .replaced)
      | (c, ending) => (c.saveHistory editor history, ending)

/-! ## The history file -/

def historyVariable : String := "GESH_HISTFILE"

def defaultHistory : String := "~/.gesh_history"

/-- The path of the history file: the one that is asked for, else the one in the environment, else
the default. -/
def historyPath (environment : Variables) (asked : Option String) : String :=
  let given? (path : Option String) := path.filter fun path => !path.isEmpty
  let path := (given? asked <|> given? (environment.get? historyVariable)).getD defaultHistory
  Path.expandHome (environment.get? "HOME") path

end LineShell
