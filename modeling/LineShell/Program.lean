/-!
# Programs

The programs of a machine are black boxes to the shell: it starts them, and they write to their
streams and end with a status.  A program is described by what it writes and how it ends.
-/

namespace LineShell

inductive Launch where
  | runs
  /-- The system refuses to start it, for a reason that is told. -/
  | refused (reason : String)
  /-- The user interrupts it before it has written anything. -/
  | interrupted
  deriving DecidableEq

structure Program where
  launch : Launch
  /-- It writes its arguments, with blanks between them. -/
  printsArguments : Bool
  /-- It copies its input to its output. -/
  copiesInput : Bool
  output : String
  errors : String
  status : Int
  deriving DecidableEq

end LineShell
