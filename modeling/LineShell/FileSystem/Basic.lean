import LineShell.Content
import LineShell.Path
import LineShell.Program

/-!
# File systems

A file system is a tree of directories that hold files, symbolic links and directories.  It is
kept as a table from locations to what is there; the root is always a directory.

There are no other kinds of entries, such as pipes, sockets and devices, and no permissions: every
file can be read and written, and a file can be executed if it has a program.  So a test whether a
path leads to a regular file, and one whether it leads to anything but a directory, agree.

A path is *walked* name by name.  A symbolic link on the way is replaced by its target, and only
then is a `..` behind it looked at.  A name needs a directory to be looked up in, and so does the
empty name behind a trailing slash.
-/

namespace LineShell

inductive Node where
  | directory
  /-- A regular file.  It can be executed if it has a program. -/
  | file (content : Content) (program : Option Program)
  | link (target : String)
  deriving DecidableEq

inductive PathError where
  | missing
  | notDirectory
  | isDirectory
  | nameTooLong
  | tooManyLinks
  | nullCharacter
  deriving DecidableEq

def PathError.reason : PathError → String
  | .missing => "No such file or directory"
  | .notDirectory => "Not a directory"
  | .isDirectory => "Is a directory"
  | .nameTooLong => "File name too long"
  | .tooManyLinks => "Too many levels of symbolic links"
  | .nullCharacter => "embedded null byte"

def PathError.code? : PathError → Option Nat
  | .missing => some 2
  | .notDirectory => some 20
  | .isDirectory => some 21
  | .nameTooLong => some 36
  | .tooManyLinks => some 40
  | .nullCharacter => none

structure FileSystem where
  entries : List (Location × Node)

namespace FileSystem

def empty : FileSystem := ⟨[]⟩

def node? (fs : FileSystem) (loc : Location) : Option Node :=
  if loc = [] then some .directory else fs.entries.lookup loc

def insert (fs : FileSystem) (loc : Location) (node : Node) : FileSystem :=
  if (fs.entries.lookup loc).isSome then
    ⟨fs.entries.map fun e => if e.1 = loc then (loc, node) else e⟩
  else ⟨fs.entries ++ [(loc, node)]⟩

/-- Makes the directories on the way to a location, as far as they are missing. -/
def makeParents (fs : FileSystem) (loc : Location) : FileSystem :=
  (List.range loc.length).foldl
    (fun fs n =>
      let parent := loc.take n
      if (fs.node? parent).isSome then fs else fs.insert parent .directory)
    fs

def add (fs : FileSystem) (loc : Location) (node : Node) : FileSystem :=
  (fs.makeParents loc).insert loc node

def children (fs : FileSystem) (loc : Location) : List String :=
  fs.entries.filterMap fun e =>
    match e.1.getLast? with
    | some name => if e.1.dropLast = loc then some name else none
    | none => none

/-! ## Walking a path -/

def maxLinks : Nat := 40

def maxNameBytes : Nat := 255

/-- Where the walk along a link starts. -/
def linkStart (here : Location) (target : String) : Location :=
  if Path.isAbsolute target then [] else here

/-- What walking along names leads to: a location, and what is there. -/
abbrev Walk := Location → List String → Except PathError (Location × Option Node)

/-- Walks along names from a location.  The last name need not exist.  A link behind the last name
is followed if `follow` says so; where a link is followed, `jump` walks on. -/
def walkNames (fs : FileSystem) (follow : Bool) (jump : Walk) : Walk
  | here, [] => .ok (here, fs.node? here)
  | here, name :: rest =>
      match fs.node? here with
      | none => .error .missing
      | some .directory =>
          if name = "" ∨ name = "." then walkNames fs follow jump here rest
          else if name = ".." then walkNames fs follow jump here.dropLast rest
          else if maxNameBytes < name.utf8ByteSize then .error .nameTooLong
          else
            match fs.node? (here ++ [name]) with
            | some (.link target) =>
                if rest.isEmpty && !follow then .ok (here ++ [name], some (.link target))
                else jump (linkStart here target) (Path.names target ++ rest)
            | _ => walkNames fs follow jump (here ++ [name]) rest
      | some _ => .error .notDirectory

/-- Walks along names, and follows at most so many links on the way. -/
def walk (fs : FileSystem) (follow : Bool) : Nat → Walk
  | 0 => fs.walkNames follow fun _ _ => .error .tooManyLinks
  | links + 1 => fs.walkNames follow (walk fs follow links)

/-- The location that a path leads to, and what is there.  Relative paths start from `cwd`. -/
def resolve (fs : FileSystem) (follow : Bool) (cwd path : String) :
    Except PathError (Location × Option Node) :=
  if path.toList.contains '\x00' then .error .nullCharacter
  else if path.isEmpty then .error .missing
  else fs.walk follow maxLinks [] (Path.names (Path.join cwd path))

/-- What a path leads to, with a link at its end followed. -/
def stat? (fs : FileSystem) (cwd path : String) : Option Node :=
  match fs.resolve true cwd path with
  | .ok (_, node) => node
  | .error _ => none

/-- What a path leads to, with a link at its end taken as itself. -/
def linkStat? (fs : FileSystem) (cwd path : String) : Option Node :=
  match fs.resolve false cwd path with
  | .ok (_, node) => node
  | .error _ => none

def isDirectory (fs : FileSystem) (cwd path : String) : Bool :=
  fs.stat? cwd path = some .directory

/-- Whether a path leads to something, be it a link that leads nowhere. -/
def hasEntry (fs : FileSystem) (cwd path : String) : Bool :=
  (fs.linkStat? cwd path).isSome

def program? (fs : FileSystem) (cwd path : String) : Option Program :=
  match fs.stat? cwd path with
  | some (.file _ program) => program
  | _ => none

def isExecutable (fs : FileSystem) (cwd path : String) : Bool :=
  (fs.program? cwd path).isSome

/-- The names in the directory that a path leads to; none if it leads to no directory. -/
def list (fs : FileSystem) (cwd path : String) : List String :=
  match fs.resolve true cwd path with
  | .ok (loc, some .directory) => fs.children loc
  | _ => []

/-! ## Opening files -/

inductive OpenMode where
  /-- Reads from the beginning. -/
  | read
  /-- Writes from the beginning of an emptied file. -/
  | truncate
  /-- Writes at the end. -/
  | append
  deriving DecidableEq

def openForReading (fs : FileSystem) (cwd path : String) : Except PathError Location :=
  match fs.resolve true cwd path with
  | .error e => .error e
  | .ok (loc, some (.file _ _)) => .ok loc
  | .ok (_, some _) => .error .isDirectory
  | .ok (_, none) => .error .missing

/-- The file that is found or made for writing.  A file can not be made under a name with a slash
behind it. -/
def openForWriting (fs : FileSystem) (cwd path : String) (emptied : Bool) :
    Except PathError (Location × FileSystem) :=
  match fs.resolve true cwd path with
  | .ok (loc, some (.file content program)) =>
      .ok (loc, fs.insert loc (.file (if emptied then [] else content) program))
  | .ok (_, some _) => .error .isDirectory
  | .ok (loc, none) => .ok (loc, fs.insert loc (.file [] none))
  | .error .missing =>
      match fs.resolve true cwd (String.ofList (Path.trimEnd path.toList)) with
      | .ok (_, none) => .error .isDirectory
      | _ => .error .missing
  | .error e => .error e

def contentAt (fs : FileSystem) (loc : Location) : Content :=
  match fs.node? loc with
  | some (.file content _) => content
  | _ => []

def setContent (fs : FileSystem) (loc : Location) (content : Content) : FileSystem :=
  match fs.node? loc with
  | some (.file _ program) => fs.insert loc (.file content program)
  | _ => fs

/-- The regular files whose content is not what it was before. -/
def changedSince (fs before : FileSystem) : List (Location × Content) :=
  fs.entries.filterMap fun e =>
    match e.2 with
    | .file content _ =>
        match before.node? e.1 with
        | some (.file old _) => if old = content then none else some (e.1, content)
        | _ => some (e.1, content)
    | _ => none

/-! ## Small facts -/

@[simp] theorem node?_nil (fs : FileSystem) : fs.node? [] = some .directory := by
  simp [node?]

theorem isExecutable_iff {fs : FileSystem} {cwd path : String} :
    fs.isExecutable cwd path = true ↔
      ∃ content program, fs.stat? cwd path = some (.file content (some program)) := by
  unfold isExecutable program?
  split
  · next content program h => simp [h, Option.isSome_iff_exists]
  · next h =>
    simp only [Option.isSome_none, Bool.false_eq_true, false_iff, not_exists]
    intro content program hstat
    exact h content (some program) hstat

end FileSystem

end LineShell
