import LineShell.FileSystem.Basic
import LineShell.NamePattern

/-!
# Path patterns

A path pattern is matched directory by directory.  A part of it without wildcards is taken as it
is written and only has to exist.  A part with wildcards is matched against the names in each
directory found so far; names that begin with a dot are left out unless the part begins with one.
The part `**` stands for any number of directories, none included, and as the last part for
everything below.

The matches are paths of the same form as the pattern: relative to the directory where the
matching starts, if the pattern is.
-/

namespace LineShell

namespace FileSystem

def isHidden (name : String) : Bool :=
  name.toList.head? == some '.'

/-- A path below a directory, where either of them may be missing. -/
def below (dir path : String) : String :=
  if dir.isEmpty then path else if path.isEmpty then dir else Path.join dir path

/-- The names in a directory, or only those that lead to directories.  No directory at all is the
working directory. -/
def listing (fs : FileSystem) (cwd dir : String) (onlyDirectories : Bool) : List String :=
  let dir := if dir.isEmpty then "." else dir
  let names := fs.list cwd dir
  if onlyDirectories then names.filter fun name => fs.isDirectory cwd (Path.join dir name)
  else names

def matchNames (fs : FileSystem) (cwd dir pattern : String) (onlyDirectories : Bool) :
    List String :=
  (fs.listing cwd dir onlyDirectories).filter fun name =>
    (isHidden pattern || !isHidden name) && NamePattern.isMatch pattern name

/-- The paths of everything below a directory, except what is hidden, to a given depth. -/
def descendants (fs : FileSystem) (cwd : String) (onlyDirectories : Bool) :
    Nat → String → List String
  | 0, _ => []
  | depth + 1, dir =>
      ((fs.listing cwd dir onlyDirectories).filter fun name => !isHidden name).flatMap fun name =>
        name :: (descendants fs cwd onlyDirectories depth (below dir name)).map (below name)

/-- A depth that no directory exceeds.  Between two links a path only gets longer as long as there
are locations to go to, and no path leads through more links than a walk follows. -/
def depthBound (fs : FileSystem) : Nat :=
  (maxLinks + 1) * (fs.entries.length + 1)

def matchAnyDepth (fs : FileSystem) (cwd dir : String) (onlyDirectories : Bool) : List String :=
  let rest := fs.descendants cwd onlyDirectories fs.depthBound dir
  if dir.isEmpty || fs.isDirectory cwd dir then "" :: rest else rest

def anyDepth : String := "**"

/-- What a part of a pattern stands for in a directory.  The empty part behind a trailing slash
is there if the directory is. -/
def matchPart (fs : FileSystem) (cwd dir part : String) (onlyDirectories : Bool) : List String :=
  if part = anyDepth then fs.matchAnyDepth cwd dir onlyDirectories
  else if NamePattern.hasMagic part.toList then fs.matchNames cwd dir part onlyDirectories
  else if part.isEmpty then if fs.isDirectory cwd dir then [part] else []
  else if fs.hasEntry cwd (below dir part) then [part]
  else []

/-- The paths that match a pattern, as seen from the directory `root`. -/
def matchPath (fs : FileSystem) (cwd root : String) (onlyDirectories : Bool) (pattern : String) :
    List String :=
  let (dir, part) := Path.split pattern
  if !NamePattern.hasMagic pattern.toList then
    let found :=
      if part.isEmpty then fs.isDirectory cwd (below root dir)
      else fs.hasEntry cwd (below root pattern)
    if found then [pattern] else []
  else if dir.isEmpty then fs.matchPart cwd root part onlyDirectories
  else
    let dirs :=
      if NamePattern.hasMagic dir.toList ∧ dir.length < pattern.length then
        fs.matchPath cwd root true dir
      else [dir]
    dirs.flatMap fun d =>
      (fs.matchPart cwd (below root d) part onlyDirectories).map (Path.join d)
termination_by pattern.length

/-- The paths that match a pattern.  The empty path is not one of them, though `**` stands for it
too. -/
def pathsMatching (fs : FileSystem) (cwd root pattern : String) : List String :=
  let found := fs.matchPath cwd root false pattern
  if pattern.isEmpty || anyDepth.toList.isPrefixOf pattern.toList then
    match found with
    | "" :: rest => rest
    | found => found
  else found

/-- The directory from which a pattern is seen, if it is not the working directory. -/
def patternRoot (dir : Option String) (pattern : String) : String :=
  match dir with
  | some dir => if Path.isAbsolute pattern then "" else dir
  | none => ""

/-- The matches of a pattern, in order.  A relative pattern is seen from `dir`, if there is one,
else from the working directory. -/
def glob (fs : FileSystem) (cwd : String) (dir : Option String) (pattern : String) :
    List String :=
  (fs.pathsMatching cwd (patternRoot dir pattern) pattern).mergeSort fun a b => a ≤ b

end FileSystem

end LineShell
