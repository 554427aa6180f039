/-!
# Paths

A path is a text, and its slashes cut it into names.  A path that begins with a slash starts at
the root, any other one at some working directory.  Nothing here looks at a file system: what a
path leads to is decided where it is walked.

A *location* is the list of the names on the way from the root to a place, without any detour.
-/

namespace LineShell

/-- A place in a file system: the names that lead there from the root. -/
abbrev Location := List String

namespace Path

def isAbsolute (path : String) : Bool :=
  path.toList.head? == some '/'

def endsWithSlash (path : String) : Bool :=
  path.toList.getLast? == some '/'

/-- The names in a path.  An empty name stands before a leading slash, behind a trailing one and
between two slashes in a row. -/
def names (path : String) : List String :=
  (path.toList.splitOn '/').map String.ofList

def ofLocation (loc : Location) : String :=
  "/" ++ String.intercalate "/" loc

def join (dir path : String) : String :=
  if isAbsolute path then path
  else if dir.isEmpty || endsWithSlash dir then dir ++ path
  else dir ++ "/" ++ path

def trimEnd (path : List Char) : List Char :=
  (path.reverse.dropWhile (· == '/')).reverse

/-- The directory part of a path and its last name.  The slashes between them are dropped, unless
the directory part has nothing else. -/
def split (path : String) : String × String :=
  let backwards := path.toList.reverse
  let name := (backwards.takeWhile (· != '/')).reverse
  let dir := (backwards.dropWhile (· != '/')).reverse
  let dir := if dir.all (· == '/') then dir else trimEnd dir
  (String.ofList dir, String.ofList name)

/-- The location that names lead to if every name but `.` and `..` is taken at its word. -/
def normalize (names : List String) : Location :=
  names.foldl
    (fun loc name =>
      if name = "" ∨ name = "." then loc else if name = ".." then loc.dropLast else loc ++ [name])
    []

/-- Replaces a tilde that is the first name of a path by the home directory.  A tilde that begins
a longer name stays.  So does one without a home directory: the database of users, which knows home
directories as well, is left out. -/
def expandHome (home : Option String) (path : String) : String :=
  match home, path.toList with
  | some home, '~' :: rest =>
      if rest.isEmpty || rest.head? == some '/' then
        let expanded := trimEnd home.toList ++ rest
        if expanded.isEmpty then "/" else String.ofList expanded
      else path
  | _, _ => path

theorem join_of_isAbsolute {dir path : String} (h : isAbsolute path = true) :
    join dir path = path := by
  simp [join, h]

theorem isAbsolute_join {dir : String} (h : isAbsolute dir = true) (path : String) :
    isAbsolute (join dir path) = true := by
  have hhead : dir.toList.head? = some '/' := by simpa [isAbsolute] using h
  unfold join
  split
  · assumption
  · split
    · simp [isAbsolute, List.head?_append, hhead]
    · simp [isAbsolute, List.head?_append, hhead]

theorem isAbsolute_ofLocation (loc : Location) : isAbsolute (ofLocation loc) = true := by
  simp [isAbsolute, ofLocation]

end Path

end LineShell
