import LineShell.FileSystem.Basic

/-!
# Canonical paths

The canonical path of a place is free of links, of `.` and of `..`.  It is computed for any path,
also for one that leads nowhere: a name that is not there is taken at its word, and a `..` behind
it takes it back.

A link whose own target leads through that link again has no canonical path.  Where that is
found, the rest of the path is kept as it is written, and only cleaned up.

A link is recognized by its location, whichever path leads to it.  A resolver that recognizes it by
the path instead, and starts a relative path from nothing, takes a link on a relative path for a
new one when a target leads to it again, and so passes once more through a link that leads through
itself.  This difference is left out.  The shell asks for the canonical form of a relative path only
where a session begins.
-/

namespace LineShell

namespace FileSystem

/-- The links seen on the way, with the locations they lead to; a link that is still being
resolved leads to none. -/
abbrev SeenLinks := List (Location × Option Location)

structure Resolution where
  names : Location
  /-- No link was found to lead through itself. -/
  complete : Bool
  seen : SeenLinks

/-- Names as they are seen from other names, without looking at what is there. -/
def appendNames (front : Location) : List String → Location
  | "" :: name :: rest => name :: rest
  | names => front ++ names

def linkTarget? (fs : FileSystem) (loc : Location) : Option String :=
  match fs.node? loc with
  | some (.link target) => some target
  | _ => none

/-- What resolving names from a resolved location leads to. -/
abbrev Resolver := SeenLinks → Location → List String → Except PathError Resolution

/-- Resolves names one by one; `enter` resolves the target of a link. -/
def resolveNames (fs : FileSystem) (enter : Resolver) : Resolver
  | seen, here, [] => .ok ⟨here, true, seen⟩
  | seen, here, name :: rest =>
      if name = "" ∨ name = "." then resolveNames fs enter seen here rest
      else if name = ".." then resolveNames fs enter seen here.dropLast rest
      else if name.toList.contains '\x00' then .error .nullCharacter
      else
        let next := here ++ [name]
        match fs.linkTarget? next with
        | none => resolveNames fs enter seen next rest
        | some target =>
            match seen.lookup next with
            | some (some loc) => resolveNames fs enter seen loc rest
            | some none => .ok ⟨appendNames next rest, false, seen⟩
            | none =>
                match enter ((next, none) :: seen) (linkStart here target) (Path.names target) with
                | .error e => .error e
                | .ok inner =>
                    if inner.complete then
                      resolveNames fs enter ((next, some inner.names) :: inner.seen)
                        inner.names rest
                    else .ok ⟨appendNames inner.names rest, false, inner.seen⟩

/-- Resolves names, with at most so many links one inside the other.  As no link is entered while
it is being resolved, the number of links is enough. -/
def resolver (fs : FileSystem) : Nat → Resolver
  | 0 => fs.resolveNames fun seen here names => .ok ⟨appendNames here names, false, seen⟩
  | depth + 1 => fs.resolveNames (resolver fs depth)

/-- The canonical form of a path.  A relative path starts from `cwd`. -/
def canonicalPath (fs : FileSystem) (cwd path : String) : Except PathError String :=
  let start := if Path.isAbsolute path then [] else Path.normalize (Path.names cwd)
  match fs.resolver fs.entries.length [] start (Path.names path) with
  | .error e => .error e
  | .ok resolution => .ok (Path.ofLocation (Path.normalize resolution.names))

theorem isAbsolute_of_canonicalPath {fs : FileSystem} {cwd path result : String}
    (h : fs.canonicalPath cwd path = .ok result) : Path.isAbsolute result = true := by
  simp only [canonicalPath] at h
  split at h
  · simp at h
  · rw [← Except.ok.inj h]
    exact Path.isAbsolute_ofLocation _

end FileSystem

end LineShell
