import LineShell.Executable
import LineShell.Proofs.FileSystem.Place
import Mathlib.Data.List.TakeWhile

/-!
# Candidates

Where a program can be found is decided before any file is looked at: a name and a session determine
a list of paths, the candidates.  The search takes the first of them that is a program.  On the way
it joins the directories of `PATH`, has the joined text cut apart again, and leaves out the
directories that it has seen; none of this makes a difference.
-/

namespace LineShell

/-- A path leads the shell to a regular file that can be executed. -/
def Host.HasProgram (host : Host) (path : String) : Prop :=
  ∃ content program,
    host.files.stat? host.workingDirectory path = some (.file content (some program))

/-! ## The search path -/

namespace Path

theorem split_fst_of_slash_notMem {name : String} (h : '/' ∉ name.toList) :
    (split name).1 = "" := by
  have hdrop : name.toList.reverse.dropWhile (· != '/') = [] := by
    rw [List.dropWhile_eq_nil_iff]
    intro c hc
    have hne : c ≠ '/' := fun heq => h (heq ▸ List.mem_reverse.mp hc)
    simpa using hne
  simp [split, hdrop]

end Path

namespace Session

/-- The search path has the texts between the colons of `PATH`, but for the empty ones. -/
theorem exists_searchPath (s : Session) :
    ∃ entries : List String, (∀ entry ∈ entries, ':' ∉ entry.toList) ∧
      (s.get? "PATH").getD "" = ":".intercalate entries ∧
      s.searchPath = entries.filter (· ≠ "") := by
  refine ⟨(((s.get? "PATH").getD "").toList.splitOn ':').map String.ofList, ?_, ?_, ?_⟩
  · intro entry hentry
    obtain ⟨part, hpart, rfl⟩ := List.mem_map.mp hentry
    rw [String.toList_ofList]
    exact (notMem_and_subset_of_mem_splitOn hpart).1
  · apply String.toList_inj.mp
    rw [String.toList_intercalate, List.map_map]
    simp [Function.comp_def, List.intercalate_splitOn]
  · rw [searchPath, ← List.filterMap_eq_filter, List.filterMap_map]
    apply List.filterMap_congr
    intro part _
    cases part <;> simp [Option.guard]

theorem ne_empty_of_mem_searchPath {s : Session} {dir : String} (h : dir ∈ s.searchPath) :
    dir ≠ "" := by
  obtain ⟨entries, -, -, hpath⟩ := s.exists_searchPath
  rw [hpath] at h
  simpa using (List.mem_filter.mp h).2

theorem colon_notMem_of_mem_searchPath {s : Session} {dir : String} (h : dir ∈ s.searchPath) :
    ':' ∉ dir.toList := by
  obtain ⟨entries, hcolon, -, hpath⟩ := s.exists_searchPath
  rw [hpath] at h
  exact hcolon dir (List.mem_filter.mp h).1

theorem intercalate_searchPath_ne_empty {s : Session} (h : s.searchPath ≠ []) :
    ":".intercalate s.searchPath ≠ "" := by
  obtain ⟨dir, dirs, hdirs⟩ := List.exists_cons_of_ne_nil h
  have hdir : dir ≠ "" := ne_empty_of_mem_searchPath (hdirs ▸ List.mem_cons_self)
  rw [hdirs]
  cases dirs with
  | nil => simpa using hdir
  | cons other dirs => simp

end Session

/-! ## The first candidate -/

namespace Executable

/-- The paths under which a program may be found, in the order in which they are tried. -/
def candidates (s : Session) (name : String) : List String :=
  if Path.isAbsolute name then [name]
  else if name.toList.contains '/' then [Path.join s.directory name]
  else s.searchPath.map (Path.join · name) ++ [Path.join s.directory name]

theorem check_eq_find? (host : Host) (path : String) :
    check host path = [path].find? (host.files.isExecutable host.workingDirectory) := by
  rw [check, List.find?_singleton]

/-- Leaving out the directories that were seen makes no difference, as long as there was no program
in them. -/
theorem search_eq_find? {host : Host} {name : String} {seen : List String} (dirs : List String)
    (hseen : ∀ dir ∈ seen,
      host.files.isExecutable host.workingDirectory (Path.join dir name) = false) :
    search host name seen dirs =
      (dirs.map (Path.join · name)).find? (host.files.isExecutable host.workingDirectory) := by
  induction dirs generalizing seen with
  | nil => rfl
  | cons dir dirs ih =>
    rw [search, List.map_cons, List.find?_cons]
    by_cases hmem : dir ∈ seen
    · simp only [List.contains_eq_mem, hmem, decide_true, if_true, hseen dir hmem]
      exact ih hseen
    · cases hprogram : host.files.isExecutable host.workingDirectory (Path.join dir name) with
      | true => simp [hmem, hprogram]
      | false =>
        simp only [List.contains_eq_mem, hmem, decide_false, hprogram, Bool.false_eq_true, if_false]
        exact ih (List.forall_mem_cons.mpr ⟨hprogram, hseen⟩)

theorem which_searchPath (host : Host) (s : Session) {name : String} (h : '/' ∉ name.toList) :
    which host name (":".intercalate s.searchPath) =
      (s.searchPath.map (Path.join · name)).find?
        (host.files.isExecutable host.workingDirectory) := by
  rw [which, Path.split_fst_of_slash_notMem h, if_pos (by simp)]
  by_cases hnil : s.searchPath = []
  · simp [hnil]
  · have hne : (":".intercalate s.searchPath).isEmpty = false := by
      simpa using Session.intercalate_searchPath_ne_empty hnil
    rw [hne, if_neg (by simp)]
    have hcut : (((":".intercalate s.searchPath).toList.splitOn ':').map String.ofList) =
        s.searchPath :=
      splitOn_toList_intercalate ':' hnil fun _ => Session.colon_notMem_of_mem_searchPath
    rw [hcut]
    exact search_eq_find? s.searchPath (by simp)

theorem find?_eq_find?_candidates (host : Host) (s : Session) (name : String) :
    find? host s name =
      (candidates s name).find? (host.files.isExecutable host.workingDirectory) := by
  unfold find? candidates
  dsimp only
  split
  · exact check_eq_find? host name
  · split
    · exact check_eq_find? host (Path.join s.directory name)
    · next hslash =>
      have hmem : '/' ∉ name.toList := by simpa using hslash
      rw [which_searchPath host s hmem, List.find?_append, check_eq_find?]
      split
      · next hfound => rw [hfound, Option.some_or]
      · next hfound => rw [hfound, Option.none_or]

theorem isExecutable_iff_hasProgram {host : Host} {path : String} :
    host.files.isExecutable host.workingDirectory path = true ↔ host.HasProgram path :=
  FileSystem.isExecutable_iff

/-- A name is looked up among its candidates: itself if it is absolute, its place in the working
directory of the session if it has a slash, and otherwise its places in the directories of `PATH`
and then in the working directory.  The first candidate that is a program is found, and nothing is
found if none of them is. -/
theorem first_candidate_is_found (host : Host) (s : Session) (name : String) :
    (∃ entries : List String, (∀ entry ∈ entries, ':' ∉ entry.toList) ∧
      (s.get? "PATH").getD "" = ":".intercalate entries ∧
      candidates s name =
        if Path.isAbsolute name then [name]
        else if '/' ∈ name.toList then [Path.join s.directory name]
        else (entries.filter (· ≠ "")).map (Path.join · name) ++ [Path.join s.directory name]) ∧
      (∀ path, find? host s name = some path ↔
        ∃ front back, candidates s name = front ++ path :: back ∧
          host.HasProgram path ∧ ∀ other ∈ front, ¬ host.HasProgram other) ∧
      (find? host s name = none ↔ ∀ other ∈ candidates s name, ¬ host.HasProgram other) := by
  refine ⟨?_, fun path => ?_, ?_⟩
  · obtain ⟨entries, hcolon, htext, hpath⟩ := s.exists_searchPath
    refine ⟨entries, hcolon, htext, ?_⟩
    simp only [candidates, hpath, List.contains_iff_mem]
  · rw [find?_eq_find?_candidates, List.find?_eq_some_iff_append]
    simp only [isExecutable_iff_hasProgram, Bool.not_eq_true', ← Bool.not_eq_true]
    constructor
    · rintro ⟨hprogram, front, back, hlist, hfront⟩
      exact ⟨front, back, hlist, hprogram, hfront⟩
    · rintro ⟨front, back, hlist, hprogram, hfront⟩
      exact ⟨hprogram, front, back, hlist, hfront⟩
  · rw [find?_eq_find?_candidates, List.find?_eq_none]
    simp only [isExecutable_iff_hasProgram]

end Executable

end LineShell
