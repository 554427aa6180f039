import LineShell.Proofs.Session.Candidates
import LineShell.Proofs.Session.Directory

/-!
# Finding programs

A program is looked up from two places: the directories of `PATH` are seen from the working
directory of the shell, everything else from that of the session.  It is started in the latter.  So
a path that was found leads to the program where it is started, unless it is a relative one, which
comes from a relative directory in `PATH`, and the two working directories differ.
-/

namespace LineShell

/-! ## Seeing a path from another directory -/

namespace FileSystem

/-- An absolute path leads to the same place from everywhere. -/
theorem stat?_of_isAbsolute (fs : FileSystem) {path : String} (h : Path.isAbsolute path = true)
    (cwd cwd' : String) : fs.stat? cwd path = fs.stat? cwd' path := by
  simp only [stat?, resolve, Path.join_of_isAbsolute h]

theorem isExecutable_of_isAbsolute {fs : FileSystem} {path : String}
    (h : Path.isAbsolute path = true) (cwd cwd' : String) :
    fs.isExecutable cwd path = fs.isExecutable cwd' path := by
  simp only [isExecutable, program?, fs.stat?_of_isAbsolute h cwd cwd']

theorem exists_resolve_of_program? {fs : FileSystem} {cwd path : String} {program : Program}
    (h : fs.program? cwd path = some program) :
    ∃ loc content, fs.resolve true cwd path = .ok (loc, some (.file content (some program))) := by
  unfold program? stat? at h
  cases hresolve : fs.resolve true cwd path with
  | error e => simp [hresolve] at h
  | ok found =>
    obtain ⟨loc, node⟩ := found
    simp only [hresolve] at h
    split at h
    · next content other =>
      subst h
      exact ⟨loc, content, rfl⟩
    · simp at h

end FileSystem

/-- The machine behind the record of a call. -/
def Machine.called (m : Machine) (call : Call) : Machine :=
  { m with host := { m.host with calls := m.host.calls ++ [call] } }

/-! ## Looking up -/

namespace Executable

theorem eq_of_mem_candidates {s : Session} {name path : String} (h : path ∈ candidates s name) :
    (Path.isAbsolute name = true ∧ path = name) ∨ path = Path.join s.directory name ∨
      ∃ dir ∈ s.searchPath, path = Path.join dir name := by
  unfold candidates at h
  split at h
  · next habsolute => exact Or.inl ⟨habsolute, List.mem_singleton.mp h⟩
  · split at h
    · exact Or.inr (Or.inl (List.mem_singleton.mp h))
    · rcases List.mem_append.mp h with hsearch | hhere
      · obtain ⟨dir, hdir, rfl⟩ := List.mem_map.mp hsearch
        exact Or.inr (Or.inr ⟨dir, hdir, rfl⟩)
      · exact Or.inr (Or.inl (List.mem_singleton.mp hhere))

/-- What is found is a program, as the shell itself sees it, and it is found under an absolute path
or under one that begins with a relative directory of `PATH`. -/
theorem find?_sound {host : Host} {s : Session} {name path : String}
    (hdir : Path.isAbsolute s.directory = true) (h : find? host s name = some path) :
    host.files.isExecutable host.workingDirectory path = true ∧
      (Path.isAbsolute path = true ∨
        ∃ dir ∈ s.searchPath, Path.isAbsolute dir = false ∧ path = Path.join dir name) := by
  rw [find?_eq_find?_candidates] at h
  refine ⟨List.find?_some h, ?_⟩
  rcases eq_of_mem_candidates (List.mem_of_find?_eq_some h) with
    ⟨habsolute, rfl⟩ | rfl | ⟨dir, hmem, rfl⟩
  · exact Or.inl habsolute
  · exact Or.inl (Path.isAbsolute_join hdir name)
  · cases hrelative : Path.isAbsolute dir with
    | true => exact Or.inl (Path.isAbsolute_join hrelative name)
    | false => exact Or.inr ⟨dir, hmem, hrelative, rfl⟩

/-! ## Starting what was found -/

theorem checkDirectory_of_isDirectory {host : Host} {dir : String}
    (h : host.files.isDirectory host.workingDirectory dir = true) :
    checkDirectory host dir = .ok () := by
  obtain ⟨loc, hresolve⟩ := FileSystem.isDirectory_iff.mp h
  simp only [checkDirectory, hresolve]

theorem programAt_of_program? {host : Host} {dir path : String} {program : Program}
    (hdir : host.files.isDirectory host.workingDirectory dir = true)
    (h : host.files.program? dir path = some program) :
    programAt host dir path = started program := by
  obtain ⟨loc, content, hresolve⟩ := FileSystem.exists_resolve_of_program? h
  simp only [programAt, checkDirectory_of_isDirectory hdir, hresolve]

theorem replace_of_isDirectory (path : String) (arguments : List String) {m : Machine}
    (h : m.host.files.isDirectory m.host.workingDirectory m.session.directory = true) :
    replace path arguments m =
      .error .replaced (m.called (.exec (invocation m.session path arguments))) := by
  simp only [replace, Action.session_bind, Action.host_bind, checkDirectory_of_isDirectory h]
  rfl

theorem run_of_programAt {path : String} {program : Program} (name : String)
    (arguments : List String) (streams : Streams) {m : Machine}
    (h : programAt m.host m.session.directory path = .ok program) (hruns : program.launch = .runs) :
    ∃ call, run path name arguments streams m =
      perform program arguments streams (m.called call) := by
  refine ⟨.run (invocation m.session path (name :: arguments))
    (streams.input.bind fun n => m.host.attachment (.file n))
    (streams.output.bind m.host.attachment) (streams.errors.bind m.host.attachment), ?_⟩
  simp only [run, Action.session_bind, Action.host_bind, h, hruns, reduceCtorEq, if_false]
  rfl

/-- A program that is found can be started in the working directory of the session, beside the
shell or in its place, if its path is absolute or the shell has the same working directory.  A path
that is not absolute begins with a relative directory of `PATH`.  In the place of the shell also a
program is taken to start that the system refuses (`replace`). -/
theorem found_program_starts {m : Machine} {name path : String}
    (hdir : m.HasDirectory m.session.directory)
    (hfound : find? m.host m.session name = some path) :
    (Path.isAbsolute path = true ∨
        ∃ dir ∈ m.session.searchPath, Path.isAbsolute dir = false ∧ path = Path.join dir name) ∧
      (Path.isAbsolute path = true ∨ m.session.directory = m.host.workingDirectory →
        ∃ program, m.host.files.program? m.session.directory path = some program ∧
          programAt m.host m.session.directory path = started program ∧
          ∀ arguments,
            (program.launch = .runs → ∀ streams, ∃ call, run path name arguments streams m =
              perform program arguments streams (m.called call)) ∧
            replace path arguments m =
              .error .replaced (m.called (.exec (invocation m.session path arguments)))) := by
  obtain ⟨hexecutable, hpath⟩ := find?_sound hdir.isAbsolute hfound
  refine ⟨hpath, fun hsame => ?_⟩
  have hthere : m.host.files.isExecutable m.session.directory path = true := by
    rcases hsame with habsolute | hcwd
    · rw [FileSystem.isExecutable_of_isAbsolute habsolute _ m.host.workingDirectory]
      exact hexecutable
    · rw [hcwd]
      exact hexecutable
  obtain ⟨program, hprogram⟩ := Option.isSome_iff_exists.mp hthere
  have hstarted := programAt_of_program? hdir.isDirectory hprogram
  refine ⟨program, hprogram, hstarted, fun arguments => ⟨fun hruns streams => ?_,
    replace_of_isDirectory path arguments hdir.isDirectory⟩⟩
  have hok : started program = .ok program := by simp [started, hruns]
  exact run_of_programAt name arguments streams (hstarted.trans hok) hruns

/-- A machine with a program in a directory that `PATH` names from the working directory of the
shell, while the session is somewhere else. -/
def astray : Machine :=
  ⟨⟨⟨[("PATH", "bin")]⟩, ["PATH"], "/w", [], false⟩,
    .start ⟨[(["w"], .directory), (["bin"], .directory),
      (["bin", "tool"], .file [] (some ⟨.runs, false, false, "", "", 0⟩))]⟩ "/" .empty⟩

theorem found_program_starts_astray :
    find? astray.host astray.session "/bin/tool" = some "/bin/tool" ∧
      programAt astray.host "/w" "/bin/tool" =
        .ok ⟨.runs, false, false, "", "", 0⟩ := by
  have hdir : astray.HasDirectory astray.session.directory :=
    ⟨by decide +kernel, by decide +kernel⟩
  have hfound : find? astray.host astray.session "/bin/tool" = some "/bin/tool" := by
    decide +kernel
  obtain ⟨program, hprogram, hstarted, -⟩ :=
    (found_program_starts hdir hfound).2 (Or.inl (by decide +kernel))
  have htool : astray.host.files.program? astray.session.directory "/bin/tool" =
      some ⟨.runs, false, false, "", "", 0⟩ := by decide +kernel
  rw [htool] at hprogram
  cases hprogram
  exact ⟨hfound, hstarted⟩

/-- A program can be found under a path that leads nowhere where it is started. -/
theorem found_program_not_always_there :
    ¬ ∀ (m : Machine) (name path : String), m.HasDirectory m.session.directory →
      find? m.host m.session name = some path →
        m.host.files.isExecutable m.session.directory path = true := by
  intro h
  have hdir : astray.HasDirectory astray.session.directory :=
    ⟨by decide +kernel, by decide +kernel⟩
  have hfound : find? astray.host astray.session "tool" = some "bin/tool" := by decide +kernel
  have hthere := h astray "tool" "bin/tool" hdir hfound
  have hmissing : astray.host.files.isExecutable astray.session.directory "bin/tool" = false := by
    decide +kernel
  rw [hmissing] at hthere
  cases hthere

end Executable

end LineShell
