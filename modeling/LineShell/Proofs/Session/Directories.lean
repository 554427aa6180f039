import LineShell.Proofs.FileSystem.Canonical
import LineShell.Proofs.Session.Change

/-!
# The directories of a session

The working directory and the stack hold absolute paths of directories, in every state of a run
that starts in a directory.  Nothing removes a directory, and a builtin changes to one only after
it has seen it there.  So `popd` fails only if there is nothing to go back to.
-/

namespace LineShell

open Machine (Evolves)

namespace Machine

theorem HasDirectory.of_sameTree {m m' : Machine} {dir : String}
    (hcwd : m'.host.workingDirectory = m.host.workingDirectory)
    (htree : m.host.files.SameTree m'.host.files) (h : m.HasDirectory dir) :
    m'.HasDirectory dir := by
  refine ⟨h.isAbsolute, ?_⟩
  rw [hcwd]
  exact htree.isDirectory h.isDirectory

theorem Evolves.hasDirectory_iff {P : Call → Prop} {m m' : Machine} (h : Evolves P m m')
    (dir : String) : m'.HasDirectory dir ↔ m.HasDirectory dir := by
  constructor
  · exact .of_sameTree h.workingDirectory.symm h.tree.symm
  · exact .of_sameTree h.workingDirectory h.tree

/-- The working directory and every directory on the stack are there. -/
def Grounded (m : Machine) (s : Session) : Prop :=
  ∀ dir ∈ s.directory :: s.stack, m.HasDirectory dir

theorem Evolves.grounded_iff {P : Call → Prop} {m m' : Machine} (h : Evolves P m m')
    (s : Session) : m'.Grounded s ↔ m.Grounded s := by
  unfold Grounded
  simp only [h.hasDirectory_iff]

theorem Grounded.of_subset {m : Machine} {s s' : Session} (h : m.Grounded s)
    (hsub : s'.directory :: s'.stack ⊆ s.directory :: s.stack) : m.Grounded s' :=
  fun dir hdir => h dir (hsub hdir)

end Machine

/-! ## One line -/

theorem Builtin.stackEntered_subset (b : Builtin) (s : Session) :
    b.stackEntered s ⊆ s.directory :: s.stack := by
  cases b with
  | pushd => exact List.Subset.refl _
  | popd => exact List.subset_cons_of_subset _ (List.tail_sublist s.stack).subset
  | _ => exact List.subset_cons_self _ _

theorem Builtin.stackLeft_subset (b : Builtin) (s : Session) : b.stackLeft s ⊆ s.stack := by
  cases b with
  | popd => exact (List.tail_sublist s.stack).subset
  | _ => exact List.Subset.refl _

/-- A builtin enters a directory that it has seen, and puts none on the stack but the one that it
leaves. -/
theorem BuiltinCall.grounded {call : BuiltinCall}
    (h : call.machine.Grounded call.machine.session) : call.machine.Grounded call.session := by
  rcases call with ⟨b, ctx, m⟩
  rw [BuiltinCall.session]
  by_cases hchange : b.ChangesDirectory
  · rcases b.run_changesDirectory hchange ctx m with ⟨dir, hdir, hrun⟩ | ⟨-, -, hsession⟩
    · rw [Action.after_of_ok hrun]
      intro other hother
      rcases List.mem_cons.mp hother with hentered | hstack
      · rw [hentered]
        exact hdir
      · exact h other (b.stackEntered_subset m.session hstack)
    · rw [hsession]
      exact h.of_subset (List.cons_subset_cons _ (b.stackLeft_subset m.session))
  · obtain ⟨hdirectory, hstack⟩ := Builtin.run_place hchange ctx m
    apply h.of_subset
    rw [hdirectory, hstack]
    exact List.Subset.refl _

theorem executeLine_grounded (registry : Registry) (text : String) {m : Machine}
    (h : m.Grounded m.session) :
    Machine.Grounded ((executeLine registry text).after m)
      ((executeLine registry text).after m).session := by
  rw [(executeLine_evolves registry text m).grounded_iff, executeLine_session]
  have hcall :
      m.Grounded ((builtinCall? registry text m).elim m.session BuiltinCall.session) := by
    cases hbuiltin : builtinCall? registry text m with
    | none => exact h
    | some call =>
      -- opening the redirects has changed the machine, but not its directories
      have hserves := builtinCall?_serves hbuiltin
      rw [← hserves.session, ← hserves.toEvolves.grounded_iff] at h
      exact hserves.toEvolves.grounded_iff _ |>.mp (BuiltinCall.grounded h)
  cases parse text with
  | error failure => exact hcall
  | ok line =>
    cases line with
    | blank => exact hcall
    | command c => exact hcall
    | assignments as =>
      obtain ⟨hdirectory, hstack⟩ := m.session.store_place false
        (Assignment.stores m.session.strict m.session.get? as)
      apply h.of_subset
      rw [hdirectory, hstack]
      exact List.Subset.refl _

/-! ## A run of lines -/

theorem runLines_grounded (registry : Registry) (texts : List String) {m : Machine}
    (h : m.Grounded m.session) :
    (runLines registry texts m).Grounded (runLines registry texts m).session := by
  induction texts generalizing m with
  | nil => exact h
  | cons text texts ih => exact ih (executeLine_grounded registry text h)

theorem runLines_sameTree (registry : Registry) (texts : List String) (m : Machine) :
    m.host.files.SameTree (runLines registry texts m).host.files := by
  induction texts generalizing m with
  | nil => exact .refl _
  | cons text texts ih => exact (executeLine_evolves registry text m).tree.trans (ih _)

/-! ## Going back -/

namespace Builtin

theorem runPopd_of_empty (ctx : Context) {m : Machine} (h : m.session.stack = []) :
    ∃ m', runPopd ctx m = .ok 1 m' := by
  simp only [runPopd, Action.session_bind, h]
  exact ⟨_, rfl⟩

/-- A directory on the stack that is there is entered, unless its path has no canonical form. -/
theorem runPopd_of_hasDirectory (ctx : Context) {m : Machine} {target : String}
    {rest : List String} (h : m.session.stack = target :: rest) (htarget : m.HasDirectory target) :
    runPopd ctx m =
      match m.host.files.canonicalPath m.host.workingDirectory target with
      | .ok p => .ok 0 { m with session := { m.session with stack := rest }.enter p }
      | .error e =>
          .error (.failed (.path e target))
            { m with session := { m.session with stack := rest } } := by
  rw [runPopd_of_cons ctx h]
  have hjoin : Path.join m.session.directory target = target :=
    Path.join_of_isAbsolute htarget.isAbsolute
  cases hpath : m.host.files.canonicalPath m.host.workingDirectory target with
  | ok p =>
    have hdir := FileSystem.isDirectory_canonicalPath (Or.inl htarget.isAbsolute)
      htarget.isDirectory hpath
    rw [← hjoin] at hpath
    exact @changeDirectory_enters ctx "popd" target p
      { m with session := { m.session with stack := rest } } hpath hdir
  | error e =>
    simp only [changeDirectory, Action.session_bind, Action.host_bind, hjoin, hpath]
    rfl

theorem runPopd_nonzero_iff (ctx : Context) {m : Machine} (h : m.Grounded m.session) :
    (∃ status m', runPopd ctx m = .ok status m' ∧ status ≠ 0) ↔ m.session.stack = [] := by
  constructor
  · rintro ⟨status, m', hrun, hstatus⟩
    cases hstack : m.session.stack with
    | nil => rfl
    | cons target rest =>
      rw [runPopd_of_hasDirectory ctx hstack (h target (by simp [hstack]))] at hrun
      split at hrun
      · cases hrun
        exact absurd rfl hstatus
      · cases hrun
  · intro hstack
    obtain ⟨m', hrun⟩ := runPopd_of_empty ctx hstack
    exact ⟨1, m', hrun, by decide⟩

theorem runPopd_succeeds (ctx : Context) {m : Machine} (h : m.Grounded m.session)
    (hfiles : m.host.files.NullFreeLinks) (hstack : m.session.stack ≠ []) :
    ∃ m', runPopd ctx m = .ok 0 m' := by
  obtain ⟨target, rest, hcons⟩ := List.exists_cons_of_ne_nil hstack
  have htarget : m.HasDirectory target := h target (by simp [hcons])
  obtain ⟨loc, hresolve⟩ := FileSystem.isDirectory_iff.mp htarget.isDirectory
  obtain ⟨p, hp⟩ := FileSystem.canonicalPath_succeeds hfiles m.host.workingDirectory
    (FileSystem.null_notMem_of_resolve hresolve)
  rw [runPopd_of_hasDirectory ctx hcons htarget, hp]
  exact ⟨_, rfl⟩

end Builtin

/-! ## Starting in a directory -/

/-- The session is in a directory that is there, or it was asked to start in one.  A relative path
needs the working directory of the shell in its canonical form, as the system tells it. -/
def Machine.InDirectory (m : Machine) (dir : Option String) : Prop :=
  let files := m.host.files
  let cwd := m.host.workingDirectory
  files.isDirectory cwd m.session.directory = true ∨
    files.isDirectory cwd (Session.requested cwd dir) = true ∧
      (Path.isAbsolute (Session.requested cwd dir) = true ∨ files.canonicalPath cwd cwd = .ok cwd)

theorem Machine.grounded_of_start {m : Machine} {environment : Variables} {dir : Option String}
    {strict : Bool}
    (hstart : Session.start m.host.files m.host.workingDirectory environment dir strict =
      .ok m.session)
    (hdir : m.InDirectory dir) : m.Grounded m.session := by
  obtain ⟨p, hcanonical, hsession⟩ := Session.eq_of_start hstart
  have hhere : m.host.files.isDirectory m.host.workingDirectory p = true := by
    rcases hdir with hhere | ⟨hrequested, hcwd⟩
    · rw [hsession] at hhere
      exact hhere
    · exact FileSystem.isDirectory_canonicalPath hcwd hrequested hcanonical
  intro dir hmem
  rw [hsession, List.mem_singleton] at hmem
  rw [hmem]
  exact ⟨FileSystem.isAbsolute_of_canonicalPath hcanonical, hhere⟩

/-- In a run that starts in a directory, the working directory and the stack always hold paths of
directories, and `popd` ends with another status than zero if and only if the stack is empty.  If
it is not empty, then `popd` ends with zero, as long as no link holds a null character. -/
theorem directories_stay {m : Machine} {environment : Variables} {dir : Option String}
    {strict : Bool}
    (hstart : Session.start m.host.files m.host.workingDirectory environment dir strict =
      .ok m.session)
    (hdir : m.InDirectory dir)
    (registry : Registry) (texts : List String) :
    let m' := runLines registry texts m
    (∀ dir ∈ m'.session.directory :: m'.session.stack, m'.HasDirectory dir) ∧
      ∀ ctx, ((∃ status m'', Builtin.run .popd ctx m' = .ok status m'' ∧ status ≠ 0) ↔
          m'.session.stack = []) ∧
        (m.host.files.NullFreeLinks → m'.session.stack ≠ [] →
          ∃ m'', Builtin.run .popd ctx m' = .ok 0 m'') := by
  intro m'
  have hrun : m'.Grounded m'.session :=
    runLines_grounded registry texts (Machine.grounded_of_start hstart hdir)
  have htree := runLines_sameTree registry texts m
  refine ⟨hrun, fun ctx => ⟨Builtin.runPopd_nonzero_iff ctx hrun, fun hfiles hstack => ?_⟩⟩
  exact Builtin.runPopd_succeeds ctx hrun (htree.nullFreeLinks hfiles) hstack

/-- A machine with a directory and a link to it. -/
def linked : Machine :=
  ⟨⟨.empty, [], "/", [], false⟩,
    .start ⟨[(["d"], .directory), (["l"], .link "d")]⟩ "/" .empty⟩

theorem linked_nullFreeLinks : linked.host.files.NullFreeLinks := by
  intro link target htarget
  have hentry : link = ["l"] ∧ target = "d" := by
    simpa [linked, Host.start] using FileSystem.mem_entries_of_linkTarget? htarget
  rw [hentry.2]
  decide

theorem directories_stay_linked :
    let m' := runLines .standard ["pushd l"] linked
    m'.session.directory = "/d" ∧ m'.session.stack = ["/"] ∧
      (∀ dir ∈ m'.session.directory :: m'.session.stack, m'.HasDirectory dir) ∧
      ∃ m'', Builtin.run .popd ⟨[], .inherited⟩ m' = .ok 0 m'' := by
  have hstart : Session.start linked.host.files linked.host.workingDirectory .empty none false =
      .ok linked.session := by decide +kernel
  have hdir : linked.InDirectory none := Or.inl (by decide +kernel)
  obtain ⟨hthere, hpopd⟩ := directories_stay hstart hdir .standard ["pushd l"]
  have hdirectory : (runLines .standard ["pushd l"] linked).session.directory = "/d" := by
    decide +kernel
  have hstack : (runLines .standard ["pushd l"] linked).session.stack = ["/"] := by
    decide +kernel
  refine ⟨hdirectory, hstack, hthere, ?_⟩
  exact (hpopd ⟨[], .inherited⟩).2 linked_nullFreeLinks (by simp [hstack])

end LineShell
