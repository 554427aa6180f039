import LineShell.Proofs.Session.Builtin

/-!
# Changing directory

A builtin that changes directory has two outcomes.  It enters a directory that is there, and ends
with status zero; or it fails, and then the session is as it was, except that a directory that was
taken from the stack is not put back.
-/

namespace LineShell

open Machine (Evolves Serves)

/-- An absolute path of a directory. -/
structure Machine.HasDirectory (m : Machine) (dir : String) : Prop where
  isAbsolute : Path.isAbsolute dir = true
  isDirectory : m.host.files.isDirectory m.host.workingDirectory dir = true

/-- The work ends with another status than zero, or is interrupted. -/
def Action.Fails (action : Action Int) (m : Machine) : Prop :=
  ∀ m', action m ≠ .ok 0 m'

namespace Builtin

theorem err_fails (ctx : Context) (text : String) (m : Machine) :
    (do ctx.err text; return (1 : Int) : Action Int).Fails m ∧
      Serves NoCall m ((do ctx.err text; return (1 : Int) : Action Int).after m) := by
  constructor
  · intro m' h
    cases h
  · exact ((obeys_err ctx text).bind fun _ => Action.obeys_pure (1 : Int)) m

theorem changeDirectory_enters (ctx : Context) (name : String) {target dir : String} {m : Machine}
    (hpath : m.host.files.canonicalPath m.host.workingDirectory
      (Path.join m.session.directory target) = .ok dir)
    (hdir : m.host.files.isDirectory m.host.workingDirectory dir = true) :
    changeDirectory ctx name target m = .ok 0 { m with session := m.session.enter dir } := by
  simp only [changeDirectory, Action.session_bind, Action.host_bind, hpath, hdir, if_true,
    Action.modifySession_bind]
  rfl

theorem changeDirectory_missing (ctx : Context) (name : String) {target dir : String} {m : Machine}
    (hpath : m.host.files.canonicalPath m.host.workingDirectory
      (Path.join m.session.directory target) = .ok dir)
    (hdir : m.host.files.isDirectory m.host.workingDirectory dir = false) :
    (changeDirectory ctx name target).Fails m ∧
      Serves NoCall m ((changeDirectory ctx name target).after m) := by
  have hrun : changeDirectory ctx name target m =
      (do ctx.err (diagnostic (name ++ ": no such directory: " ++ target)); return 1) m := by
    simp only [changeDirectory, Action.session_bind, Action.host_bind, hpath, hdir,
      Bool.false_eq_true, if_false]
  rw [Action.Fails, Action.after, hrun]
  exact err_fails ctx _ m

/-- The directory is there and is entered, or the change fails and leaves the session alone. -/
theorem changeDirectory_cases (ctx : Context) (name target : String) (m : Machine) :
    (∃ dir, m.HasDirectory dir ∧
        changeDirectory ctx name target m = .ok 0 { m with session := m.session.enter dir }) ∨
      ((changeDirectory ctx name target).Fails m ∧
        Serves NoCall m ((changeDirectory ctx name target).after m)) := by
  cases hpath : m.host.files.canonicalPath m.host.workingDirectory
      (Path.join m.session.directory target) with
  | error e =>
    have hrun : changeDirectory ctx name target m =
        .error (.failed (.path e (Path.join m.session.directory target))) m := by
      simp only [changeDirectory, Action.session_bind, Action.host_bind, hpath]
      rfl
    right
    rw [Action.after_of_error hrun]
    exact ⟨fun m' => by simp [hrun], Std.Refl.refl m⟩
  | ok dir =>
    cases hdir : m.host.files.isDirectory m.host.workingDirectory dir with
    | true =>
      left
      exact ⟨dir, ⟨FileSystem.isAbsolute_of_canonicalPath hpath, hdir⟩,
        changeDirectory_enters ctx name hpath hdir⟩
    | false => exact Or.inr (changeDirectory_missing ctx name hpath hdir)

/-! ## The builtins -/

theorem runCd_cases (ctx : Context) (m : Machine) :
    (∃ dir, m.HasDirectory dir ∧
        runCd ctx m = .ok 0 { m with session := m.session.enter dir }) ∨
      ((runCd ctx).Fails m ∧ Serves NoCall m ((runCd ctx).after m)) := by
  rcases ctx with ⟨arguments, streams⟩
  match arguments with
  | [] =>
    have hrun : runCd ⟨[], streams⟩ m =
        changeDirectory ⟨[], streams⟩ "cd" (homeDirectory m.host m.session) m := by
      simp only [runCd, Action.session_bind, Action.host_bind]
    rw [Action.Fails, Action.after, hrun]
    exact changeDirectory_cases _ "cd" (homeDirectory m.host m.session) m
  | [target] => exact changeDirectory_cases _ "cd" target m
  | _ :: _ :: _ => exact Or.inr (err_fails _ _ m)

theorem runPushd_cases (ctx : Context) (m : Machine) :
    (∃ dir, m.HasDirectory dir ∧
        runPushd ctx m = .ok 0
          { m with session :=
              { m.session.enter dir with stack := m.session.directory :: m.session.stack } }) ∨
      ((runPushd ctx).Fails m ∧ Serves NoCall m ((runPushd ctx).after m)) := by
  rcases ctx with ⟨arguments, streams⟩
  match arguments with
  | [target] =>
    simp only [runPushd]
    rcases changeDirectory_cases ⟨[target], streams⟩ "pushd" target m with
      ⟨dir, hdir, hrun⟩ | ⟨hfails, hserves⟩
    · left
      refine ⟨dir, hdir, ?_⟩
      rw [Action.session_bind, Action.bind_of_ok hrun]
      rfl
    · right
      have hsame : (do
          let s ← Action.session
          let status ← changeDirectory ⟨[target], streams⟩ "pushd" target
          if status = 0 then
            Action.modifySession fun s' => { s' with stack := s.directory :: s'.stack }
          return status : Action Int) m = changeDirectory ⟨[target], streams⟩ "pushd" target m := by
        cases hrun : changeDirectory ⟨[target], streams⟩ "pushd" target m with
        | ok status m' =>
          have hstatus : status ≠ 0 := by
            intro hzero
            exact hfails m' (by rw [hrun, hzero])
          rw [Action.session_bind, Action.bind_of_ok hrun, if_neg hstatus]
          rfl
        | error e m' => rw [Action.session_bind, Action.bind_of_error hrun]
      rw [Action.Fails, Action.after, hsame]
      exact ⟨hfails, hserves⟩
  | [] => exact Or.inr (err_fails _ _ m)
  | _ :: _ :: _ => exact Or.inr (err_fails _ _ m)

theorem runPopd_of_nil (ctx : Context) {m : Machine} (h : m.session.stack = []) :
    (runPopd ctx).Fails m ∧ Serves NoCall m ((runPopd ctx).after m) := by
  have hrun : runPopd ctx m =
      (do ctx.err (diagnostic "popd: directory stack empty"); return 1 : Action Int) m := by
    simp only [runPopd, Action.session_bind, h]
  rw [Action.Fails, Action.after, hrun]
  exact err_fails ctx _ m

theorem runPopd_of_cons (ctx : Context) {m : Machine} {target : String} {rest : List String}
    (h : m.session.stack = target :: rest) :
    runPopd ctx m = changeDirectory ctx "popd" target
      { m with session := { m.session with stack := rest } } := by
  simp only [runPopd, Action.session_bind, h, Action.modifySession_bind]

/-- The builtins that change the working directory. -/
def ChangesDirectory (b : Builtin) : Prop :=
  b = .cd ∨ b = .pushd ∨ b = .popd

/-- The stack behind a builtin that has changed directory. -/
def stackEntered (b : Builtin) (s : Session) : List String :=
  match b with
  | .pushd => s.directory :: s.stack
  | .popd => s.stack.tail
  | _ => s.stack

/-- The stack behind a builtin that has failed to. -/
def stackLeft (b : Builtin) (s : Session) : List String :=
  match b with
  | .popd => s.stack.tail
  | _ => s.stack

theorem run_changesDirectory {b : Builtin} (hb : b.ChangesDirectory) (ctx : Context)
    (m : Machine) :
    (∃ dir, m.HasDirectory dir ∧
        b.run ctx m = .ok 0
          { m with session := { m.session.enter dir with stack := b.stackEntered m.session } }) ∨
      ((b.run ctx).Fails m ∧ Evolves NoCall m ((b.run ctx).after m) ∧
        ((b.run ctx).after m).session = { m.session with stack := b.stackLeft m.session }) := by
  rcases hb with rfl | rfl | rfl
  · rcases runCd_cases ctx m with hentered | ⟨hfails, hserves⟩
    · exact Or.inl hentered
    · exact Or.inr ⟨hfails, hserves.toEvolves, hserves.session⟩
  · rcases runPushd_cases ctx m with hentered | ⟨hfails, hserves⟩
    · exact Or.inl hentered
    · exact Or.inr ⟨hfails, hserves.toEvolves, hserves.session⟩
  · cases hstack : m.session.stack with
    | nil =>
      obtain ⟨hfails, hserves⟩ := runPopd_of_nil ctx hstack
      refine Or.inr ⟨hfails, hserves.toEvolves, ?_⟩
      rw [stackLeft, hstack, List.tail_nil, ← hstack]
      exact hserves.session
    | cons target rest =>
      -- the change of directory starts from a stack without its top
      have hrun : run .popd ctx m = _ := runPopd_of_cons ctx hstack
      rw [stackEntered, stackLeft, hstack, List.tail_cons]
      rcases changeDirectory_cases ctx "popd" target
        { m with session := { m.session with stack := rest } } with
        ⟨dir, hdir, hentered⟩ | ⟨hfails, hserves⟩
      · exact Or.inl ⟨dir, ⟨hdir.isAbsolute, hdir.isDirectory⟩, hrun.trans hentered⟩
      · right
        rw [Action.Fails, Action.after, hrun]
        exact ⟨hfails, ⟨hserves.workingDirectory, hserves.tree, hserves.calls⟩, hserves.session⟩

/-! ## Failing -/

/-- A builtin that fails to change directory leaves the session as it was, except that `popd` has
taken the directory from the stack by then. -/
theorem failed_change_drops_popped {b : Builtin} (hb : b.ChangesDirectory) (ctx : Context)
    {m : Machine} (hfails : (b.run ctx).Fails m) :
    ((b.run ctx).after m).session =
      if b = .popd then { m.session with stack := m.session.stack.tail } else m.session := by
  rcases run_changesDirectory hb ctx m with ⟨dir, -, hrun⟩ | ⟨-, -, hsession⟩
  · exact absurd hrun (hfails _)
  · rw [hsession]
    rcases hb with rfl | rfl | rfl <;> rfl

/-- A machine whose session can go back to a directory that is not there. -/
def stranded : Machine :=
  ⟨⟨.empty, [], "/", ["/gone"], false⟩, .start .empty "/" .empty⟩

theorem runPopd_stranded : (runPopd ⟨[], .inherited⟩).Fails stranded := by
  have hpath : stranded.host.files.canonicalPath stranded.host.workingDirectory
      (Path.join stranded.session.directory "/gone") = .ok "/gone" := by decide +kernel
  have hdir : stranded.host.files.isDirectory stranded.host.workingDirectory "/gone" = false := by
    decide +kernel
  have hmissing := @changeDirectory_missing ⟨[], .inherited⟩ "popd" "/gone" "/gone"
    { stranded with session := { stranded.session with stack := [] } } hpath hdir
  have hrun : runPopd ⟨[], .inherited⟩ stranded = changeDirectory ⟨[], .inherited⟩ "popd" "/gone"
      { stranded with session := { stranded.session with stack := [] } } := runPopd_of_cons _ rfl
  intro m'
  rw [hrun]
  exact hmissing.1 m'

theorem failed_popd_stranded :
    ChangesDirectory .popd ∧ (run .popd ⟨[], .inherited⟩).Fails stranded ∧
      ((run .popd ⟨[], .inherited⟩).after stranded).session = ⟨.empty, [], "/", [], false⟩ := by
  have hpopd : ChangesDirectory .popd := Or.inr (Or.inr rfl)
  have hsession := failed_change_drops_popped hpopd ⟨[], .inherited⟩ runPopd_stranded
  exact ⟨hpopd, runPopd_stranded, hsession⟩

/-- A failed `popd` does not leave the stack as it was. -/
theorem failed_popd_not_unchanged :
    ¬ ∀ (b : Builtin) (ctx : Context) (m : Machine), b.ChangesDirectory → (b.run ctx).Fails m →
      ((b.run ctx).after m).session = m.session := by
  intro h
  have hpopd : ChangesDirectory .popd := Or.inr (Or.inr rfl)
  have hsame := h .popd ⟨[], .inherited⟩ stranded hpopd runPopd_stranded
  rcases run_changesDirectory hpopd ⟨[], .inherited⟩ stranded with
    ⟨dir, -, hrun⟩ | ⟨-, -, hsession⟩
  · exact absurd hrun (runPopd_stranded _)
  · rw [hsame] at hsession
    have hstack : stranded.session.stack = [] := congrArg Session.stack hsession
    exact absurd hstack (by decide)

end Builtin

end LineShell
