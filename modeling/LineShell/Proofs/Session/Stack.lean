import LineShell.Proofs.FileSystem.Permanence
import LineShell.Proofs.Session.Directories
import LineShell.Proofs.Session.Prefix

/-!
# The directory stack

A line changes the stack at most at its top: it puts one directory there, or it takes one away.  So
the lower part of the stack is untouched by a run of lines during which the stack never gets
shorter than that part.  Whatever happens between a `pushd` and the `popd` that belongs to it, the
`popd` finds the directory that the `pushd` has left, and leads back to it.
-/

namespace LineShell

open Machine (Evolves Serves)

/-! ## Lines that run a builtin -/

/-- The line runs the builtin on the session itself: nothing is assigned in front of it, its
arguments can be expanded, and its files can be opened. -/
def RunsBuiltin (registry : Registry) (text : String) (b : Builtin) (m : Machine) : Prop :=
  (builtinCall? registry text m).map BuiltinCall.builtin = some b

theorem runCommand_of_builtinCall {registry : Registry} {c : Command} {m : Machine}
    {call : BuiltinCall} (h : c.builtinCall? registry m = some call) :
    Execution.runCommand registry c m =
      (call.builtin.run call.context).closingFiles call.machine := by
  unfold Command.builtinCall? at h
  split at h
  · next hassignments =>
    split at h
    · next name arguments m₁ hexpand =>
      split at h
      · next streams m₂ happly =>
        obtain ⟨b, hlookup, rfl⟩ := Option.map_eq_some_iff.mp h
        have hexecute := registry.execute_of_ok name arguments happly
        rw [Execution.runCommand, Action.bind_of_ok hexpand]
        simp only [hassignments, if_true, hexecute, Registry.dispatch, hlookup]
      · simp at h
    · simp at h
  · simp at h

/-- Such a line ends as its builtin ends, except that errors are reported. -/
theorem executeLine_of_builtinCall {registry : Registry} {text : String} {m : Machine}
    {call : BuiltinCall} (h : builtinCall? registry text m = some call) :
    executeLine registry text m =
      Execution.reporting (call.builtin.run call.context).closingFiles call.machine := by
  unfold builtinCall? at h
  split at h
  · next c hparse =>
    rw [executeLine_of_parse registry hparse]
    exact reporting_congr (runCommand_of_builtinCall h)
  · simp at h

theorem Execution.ok_of_reporting {work : Action Int} {m m' : Machine}
    (h : reporting work m = .ok 0 m') : work m = .ok 0 m' := by
  cases hrun : work m with
  | ok status m'' =>
    rw [reporting_of_ok hrun] at h
    exact h
  | error e m'' =>
    by_cases he : ∃ error, e = .failed error
    · obtain ⟨error, rfl⟩ := he
      rw [reporting_of_error hrun] at h
      split at h
      · -- an error that is reported ends the line with another status
        cases h
      · cases h
    · rw [reporting_of_interruption hrun fun error heq => he ⟨error, heq⟩] at h
      cases h

theorem executeLine_ok_of_run {registry : Registry} {text : String} {m m' : Machine}
    {call : BuiltinCall} (h : builtinCall? registry text m = some call)
    (hrun : call.builtin.run call.context call.machine = .ok 0 m') :
    executeLine registry text m = .ok 0 { m' with host := { m'.host with handles := [] } } := by
  rw [executeLine_of_builtinCall h]
  apply Execution.reporting_of_ok
  simp only [Action.closingFiles, Action.andThen, hrun]

theorem run_ok_of_executeLine {registry : Registry} {text : String} {m m' : Machine}
    {call : BuiltinCall} (h : builtinCall? registry text m = some call)
    (hline : executeLine registry text m = .ok 0 m') :
    ∃ m'', call.builtin.run call.context call.machine = .ok 0 m'' ∧ m''.session = m'.session := by
  rw [executeLine_of_builtinCall h] at hline
  have hclosed := Execution.ok_of_reporting hline
  cases hrun : call.builtin.run call.context call.machine with
  | ok status m'' =>
    simp only [Action.closingFiles, Action.andThen, hrun] at hclosed
    cases hclosed
    exact ⟨m'', rfl, rfl⟩
  | error e m'' =>
    simp only [Action.closingFiles, Action.andThen, hrun] at hclosed
    cases hclosed

theorem Machine.expand_fixed (m : Machine) (name : String) (ws : List Word) :
    m.expand ([.fixed name] :: ws) = (m.expand ws).map (name :: ·) := by
  simp only [Machine.expand, Expansion.words, Expansion.word_fixed, List.singleton_append]
  cases Expansion.words ⟨m.host.files, m.host.workingDirectory, some m.session.directory,
    m.session.strict, false⟩ m.session.get? ws <;> rfl

/-- A command that begins with the name of a builtin runs it, if it succeeds.  If its words can not
be expanded, or its files not be opened, then it fails. -/
theorem runsBuiltin_of_ok {registry : Registry} {text name : String} {b : Builtin}
    {ws : List Word} {ds : List Redirect} {m m' : Machine}
    (hparse : parse text = .ok (.command ⟨[], [.fixed name] :: ws, ds⟩))
    (hlookup : registry.lookup name = some b) (hok : executeLine registry text m = .ok 0 m') :
    RunsBuiltin registry text b m := by
  rw [executeLine_of_parse registry hparse] at hok
  have hrun : Execution.runCommand registry ⟨[], [.fixed name] :: ws, ds⟩ m = .ok 0 m' :=
    Execution.ok_of_reporting hok
  have hexpand := m.expand_fixed name ws
  cases hws : m.expand ws with
  | error unset =>
    rw [hws, Except.map] at hexpand
    rw [Execution.runCommand_of_error hexpand] at hrun
    cases hrun
  | ok arguments =>
    rw [hws, Except.map] at hexpand
    have harguments := Execution.expandArguments_eq ([.fixed name] :: ws) m
    rw [hexpand] at harguments
    rw [Execution.runCommand, Action.bind_of_ok harguments] at hrun
    cases happly : Redirection.applyAll .inherited ds m with
    | error e m₁ =>
      have hexecute := registry.execute_of_error name arguments happly
      simp only [List.isEmpty_nil, if_true, hexecute] at hrun
      cases hrun
    | ok streams m₁ =>
      rw [RunsBuiltin, builtinCall?, hparse]
      simp only [Command.builtinCall?, List.isEmpty_nil, if_true, harguments, happly, hlookup,
        Option.map_some]

/-- A command that consists of the name of a builtin runs it in every state. -/
theorem runsBuiltin_of_name {registry : Registry} {text name : String} {b : Builtin}
    (hparse : parse text = .ok (.command ⟨[], [[.fixed name]], []⟩))
    (hlookup : registry.lookup name = some b) (m : Machine) : RunsBuiltin registry text b m := by
  have hexpand : m.expand [[.fixed name]] = .ok [name] := m.expand_fixed name []
  have harguments := Execution.expandArguments_eq [[.fixed name]] m
  rw [hexpand] at harguments
  have happly : Redirection.applyAll .inherited [] m = .ok .inherited m := rfl
  rw [RunsBuiltin, builtinCall?, hparse]
  simp only [Command.builtinCall?, List.isEmpty_nil, if_true, harguments, happly, hlookup,
    Option.map_some]

/-! ## The top of the stack -/

theorem BuiltinCall.stack_cases (call : BuiltinCall) :
    call.session.stack = call.machine.session.stack ∨
      (∃ dir, call.session.stack = dir :: call.machine.session.stack) ∨
        call.session.stack = call.machine.session.stack.tail := by
  rcases call with ⟨b, ctx, m⟩
  rw [BuiltinCall.session]
  by_cases hchange : b.ChangesDirectory
  · rcases b.run_changesDirectory hchange ctx m with ⟨dir, -, hrun⟩ | ⟨-, -, hsession⟩
    · rw [Action.after_of_ok hrun]
      cases b with
      | pushd => exact Or.inr (Or.inl ⟨m.session.directory, rfl⟩)
      | popd => exact Or.inr (Or.inr rfl)
      | _ => exact Or.inl rfl
    · rw [hsession]
      cases b with
      | popd => exact Or.inr (Or.inr rfl)
      | _ => exact Or.inl rfl
  · exact Or.inl (Builtin.run_place hchange ctx m).2

/-- A line changes the stack at most at its top. -/
theorem executeLine_stack (registry : Registry) (text : String) (m : Machine) :
    ((executeLine registry text).after m).session.stack = m.session.stack ∨
      (∃ dir, ((executeLine registry text).after m).session.stack = dir :: m.session.stack) ∨
        ((executeLine registry text).after m).session.stack = m.session.stack.tail := by
  have hcall : ∀ s, s = (builtinCall? registry text m).elim m.session BuiltinCall.session →
      s.stack = m.session.stack ∨ (∃ dir, s.stack = dir :: m.session.stack) ∨
        s.stack = m.session.stack.tail := by
    rintro s rfl
    cases hbuiltin : builtinCall? registry text m with
    | none => exact Or.inl rfl
    | some call =>
      rw [← (builtinCall?_serves hbuiltin).session]
      exact call.stack_cases
  rw [executeLine_session]
  cases parse text with
  | error failure => exact hcall _ rfl
  | ok line =>
    cases line with
    | blank => exact hcall _ rfl
    | command c => exact hcall _ rfl
    | assignments as => exact Or.inl (m.session.store_place false _).2

/-! ## The lower part of the stack -/

theorem suffix_of_executeLine (registry : Registry) (text : String) {m : Machine}
    {base : List String} (hbase : base <:+ m.session.stack)
    (hlength : base.length ≤ ((executeLine registry text).after m).session.stack.length) :
    base <:+ ((executeLine registry text).after m).session.stack := by
  rcases executeLine_stack registry text m with hsame | ⟨dir, hpushed⟩ | hpopped
  · rw [hsame]
    exact hbase
  · rw [hpushed]
    exact hbase.trans (List.suffix_cons dir m.session.stack)
  · rw [hpopped] at hlength ⊢
    obtain ⟨above, habove⟩ := hbase
    rw [← habove] at hlength ⊢
    cases above with
    | nil =>
      -- the popped directory would be in the lower part
      have hnil : base = [] := by
        rw [List.nil_append, List.length_tail] at hlength
        rw [← List.length_eq_zero_iff]
        omega
      rw [hnil]
      exact List.nil_suffix
    | cons dir above => exact List.suffix_append above base

/-- If the stack never gets shorter than its lower part, then this part stays where it is. -/
theorem suffix_of_runLines (registry : Registry) {texts : List String} {m : Machine}
    {base : List String} (hbase : base <:+ m.session.stack)
    (hstay : ∀ before, before <+: texts →
      base.length ≤ (runLines registry before m).session.stack.length) :
    base <:+ (runLines registry texts m).session.stack := by
  induction texts generalizing m with
  | nil => exact hbase
  | cons text texts ih =>
    have hone : [text] <+: text :: texts := ⟨texts, rfl⟩
    apply ih (suffix_of_executeLine registry text hbase (hstay [text] hone))
    intro before hbefore
    exact hstay (text :: before) ((List.prefix_cons_inj text).mpr hbefore)

/-! ## There and back -/

theorem runLines_workingDirectory (registry : Registry) (texts : List String) (m : Machine) :
    (runLines registry texts m).host.workingDirectory = m.host.workingDirectory := by
  induction texts generalizing m with
  | nil => rfl
  | cons text texts ih => exact (ih _).trans (executeLine_evolves registry text m).workingDirectory

theorem stack_of_pushd {registry : Registry} {text : String} {m m' : Machine}
    (hruns : RunsBuiltin registry text .pushd m) (hline : executeLine registry text m = .ok 0 m') :
    m'.session.stack = m.session.directory :: m.session.stack := by
  obtain ⟨⟨b, ctx, k⟩, hcall, rfl⟩ := Option.map_eq_some_iff.mp hruns
  obtain ⟨k', hrun, hsession⟩ := run_ok_of_executeLine hcall hline
  rw [← hsession, ← (builtinCall?_serves hcall).session]
  rcases Builtin.runPushd_cases ctx k with ⟨dir, -, hentered⟩ | ⟨hfails, -⟩
  · cases hrun.symm.trans hentered
    rfl
  · exact absurd hrun (hfails k')

theorem executeLine_of_popd {registry : Registry} {text : String} {m : Machine}
    {target home : String} {rest : List String} (hruns : RunsBuiltin registry text .popd m)
    (hstack : m.session.stack = target :: rest) (htarget : m.HasDirectory target)
    (hhome : m.host.files.canonicalPath m.host.workingDirectory target = .ok home) :
    ∃ m', executeLine registry text m = .ok 0 m' ∧
      m'.session = { m.session with stack := rest }.enter home := by
  obtain ⟨⟨b, ctx, k⟩, hcall, rfl⟩ := Option.map_eq_some_iff.mp hruns
  have hserves := builtinCall?_serves hcall
  have hthere : k.HasDirectory target := (hserves.toEvolves.hasDirectory_iff target).mpr htarget
  have hpath : k.host.files.canonicalPath k.host.workingDirectory target = .ok home := by
    have hsame := hserves.tree.canonicalPath_eq htarget.isAbsolute htarget.isDirectory
    rw [hserves.workingDirectory]
    exact hsame.trans hhome
  have hrun : Builtin.run .popd ctx k = _ :=
    Builtin.runPopd_of_hasDirectory ctx (by rw [hserves.session]; exact hstack) hthere
  rw [hpath] at hrun
  refine ⟨_, executeLine_ok_of_run hcall hrun, ?_⟩
  rw [hserves.session]

theorem exists_popd_of_pushd {registry : Registry} {m m₁ : Machine} {pushd popd home : String}
    {texts : List String} (hhere : m.HasDirectory m.session.directory)
    (hhome : m.host.files.canonicalPath m.host.workingDirectory m.session.directory = .ok home)
    (hpushd : RunsBuiltin registry pushd .pushd m)
    (hsucceeds : executeLine registry pushd m = .ok 0 m₁)
    (hstay : ∀ before, before <+: texts →
      m₁.session.stack.length ≤ (runLines registry before m₁).session.stack.length)
    (hend : (runLines registry texts m₁).session.stack.length = m₁.session.stack.length)
    (hpopd : RunsBuiltin registry popd .popd (runLines registry texts m₁)) :
    ∃ m₂, executeLine registry popd (runLines registry texts m₁) = .ok 0 m₂ ∧
      m₂.session.stack = m.session.stack ∧ m₂.session.directory = home ∧
      m₂.session.get? "PWD" = some home := by
  have hpushed : m₁.session.stack = m.session.directory :: m.session.stack :=
    stack_of_pushd hpushd hsucceeds
  have hstack : (runLines registry texts m₁).session.stack =
      m.session.directory :: m.session.stack := by
    have hsuffix := suffix_of_runLines registry (List.suffix_refl m₁.session.stack) hstay
    rw [← hpushed]
    exact (hsuffix.eq_of_length hend.symm).symm
  -- the host is the same as before the `pushd` but for regular files
  have hafter := executeLine_evolves registry pushd m
  rw [Action.after_of_ok hsucceeds] at hafter
  have hcwd := (runLines_workingDirectory registry texts m₁).trans hafter.workingDirectory
  have htree := hafter.tree.trans (runLines_sameTree registry texts m₁)
  have hthere := hhere.of_sameTree hcwd htree
  have hpath : (runLines registry texts m₁).host.files.canonicalPath
      (runLines registry texts m₁).host.workingDirectory m.session.directory = .ok home := by
    rw [hcwd, htree.canonicalPath_eq hhere.isAbsolute hhere.isDirectory, hhome]
  obtain ⟨m₂, hline, hsession⟩ := executeLine_of_popd hpopd hstack hthere hpath
  refine ⟨m₂, hline, ?_, ?_, ?_⟩
  · rw [hsession]
    rfl
  · rw [hsession]
    rfl
  · rw [hsession]
    exact (Session.get?_set _ "PWD" home "PWD").trans (if_pos rfl)

/-- A `pushd` that succeeds is undone by a `popd` if the stack is never shorter in between than the
`pushd` has left it, and has this length again in the end.  The stack is then the one from before,
and the working directory is the canonical path of the one from before. -/
theorem popd_undoes_pushd {m m₁ : Machine} {pushd popd home : String} {ws : List Word}
    {ds : List Redirect} {texts : List String} (hhere : m.HasDirectory m.session.directory)
    (hhome : m.host.files.canonicalPath m.host.workingDirectory m.session.directory = .ok home)
    (hpushd : parse pushd = .ok (.command ⟨[], [.fixed "pushd"] :: ws, ds⟩))
    (hsucceeds : executeLine .standard pushd m = .ok 0 m₁)
    (hstay : ∀ before, before <+: texts →
      m₁.session.stack.length ≤ (runLines .standard before m₁).session.stack.length)
    (hend : (runLines .standard texts m₁).session.stack.length = m₁.session.stack.length)
    (hpopd : parse popd = .ok (.command ⟨[], [[.fixed "popd"]], []⟩)) :
    ∃ m₂, executeLine .standard popd (runLines .standard texts m₁) = .ok 0 m₂ ∧
      m₂.session.stack = m.session.stack ∧ m₂.session.directory = home ∧
      m₂.session.get? "PWD" = some home := by
  have hruns : RunsBuiltin .standard pushd .pushd m := runsBuiltin_of_ok hpushd rfl hsucceeds
  exact exists_popd_of_pushd hhere hhome hruns hsucceeds hstay hend
    (runsBuiltin_of_name hpopd rfl _)

/-- The session is in a linked directory, and another directory is on its stack. -/
def linkedDeep : Machine :=
  { linked with session := { linked.session with directory := "/l", stack := ["/d"] } }

/-- The lines in between change the directory, run a `popd` on a copy, and nest. -/
theorem popd_undoes_pushd_linkedDeep :
    let texts := ["cd d", "A=1 popd", "pushd /l", "nothing", "popd"]
    ∃ m₁ m₂, executeLine .standard "pushd /" linkedDeep = .ok 0 m₁ ∧
      executeLine .standard "popd" (runLines .standard texts m₁) = .ok 0 m₂ ∧
        m₂.session.stack = ["/d"] ∧ m₂.session.directory = "/d" ∧
          m₂.session.get? "PWD" = some "/d" := by
  intro texts
  have hhere : linkedDeep.HasDirectory linkedDeep.session.directory :=
    ⟨by decide +kernel, by decide +kernel⟩
  have hhome : linkedDeep.host.files.canonicalPath linkedDeep.host.workingDirectory
      linkedDeep.session.directory = .ok "/d" := by decide +kernel
  have hpushd : parse "pushd /" =
      .ok (.command ⟨[], [[.fixed "pushd"], [.fixed "/"]], []⟩) := by decide +kernel
  have hzero : EStateM.run' (executeLine .standard "pushd /") linkedDeep = some 0 := by
    decide +kernel
  have hends : ∃ m₁, executeLine .standard "pushd /" linkedDeep = .ok 0 m₁ := by
    cases hrun : executeLine .standard "pushd /" linkedDeep with
    | ok status m₁ =>
      simp only [EStateM.run', EStateM.run, hrun, Option.some.injEq] at hzero
      exact ⟨m₁, by rw [hzero]⟩
    | error e m₁ => simp [EStateM.run', EStateM.run, hrun] at hzero
  obtain ⟨m₁, hsucceeds⟩ := hends
  have hm₁ : m₁ = (executeLine .standard "pushd /").after linkedDeep := by
    rw [Action.after_of_ok hsucceeds]
  have hstay : ∀ before ∈ texts.inits,
      m₁.session.stack.length ≤ (runLines .standard before m₁).session.stack.length := by
    rw [hm₁]
    decide +kernel
  have hend : (runLines .standard texts m₁).session.stack.length = m₁.session.stack.length := by
    rw [hm₁]
    decide +kernel
  have hpopd : parse "popd" = .ok (.command ⟨[], [[.fixed "popd"]], []⟩) := by decide +kernel
  obtain ⟨m₂, hline, hundone⟩ := popd_undoes_pushd hhere hhome hpushd hsucceeds
    (fun before hbefore => hstay before ((List.mem_inits before texts).mpr hbefore)) hend hpopd
  exact ⟨m₁, m₂, hsucceeds, hline, hundone⟩

end LineShell
