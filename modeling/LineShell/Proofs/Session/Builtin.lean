import LineShell.Proofs.Machine.Work

/-!
# What commands do to the session

Programs leave the session alone, and so do the builtins that only write, leave the shell or
replace it.  The ones that change directory either enter a directory that exists, or fail.
-/

namespace LineShell

open Machine (Evolves Serves)

/-- The calls that a session makes: with its exported variables, in its working directory. -/
def Session.Makes (s : Session) (call : Call) : Prop :=
  call.invocation.environment = s.exportedVariables ∧ call.invocation.directory = s.directory

/-! ## Programs -/

namespace Executable

theorem obeys_record {P : Call → Prop} {call : Call} (h : P call) :
    (Action.record call).Obeys (Serves P) :=
  fun m => ⟨⟨rfl, .refl m.host.files, [call], rfl, by simpa using h⟩, rfl⟩

theorem obeys_perform {P : Call → Prop} (program : Program) (arguments : List String)
    (streams : Streams) : (perform program arguments streams).Obeys (Serves P) := by
  have hwrite := Action.obeys_writeText (P := P)
  have hcopy : ∀ (channel : Channel) (n : Nat), (Action.modifyHost fun host =>
      host.write channel (host.remaining n)).Obeys (Serves P) :=
    fun channel n m => Machine.serves_write m channel (m.host.remaining n)
  unfold perform
  dsimp only
  have hend : ∀ out : Channel, Action.Obeys (Serves P) (do
      Action.writeText out program.output
      Action.writeText (streams.errors.getD .errors) program.errors
      return program.status) :=
    fun out => (hwrite _ _).bind fun _ => (hwrite _ _).bind fun _ => Action.obeys_pure _
  split
  · refine (hwrite _ _).bind fun _ => ?_
    split
    · split
      · exact (hcopy _ _).bind fun _ => hend _
      · exact hend _
    · exact hend _
  · split
    · split
      · exact (hcopy _ _).bind fun _ => hend _
      · exact hend _
    · exact hend _

/-- A program is started by the session, and leaves it alone. -/
theorem run_serves (path name : String) (arguments : List String) (streams : Streams)
    (m : Machine) : Serves m.session.Makes m ((run path name arguments streams).after m) := by
  rw [run, Action.after_session_bind, Action.after_host_bind]
  refine (Action.Obeys.bind (obeys_record ?_) fun _ => ?_) m
  · exact ⟨rfl, rfl⟩
  · split
    · exact (Action.obeys_writeText _ _).bind fun _ => Action.obeys_pure _
    · split
      · exact Action.obeys_pure _
      · exact obeys_perform _ _ _

theorem replace_serves (path : String) (arguments : List String) (m : Machine) :
    Serves m.session.Makes m ((replace path arguments).after m) := by
  rw [replace, Action.after_session_bind, Action.after_host_bind]
  split
  · exact Action.obeys_fail (α := Int) _ m
  · refine (Action.Obeys.bind (obeys_record ?_) fun _ => Action.obeys_throw _) m
    exact ⟨rfl, rfl⟩

end Executable

/-! ## Builtins that leave the session alone -/

namespace Builtin

theorem obeys_err {P : Call → Prop} (ctx : Context) (text : String) :
    (ctx.err text).Obeys (Serves P) :=
  Action.obeys_writeText _ text

theorem obeys_out {P : Call → Prop} (ctx : Context) (text : String) :
    (ctx.out text).Obeys (Serves P) :=
  Action.obeys_writeText _ text

theorem runDirs_serves (ctx : Context) (m : Machine) :
    Serves NoCall m ((runDirs ctx).after m) :=
  (Action.obeys_session.bind fun _ => (obeys_out ctx _).bind fun _ =>
    Action.obeys_pure _) m

theorem runExit_serves (ctx : Context) (m : Machine) :
    Serves NoCall m ((runExit ctx).after m) :=
  Action.obeys_throw (α := Int) _ m

theorem runExec_serves (ctx : Context) (m : Machine) :
    Serves m.session.Makes m ((runExec ctx).after m) := by
  unfold runExec
  split
  · exact Action.obeys_pure (0 : Int) m
  · rw [Action.after_session_bind, Action.after_host_bind]
    split
    · exact ((obeys_err ctx _).bind fun _ => Action.obeys_pure (127 : Int)) m
    · exact Executable.replace_serves _ _ m

theorem obeys_scriptedEnd (script : Scripted) : (scriptedEnd script).Obeys (Serves NoCall) := by
  unfold scriptedEnd
  split
  · exact Action.obeys_fail _
  · exact Action.obeys_pure _

theorem runScripted_serves (script : Scripted) (ctx : Context) (m : Machine) :
    Serves NoCall m ((runScripted script ctx).after m) := by
  have hend := obeys_scriptedEnd script
  unfold runScripted
  dsimp only
  split
  · refine (Action.Obeys.bind (obeys_out ctx _) fun _ => ?_) m
    split
    · exact (obeys_err ctx _).bind fun _ => hend
    · exact hend
  · split
    · exact ((obeys_err ctx _).bind fun _ => hend) m
    · exact hend m

/-! ## Exporting -/

def exportArgument (s : Session) (argument : String) : Session :=
  if isValidName (splitAssignment argument).1 then
    exportName s (splitAssignment argument).1 (splitAssignment argument).2
  else s

theorem exportAll_run (ctx : Context) (status : Int) (arguments : List String) (m : Machine) :
    ((exportAll ctx status arguments).after m).session =
        arguments.foldl exportArgument m.session ∧
      Evolves NoCall m ((exportAll ctx status arguments).after m) := by
  induction arguments generalizing status m with
  | nil => exact ⟨rfl, Action.obeys_pure status m⟩
  | cons argument rest ih =>
    rw [exportAll, List.foldl_cons]
    dsimp only
    by_cases hvalid : isValidName (splitAssignment argument).1 = true
    · rw [if_pos hvalid, exportArgument, if_pos hvalid]
      have hstep := Action.obeys_modifySession (P := NoCall)
        (fun s => exportName s (splitAssignment argument).1 (splitAssignment argument).2) m
      obtain ⟨hsession, hevolves⟩ := ih status (Action.after (Action.modifySession fun s =>
        exportName s (splitAssignment argument).1 (splitAssignment argument).2) m)
      exact ⟨hsession, hstep.trans hevolves⟩
    · rw [if_neg hvalid, exportArgument, if_neg hvalid]
      have hstep := obeys_err (P := NoCall) ctx
        (diagnostic ("export: not a valid identifier: " ++ (splitAssignment argument).1)) m
      obtain ⟨hsession, hevolves⟩ := ih 1 (Action.after (Context.err ctx
        (diagnostic ("export: not a valid identifier: " ++ (splitAssignment argument).1))) m)
      rw [hstep.session] at hsession
      exact ⟨hsession, hstep.toEvolves.trans hevolves⟩

theorem obeys_listExported {P : Call → Prop} (ctx : Context) (s : Session) (names : List String) :
    (listExported ctx s names).Obeys (Serves P) := by
  induction names with
  | nil => exact Action.obeys_pure ()
  | cons name names ih =>
    unfold listExported
    dsimp only
    split
    · exact (obeys_out ctx _).bind fun _ => ih
    · exact ih

theorem runExport_run (ctx : Context) (m : Machine) :
    ((runExport ctx).after m).session = ctx.arguments.foldl exportArgument m.session ∧
      Evolves NoCall m ((runExport ctx).after m) := by
  rcases ctx with ⟨arguments, streams⟩
  cases arguments with
  | nil =>
    have hserves := (obeys_listExported (P := NoCall) ⟨[], streams⟩ m.session
      (m.session.exported.mergeSort fun a b => a ≤ b)).bind
      (fun _ => Action.obeys_pure (0 : Int)) m
    exact ⟨hserves.session, hserves.toEvolves⟩
  | cons argument rest => exact exportAll_run _ 0 (argument :: rest) m

end Builtin

end LineShell
