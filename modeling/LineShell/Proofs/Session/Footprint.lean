import LineShell.Proofs.Session.Change

/-!
# The footprint of a line

A line can change the values of some variables, export some names, and change the working directory
and the stack.  Which of these it can do is known from its assignments, or from the builtin that
it runs and the arguments of that.  Everything outside its footprint is as it was, however the line
ends.
-/

namespace LineShell

structure Footprint where
  /-- The variables whose values can change. -/
  values : List String
  /-- The names that can become exported. -/
  exports : List String
  directory : Bool
  stack : Bool
  deriving DecidableEq

namespace Footprint

/-- The footprint of work that leaves the session alone. -/
def nothing : Footprint := ⟨[], [], false, false⟩

/-- The session is the same outside the footprint.  No name that was exported is lost. -/
structure Allows (f : Footprint) (s s' : Session) : Prop where
  strict : s'.strict = s.strict
  values : ∀ name, name ∉ f.values → s'.get? name = s.get? name
  exported : ∃ added, s'.exported = s.exported ++ added ∧ added ⊆ f.exports
  directory : f.directory = false → s'.directory = s.directory
  stack : f.stack = false → s'.stack = s.stack

theorem Allows.of_describes {f : Footprint} {c : Change} {s s' : Session} (h : c.Describes s s')
    (hvalues : c.stores.map Prod.fst ⊆ f.values) (hexports : c.exports ⊆ f.exports)
    (hdirectory : f.directory = false → s'.directory = s.directory)
    (hstack : f.stack = false → s'.stack = s.stack) : f.Allows s s' := by
  obtain ⟨added, hadded, hsub⟩ := h.exported
  refine ⟨h.strict, ?_, ⟨added, hadded, List.Subset.trans hsub hexports⟩, hdirectory, hstack⟩
  intro name hname
  have hlast : c.last name = none := Change.last_eq_none fun hmem => hname (hvalues hmem)
  rw [h.get?_eq, hlast, Option.none_or]

end Footprint

/-! ## Builtins -/

namespace Builtin

def footprint (b : Builtin) (arguments : List String) : Footprint :=
  match b with
  | .cd => ⟨["PWD"], [], true, false⟩
  | .pushd | .popd => ⟨["PWD"], [], true, true⟩
  | .export =>
      ⟨(exportPairs arguments).map Prod.fst, (exportPairs arguments).map Prod.fst, false, false⟩
  | .dirs | .exec | .exit | .scripted _ => .nothing

theorem footprint_directory_iff (b : Builtin) (arguments : List String) :
    (b.footprint arguments).directory = true ↔ b.ChangesDirectory := by
  cases b <;> simp [footprint, Footprint.nothing, ChangesDirectory]

theorem exportChange_stores_subset (arguments : List String) :
    (exportChange arguments).stores.map Prod.fst ⊆ (exportPairs arguments).map Prod.fst := by
  intro name hname
  obtain ⟨e, he, rfl⟩ := List.mem_map.mp hname
  obtain ⟨pair, hpair, hvalue⟩ := List.mem_filterMap.mp he
  obtain ⟨value, -, rfl⟩ := Option.map_eq_some_iff.mp hvalue
  exact List.mem_map_of_mem (f := Prod.fst) hpair

theorem exportAll_of_no_pairs {arguments : List String} (h : exportPairs arguments = [])
    (s : Session) : arguments.foldl exportArgument s = s := by
  induction arguments with
  | nil => rfl
  | cons argument rest ih =>
    by_cases hvalid : isValidName (splitAssignment argument).1 = true
    · simp [exportPairs, hvalid] at h
    · rw [List.foldl_cons, exportArgument, if_neg hvalid]
      apply ih
      simpa [exportPairs, hvalid] using h

end Builtin

namespace BuiltinCall

def footprint (call : BuiltinCall) : Footprint :=
  call.builtin.footprint call.context.arguments

theorem entering_subset (call : BuiltinCall) :
    call.entering.stores.map Prod.fst ⊆ ["PWD"] ∧ call.entering.exports ⊆ [] := by
  unfold entering
  split
  · split <;> simp [Change.nothing]
  · simp [Change.nothing]

theorem change_subset (call : BuiltinCall) :
    call.change.stores.map Prod.fst ⊆ call.footprint.values ∧
      call.change.exports ⊆ call.footprint.exports := by
  have hentering := call.entering_subset
  rcases call with ⟨b, ctx, m⟩
  cases b with
  | cd => exact hentering
  | pushd => exact hentering
  | popd => exact hentering
  | «export» => exact ⟨Builtin.exportChange_stores_subset ctx.arguments, List.Subset.refl _⟩
  | dirs => exact ⟨List.Subset.refl _, List.Subset.refl _⟩
  | exec => exact ⟨List.Subset.refl _, List.Subset.refl _⟩
  | exit => exact ⟨List.Subset.refl _, List.Subset.refl _⟩
  | scripted script => exact ⟨List.Subset.refl _, List.Subset.refl _⟩

theorem allows (call : BuiltinCall) :
    call.footprint.Allows call.machine.session call.session := by
  apply Footprint.Allows.of_describes call.change_describes call.change_subset.1
    call.change_subset.2
  · intro hdirectory
    apply (Builtin.run_place _ call.context call.machine).1
    intro hchange
    rw [footprint, (Builtin.footprint_directory_iff _ _).mpr hchange] at hdirectory
    cases hdirectory
  · intro hstack
    by_cases hchange : call.builtin.ChangesDirectory
    · have hcd : call.builtin = .cd := by
        rcases hchange with hcd | hpushd | hpopd
        · exact hcd
        · simp [footprint, hpushd, Builtin.footprint] at hstack
        · simp [footprint, hpopd, Builtin.footprint] at hstack
      rcases Builtin.run_changesDirectory hchange call.context call.machine with
        ⟨dir, -, hrun⟩ | ⟨-, -, hsession⟩
      · rw [BuiltinCall.session, Action.after_of_ok hrun, hcd]
        rfl
      · rw [BuiltinCall.session, hsession, hcd]
        rfl
    · exact (Builtin.run_place hchange call.context call.machine).2

theorem session_of_nothing {call : BuiltinCall} (h : call.footprint = .nothing) :
    call.session = call.machine.session := by
  by_cases hexport : call.builtin = .export
  · rcases call with ⟨b, ctx, m⟩
    cases hexport
    have hpairs : Builtin.exportPairs ctx.arguments = [] :=
      List.map_eq_nil_iff.mp (congrArg Footprint.exports h)
    have hsession : BuiltinCall.session ⟨.export, ctx, m⟩ = _ := (Builtin.runExport_run ctx m).1
    rw [hsession]
    exact Builtin.exportAll_of_no_pairs hpairs m.session
  · apply Builtin.run_keeps _ hexport
    intro hchange
    have hdirectory := (Builtin.footprint_directory_iff _ call.context.arguments).mpr hchange
    rw [footprint] at h
    rw [h] at hdirectory
    cases hdirectory

end BuiltinCall

/-! ## Lines -/

/-- Only a builtin that runs on the session itself has a footprint.  A program has none, nor has a
command with assignments, or one that can not be expanded or can not open its files. -/
def Command.footprint (registry : Registry) (c : Command) (m : Machine) : Footprint :=
  (c.builtinCall? registry m).elim .nothing BuiltinCall.footprint

def footprint (registry : Registry) (text : String) (m : Machine) : Footprint :=
  match parse text with
  | .error _ => .nothing
  | .ok .blank => .nothing
  | .ok (.assignments as) => ⟨as.map Assignment.name, [], false, false⟩
  | .ok (.command c) => c.footprint registry m

theorem Footprint.Allows.refl (s : Session) : Footprint.nothing.Allows s s where
  strict := rfl
  values _ _ := rfl
  exported := ⟨[], (List.append_nil _).symm, List.Subset.refl _⟩
  directory _ := rfl
  stack _ := rfl

theorem Session.allows_store (s : Session) (as : List Assignment) :
    Footprint.Allows ⟨as.map Assignment.name, [], false, false⟩ s
      (s.store false (Assignment.stores s.strict s.get? as)) := by
  apply Footprint.Allows.of_describes (s.describes_store false _)
  · exact Assignment.stores_names_subset s.strict s.get? as
  · exact List.Subset.refl _
  · exact fun _ => (s.store_place false _).1
  · exact fun _ => (s.store_place false _).2

theorem Command.within_footprint (registry : Registry) (c : Command) (m : Machine) :
    (c.footprint registry m).Allows m.session
        ((Execution.runCommand registry c).after m).session ∧
      (c.footprint registry m = .nothing →
        ((Execution.runCommand registry c).after m).session = m.session) := by
  rw [Execution.runCommand_session, Command.footprint]
  cases hcall : c.builtinCall? registry m with
  | none => exact ⟨.refl m.session, fun _ => rfl⟩
  | some call =>
    rw [← (Command.builtinCall?_serves hcall).session]
    exact ⟨call.allows, BuiltinCall.session_of_nothing⟩

/-- A line changes nothing of the session outside its footprint, however it ends, and it leaves the
session exactly as it was if the footprint is empty. -/
theorem executeLine_within_footprint (registry : Registry) (text : String) (m : Machine) :
    (footprint registry text m).Allows m.session ((executeLine registry text).after m).session ∧
      (footprint registry text m = .nothing →
        ((executeLine registry text).after m).session = m.session) := by
  rw [footprint]
  cases hparse : parse text with
  | error failure =>
    rw [(executeLine_serves_of_error registry hparse m).session]
    exact ⟨.refl m.session, fun _ => rfl⟩
  | ok line =>
    rw [executeLine_of_parse registry hparse, (reporting_serves _ m).session]
    cases line with
    | blank => exact ⟨.refl m.session, fun _ => rfl⟩
    | command c => exact c.within_footprint registry m
    | assignments as =>
      rw [(Execution.runAssignments_run registry as m).1]
      refine ⟨m.session.allows_store as, fun h => ?_⟩
      have hnil : as = [] := List.map_eq_nil_iff.mp (congrArg Footprint.values h)
      rw [hnil]
      rfl

end LineShell
