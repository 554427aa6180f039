import LineShell.Proofs.Session.Line

/-!
# Changes of the variables

What a line does to the variables of the session is a list of values that it stores and a list of
names that it exports.  Assignments store; `export` does both, for the names that are valid; and
a directory that is entered is stored in `PWD`.
-/

namespace LineShell

open Machine (Serves)

structure Change where
  /-- The values that are stored, one after the other. -/
  stores : List (String × String)
  exports : List String
  deriving DecidableEq

namespace Change

def nothing : Change := ⟨[], []⟩

instance : Append Change where
  append c d := ⟨c.stores ++ d.stores, c.exports ++ d.exports⟩

/-- The value that was stored last. -/
def last (c : Change) (name : String) : Option String :=
  c.stores.reverse.lookup name

theorem last_append (c d : Change) (name : String) :
    (c ++ d).last name = (d.last name).or (c.last name) := by
  have hstores : (c ++ d).stores = c.stores ++ d.stores := rfl
  rw [last, hstores, List.reverse_append, List.lookup_append]
  rfl

theorem mem_exports_append (c d : Change) (name : String) :
    name ∈ (c ++ d).exports ↔ name ∈ c.exports ∨ name ∈ d.exports :=
  List.mem_append

theorem last_eq_none {c : Change} {name : String} (h : name ∉ c.stores.map Prod.fst) :
    c.last name = none := by
  apply List.lookup_eq_none_iff.mpr
  intro e he
  have hne : name ≠ e.1 := by
    rintro rfl
    exact h (List.mem_map_of_mem (List.mem_reverse.mp he))
  simpa using hne

/-- The variables behind a change, in any order of its parts. -/
structure Describes (c : Change) (s s' : Session) : Prop where
  strict : s'.strict = s.strict
  get?_eq : ∀ name, s'.get? name = (c.last name).or (s.get? name)
  exported : ∃ added, s'.exported = s.exported ++ added ∧ added ⊆ c.exports
  exports : c.exports ⊆ s'.exported

namespace Describes

variable {c d : Change} {s s' s'' : Session}

theorem refl (s : Session) : Change.nothing.Describes s s where
  strict := rfl
  get?_eq _ := rfl
  exported := ⟨[], (List.append_nil _).symm, List.Subset.refl _⟩
  exports := List.nil_subset _

theorem append (h : c.Describes s s') (h' : d.Describes s' s'') : (c ++ d).Describes s s'' := by
  obtain ⟨added, hadded, hsub⟩ := h.exported
  obtain ⟨added', hadded', hsub'⟩ := h'.exported
  refine ⟨h'.strict.trans h.strict, ?_, ⟨added ++ added', ?_, ?_⟩, ?_⟩
  · intro name
    rw [h'.get?_eq, h.get?_eq, last_append, Option.or_assoc]
  · rw [hadded', hadded, List.append_assoc]
  · exact List.append_subset.mpr ⟨fun x hx => List.mem_append_left _ (hsub hx),
      fun x hx => List.mem_append_right _ (hsub' hx)⟩
  · refine List.append_subset.mpr ⟨?_, h'.exports⟩
    intro x hx
    rw [hadded']
    exact List.mem_append_left _ (h.exports hx)

/-- It says nothing about the directories. -/
theorem relocate (h : c.Describes s s') (dir : String) (stack : List String) :
    c.Describes s { s' with directory := dir, stack := stack } :=
  ⟨h.strict, h.get?_eq, h.exported, h.exports⟩

theorem mem_exported (h : c.Describes s s') (name : String) :
    name ∈ s'.exported ↔ name ∈ s.exported ∨ name ∈ c.exports := by
  obtain ⟨added, hadded, hsub⟩ := h.exported
  constructor
  · intro hname
    rw [hadded] at hname
    rcases List.mem_append.mp hname with hold | hnew
    · exact Or.inl hold
    · exact Or.inr (hsub hnew)
  · rintro (hold | hnew)
    · rw [hadded]
      exact List.mem_append_left _ hold
    · exact h.exports hnew

end Describes

theorem describes_set (s : Session) (name value : String) :
    Describes ⟨[(name, value)], []⟩ s (s.set name value) where
  strict := rfl
  get?_eq other := by
    by_cases h : other = name
    · simp [last, h]
    · simp [last, h]
  exported := ⟨[], (List.append_nil _).symm, List.Subset.refl _⟩
  exports := List.nil_subset _

theorem describes_markExported (s : Session) (name : String) :
    Describes ⟨[], [name]⟩ s (s.markExported name) where
  strict := rfl
  get?_eq _ := rfl
  exported := by
    by_cases h : name ∈ s.exported
    · exact ⟨[], by simp [Session.markExported, h]⟩
    · exact ⟨[name], by simp [Session.markExported, h]⟩
  exports := by
    intro x hx
    rw [List.mem_singleton.mp hx, Session.mem_exported_markExported]
    exact Or.inl rfl

theorem describes_enter (s : Session) (dir : String) :
    Describes ⟨[("PWD", dir)], []⟩ s (s.enter dir) :=
  (describes_set s "PWD" dir).relocate dir s.stack

end Change

/-! ## Assignments -/

theorem Session.describes_store (exporting : Bool) (s : Session) (stores : List (String × String)) :
    Change.Describes ⟨stores, if exporting then stores.map Prod.fst else []⟩ s
      (s.store exporting stores) := by
  induction stores generalizing s with
  | nil => cases exporting <;> exact .refl s
  | cons e stores ih =>
    have hset := Change.describes_set s e.1 e.2
    cases exporting with
    | false => exact hset.append (ih (s.set e.1 e.2))
    | true =>
      have hmark := Change.describes_markExported (s.set e.1 e.2) e.1
      exact (hset.append hmark).append (ih ((s.set e.1 e.2).markExported e.1))

theorem Session.store_place (exporting : Bool) (s : Session) (stores : List (String × String)) :
    (s.store exporting stores).directory = s.directory ∧
      (s.store exporting stores).stack = s.stack := by
  induction stores generalizing s with
  | nil => exact ⟨rfl, rfl⟩
  | cons e stores ih => cases exporting <;> exact ih _

theorem Assignment.stores_names_subset (strict : Bool) (lookup : Lookup) (as : List Assignment) :
    (Assignment.stores strict lookup as).map Prod.fst ⊆ as.map Assignment.name := by
  induction as generalizing lookup with
  | nil => exact List.Subset.refl _
  | cons a as ih =>
    rw [Assignment.stores]
    split
    · exact List.nil_subset _
    · exact List.cons_subset_cons a.name (ih _)

/-! ## Builtins -/

namespace Builtin

/-- The names that `export` is given, as far as they are valid, with their values. -/
def exportPairs (arguments : List String) : List (String × Option String) :=
  (arguments.map splitAssignment).filter fun e => isValidName e.1

def exportChange (arguments : List String) : Change where
  stores := (exportPairs arguments).filterMap fun e => e.2.map fun value => (e.1, value)
  exports := (exportPairs arguments).map Prod.fst

theorem exportChange_cons_of_valid {argument : String}
    (h : isValidName (splitAssignment argument).1 = true) (rest : List String) :
    exportChange (argument :: rest) =
      ⟨((splitAssignment argument).2.map fun v => ((splitAssignment argument).1, v)).toList,
        [(splitAssignment argument).1]⟩ ++ exportChange rest := by
  have hpairs : exportPairs (argument :: rest) = splitAssignment argument :: exportPairs rest := by
    simp [exportPairs, h]
  rw [exportChange, hpairs]
  cases hvalue : (splitAssignment argument).2 <;> simp [hvalue] <;> rfl

theorem exportChange_cons_of_not_valid {argument : String}
    (h : ¬ isValidName (splitAssignment argument).1 = true) (rest : List String) :
    exportChange (argument :: rest) = exportChange rest := by
  have hpairs : exportPairs (argument :: rest) = exportPairs rest := by simp [exportPairs, h]
  rw [exportChange, hpairs]
  rfl

theorem describes_exportName (s : Session) (name : String) (value : Option String) :
    Change.Describes ⟨(value.map fun v => (name, v)).toList, [name]⟩ s
      (exportName s name value) := by
  cases value with
  | none => exact Change.describes_markExported s name
  | some value =>
    have hset := Change.describes_set s name value
    exact hset.append (Change.describes_markExported (s.set name value) name)

theorem exportChange_describes (arguments : List String) (s : Session) :
    (exportChange arguments).Describes s (arguments.foldl exportArgument s) := by
  induction arguments generalizing s with
  | nil => exact .refl s
  | cons argument rest ih =>
    by_cases hvalid : isValidName (splitAssignment argument).1 = true
    · rw [List.foldl_cons, exportArgument, if_pos hvalid, exportChange_cons_of_valid hvalid]
      exact (describes_exportName s _ _).append (ih _)
    · rw [List.foldl_cons, exportArgument, if_neg hvalid, exportChange_cons_of_not_valid hvalid]
      exact ih s

theorem exportAll_place (s : Session) (arguments : List String) :
    (arguments.foldl exportArgument s).directory = s.directory ∧
      (arguments.foldl exportArgument s).stack = s.stack := by
  have hstep : ∀ s argument, (exportArgument s argument).directory = s.directory ∧
      (exportArgument s argument).stack = s.stack := by
    intro s argument
    unfold exportArgument exportName
    split
    · split <;> exact ⟨rfl, rfl⟩
    · exact ⟨rfl, rfl⟩
  induction arguments generalizing s with
  | nil => exact ⟨rfl, rfl⟩
  | cons argument rest ih =>
    have hrest := ih (exportArgument s argument)
    exact ⟨hrest.1.trans (hstep s argument).1, hrest.2.trans (hstep s argument).2⟩

/-- The other builtins leave the session alone. -/
theorem run_keeps {b : Builtin} (hchange : ¬ b.ChangesDirectory) (hexport : b ≠ .export)
    (ctx : Context) (m : Machine) : ((b.run ctx).after m).session = m.session := by
  cases b with
  | cd => exact absurd (Or.inl rfl) hchange
  | pushd => exact absurd (Or.inr (Or.inl rfl)) hchange
  | popd => exact absurd (Or.inr (Or.inr rfl)) hchange
  | dirs => exact (runDirs_serves ctx m).session
  | exec => exact (runExec_serves ctx m).session
  | exit => exact (runExit_serves ctx m).session
  | «export» => exact absurd rfl hexport
  | scripted script => exact (runScripted_serves script ctx m).session

theorem run_place {b : Builtin} (hchange : ¬ b.ChangesDirectory) (ctx : Context) (m : Machine) :
    ((b.run ctx).after m).session.directory = m.session.directory ∧
      ((b.run ctx).after m).session.stack = m.session.stack := by
  by_cases hexport : b = .export
  · subst hexport
    have hsession : ((run .export ctx).after m).session = _ := (runExport_run ctx m).1
    rw [hsession]
    exact exportAll_place m.session ctx.arguments
  · rw [run_keeps hchange hexport]
    exact ⟨rfl, rfl⟩

end Builtin

/-! ## Lines -/

/-- A directory that is entered is stored; a change of directory that fails stores nothing. -/
def BuiltinCall.entering (call : BuiltinCall) : Change :=
  match call.builtin.run call.context call.machine with
  | .ok status m => if status = 0 then ⟨[("PWD", m.session.directory)], []⟩ else .nothing
  | .error _ _ => .nothing

def BuiltinCall.change (call : BuiltinCall) : Change :=
  match call.builtin with
  | .export => Builtin.exportChange call.context.arguments
  | .cd | .pushd | .popd => call.entering
  | _ => .nothing

/-- What a line does to the variables of the session. -/
def lineChange (registry : Registry) (text : String) (m : Machine) : Change :=
  match parse text with
  | .ok (.assignments as) => ⟨Assignment.stores m.session.strict m.session.get? as, []⟩
  | _ => (builtinCall? registry text m).elim .nothing BuiltinCall.change

namespace BuiltinCall

theorem entering_describes {call : BuiltinCall} (hchange : call.builtin.ChangesDirectory) :
    call.entering.Describes call.machine.session call.session := by
  rcases call with ⟨b, ctx, m⟩
  rw [entering, BuiltinCall.session]
  rcases b.run_changesDirectory hchange ctx m with ⟨dir, -, hrun⟩ | ⟨hfails, -, hsession⟩
  · rw [Action.after_of_ok hrun, hrun]
    exact (Change.describes_enter m.session dir).relocate dir (b.stackEntered m.session)
  · have hkept := (Change.Describes.refl m.session).relocate m.session.directory
      (b.stackLeft m.session)
    rw [hsession]
    cases hrun : b.run ctx m with
    | error e m' => exact hkept
    | ok status m' =>
      have hstatus : status ≠ 0 := by
        rintro rfl
        exact hfails m' hrun
      dsimp only
      rw [if_neg hstatus]
      exact hkept

theorem change_describes (call : BuiltinCall) :
    call.change.Describes call.machine.session call.session := by
  rcases call with ⟨b, ctx, m⟩
  have hkeeps : ¬ b.ChangesDirectory → b ≠ .export →
      Change.nothing.Describes m.session ((b.run ctx).after m).session := by
    intro hb hexport
    rw [Builtin.run_keeps hb hexport]
    exact .refl m.session
  cases b with
  | cd => exact entering_describes (Or.inl rfl)
  | pushd => exact entering_describes (Or.inr (Or.inl rfl))
  | popd => exact entering_describes (Or.inr (Or.inr rfl))
  | dirs => exact hkeeps (by simp [Builtin.ChangesDirectory]) (by simp)
  | exec => exact hkeeps (by simp [Builtin.ChangesDirectory]) (by simp)
  | exit => exact hkeeps (by simp [Builtin.ChangesDirectory]) (by simp)
  | scripted script => exact hkeeps (by simp [Builtin.ChangesDirectory]) (by simp)
  | «export» =>
    have hsession : BuiltinCall.session ⟨.export, ctx, m⟩ = _ := (Builtin.runExport_run ctx m).1
    rw [hsession]
    exact Builtin.exportChange_describes ctx.arguments m.session

end BuiltinCall

theorem builtinCall?_serves {registry : Registry} {text : String} {m : Machine}
    {call : BuiltinCall} (h : builtinCall? registry text m = some call) :
    Serves NoCall m call.machine := by
  unfold builtinCall? at h
  split at h
  · exact Command.builtinCall?_serves h
  · simp at h

theorem lineChange_describes (registry : Registry) (text : String) (m : Machine) :
    (lineChange registry text m).Describes m.session
      ((executeLine registry text).after m).session := by
  have hcall : Change.Describes ((builtinCall? registry text m).elim .nothing BuiltinCall.change)
      m.session ((builtinCall? registry text m).elim m.session BuiltinCall.session) := by
    cases hbuiltin : builtinCall? registry text m with
    | none => exact .refl m.session
    | some call =>
      rw [← (builtinCall?_serves hbuiltin).session]
      exact call.change_describes
  rw [executeLine_session, lineChange]
  cases parse text with
  | error failure => exact hcall
  | ok line =>
    cases line with
    | blank => exact hcall
    | assignments as => exact m.session.describes_store false _
    | command c => exact hcall

end LineShell
