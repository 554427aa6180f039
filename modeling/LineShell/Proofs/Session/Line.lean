import LineShell.Proofs.Line.Quotation
import LineShell.Proofs.Session.Directory

/-!
# What a line does to the session

A line without a command makes its assignments.  A command without assignments in front of it may
run a builtin on the session; this is the only other way in which a line can change it, since
programs never do and a command with assignments works on a copy.  The calls of a line are made by
the session as the assignments in front of the command have it.  Behind a line no file is open.
-/

namespace LineShell

open Machine (Evolves Serves)

/-! ## Assignments -/

/-- What assignments store, one after the other, up to the first whose value can not be
expanded. -/
def Assignment.stores (strict : Bool) (lookup : Lookup) : List Assignment → List (String × String)
  | [] => []
  | a :: as =>
      match Expansion.one strict lookup a.value with
      | .error _ => []
      | .ok value =>
          (a.name, value) ::
            stores strict (fun name => if name = a.name then some value else lookup name) as

/-- The first variable that is unset where one of the assignments refers to it, each with the ones
before it in place. -/
def Assignment.unset? (strict : Bool) (lookup : Lookup) : List Assignment → Option String
  | [] => none
  | a :: as =>
      match Expansion.one strict lookup a.value with
      | .error name => some name
      | .ok value =>
          unset? strict (fun name => if name = a.name then some value else lookup name) as

def Session.store (exporting : Bool) (s : Session) (stores : List (String × String)) : Session :=
  stores.foldl (fun s e => s.storeOne exporting e.1 e.2) s

/-- The machine behind assignments, as far as they can be expanded. -/
def Machine.assigned (m : Machine) (exporting : Bool) (as : List Assignment) : Machine where
  session := m.session.store exporting (Assignment.stores m.session.strict m.session.get? as)
  host := m.host

namespace Session

theorem strict_storeOne (exporting : Bool) (s : Session) (name value : String) :
    (s.storeOne exporting name value).strict = s.strict := by
  cases exporting <;> rfl

theorem get?_storeOne (exporting : Bool) (s : Session) (name value : String) :
    (s.storeOne exporting name value).get? =
      fun x => if x = name then some value else s.get? x := by
  have hset : (s.set name value).get? = fun x => if x = name then some value else s.get? x :=
    funext fun x => s.get?_set name value x
  cases exporting <;> exact hset

end Session

namespace Execution

theorem assign_cons_of_ok (exporting : Bool) {a : Assignment} (as : List Assignment) {m : Machine}
    {value : String} (h : Expansion.one m.session.strict m.session.get? a.value = .ok value) :
    assign exporting (a :: as) m =
      assign exporting as { m with session := m.session.storeOne exporting a.name value } := by
  simp only [assign, Action.session_bind, h, Action.modifySession_bind]

theorem assign_cons_of_error (exporting : Bool) {a : Assignment} (as : List Assignment)
    {m : Machine} {name : String}
    (h : Expansion.one m.session.strict m.session.get? a.value = .error name) :
    assign exporting (a :: as) m = .error (.failed (.unset name)) m := by
  simp only [assign, Action.session_bind, h]
  rfl

/-- Assignments are made as far as they can be expanded. -/
theorem assign_eq (exporting : Bool) (as : List Assignment) (m : Machine) :
    assign exporting as m =
      match Assignment.unset? m.session.strict m.session.get? as with
      | none => .ok () (m.assigned exporting as)
      | some name => .error (.failed (.unset name)) (m.assigned exporting as) := by
  induction as generalizing m with
  | nil => rfl
  | cons a as ih =>
    rw [Machine.assigned, Assignment.stores, Assignment.unset?]
    cases hvalue : Expansion.one m.session.strict m.session.get? a.value with
    | error name => exact assign_cons_of_error exporting as hvalue
    | ok value =>
      have hrest := ih { m with session := m.session.storeOne exporting a.name value }
      rw [Machine.assigned, Session.strict_storeOne, Session.get?_storeOne] at hrest
      rw [assign_cons_of_ok exporting as hvalue, hrest]
      rfl

theorem assign_after (exporting : Bool) (as : List Assignment) (m : Machine) :
    (assign exporting as).after m = m.assigned exporting as := by
  rw [Action.after, assign_eq]
  cases Assignment.unset? m.session.strict m.session.get? as <;> rfl

theorem assign_run (exporting : Bool) (as : List Assignment) (m : Machine) :
    ((assign exporting as).after m).session =
        m.session.store exporting (Assignment.stores m.session.strict m.session.get? as) ∧
      Evolves NoCall m ((assign exporting as).after m) := by
  rw [assign_after]
  exact ⟨rfl, m.evolves_of_session _⟩

/-- Assignments that are all made store all their names. -/
theorem stores_names_of_assign_ok {exporting : Bool} {as : List Assignment} {m m' : Machine}
    (h : assign exporting as m = .ok () m') :
    (Assignment.stores m.session.strict m.session.get? as).map Prod.fst =
      as.map Assignment.name := by
  induction as generalizing m with
  | nil => rfl
  | cons a as ih =>
    rw [Assignment.stores]
    cases hvalue : Expansion.one m.session.strict m.session.get? a.value with
    | error name =>
      rw [assign_cons_of_error exporting as hvalue] at h
      cases h
    | ok value =>
      rw [assign_cons_of_ok exporting as hvalue] at h
      have hrest := ih h
      rw [Session.strict_storeOne, Session.get?_storeOne] at hrest
      simp only [List.map_cons, hrest]

end Execution

/-! ## Commands -/

theorem Execution.expandArguments_after (ws : List Word) (m : Machine) :
    (expandArguments ws).after m = m := by
  rw [Action.after, expandArguments_eq]
  cases m.expand ws <;> rfl

theorem Builtin.run_evolves (b : Builtin) (ctx : Context) (m : Machine) :
    Evolves m.session.Makes m ((b.run ctx).after m) := by
  have hchange : b.ChangesDirectory → Evolves m.session.Makes m ((b.run ctx).after m) := by
    intro hb
    rcases run_changesDirectory hb ctx m with ⟨dir, -, hrun⟩ | ⟨-, hevolves, -⟩
    · rw [Action.after_of_ok hrun]
      exact m.evolves_of_session _
    · exact hevolves.of_noCall
  cases b with
  | cd => exact hchange (Or.inl rfl)
  | pushd => exact hchange (Or.inr (Or.inl rfl))
  | popd => exact hchange (Or.inr (Or.inr rfl))
  | dirs => exact (runDirs_serves ctx m).toEvolves.of_noCall
  | exec => exact (runExec_serves ctx m).toEvolves
  | exit => exact (runExit_serves ctx m).toEvolves.of_noCall
  | «export» => exact (runExport_run ctx m).2.of_noCall
  | scripted script => exact (runScripted_serves script ctx m).toEvolves.of_noCall

namespace Registry

theorem dispatch_of_none {registry : Registry} {name : String} (h : registry.lookup name = none)
    (arguments : List String) (streams : Streams) (m : Machine) :
    Serves m.session.Makes m ((registry.dispatch name arguments streams).after m) := by
  unfold dispatch
  rw [h]
  dsimp only
  rw [Action.after_session_bind, Action.after_host_bind]
  split
  · exact ((Builtin.obeys_err _ _).bind fun _ => Action.obeys_pure notFoundStatus) m
  · exact Executable.run_serves _ _ _ _ m

theorem dispatch_evolves (registry : Registry) (name : String) (arguments : List String)
    (streams : Streams) (m : Machine) :
    Evolves m.session.Makes m ((registry.dispatch name arguments streams).after m) := by
  cases h : registry.lookup name with
  | some b =>
    have hrun : registry.dispatch name arguments streams = b.run ⟨arguments, streams⟩ := by
      simp only [dispatch, h]
    rw [hrun]
    exact b.run_evolves _ m
  | none => exact (dispatch_of_none h arguments streams m).toEvolves

theorem dispatch_session (registry : Registry) (name : String) (arguments : List String)
    (streams : Streams) (m : Machine) :
    ((registry.dispatch name arguments streams).after m).session =
      match registry.lookup name with
      | some b => ((b.run ⟨arguments, streams⟩).after m).session
      | none => m.session := by
  cases h : registry.lookup name with
  | some b => simp only [dispatch, h]
  | none => exact (dispatch_of_none h arguments streams m).session

theorem execute_evolves (registry : Registry) (name : String) (arguments : List String)
    (redirects : List Redirect) (m : Machine) :
    Evolves m.session.Makes m ((registry.execute name arguments redirects).after m) := by
  rw [execute, Action.closingFiles, Action.after_andThen, Action.after_bind]
  have happly := Redirection.obeys_applyAll (P := m.session.Makes) .inherited redirects m
  cases hrun : Redirection.applyAll .inherited redirects m with
  | error e m₁ =>
    rw [Action.after_of_error hrun] at happly
    exact happly.toEvolves.trans (Machine.serves_closed _).toEvolves
  | ok streams m₁ =>
    rw [Action.after_of_ok hrun] at happly
    have hdispatch := registry.dispatch_evolves name arguments streams m₁
    rw [happly.session] at hdispatch
    exact (happly.toEvolves.trans hdispatch).trans (Machine.serves_closed _).toEvolves

end Registry

structure BuiltinCall where
  builtin : Builtin
  context : Context
  machine : Machine

def BuiltinCall.session (call : BuiltinCall) : Session :=
  ((call.builtin.run call.context).after call.machine).session

/-- The builtin that a command runs on the session itself.  There is none if the command has
assignments, is not expanded, or can not open its files. -/
def Command.builtinCall? (registry : Registry) (c : Command) (m : Machine) : Option BuiltinCall :=
  if c.assignments.isEmpty then
    match Execution.expandArguments c.arguments m with
    | .ok (name :: arguments) m₁ =>
        match Redirection.applyAll .inherited c.redirects m₁ with
        | .ok streams m₂ => (registry.lookup name).map fun b => ⟨b, ⟨arguments, streams⟩, m₂⟩
        | .error _ _ => none
    | _ => none
  else none

def builtinCall? (registry : Registry) (text : String) (m : Machine) : Option BuiltinCall :=
  match parse text with
  | .ok (.command c) => c.builtinCall? registry m
  | _ => none

theorem Command.builtinCall?_serves {registry : Registry} {c : Command} {m : Machine}
    {call : BuiltinCall} (h : c.builtinCall? registry m = some call) :
    Serves NoCall m call.machine := by
  unfold builtinCall? at h
  split at h
  · have hexpand := Execution.expandArguments_after c.arguments m
    split at h
    · next name arguments m₁ hrun =>
      rw [Action.after_of_ok hrun] at hexpand
      subst hexpand
      have happly := Redirection.obeys_applyAll (P := NoCall) .inherited c.redirects m₁
      split at h
      · next streams m₂ happlied =>
        rw [Action.after_of_ok happlied] at happly
        obtain ⟨b, -, rfl⟩ := Option.map_eq_some_iff.mp h
        exact happly
      · simp at h
    · simp at h
  · simp at h

namespace Execution

/-- The session whose variables the programs of a command get to see. -/
def prefixed (s : Session) (as : List Assignment) : Session :=
  s.store true (Assignment.stores s.strict s.get? as)

/-- A command whose arguments are not expanded, or leave nothing to run, does nothing.  Any other
one is executed, on a copy if it has assignments. -/
theorem runCommand_cases (registry : Registry) (c : Command) (m : Machine) :
    ((∀ name arguments m', expandArguments c.arguments m ≠ .ok (name :: arguments) m') ∧
        (runCommand registry c).after m = m) ∨
      ∃ name arguments, expandArguments c.arguments m = .ok (name :: arguments) m ∧
        (runCommand registry c).after m =
          if c.assignments.isEmpty then (registry.execute name arguments c.redirects).after m
          else (Action.onCopy do
            assign true c.assignments
            registry.execute name arguments c.redirects).after m := by
  have hexpand := expandArguments_after c.arguments m
  rw [runCommand, Action.after_bind]
  cases hrun : expandArguments c.arguments m with
  | error e m₁ =>
    rw [Action.after_of_error hrun] at hexpand
    exact Or.inl ⟨by simp, hexpand⟩
  | ok expanded m₁ =>
    rw [Action.after_of_ok hrun] at hexpand
    subst hexpand
    cases expanded with
    | nil => exact Or.inl ⟨by simp, rfl⟩
    | cons name arguments =>
      refine Or.inr ⟨name, arguments, rfl, ?_⟩
      dsimp only
      split <;> rfl

theorem runCommand_session (registry : Registry) (c : Command) (m : Machine) :
    ((runCommand registry c).after m).session =
      (c.builtinCall? registry m).elim m.session BuiltinCall.session := by
  rcases runCommand_cases registry c m with ⟨hnothing, hrun⟩ | ⟨name, arguments, hexpand, hrun⟩
  · have hnone : c.builtinCall? registry m = none := by
      unfold Command.builtinCall?
      split
      · split
        · next name arguments m' hexpand => exact absurd hexpand (hnothing _ _ _)
        · rfl
      · rfl
    rw [hrun, hnone]
    rfl
  · rw [hrun]
    cases hprefix : c.assignments.isEmpty with
    | false =>
      have hnone : c.builtinCall? registry m = none := by simp [Command.builtinCall?, hprefix]
      rw [hnone, if_neg (by simp), Action.after_onCopy]
      rfl
    | true =>
      rw [if_pos rfl, Registry.execute, Action.closingFiles, Action.after_andThen,
        Action.after_bind]
      have happly := Redirection.obeys_applyAll (P := NoCall) .inherited c.redirects m
      cases happlied : Redirection.applyAll .inherited c.redirects m with
      | error e m₁ =>
        have hnone : c.builtinCall? registry m = none := by
          simp [Command.builtinCall?, hprefix, hexpand, happlied]
        rw [Action.after_of_error happlied] at happly
        rw [hnone]
        exact happly.session
      | ok streams m₁ =>
        have hcall : c.builtinCall? registry m =
            (registry.lookup name).map fun b => ⟨b, ⟨arguments, streams⟩, m₁⟩ := by
          simp [Command.builtinCall?, hprefix, hexpand, happlied]
        rw [Action.after_of_ok happlied] at happly
        rw [hcall]
        dsimp only
        rw [registry.dispatch_session]
        cases registry.lookup name with
        | some b => rfl
        | none => exact happly.session

/-- The calls of a command are made by the session with the assignments of the command, which have
all been made by then. -/
theorem runCommand_evolves (registry : Registry) (c : Command) (m : Machine) :
    Evolves (fun call => (prefixed m.session c.assignments).Makes call ∧
        (Assignment.stores m.session.strict m.session.get? c.assignments).map Prod.fst =
          c.assignments.map Assignment.name)
      m ((runCommand registry c).after m) := by
  rcases runCommand_cases registry c m with ⟨-, hrun⟩ | ⟨name, arguments, -, hrun⟩
  · rw [hrun]
    exact Std.Refl.refl m
  · rw [hrun]
    cases hprefix : c.assignments.isEmpty with
    | true =>
      have hnil : c.assignments = [] := List.isEmpty_iff.mp hprefix
      rw [if_pos rfl, hnil]
      exact (registry.execute_evolves name arguments c.redirects m).mono
        fun call hcall => ⟨hcall, rfl⟩
    | false =>
      rw [if_neg (by simp), Action.after_onCopy, Action.after_bind]
      obtain ⟨hsession, hassign⟩ := assign_run true c.assignments m
      -- nothing is called before all assignments are made, or if one of them fails
      cases hassigned : assign true c.assignments m with
      | error e m₁ =>
        rw [Action.after_of_error hassigned] at hassign
        exact hassign.of_noCall.trans (m₁.evolves_of_session m.session)
      | ok done m₁ =>
        rw [Action.after_of_ok hassigned] at hassign hsession
        have hnames := stores_names_of_assign_ok hassigned
        have hexecute := registry.execute_evolves name arguments c.redirects m₁
        rw [hsession] at hexecute
        have hcalls := hexecute.mono fun call hcall => And.intro hcall hnames
        exact (hassign.of_noCall.trans hcalls).trans (Machine.evolves_of_session _ m.session)

theorem runAssignments_run (registry : Registry) (as : List Assignment) (m : Machine) :
    ((runParsed registry (.assignments as)).after m).session =
        m.session.store false (Assignment.stores m.session.strict m.session.get? as) ∧
      Evolves NoCall m ((runParsed registry (.assignments as)).after m) := by
  have hassign := assign_run false as m
  rw [runParsed, Action.after_bind]
  cases hrun : assign false as m with
  | ok done m' =>
    rw [Action.after_of_ok hrun] at hassign
    exact hassign
  | error e m' =>
    rw [Action.after_of_error hrun] at hassign
    exact hassign

end Execution

/-! ## Lines -/

theorem reporting_serves (work : Action Int) (m : Machine) :
    Serves NoCall (work.after m) ((Execution.reporting work).after m) := by
  rw [Execution.reporting, Action.after_tryCatch]
  cases hrun : work m with
  | ok status m' =>
    rw [Action.after_of_ok hrun]
    exact Std.Refl.refl m'
  | error e m' =>
    rw [Action.after_of_error hrun]
    cases e with
    | failed error =>
      dsimp only
      split
      · exact ((Action.obeys_writeText _ _).bind fun _ =>
          Action.obeys_pure Execution.errorStatus) m'
      · exact Action.obeys_throw (α := Int) _ m'
    | exit status => exact Action.obeys_throw (α := Int) _ m'
    | replaced => exact Action.obeys_throw (α := Int) _ m'

/-- A line that is not accepted changes the session as little as a blank one. -/
theorem executeLine_serves_of_error (registry : Registry) {text : String} {failure : ParseFailure}
    (h : parse text = .error failure) (m : Machine) :
    Serves NoCall m ((executeLine registry text).after m) := by
  have hwrite : ∀ message, Serves NoCall m ((do
      Action.writeText .errors (diagnostic ("parse error: " ++ message))
      return Execution.badLineStatus : Action Int).after m) :=
    fun message => ((Action.obeys_writeText _ _).bind fun _ => Action.obeys_pure _) m
  rw [executeLine, h]
  cases failure with
  | numeral error => exact Action.obeys_fail (α := Int) _ m
  | mismatch expected offset => exact hwrite _
  | rejection expected offset => exact hwrite _

/-- The session behind a line, however the line ends. -/
theorem executeLine_session (registry : Registry) (text : String) (m : Machine) :
    ((executeLine registry text).after m).session =
      match parse text with
      | .ok (.assignments as) =>
          m.session.store false (Assignment.stores m.session.strict m.session.get? as)
      | _ => (builtinCall? registry text m).elim m.session BuiltinCall.session := by
  unfold builtinCall?
  cases hparse : parse text with
  | error failure => exact (executeLine_serves_of_error registry hparse m).session
  | ok line =>
    rw [executeLine_of_parse registry hparse, (reporting_serves _ m).session]
    cases line with
    | blank => rfl
    | assignments as => exact (Execution.runAssignments_run registry as m).1
    | command c => exact Execution.runCommand_session registry c m

/-- The calls of a line are those of its command, made with the assignments in front of it. -/
theorem executeLine_evolves (registry : Registry) (text : String) (m : Machine) :
    Evolves (fun call => ∃ c, parse text = .ok (.command c) ∧
        (Execution.prefixed m.session c.assignments).Makes call ∧
        (Assignment.stores m.session.strict m.session.get? c.assignments).map Prod.fst =
          c.assignments.map Assignment.name)
      m ((executeLine registry text).after m) := by
  cases hparse : parse text with
  | error failure => exact (executeLine_serves_of_error registry hparse m).toEvolves.of_noCall
  | ok line =>
    have hreport := (reporting_serves (Execution.runParsed registry line) m).toEvolves
    rw [executeLine_of_parse registry hparse]
    refine Machine.Evolves.trans ?_ hreport.of_noCall
    cases line with
    | blank => exact Std.Refl.refl m
    | assignments as => exact (Execution.runAssignments_run registry as m).2.of_noCall
    | command c =>
      exact (Execution.runCommand_evolves registry c m).mono fun call hcall => ⟨c, rfl, hcall⟩

/-! ## Runs -/

theorem Session.eq_of_start {fs : FileSystem} {cwd : String} {environment : Variables}
    {dir : Option String} {strict : Bool} {s : Session}
    (h : start fs cwd environment dir strict = .ok s) :
    ∃ p, fs.canonicalPath cwd (requested cwd dir) = .ok p ∧
      s = ⟨environment, environment.names, p, [], strict⟩ := by
  unfold start at h
  split at h
  · cases h
  · next p hp => exact ⟨p, hp, (Except.ok.inj h).symm⟩

/-- A run of lines, whatever the outcome of each of them. -/
def runLines (registry : Registry) (texts : List String) (m : Machine) : Machine :=
  texts.foldl (fun m text => (executeLine registry text).after m) m

/-! ## Between lines -/

/-- No file is open. -/
def Machine.Idle (m : Machine) : Prop :=
  m.host.handles = []

namespace Execution

theorem reporting_idle {work : Action Int} {m : Machine} (h : (work.after m).Idle) :
    ((reporting work).after m).Idle := by
  rw [reporting, Action.after_tryCatch]
  cases hrun : work m with
  | ok status m' =>
    rw [Action.after_of_ok hrun] at h
    exact h
  | error e m' =>
    rw [Action.after_of_error hrun] at h
    cases e with
    | failed error =>
      dsimp only
      split <;> exact h
    | exit status => exact h
    | replaced => exact h

theorem execute_idle (registry : Registry) (name : String) (arguments : List String)
    (rs : List Redirect) (m : Machine) : ((registry.execute name arguments rs).after m).Idle := by
  rw [Registry.execute, Action.closingFiles, Action.after_andThen]
  rfl

theorem runParsed_idle (registry : Registry) (line : Line) {m : Machine} (h : m.Idle) :
    ((runParsed registry line).after m).Idle := by
  cases line with
  | blank => exact h
  | assignments as =>
    have hassign := assign_after false as m
    rw [runParsed, Action.after_bind]
    cases hrun : assign false as m with
    | ok done m' =>
      rw [Action.after_of_ok hrun] at hassign
      rw [hassign]
      exact h
    | error e m' =>
      rw [Action.after_of_error hrun] at hassign
      rw [hassign]
      exact h
  | command c =>
    rw [runParsed]
    rcases runCommand_cases registry c m with ⟨-, hrun⟩ | ⟨name, arguments, -, hrun⟩
    · rw [hrun]
      exact h
    · rw [hrun]
      split
      · exact execute_idle registry name arguments c.redirects m
      · have hassign := assign_after true c.assignments m
        rw [Action.after_onCopy, Action.after_bind]
        cases hrun : assign true c.assignments m with
        | ok done m' => exact execute_idle registry name arguments c.redirects m'
        | error e m' =>
          rw [Action.after_of_error hrun] at hassign
          rw [hassign]
          exact h

end Execution

/-- No file stays open behind a line. -/
theorem executeLine_idle (registry : Registry) (text : String) {m : Machine} (h : m.Idle) :
    ((executeLine registry text).after m).Idle := by
  cases hparse : parse text with
  | ok line =>
    rw [executeLine_of_parse registry hparse]
    exact Execution.reporting_idle (Execution.runParsed_idle registry line h)
  | error failure =>
    rw [executeLine, hparse]
    cases failure <;> exact h

theorem runLines_idle (registry : Registry) (texts : List String) {m : Machine} (h : m.Idle) :
    (runLines registry texts m).Idle := by
  induction texts generalizing m with
  | nil => exact h
  | cons text texts ih => exact ih (executeLine_idle registry text h)

end LineShell
