import LineShell.Proofs.Line.Names
import LineShell.Proofs.Machine.Redirects
import LineShell.Proofs.Session.History
import LineShell.Proofs.Word.References

/-!
# Assignments in front of a command

The assignments in front of a command are made for that command only.  They do what the same
assignments do on a line of their own, followed by an `export` of their names, on a copy of the
session.  Only the arguments of the command are different: they are expanded before.
-/

namespace LineShell

open LineShell.Parser

/-! ## Exporting names -/

namespace Session

def markAll (s : Session) (names : List String) : Session :=
  names.foldl markExported s

theorem store_markExported (s : Session) (name : String) (stores : List (String × String)) :
    (s.markExported name).store false stores = (s.store false stores).markExported name := by
  induction stores generalizing s with
  | nil => rfl
  | cons e stores ih => exact ih (s.set e.1 e.2)

/-- To store and export values one by one is to store them all and then export their names. -/
theorem store_exporting (s : Session) (stores : List (String × String)) :
    s.store true stores = (s.store false stores).markAll (stores.map Prod.fst) := by
  induction stores generalizing s with
  | nil => rfl
  | cons e stores ih =>
    calc s.store true (e :: stores)
        = ((s.set e.1 e.2).markExported e.1).store true stores := rfl
      _ = (((s.set e.1 e.2).markExported e.1).store false stores).markAll
            (stores.map Prod.fst) := ih _
      _ = (((s.set e.1 e.2).store false stores).markExported e.1).markAll
            (stores.map Prod.fst) := by rw [store_markExported]

end Session

namespace Builtin

theorem splitAssignment_of_isName {name : String} (h : IsName name.toList) :
    splitAssignment name = (name, none) := by
  have hdrop : name.toList.dropWhile (· != '=') = [] := by
    rw [List.dropWhile_eq_nil_iff]
    intro c hc
    simp only [bne_iff_ne, ne_eq]
    rintro rfl
    exact absurd (h.isNameChar '=' hc) (by decide)
  simp only [splitAssignment, hdrop]

theorem exportAll_names (ctx : Context) (status : Int) {names : List String}
    (h : ∀ name ∈ names, IsName name.toList) (m : Machine) :
    exportAll ctx status names m = .ok status { m with session := m.session.markAll names } := by
  induction names generalizing m with
  | nil => rfl
  | cons name names ih =>
    have hname := h name List.mem_cons_self
    have hrest := ih (fun other hother => h other (List.mem_cons_of_mem _ hother))
      { m with session := m.session.markExported name }
    rw [exportAll, splitAssignment_of_isName hname]
    simp only [isValidName_iff.mpr hname, if_true, exportName, Action.modifySession_bind]
    exact hrest

end Builtin

/-! ## Work on a copy -/

namespace Action

variable {α : Type} {action : Action α} {m m' : Machine}

theorem onCopy_of_ok {a : α} (h : action m = .ok a m') :
    action.onCopy m = .ok a { m' with session := m.session } := by
  simp only [onCopy, andThen, h]

theorem onCopy_of_error {e : Interruption} (h : action m = .error e m') :
    action.onCopy m = .error e { m' with session := m.session } := by
  simp only [onCopy, andThen, h]

theorem onCopy_congr {action' : Action α} (h : action m = action' m) :
    action.onCopy m = action'.onCopy m := by
  simp only [onCopy, andThen, h]

end Action

namespace Execution

theorem reporting_of_ok {work : Action Int} {m m' : Machine} {status : Int}
    (h : work m = .ok status m') : reporting work m = .ok status m' :=
  Action.tryCatch_of_ok h _

theorem reporting_of_error {work : Action Int} {m m' : Machine} {error : ShellError}
    (h : work m = .error (.failed error) m') :
    reporting work m =
      if error.isReported then
        .ok errorStatus { m' with
          host := m'.host.write .errors (Content.ofText (diagnostic error.message)) }
      else .error (.failed error) m' := by
  rw [reporting, Action.tryCatch_of_error h]
  dsimp only
  split <;> rfl

/-- What is no error is passed on. -/
theorem reporting_of_interruption {work : Action Int} {m m' : Machine} {e : Interruption}
    (h : work m = .error e m') (he : ∀ error, e ≠ .failed error) :
    reporting work m = .error e m' := by
  rw [reporting, Action.tryCatch_of_error h]
  cases e with
  | failed error => exact absurd rfl (he error)
  | exit status => rfl
  | replaced => rfl

/-- It makes no difference if an error is reported on the copy or behind it. -/
theorem reporting_onCopy (work : Action Int) (m : Machine) :
    reporting work.onCopy m = (reporting work).onCopy m := by
  cases hrun : work m with
  | ok status m' =>
    rw [reporting_of_ok (Action.onCopy_of_ok hrun), Action.onCopy_of_ok (reporting_of_ok hrun)]
  | error e m' =>
    by_cases he : ∃ error, e = .failed error
    · obtain ⟨error, rfl⟩ := he
      have hreport := reporting_of_error hrun
      rw [reporting_of_error (Action.onCopy_of_error hrun)]
      by_cases hreported : error.isReported = true
      · rw [if_pos hreported] at hreport
        rw [if_pos hreported, Action.onCopy_of_ok hreport]
      · rw [if_neg hreported] at hreport
        rw [if_neg hreported, Action.onCopy_of_error hreport]
    · have he' : ∀ error, e ≠ .failed error := fun error h => he ⟨error, h⟩
      rw [reporting_of_interruption (Action.onCopy_of_error hrun) he',
        Action.onCopy_of_error (reporting_of_interruption hrun he')]

/-! ## A command on a copy -/

section RunCommand

variable {registry : Registry} {c : Command} {m : Machine}

theorem runCommand_of_error {name : String} (h : m.expand c.arguments = .error name) :
    runCommand registry c m = .error (.failed (.unset name)) m := by
  have hexpand := expandArguments_eq c.arguments m
  rw [h] at hexpand
  exact Action.bind_of_error hexpand _

theorem runCommand_of_nil (h : m.expand c.arguments = .ok []) :
    runCommand registry c m = .ok 0 m := by
  have hexpand := expandArguments_eq c.arguments m
  rw [h] at hexpand
  rw [runCommand, Action.bind_of_ok hexpand]
  rfl

/-- The arguments of a command are the ones before its assignments are made. -/
theorem runCommand_of_cons {name : String} {arguments : List String}
    (h : m.expand c.arguments = .ok (name :: arguments)) (hne : c.assignments ≠ []) :
    runCommand registry c m =
      (Action.onCopy do
        assign true c.assignments
        registry.execute name arguments c.redirects) m := by
  have hexpand := expandArguments_eq c.arguments m
  rw [h] at hexpand
  rw [runCommand, Action.bind_of_ok hexpand]
  simp only [List.isEmpty_iff, if_neg hne]

end RunCommand

theorem assign_of_unset?_eq_none {as : List Assignment} {m : Machine}
    (h : Assignment.unset? m.session.strict m.session.get? as = none) (exporting : Bool) :
    assign exporting as m = .ok () (m.assigned exporting as) := by
  rw [assign_eq, h]

/-- Words that do not refer to what is assigned mean the same behind the assignments. -/
theorem expand_assigned {ws : List Word} {as : List Assignment} {m : Machine}
    (h : ∀ w ∈ ws, ∀ name ∈ w.references, name ∉ as.map Assignment.name) (exporting : Bool) :
    (m.assigned exporting as).expand ws = m.expand ws := by
  have hdescribes := m.session.describes_store exporting
    (Assignment.stores m.session.strict m.session.get? as)
  have hplace := m.session.store_place exporting
    (Assignment.stores m.session.strict m.session.get? as)
  have hget : ∀ w ∈ ws, ∀ name ∈ w.references,
      (m.assigned exporting as).session.get? name = m.session.get? name := by
    intro w hw name hname
    rw [Machine.assigned, hdescribes.get?_eq, Change.last_eq_none, Option.none_or]
    exact fun hmem => h w hw name hname (Assignment.stores_names_subset _ _ as hmem)
  rw [Machine.expand, Expansion.words_congr hget]
  simp only [Machine.expand, Machine.assigned, hplace.1, hdescribes.strict]

/-- A command with assignments that its arguments do not refer to is the command without them,
behind the assignments and on a copy. -/
theorem runCommand_onCopy (registry : Registry) {as : List Assignment} {ws : List Word}
    (ds : List Redirect) {m : Machine} (hne : as ≠ [])
    (hrefs : ∀ w ∈ ws, ∀ name ∈ w.references, name ∉ as.map Assignment.name)
    (hset : Assignment.unset? m.session.strict m.session.get? as = none) :
    runCommand registry ⟨as, ws, ds⟩ m =
      (Action.onCopy do
        assign true as
        runCommand registry ⟨[], ws, ds⟩) m := by
  have hexpand := expand_assigned (m := m) hrefs true
  have hassign := assign_of_unset?_eq_none hset true
  have hbehind := Action.bind_of_ok hassign fun _ => runCommand registry ⟨[], ws, ds⟩
  -- the arguments are the same before and behind the assignments, so the cases go together
  cases hwords : m.expand ws with
  | error name =>
    rw [runCommand_of_error (hexpand.trans hwords)] at hbehind
    rw [runCommand_of_error hwords, Action.onCopy_of_error hbehind]
    rfl
  | ok expanded =>
    cases expanded with
    | nil =>
      rw [runCommand_of_nil (hexpand.trans hwords)] at hbehind
      rw [runCommand_of_nil hwords, Action.onCopy_of_ok hbehind]
      rfl
    | cons name arguments =>
      rw [runCommand_of_cons hwords hne]
      apply Action.onCopy_congr
      rw [hbehind, runCommand_of_expand registry (hexpand.trans hwords)]
      exact Action.bind_of_ok hassign _

end Execution

/-! ## Three lines on a copy -/

theorem Action.closingFiles_of_ok {α : Type} {action : Action α} {m m' : Machine} {a : α}
    (h : action m = .ok a m') (hidle : m'.Idle) : action.closingFiles m = .ok a m' := by
  have hclosed : { m'.host with handles := [] } = m'.host := by rw [← hidle]
  simp only [closingFiles, andThen, h, hclosed]

theorem executeLine_assignments (registry : Registry) {text : String} {as : List Assignment}
    {m : Machine} (h : parse text = .ok (.assignments as))
    (hset : Assignment.unset? m.session.strict m.session.get? as = none) :
    executeLine registry text m = .ok 0 (m.assigned false as) := by
  rw [executeLine_of_parse registry h]
  apply Execution.reporting_of_ok
  exact Action.bind_of_ok (Execution.assign_of_unset?_eq_none hset false) _

theorem Expansion.words_fixed (setting : Setting) (lookup : Lookup) (names : List String) :
    words setting lookup (names.map fun name => [.fixed name]) = .ok names := by
  induction names with
  | nil => rfl
  | cons name names ih =>
    rw [List.map_cons, words, word_fixed, ih]
    rfl

theorem executeLine_export {names : List String} (hne : names ≠ [])
    (hnames : ∀ name ∈ names, IsName name.toList) {m : Machine} (hidle : m.Idle) :
    executeLine .standard (namesLine ("export" :: names)) m =
      .ok 0 { m with session := m.session.markAll names } := by
  have hall : ∀ name ∈ "export" :: names, IsName name.toList := by
    intro name hname
    rcases List.mem_cons.mp hname with rfl | hname
    · decide
    · exact hnames name hname
  have hexpand : m.expand (("export" :: names).map fun name => [.fixed name]) =
      .ok ("export" :: names) := Expansion.words_fixed _ _ _
  have hdispatch : Registry.standard.dispatch "export" names .inherited m =
      .ok 0 { m with session := m.session.markAll names } := by
    obtain ⟨name, rest, rfl⟩ := List.exists_cons_of_ne_nil hne
    exact Builtin.exportAll_names _ 0 hnames m
  have hopen : Redirection.applyAll .inherited [] m = .ok .inherited m := rfl
  rw [executeLine_of_parse .standard (parse_namesLine (List.cons_ne_nil _ _) hall)]
  apply Execution.reporting_of_ok
  rw [Execution.runParsed, runCommand_of_expand .standard hexpand,
    Registry.execute_of_ok .standard "export" names hopen]
  exact Action.closingFiles_of_ok hdispatch hidle

/-- To make assignments for a command is to make them and then to export their names. -/
theorem Machine.assigned_exporting {as : List Assignment} {m : Machine}
    (h : Assignment.unset? m.session.strict m.session.get? as = none) :
    m.assigned true as =
      { m.assigned false as with
        session := (m.assigned false as).session.markAll (as.map Assignment.name) } := by
  have hnames := Execution.stores_names_of_assign_ok
    (Execution.assign_of_unset?_eq_none h false)
  rw [← hnames]
  simp only [assigned, Session.store_exporting]

/-- A command with assignments in front of it is run like three lines on a copy of the session: the
assignments, an export of their names, and the command without them.  This is if the assignments
can be made, and no argument refers to what they assign.  In any case the arguments are the ones
that the session gives without the assignments. -/
theorem prefixed_line_unfolds {front back : String} {as : List Assignment} {ws : List Word}
    {ds : List Redirect} {m : Machine} (hfront : parse front = .ok (.assignments as))
    (hlast : front.toList.getLast? ≠ some '\n')
    (hback : parse back = .ok (.command ⟨[], ws, ds⟩)) (hidle : m.Idle) :
    ((∀ w ∈ ws, ∀ name ∈ w.references, name ∉ as.map Assignment.name) →
      Assignment.unset? m.session.strict m.session.get? as = none →
        executeLine .standard (front ++ " " ++ back) m =
          (Action.onCopy do
            let _ ← executeLine .standard front
            let _ ← executeLine .standard (namesLine ("export" :: as.map Assignment.name))
            executeLine .standard back) m) ∧
      ∀ (registry : Registry) name arguments, m.expand ws = .ok (name :: arguments) →
        executeLine registry (front ++ " " ++ back) m =
          Execution.reporting (Action.onCopy do
            Execution.assign true as
            registry.execute name arguments ds) m := by
  obtain ⟨hne, hnames⟩ := names_of_parse hfront
  have hparse := parse_append hfront hlast hback
  refine ⟨fun hrefs hset => ?_, fun registry name arguments hexpand => ?_⟩
  · have hassign := Execution.assign_of_unset?_eq_none hset true
    have hexport := executeLine_export (by simpa using hne) hnames
      (m := m.assigned false as) hidle
    -- the first two lines end in the machine that the command gets to see
    rw [← Machine.assigned_exporting hset] at hexport
    rw [executeLine_of_parse .standard hparse]
    calc Execution.reporting (Execution.runCommand .standard ⟨as, ws, ds⟩) m
        = Execution.reporting (Action.onCopy do
            Execution.assign true as
            Execution.runCommand .standard ⟨[], ws, ds⟩) m :=
          reporting_congr (Execution.runCommand_onCopy .standard ds hne hrefs hset)
      _ = (Action.onCopy (Execution.reporting do
            Execution.assign true as
            Execution.runCommand .standard ⟨[], ws, ds⟩)) m := Execution.reporting_onCopy _ m
      _ = (Action.onCopy do
            let _ ← executeLine .standard front
            let _ ← executeLine .standard (namesLine ("export" :: as.map Assignment.name))
            executeLine .standard back) m := by
        apply Action.onCopy_congr
        rw [reporting_congr (Action.bind_of_ok hassign _),
          Action.bind_of_ok (executeLine_assignments .standard hfront hset),
          Action.bind_of_ok hexport, executeLine_of_parse .standard hback]
        rfl
  · rw [executeLine_of_parse registry hparse]
    apply reporting_congr
    exact Execution.runCommand_of_cons hexpand hne

theorem prefixed_line_unfolds_equipped :
    executeLine .standard "B=2 C=\"${B}${A}\" /p \"${A}\" >\"/${C}\"" equipped =
        (Action.onCopy do
          let _ ← executeLine .standard "B=2 C=\"${B}${A}\""
          let _ ← executeLine .standard "export B C"
          executeLine .standard "/p \"${A}\" >\"/${C}\"") equipped ∧
      executeLine .standard "A=0 /p \"${A}\"" equipped =
        Execution.reporting (Action.onCopy do
          Execution.assign true [⟨"A", [.fixed "0"]⟩]
          Registry.standard.execute "/p" ["1"] []) equipped := by
  have hassignments : parse "B=2 C=\"${B}${A}\"" = .ok (.assignments
      [⟨"B", [.fixed "2"]⟩, ⟨"C", [.reference "B", .reference "A"]⟩]) := by decide +kernel
  have hcommand : parse "/p \"${A}\" >\"/${C}\"" = .ok (.command ⟨[],
      [[.fixed "/p"], [.reference "A"]],
      [⟨.truncate, none, some (.file [.fixed "/", .reference "C"])⟩]⟩) := by decide +kernel
  have hassignment : parse "A=0" = .ok (.assignments [⟨"A", [.fixed "0"]⟩]) := by
    decide +kernel
  have hcommand' : parse "/p \"${A}\"" =
      .ok (.command ⟨[], [[.fixed "/p"], [.reference "A"]], []⟩) := by decide +kernel
  have hexpand : equipped.expand [[.fixed "/p"], [.reference "A"]] = .ok ["/p", "1"] := by
    decide +kernel
  constructor
  · have hunfolds := (prefixed_line_unfolds hassignments (by decide +kernel) hcommand
      (show equipped.Idle from rfl)).1 (by decide +kernel) (by decide +kernel)
    exact hunfolds
  · exact (prefixed_line_unfolds hassignment (by decide +kernel) hcommand'
      (show equipped.Idle from rfl)).2 .standard "/p" ["1"] hexpand

end LineShell
