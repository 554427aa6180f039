import LineShell.Proofs.Session.Assignments
import LineShell.Proofs.Session.Stack

/-!
# Exporting values

`export` with a name and a value does what an assignment line and an `export` of the name do.  The
two go different ways: the assignment is read from the line, with a value that is a word, while the
argument of `export` is expanded first and cut at its first equals sign then.  Several arguments are
exported one by one, and those without a valid name are passed over.
-/

namespace LineShell

open LineShell.Parser

namespace Builtin

/-! ## Arguments of `export` -/

/-- What stands before the first equals sign of the argument is a name. -/
def NamesVariable (argument : String) : Prop :=
  IsName (argument.toList.takeWhile (· != '='))

instance : DecidablePred NamesVariable := fun _ => decidableIsName _

theorem splitAssignment_fst (argument : String) :
    (splitAssignment argument).1 = String.ofList (argument.toList.takeWhile (· != '=')) := by
  simp only [splitAssignment]
  split
  · next hdrop =>
    have htake := List.takeWhile_append_dropWhile (p := (· != '=')) (l := argument.toList)
    rw [hdrop, List.append_nil] at htake
    rw [htake, String.ofList_toList]
  · rfl

theorem isValidName_splitAssignment_iff {argument : String} :
    isValidName (splitAssignment argument).1 = true ↔ NamesVariable argument := by
  rw [isValidName_iff, splitAssignment_fst, String.toList_ofList, NamesVariable]

theorem splitAssignment_append {name : String} (h : IsName name.toList) (value : String) :
    splitAssignment (name ++ "=" ++ value) = (name, some value) := by
  have htext : (name ++ "=" ++ value).toList = name.toList ++ '=' :: value.toList := by simp
  have hname : ∀ c ∈ name.toList, (c != '=') = true := by
    intro c hc
    simp only [bne_iff_ne, ne_eq]
    rintro rfl
    exact absurd (h.isNameChar '=' hc) (by decide)
  have hstops : Stops (· != '=') ('=' :: value.toList) := stops_cons.mpr (by decide)
  simp only [splitAssignment, htext, takeWhile_append_of_stops hname hstops,
    dropWhile_append_of_stops hname hstops, String.ofList_toList]

/-! ## Several arguments -/

theorem exportAll_cons_of_valid (ctx : Context) (status : Int) {argument : String}
    (h : NamesVariable argument) (rest : List String) (m : Machine) :
    exportAll ctx status (argument :: rest) m =
      exportAll ctx status rest { m with session := exportArgument m.session argument } := by
  have hvalid := isValidName_splitAssignment_iff.mpr h
  rw [exportAll]
  simp only [hvalid, if_true, Action.modifySession_bind, exportArgument]

theorem exportAll_cons_of_not_valid (ctx : Context) (status : Int) {argument : String}
    (h : ¬ NamesVariable argument) (rest : List String) (m : Machine) :
    exportAll ctx status (argument :: rest) m =
      exportAll ctx 1 rest ((ctx.err (diagnostic
        ("export: not a valid identifier: " ++ (splitAssignment argument).1))).after m) := by
  have hvalid := fun hvalid => h (isValidName_splitAssignment_iff.mp hvalid)
  rw [exportAll]
  simp only [if_neg hvalid]
  rfl

/-- The status tells whether there was an argument without a valid name. -/
theorem exportAll_ends (ctx : Context) (status : Int) (arguments : List String) (m : Machine) :
    exportAll ctx status arguments m =
      .ok (if ∀ a ∈ arguments, NamesVariable a then status else 1)
        ((exportAll ctx status arguments).after m) := by
  induction arguments generalizing status m with
  | nil => rfl
  | cons argument rest ih =>
    by_cases hvalid : NamesVariable argument
    · have hrest := ih status { m with session := exportArgument m.session argument }
      simp only [List.forall_mem_cons, hvalid, true_and, Action.after,
        exportAll_cons_of_valid ctx status hvalid]
      exact hrest
    · have hrest := ih 1 ((ctx.err (diagnostic
        ("export: not a valid identifier: " ++ (splitAssignment argument).1))).after m)
      simp only [ite_self] at hrest
      simp only [List.forall_mem_cons, hvalid, false_and, if_false, Action.after,
        exportAll_cons_of_not_valid ctx status hvalid]
      exact hrest

theorem listExported_ends (ctx : Context) (s : Session) (names : List String) (m : Machine) :
    listExported ctx s names m = .ok () ((listExported ctx s names).after m) := by
  induction names generalizing m with
  | nil => rfl
  | cons name names ih =>
    cases hvalue : s.get? name with
    | none =>
      simp only [listExported, hvalue]
      exact ih m
    | some value =>
      simp only [listExported, hvalue]
      exact ih ((ctx.out ("export " ++ name ++ "=" ++ value ++ "\n")).after m)

theorem runExport_ends (ctx : Context) (m : Machine) :
    runExport ctx m =
      .ok (if ∀ a ∈ ctx.arguments, NamesVariable a then 0 else 1)
        ((runExport ctx).after m) := by
  rcases ctx with ⟨arguments, streams⟩
  cases arguments with
  | nil =>
    have hlist := listExported_ends ⟨[], streams⟩ m.session
      (m.session.exported.mergeSort fun a b => a ≤ b) m
    have hrun : runExport ⟨[], streams⟩ m = .ok 0 _ := Action.bind_of_ok hlist _
    rw [Action.after_of_ok hrun, hrun]
    simp
  | cons argument rest => exact exportAll_ends _ 0 (argument :: rest) m

/-- The machine after the arguments have been given to `export` one by one. -/
def exportEach (streams : Streams) (arguments : List String) (m : Machine) : Machine :=
  arguments.foldl (fun m argument => (runExport ⟨[argument], streams⟩).after m) m

theorem session_exportEach (streams : Streams) (arguments : List String) (m : Machine) :
    (exportEach streams arguments m).session = arguments.foldl exportArgument m.session := by
  induction arguments generalizing m with
  | nil => rfl
  | cons argument rest ih =>
    have hone := (runExport_run ⟨[argument], streams⟩ m).1
    rw [exportEach, List.foldl_cons, ← exportEach, ih, hone]
    rfl

theorem exportArgument_of_not_valid {argument : String} (h : ¬ NamesVariable argument)
    (s : Session) : exportArgument s argument = s := by
  rw [exportArgument, if_neg fun hvalid => h (isValidName_splitAssignment_iff.mp hvalid)]

/-- To pass over an argument is to export nothing. -/
theorem foldl_exportArgument_filter (arguments : List String) (s : Session) :
    (arguments.filter NamesVariable).foldl exportArgument s =
      arguments.foldl exportArgument s := by
  rw [List.foldl_filter]
  congr 1
  funext s argument
  by_cases hvalid : NamesVariable argument
  · simp [hvalid]
  · simp [hvalid, exportArgument_of_not_valid hvalid]

/-! ## An argument with a value -/

theorem exportAll_value (ctx : Context) {name : String} (h : IsName name.toList) (value : String)
    (m : Machine) :
    exportAll ctx 0 [name ++ "=" ++ value] m =
      .ok 0 { m with session := (m.session.set name value).markExported name } := by
  rw [exportAll, splitAssignment_append h]
  simp only [isValidName_iff.mpr h, if_true, Action.modifySession_bind, exportName]
  rfl

end Builtin

/-- The text in front of a word becomes the beginning of its text. -/
theorem Expansion.word_fixed_cons (setting : Setting) (lookup : Lookup) (text : String) {w : Word}
    (h : w.hasGlob = false) :
    word setting lookup (.fixed text :: w) =
      (one setting.strict lookup w).map fun value => [text ++ value] := by
  have hglob : Word.hasGlob (.fixed text :: w) = false := by
    simpa [Word.hasGlob, Piece.isGlob] using h
  have hunset : Word.unset? lookup (.fixed text :: w) = w.unset? lookup := rfl
  rw [word_of_not_hasGlob _ _ hglob, one, one, hunset]
  cases if setting.strict then w.unset? lookup else none <;> rfl

namespace QuotedArgument

/-- An argument that gives a variable a value. -/
def ofVariable (name : String) (value : List ArgumentItem) : QuotedArgument :=
  .text (name ++ "=") :: value

theorem word_ofVariable (name : String) (value : List ArgumentItem) :
    word (ofVariable name value) = .fixed (name ++ "=") :: word value := by
  have hname : literalWord (name ++ "=").toList = [.fixed (name ++ "=")] := by
    simp [literalWord]
  rw [ofVariable, word, List.flatMap_cons, ArgumentItem.word, hname]
  rfl

theorem expand_ofVariable (m : Machine) (name : String) (value : List ArgumentItem) :
    m.expand [[.fixed "export"], word (ofVariable name value)] =
      (Expansion.one m.session.strict m.session.get? (word value)).map
        fun text => ["export", name ++ "=" ++ text] := by
  rw [Machine.expand_fixed, word_ofVariable, Machine.expand, Expansion.words,
    Expansion.word_fixed_cons _ _ _ (hasGlob_word value)]
  dsimp only
  cases Expansion.one m.session.strict m.session.get? (word value) <;> rfl

end QuotedArgument

/-! ## Lines -/

/-- The line `export 'NAME='VALUE`, with the parts of the value in quotes. -/
def exportLine (name : String) (value : List ArgumentItem) : String :=
  String.ofList ([' '].intercalate
    ["export".toList, (QuotedArgument.ofVariable name value).written])

/-- The line `NAME=VALUE`. -/
def assignmentLine (name : String) (value : List ArgumentItem) : String :=
  String.ofList (name.toList ++ '=' :: value.flatMap ArgumentItem.written)

example : exportLine "A" [.text "it's", .reference "B" (by decide)] =
    "export 'A=''it\\'s'\"$\x7bB\x7d\"" := by cbv

theorem parse_exportLine (name : String) (value : List ArgumentItem) :
    parse (exportLine name value) =
      .ok (.command
        ⟨[], [[.fixed "export"], (QuotedArgument.ofVariable name value).word], []⟩) := by
  let command : Source word := ⟨"export".toList, [.fixed "export"], word_name (by decide)⟩
  have hname : ¬ BeginsAssignment "export".toList := not_beginsAssignment_of_isName (by decide)
  have hjoined := @parse_joined [] [command, (QuotedArgument.ofVariable name value).source] []
    (by simp) (by simpa [command] using hname) List.isChain_nil
  simpa [lineOf, exportLine, command, QuotedArgument.source] using hjoined

/-- An assignment with a quoted value. -/
def quotedAssignment {name : String} (h : IsName name.toList) (value : List ArgumentItem) :
    Source assignment where
  text := name.toList ++ '=' :: value.flatMap ArgumentItem.written
  value := ⟨name, QuotedArgument.word value⟩
  reads := by
    have hstops : Stops isFragmentStart ['\n'] := stops_cons.mpr (by decide)
    refine assignment_eq_ok_iff.mpr
      ⟨value.flatMap ArgumentItem.written ++ ['\n'], h, by simp, ?_⟩
    by_cases hvalue : value = []
    · subst hvalue
      exact Or.inr ⟨rfl, word_mismatches hstops, rfl⟩
    · have hword := QuotedArgument.word_written value hstops
      rw [QuotedArgument.written, if_neg hvalue] at hword
      exact Or.inl hword

section Lines

variable {m : Machine} {name : String} {value : List ArgumentItem}

/-- A line that exports ends as the builtin does with the expanded arguments. -/
theorem executeLine_of_export {line : String} {ws : List Word} {arguments : List String}
    {status : Int} {m' : Machine}
    (hparse : parse line = .ok (.command ⟨[], [.fixed "export"] :: ws, []⟩))
    (hexpand : m.expand ([.fixed "export"] :: ws) = .ok ("export" :: arguments))
    (hrun : Builtin.runExport ⟨arguments, .inherited⟩ m = .ok status m') :
    executeLine .standard line m =
      .ok status { m' with host := { m'.host with handles := [] } } := by
  have happly : Redirection.applyAll .inherited [] m = .ok .inherited m := rfl
  have hdispatch : Registry.standard.dispatch "export" arguments .inherited m = .ok status m' :=
    hrun
  rw [executeLine_of_parse .standard hparse]
  apply Execution.reporting_of_ok
  rw [Execution.runParsed, runCommand_of_expand .standard hexpand,
    Registry.execute_of_ok .standard "export" arguments happly]
  simp only [Action.closingFiles, Action.andThen, hdispatch]

theorem executeLine_exportName (h : IsName name.toList) :
    executeLine .standard (namesLine ["export", name]) m =
      .ok 0 { session := m.session.markExported name, host := { m.host with handles := [] } } := by
  have hnames : ∀ n ∈ ["export", name], IsName n.toList := by
    intro n hn
    rcases List.mem_cons.mp hn with rfl | hn
    · decide
    · rwa [List.mem_singleton.mp hn]
  have hexpand : m.expand (["export", name].map fun n => [.fixed n]) = .ok ["export", name] :=
    Expansion.words_fixed _ _ _
  have hname : ∀ n ∈ [name], IsName n.toList := by simpa using h
  have hrun : Builtin.runExport ⟨[name], .inherited⟩ m =
      .ok 0 { m with session := m.session.markExported name } :=
    Builtin.exportAll_names _ 0 hname m
  exact executeLine_of_export (parse_namesLine (by simp) hnames) hexpand hrun

theorem executeLine_assignmentLine_of_ok (h : IsName name.toList) {text : String}
    (hvalue : Expansion.one m.session.strict m.session.get? (QuotedArgument.word value) =
      .ok text) :
    executeLine .standard (assignmentLine name value) m =
      .ok 0 { m with session := m.session.set name text } :=
  (quotedAssignment h value).executeLine_of_ok hvalue

theorem executeLine_assignmentLine_of_error (h : IsName name.toList) {unset : String}
    (hvalue : Expansion.one m.session.strict m.session.get? (QuotedArgument.word value) =
      .error unset) :
    executeLine .standard (assignmentLine name value) m =
      .ok Execution.errorStatus (m.told (ShellError.unset unset).message) :=
  (quotedAssignment h value).executeLine_of_error hvalue

theorem executeLine_exportLine_of_ok (h : IsName name.toList) {text : String}
    (hvalue : Expansion.one m.session.strict m.session.get? (QuotedArgument.word value) =
      .ok text) :
    executeLine .standard (exportLine name value) m =
      .ok 0 { session := (m.session.set name text).markExported name,
              host := { m.host with handles := [] } } := by
  have hexpand := QuotedArgument.expand_ofVariable m name value
  rw [hvalue] at hexpand
  exact executeLine_of_export (parse_exportLine name value) hexpand
    (Builtin.exportAll_value _ h text m)

theorem executeLine_exportLine_of_error {unset : String}
    (hvalue : Expansion.one m.session.strict m.session.get? (QuotedArgument.word value) =
      .error unset) :
    executeLine .standard (exportLine name value) m =
      .ok Execution.errorStatus (m.told (ShellError.unset unset).message) := by
  have hexpand := QuotedArgument.expand_ofVariable m name value
  rw [hvalue] at hexpand
  rw [executeLine_of_parse .standard (parse_exportLine name value)]
  exact Execution.reporting_of_unset (Execution.runCommand_of_error hexpand)

end Lines

/-- To export a variable with a value is to assign the value and then to export the variable, if the
value can be expanded.  To export several arguments at once is to export those that name a variable
one by one, and the status is one exactly if there are others. -/
theorem export_agrees_with_assignment :
    (∀ (name : String) (value : List ArgumentItem) (m : Machine), IsName name.toList →
      ∃ status m', executeLine .standard (exportLine name value) m = .ok status m' ∧
        runUntilFailure .standard [assignmentLine name value, namesLine ["export", name]] m =
          .ok status m') ∧
    ∀ (arguments : List String) (streams : Streams) (m : Machine),
      ∃ m', Builtin.run .export ⟨arguments, streams⟩ m =
          .ok (if ∀ a ∈ arguments, Builtin.NamesVariable a then 0 else 1) m' ∧
        m'.session =
          (Builtin.exportEach streams (arguments.filter Builtin.NamesVariable) m).session := by
  refine ⟨fun name value m hname => ?_, fun arguments streams m => ?_⟩
  · cases hvalue : Expansion.one m.session.strict m.session.get? (QuotedArgument.word value) with
    | error unset =>
      have hassign := executeLine_assignmentLine_of_error hname hvalue
      exact ⟨_, _, executeLine_exportLine_of_error hvalue,
        runUntilFailure_of_ne_zero hassign (by decide) _⟩
    | ok text =>
      have hassign := executeLine_assignmentLine_of_ok hname hvalue
      have hexport := executeLine_exportName (m := ⟨m.session.set name text, m.host⟩) hname
      refine ⟨_, _, executeLine_exportLine_of_ok hname hvalue, ?_⟩
      exact (runUntilFailure_of_zero hassign _).trans (runUntilFailure_of_zero hexport [])
  · refine ⟨_, Builtin.runExport_ends ⟨arguments, streams⟩ m, ?_⟩
    rw [(Builtin.runExport_run ⟨arguments, streams⟩ m).1, Builtin.session_exportEach,
      Builtin.foldl_exportArgument_filter]

/-- The value is another one with an equals sign, a line feed and a quote behind it. -/
theorem export_agrees_with_assignment_strict :
    let m := { equipped with session := { equipped.session with strict := true } }
    let value : List ArgumentItem := [.reference "A" (by decide), .text "=\n'"]
    IsName "B".toList ∧
      (∃ status m', executeLine .standard (exportLine "B" value) m = .ok status m' ∧
        runUntilFailure .standard [assignmentLine "B" value, namesLine ["export", "B"]] m =
          .ok status m') ∧
      ((executeLine .standard (exportLine "B" value)).after m).session.vars =
        ⟨[("A", "1"), ("B", "1=\n'")]⟩ := by
  intro m value
  have hname : IsName "B".toList := by decide
  exact ⟨hname, export_agrees_with_assignment.1 "B" value m hname, by decide +kernel⟩

end LineShell
