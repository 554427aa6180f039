import LineShell.Proofs.Machine.Alike
import LineShell.Proofs.Machine.Redirects
import LineShell.Proofs.Session.Agreement
import LineShell.Proofs.Session.Candidates
import LineShell.Proofs.Session.History

/-!
# Variables that are not exported

A line reads the variables that it refers to, the ones that are exported, `PATH` and `HOME`.  It
goes the same way on two sessions that agree on these names, whatever the values of all other
variables are.
-/

namespace LineShell

open LineShell.Action (Parallel)
open LineShell.Session (Only)

/-! ## Programs -/

namespace Executable

variable {names : List String} {s s' : Session}

theorem find?_agree (h : s.Interchangeable names s') (host : Host) (calls : List Call)
    (name : String) : find? (host.withCalls calls) s' name = find? host s name := by
  simp only [find?_eq_find?_candidates, candidates, h.directory, h.searchPath]
  rfl

theorem invocation_alike (h : s.Interchangeable names s') (path : String)
    (arguments : List String) :
    (invocation s path arguments).Alike (invocation s' path arguments) :=
  ⟨rfl, rfl, h.exportedVariables, h.directory⟩

theorem attachment_withCalls (host : Host) (calls : List Call) :
    (host.withCalls calls).attachment = host.attachment := by
  funext channel
  cases channel <;> rfl

theorem parallel_perform (program : Program) (arguments : List String) (streams : Streams) :
    Parallel s s' (Only s s') (perform program arguments streams)
      (perform program arguments streams) := by
  have hwrite : ∀ channel text, Parallel s s' (Only s s') (Action.writeText channel text)
      (Action.writeText channel text) := Action.parallel_writeText ⟨rfl, rfl⟩
  have hend : ∀ out : Channel, Parallel s s' (Only s s')
      (do
        Action.writeText out program.output
        Action.writeText (streams.errors.getD .errors) program.errors
        return program.status)
      (do
        Action.writeText out program.output
        Action.writeText (streams.errors.getD .errors) program.errors
        return program.status) :=
    fun out => (hwrite _ _).bind_only ⟨rfl, rfl⟩ fun _ =>
      (hwrite _ _).bind_only ⟨rfl, rfl⟩ fun _ => Action.parallel_pure ⟨rfl, rfl⟩ _
  have hcopy : ∀ channel n, Parallel s s' (Only s s')
      (Action.modifyHost fun host => host.write channel (host.remaining n))
      (Action.modifyHost fun host => host.write channel (host.remaining n)) :=
    fun channel n => Action.parallel_modifyHost ⟨rfl, rfl⟩ (Host.unrecorded_copy channel n)
  unfold perform
  dsimp only
  split
  case' isTrue => refine (hwrite _ _).bind_only ⟨rfl, rfl⟩ fun _ => ?_
  -- the rest is the same, with or without the arguments before it
  all_goals
    split
    · split
      · exact (hcopy _ _).bind_only ⟨rfl, rfl⟩ fun _ => hend _
      · exact hend _
    · exact hend _

theorem parallel_run (h : s.Interchangeable names s') (path name : String)
    (arguments : List String) (streams : Streams) :
    Parallel s s' (Only s s') (run path name arguments streams)
      (run path name arguments streams) := by
  refine Action.parallel_session_bind (Action.parallel_host_bind fun host calls => ?_)
  rw [attachment_withCalls]
  refine Parallel.bind_only (Action.parallel_record ⟨rfl, rfl⟩ ?_) ⟨rfl, rfl⟩ fun _ => ?_
  · exact .run (invocation_alike h path (name :: arguments)) _ _ _
  · have hprogram : programAt (host.withCalls calls) s'.directory path =
        programAt host s.directory path := by
      rw [h.directory]
      rfl
    rw [hprogram]
    cases programAt host s.directory path with
    | error reason =>
      exact (Action.parallel_writeText ⟨rfl, rfl⟩ _ _).bind_only ⟨rfl, rfl⟩ fun _ =>
        Action.parallel_pure ⟨rfl, rfl⟩ _
    | ok program =>
      dsimp only
      split
      · exact Action.parallel_pure ⟨rfl, rfl⟩ _
      · exact parallel_perform program arguments streams

theorem parallel_replace (h : s.Interchangeable names s') (path : String)
    (arguments : List String) :
    Parallel s s' (Only s s') (replace path arguments) (replace path arguments) := by
  refine Action.parallel_session_bind (Action.parallel_host_bind fun host calls => ?_)
  have hcheck : checkDirectory (host.withCalls calls) s'.directory =
      checkDirectory host s.directory := by
    rw [h.directory]
    rfl
  rw [hcheck, h.directory]
  cases checkDirectory host s'.directory with
  | error e => exact Action.parallel_fail ⟨rfl, rfl⟩ _
  | ok there =>
    refine Parallel.bind_only (Action.parallel_record ⟨rfl, rfl⟩ ?_) ⟨rfl, rfl⟩ fun _ =>
      Action.parallel_throw ⟨rfl, rfl⟩ _
    exact .exec (invocation_alike h path arguments)

end Executable

/-! ## Builtins -/

namespace Builtin

variable {names : List String} {s s' : Session} {S : Session → Session → Prop}

theorem parallel_err (hS : S s s') (ctx : Context) (text : String) :
    Parallel s s' S (ctx.err text) (ctx.err text) :=
  Action.parallel_writeText hS _ text

theorem parallel_out (hS : S s s') (ctx : Context) (text : String) :
    Parallel s s' S (ctx.out text) (ctx.out text) :=
  Action.parallel_writeText hS _ text

/-- A complaint with a status. -/
theorem parallel_complain (hS : S s s') (ctx : Context) (text : String) (status : Int) :
    Parallel s s' S
      (do
        ctx.err text
        return status)
      (do
        ctx.err text
        return status) :=
  (parallel_err ⟨rfl, rfl⟩ ctx text).bind_only hS fun _ => Action.parallel_pure hS status

theorem parallel_changeDirectory (h : s.AgreesOn names s') (ctx : Context) (name target : String) :
    Parallel s s' (Session.AgreesOn names) (changeDirectory ctx name target)
      (changeDirectory ctx name target) := by
  refine Action.parallel_session_bind (Action.parallel_host_bind fun host calls => ?_)
  rw [Host.withCalls_files, Host.withCalls_workingDirectory, h.directory]
  cases host.files.canonicalPath host.workingDirectory (Path.join s'.directory target) with
  | error e => exact Action.parallel_fail h _
  | ok dir =>
    dsimp only
    split
    · exact Action.parallel_modifySession_bind (Action.parallel_pure (h.enter dir) 0)
    · exact parallel_complain h ctx _ 1

theorem parallel_runCd (h : s.Interchangeable names s') (ctx : Context) :
    Parallel s s' (Session.AgreesOn names) (runCd ctx) (runCd ctx) := by
  unfold runCd
  split
  · refine Action.parallel_session_bind (Action.parallel_host_bind fun host calls => ?_)
    have hdirectory : homeDirectory (host.withCalls calls) s' = homeDirectory host s := by
      rw [homeDirectory, homeDirectory, h.get?_eq "HOME" h.home_mem]
      rfl
    rw [hdirectory]
    exact parallel_changeDirectory h.toAgreesOn ctx "cd" _
  · exact parallel_changeDirectory h.toAgreesOn ctx "cd" _
  · exact parallel_complain h.toAgreesOn ctx _ 1

theorem parallel_runPushd (h : s.AgreesOn names s') (ctx : Context) :
    Parallel s s' (Session.AgreesOn names) (runPushd ctx) (runPushd ctx) := by
  unfold runPushd
  split
  · refine Action.parallel_session_bind ?_
    refine (parallel_changeDirectory h ctx "pushd" _).bind (fun _ _ ht => ht) ?_
    intro status t t' ht
    dsimp only
    split
    · refine Action.parallel_modifySession_bind (Action.parallel_pure ?_ status)
      exact ht.restack (by rw [h.directory, ht.stack])
    · exact Action.parallel_pure ht status
  · exact parallel_complain h ctx _ 1

theorem parallel_runPopd (h : s.AgreesOn names s') (ctx : Context) :
    Parallel s s' (Session.AgreesOn names) (runPopd ctx) (runPopd ctx) := by
  refine Action.parallel_session_bind ?_
  simp only [h.stack]
  split
  · exact parallel_complain h ctx _ 1
  · next target rest _ =>
    refine Action.parallel_modifySession_bind ?_
    exact parallel_changeDirectory (h.restack rfl) ctx "popd" target

theorem parallel_runDirs (h : s.AgreesOn names s') (ctx : Context) :
    Parallel s s' (Only s s') (runDirs ctx) (runDirs ctx) := by
  refine Action.parallel_session_bind ?_
  simp only [h.directory, h.stack]
  exact (parallel_out ⟨rfl, rfl⟩ ctx _).bind_only ⟨rfl, rfl⟩ fun _ =>
    Action.parallel_pure ⟨rfl, rfl⟩ 0

theorem parallel_listExported (h : s.AgreesOn names s') (ctx : Context) {listed : List String}
    (hlisted : listed ⊆ names) :
    Parallel s s' (Only s s') (listExported ctx s listed) (listExported ctx s' listed) := by
  induction listed with
  | nil => exact Action.parallel_pure ⟨rfl, rfl⟩ ()
  | cons name listed ih =>
    have hrest := ih fun other hother => hlisted (List.mem_cons_of_mem name hother)
    simp only [listExported, h.get?_eq name (hlisted List.mem_cons_self)]
    split
    · exact (parallel_out ⟨rfl, rfl⟩ ctx _).bind_only ⟨rfl, rfl⟩ fun _ => hrest
    · exact hrest

/-- Exporting names reads nothing.  From then on the sessions may differ in exported variables. -/
theorem parallel_exportAll (h : s.AgreesOn names s') (ctx : Context) (status : Int)
    (arguments : List String) :
    Parallel s s' (Session.AgreesOn names) (exportAll ctx status arguments)
      (exportAll ctx status arguments) := by
  induction arguments generalizing s s' status with
  | nil => exact Action.parallel_pure h status
  | cons argument arguments ih =>
    unfold exportAll
    dsimp only
    split
    · exact Action.parallel_modifySession_bind (ih (h.exportName _ _) status)
    · exact (parallel_err ⟨rfl, rfl⟩ ctx _).bind_only h fun _ => ih h 1

theorem parallel_runExport (h : s.Interchangeable names s') (ctx : Context) :
    Parallel s s' (Session.AgreesOn names) (runExport ctx) (runExport ctx) := by
  unfold runExport
  split
  · refine Action.parallel_session_bind ?_
    rw [← h.listing]
    refine (parallel_listExported h.toAgreesOn ctx ?_).bind_only h.toAgreesOn fun _ =>
      Action.parallel_pure h.toAgreesOn 0
    exact fun name hname => h.exported_subset ((List.mergeSort_perm _ _).mem_iff.mp hname)
  · exact parallel_exportAll h.toAgreesOn ctx 0 _

theorem parallel_runExec (h : s.Interchangeable names s') (ctx : Context) :
    Parallel s s' (Only s s') (runExec ctx) (runExec ctx) := by
  unfold runExec
  split
  · exact Action.parallel_pure ⟨rfl, rfl⟩ 0
  · refine Action.parallel_session_bind (Action.parallel_host_bind fun host calls => ?_)
    rw [Executable.find?_agree h]
    split
    · exact parallel_complain ⟨rfl, rfl⟩ ctx _ 127
    · exact Executable.parallel_replace h _ _

theorem parallel_runScripted (script : Scripted) (ctx : Context) :
    Parallel s s' (Only s s') (runScripted script ctx) (runScripted script ctx) := by
  have hend : Parallel s s' (Only s s') (scriptedEnd script) (scriptedEnd script) := by
    unfold scriptedEnd
    split
    · exact Action.parallel_fail ⟨rfl, rfl⟩ _
    · exact Action.parallel_pure ⟨rfl, rfl⟩ _
  have herrors : ∀ text, Parallel s s' (Only s s')
      (ctx.err text >>= fun _ => scriptedEnd script)
      (ctx.err text >>= fun _ => scriptedEnd script) :=
    fun text => (parallel_err ⟨rfl, rfl⟩ ctx text).bind_only ⟨rfl, rfl⟩ fun _ => hend
  unfold runScripted
  dsimp only
  split
  · refine (parallel_out ⟨rfl, rfl⟩ ctx _).bind_only ⟨rfl, rfl⟩ fun _ => ?_
    split
    · exact herrors _
    · exact hend
  · split
    · exact herrors _
    · exact hend

/-- What a builtin reads of the session is exported, `PATH`, `HOME`, or no variable. -/
theorem parallel_run (h : s.Interchangeable names s') (b : Builtin) (ctx : Context) :
    Parallel s s' (Session.AgreesOn names) (b.run ctx) (b.run ctx) := by
  have hagree := h.toAgreesOn
  cases b with
  | cd => exact parallel_runCd h ctx
  | dirs => exact (parallel_runDirs hagree ctx).of_only hagree
  | exec => exact (parallel_runExec h ctx).of_only hagree
  | exit => exact Action.parallel_throw hagree _
  | «export» => exact parallel_runExport h ctx
  | popd => exact parallel_runPopd hagree ctx
  | pushd => exact parallel_runPushd hagree ctx
  | scripted script => exact (parallel_runScripted script ctx).of_only hagree

end Builtin

/-! ## Redirects -/

namespace Redirection

variable {names : List String} {s s' : Session}

theorem parallel_openFile (h : s.AgreesOn names s') {w : Word} (hrefs : w.references ⊆ names)
    (mode : FileSystem.OpenMode) :
    Parallel s s' (Only s s') (openFile w mode) (openFile w mode) := by
  intro host host' hhost
  have hsame := hhost
  obtain ⟨calls, hcalls, rfl⟩ := hsame
  have hpath : Expansion.one s'.strict s'.get? w = Expansion.one s.strict s.get? w := by
    rw [h.strict, Expansion.one_congr fun name hname => h.get?_eq name (hrefs hname)]
  rw [openFile_eq, openFile_eq]
  dsimp only
  rw [hpath, ← h.directory]
  cases Expansion.one s.strict s.get? w with
  | error name => exact .error _ ⟨⟨rfl, rfl⟩, hhost⟩
  | ok path =>
    dsimp only
    rw [Host.openFile_withCalls]
    cases hopen : host.openFile (Path.join s.directory path) mode with
    | error e => exact .error _ ⟨⟨rfl, rfl⟩, hhost⟩
    | ok opened =>
      obtain ⟨files, handles, hopened⟩ := Host.openFile_keeps hopen
      refine .ok opened.1 ⟨⟨rfl, rfl⟩, calls, ?_, rfl⟩
      rw [hopened]
      exact hcalls

theorem parallel_outputTarget (h : s.AgreesOn names s') (streams : Streams) (kind : RedirectKind)
    {target : Option Operand} (hrefs : target.elim [] Operand.references ⊆ names) :
    Parallel s s' (Only s s') (outputTarget streams kind target)
      (outputTarget streams kind target) := by
  unfold outputTarget
  split
  · exact Action.parallel_fail ⟨rfl, rfl⟩ _
  · exact (parallel_openFile h hrefs _).bind_only ⟨rfl, rfl⟩ fun n =>
      Action.parallel_pure ⟨rfl, rfl⟩ _
  · exact Action.parallel_pure ⟨rfl, rfl⟩ _
  · exact Action.parallel_pure ⟨rfl, rfl⟩ _
  · exact Action.parallel_fail ⟨rfl, rfl⟩ _

theorem parallel_apply (h : s.AgreesOn names s') (streams : Streams) {r : Redirect}
    (hrefs : r.references ⊆ names) :
    Parallel s s' (Only s s') (apply streams r) (apply streams r) := by
  obtain ⟨hsource, htarget⟩ := List.append_subset.mp hrefs
  unfold apply
  split
  · unfold redirectInput
    split
    · next w hw =>
      rw [hw] at hsource
      split
      · exact (parallel_openFile h hsource .read).bind_only ⟨rfl, rfl⟩ fun n =>
          Action.parallel_pure ⟨rfl, rfl⟩ _
      · exact Action.parallel_fail ⟨rfl, rfl⟩ _
    · exact Action.parallel_fail ⟨rfl, rfl⟩ _
  · split
    · exact Action.parallel_fail ⟨rfl, rfl⟩ _
    · exact (parallel_outputTarget h streams _ htarget).bind_only ⟨rfl, rfl⟩ fun channel =>
        Action.parallel_pure ⟨rfl, rfl⟩ _

theorem parallel_applyAll (h : s.AgreesOn names s') (streams : Streams) {rs : List Redirect}
    (hrefs : rs.flatMap Redirect.references ⊆ names) :
    Parallel s s' (Only s s') (applyAll streams rs) (applyAll streams rs) := by
  induction rs generalizing streams with
  | nil => exact Action.parallel_pure ⟨rfl, rfl⟩ streams
  | cons r rs ih =>
    rw [List.flatMap_cons] at hrefs
    obtain ⟨hfirst, hrest⟩ := List.append_subset.mp hrefs
    exact (parallel_apply h streams hfirst).bind_only ⟨rfl, rfl⟩ fun streams' => ih streams' hrest

end Redirection

/-! ## Commands -/

section Commands

variable {names : List String} {s s' : Session}

theorem Registry.parallel_dispatch (h : s.Interchangeable names s') (registry : Registry)
    (name : String) (arguments : List String) (streams : Streams) :
    Parallel s s' (Session.AgreesOn names) (registry.dispatch name arguments streams)
      (registry.dispatch name arguments streams) := by
  have hagree := h.toAgreesOn
  unfold dispatch
  split
  · exact Builtin.parallel_run h _ _
  · refine Action.parallel_session_bind (Action.parallel_host_bind fun host calls => ?_)
    rw [Executable.find?_agree h]
    split
    · exact Builtin.parallel_complain hagree ⟨[], streams⟩ _ notFoundStatus
    · exact (Executable.parallel_run h _ name arguments streams).of_only hagree

theorem Registry.parallel_execute (h : s.Interchangeable names s') (registry : Registry)
    (name : String) (arguments : List String) {rs : List Redirect}
    (hrefs : rs.flatMap Redirect.references ⊆ names) :
    Parallel s s' (Session.AgreesOn names) (registry.execute name arguments rs)
      (registry.execute name arguments rs) := by
  rw [execute]
  apply Parallel.closingFiles
  -- redirects leave the sessions alone, so what they agree on is known when the command starts
  exact (Redirection.parallel_applyAll h.toAgreesOn .inherited hrefs).bind_only h.toAgreesOn
    (registry.parallel_dispatch h name arguments)

namespace Execution

/-- Assignments are the same on both sessions, and so are the variables that they set. -/
theorem parallel_assign (h : s.AgreesOn names s') (exporting : Bool) {as : List Assignment}
    (hrefs : (as.flatMap fun a => a.value.references) ⊆ names) :
    let stores := Assignment.stores s.strict s.get? as
    Parallel s s' (Only (s.store exporting stores) (s'.store exporting stores))
      (assign exporting as) (assign exporting as) := by
  intro stores host host' hhost
  have hvalues : ∀ a ∈ as, ∀ name ∈ a.value.references, s.get? name = s'.get? name :=
    fun a ha name hname => h.get?_eq name (hrefs (List.mem_flatMap.mpr ⟨a, ha, hname⟩))
  obtain ⟨hstores, hunset⟩ := Assignment.stores_congr s.strict hvalues
  have hassigned : ∀ host, Machine.assigned ⟨s', host⟩ exporting as =
      ⟨s'.store exporting stores, host⟩ := by
    intro host
    simp only [Machine.assigned, ← h.strict, ← hstores, stores]
  rw [assign_eq, assign_eq, hassigned]
  dsimp only
  rw [← h.strict, ← hunset]
  cases Assignment.unset? s.strict s.get? as with
  | none => exact .ok () ⟨⟨rfl, rfl⟩, hhost⟩
  | some name => exact .error _ ⟨⟨rfl, rfl⟩, hhost⟩

theorem parallel_expandArguments (h : s.AgreesOn names s') {ws : List Word}
    (hrefs : ws.flatMap Word.references ⊆ names) :
    Parallel s s' (Only s s') (expandArguments ws) (expandArguments ws) := by
  intro host host' hhost
  have hwords : ∀ w ∈ ws, ∀ name ∈ w.references, s.get? name = s'.get? name :=
    fun w hw name hname => h.get?_eq name (hrefs (List.mem_flatMap.mpr ⟨w, hw, hname⟩))
  have hexpand : Machine.expand ⟨s, host⟩ ws = Machine.expand ⟨s', host'⟩ ws := by
    obtain ⟨calls, -, rfl⟩ := hhost
    simp only [Machine.expand, Host.withCalls_files, Host.withCalls_workingDirectory, h.directory,
      h.strict, Expansion.words_congr hwords]
  rw [expandArguments_eq, expandArguments_eq, hexpand]
  cases Machine.expand ⟨s', host'⟩ ws with
  | error name => exact .error _ ⟨⟨rfl, rfl⟩, hhost⟩
  | ok arguments => exact .ok arguments ⟨⟨rfl, rfl⟩, hhost⟩

/-- Behind the assignments in front of a command the sessions agree on more names, and so also on
what is exported for the command. -/
theorem parallel_prefixed (h : s.Interchangeable names s') (registry : Registry) (name : String)
    (arguments : List String) {as : List Assignment} {rs : List Redirect}
    (hassignments : (as.flatMap fun a => a.value.references) ⊆ names)
    (hredirects : rs.flatMap Redirect.references ⊆ names) :
    Parallel s s' (Session.AgreesOn names)
      (do
        assign true as
        registry.execute name arguments rs)
      (do
        assign true as
        registry.execute name arguments rs) := by
  have hstored := h.store (Assignment.stores s.strict s.get? as)
  have hsub := List.subset_append_right
    ((Assignment.stores s.strict s.get? as).map Prod.fst) names
  have hexecute := registry.parallel_execute hstored name arguments
    (List.Subset.trans hredirects hsub)
  exact (parallel_assign h.toAgreesOn true hassignments).bind_only (hstored.mono hsub) fun done =>
    hexecute.mono fun t t' ht => ht.mono hsub

theorem parallel_runCommand (h : s.Interchangeable names s') (registry : Registry) {c : Command}
    (hrefs : (Line.command c).references ⊆ names) :
    Parallel s s' (Session.AgreesOn names) (runCommand registry c) (runCommand registry c) := by
  have hagree := h.toAgreesOn
  obtain ⟨hfront, hredirects⟩ := List.append_subset.mp hrefs
  obtain ⟨hassignments, harguments⟩ := List.append_subset.mp hfront
  refine (parallel_expandArguments hagree harguments).bind_only hagree fun expanded => ?_
  split
  · exact Action.parallel_pure hagree 0
  · next name arguments =>
    split
    · exact registry.parallel_execute h name arguments hredirects
    · exact (parallel_prefixed h registry name arguments hassignments hredirects).onCopy.of_only
        hagree

theorem parallel_runParsed (h : s.Interchangeable names s') (registry : Registry) {line : Line}
    (hrefs : line.references ⊆ names) :
    Parallel s s' (Session.AgreesOn names) (runParsed registry line) (runParsed registry line) := by
  have hagree := h.toAgreesOn
  cases line with
  | blank => exact Action.parallel_pure hagree 0
  | assignments as =>
    have hstored := (hagree.store false (Assignment.stores s.strict s.get? as)).mono
      (List.subset_append_right _ names)
    exact (parallel_assign hagree false hrefs).bind_only hstored fun done =>
      Action.parallel_pure hstored 0
  | command c => exact parallel_runCommand h registry hrefs

theorem parallel_reporting {work : Action Int}
    (h : Parallel s s' (Session.AgreesOn names) work work) :
    Parallel s s' (Session.AgreesOn names) (reporting work) (reporting work) := by
  refine h.tryCatch fun e t t' ht => ?_
  cases e with
  | failed error =>
    dsimp only
    split
    · exact (Action.parallel_writeText ⟨rfl, rfl⟩ _ _).bind_only ht fun _ =>
        Action.parallel_pure ht errorStatus
    · exact Action.parallel_throw ht _
  | exit status => exact Action.parallel_throw ht _
  | replaced => exact Action.parallel_throw ht _

end Execution

end Commands

/-! ## Lines -/

/-- The names whose variables a line may depend on: the exported ones, `PATH`, `HOME`, and the ones
that it refers to. -/
def Session.observed (s : Session) (text : String) : List String :=
  s.exported ++ ["PATH", "HOME"] ++
    match parse text with
    | .ok line => line.references
    | .error _ => []

/-- Variables that are not observed by a line make no difference to it.  On sessions that agree on
the observed names it ends the same way, with the same files and the same text on the streams, it
starts the same programs with the same environments, and the sessions behind it agree on these
names again. -/
theorem unobserved_variables_stay_private (registry : Registry) (text : String) (host : Host)
    {s s' : Session} (h : s.AgreesOn (s.observed text) s') :
    Action.SameEnd (Machine.Paired (Session.AgreesOn (s.observed text)))
      (executeLine registry text ⟨s, host⟩) (executeLine registry text ⟨s', host⟩) := by
  have hparallel : Parallel s s' (Session.AgreesOn (s.observed text)) (executeLine registry text)
      (executeLine registry text) := by
    cases hparse : parse text with
    | error failure =>
      rw [executeLine, hparse]
      cases failure with
      | numeral error => exact Action.parallel_fail h _
      | mismatch expected offset =>
        exact (Action.parallel_writeText ⟨rfl, rfl⟩ _ _).bind_only h fun _ =>
          Action.parallel_pure h _
      | rejection expected offset =>
        exact (Action.parallel_writeText ⟨rfl, rfl⟩ _ _).bind_only h fun _ =>
          Action.parallel_pure h _
    | ok line =>
      have hobserved : s.observed text = s.exported ++ ["PATH", "HOME"] ++ line.references := by
        simp only [Session.observed, hparse]
      rw [executeLine_of_parse registry hparse]
      rw [hobserved] at h ⊢
      apply Execution.parallel_reporting
      exact Execution.parallel_runParsed (h.interchangeable) registry
        (List.subset_append_right _ _)
  exact hparallel host host (.refl host)

theorem unobserved_variables_stay_private_equipped :
    let secretive := equipped.session.set "SECRET" "2"
    let text := "B=\"${A}\" /p \"${A}\" >\"/${A}\""
    secretive.get? "SECRET" ≠ equipped.session.get? "SECRET" ∧
      ((executeLine .standard text).after ⟨secretive, equipped.host⟩).host.calls.length = 1 ∧
      Action.SameEnd (Machine.Paired (Session.AgreesOn ["A", "PATH", "HOME", "A", "A", "A"]))
        (executeLine .standard text ⟨secretive, equipped.host⟩)
        (executeLine .standard text equipped) := by
  intro secretive text
  have hobserved : secretive.observed text = ["A", "PATH", "HOME", "A", "A", "A"] := by
    decide +kernel
  have hagree : secretive.AgreesOn (secretive.observed text) equipped.session := by
    rw [hobserved]
    exact ⟨rfl, rfl, rfl, .refl _, by decide +kernel⟩
  have hsame := unobserved_variables_stay_private .standard text equipped.host hagree
  rw [hobserved] at hsame
  exact ⟨by decide +kernel, by decide +kernel, hsame⟩

end LineShell
