import LineShell.Proofs.Expansion.Order
import LineShell.Proofs.Line.Failure
import LineShell.Proofs.Machine.Redirects
import LineShell.Proofs.Machine.Strictness
import LineShell.Proofs.Session.Prefix

/-!
# Lines in strict mode

Only the expansion of words looks at the strict mode.  A line is expanded in several places, each
with the assignments that have been made by then: the arguments of a command before any of its
assignments, each assignment behind the ones to its left, and the files of the redirects behind
all of them.  Where all variables are set in these places, a line does in strict mode what it does
without.
-/

namespace LineShell

open LineShell.Action (Steady Follows)

/-! ## Where a line reads variables -/

/-- The session behind an assignment whose value may be empty where a variable is unset. -/
def Session.assigning (s : Session) (a : Assignment) : Session :=
  s.set a.name (a.value.render s.get?)

def Session.behind (s : Session) (as : List Assignment) : Session :=
  as.foldl Session.assigning s

/-- A word that is expanded, and the assignments that have been made by then. -/
structure Occasion where
  before : List Assignment
  word : Word

def Operand.words : Operand → List Word
  | .file w => [w]
  | .descriptor _ => []

def Redirect.words (r : Redirect) : List Word :=
  r.source.elim [] Operand.words ++ r.target.elim [] Operand.words

def Assignment.occasions (before : List Assignment) : List Assignment → List Occasion
  | [] => []
  | a :: as => ⟨before, a.value⟩ :: occasions (before ++ [a]) as

def Line.occasions : Line → List Occasion
  | .blank => []
  | .assignments as => Assignment.occasions [] as
  | .command c =>
      c.arguments.map (Occasion.mk []) ++ Assignment.occasions [] c.assignments ++
        (c.redirects.flatMap Redirect.words).map (Occasion.mk c.assignments)

/-- A word refers to a variable that is unset when the word is expanded. -/
def Session.Misses (s : Session) (occasions : List Occasion) (name : String) : Prop :=
  ∃ o ∈ occasions, name ∈ o.word.references ∧ (s.behind o.before).get? name = none

theorem Session.Misses.mono {s : Session} {os os' : List Occasion} {name : String}
    (h : s.Misses os name) (hsub : os ⊆ os') : s.Misses os' name := by
  obtain ⟨o, ho, hunset⟩ := h
  exact ⟨o, hsub ho, hunset⟩

theorem Action.Follows.widen {α : Type} {s : Session} {os os' : List Occasion}
    {r r' : EStateM.Result Interruption Machine α} (h : Follows (s.Misses os) r r')
    (hsub : os ⊆ os') : Follows (s.Misses os') r r' :=
  h.mono fun _ hname => hname.mono hsub

theorem Session.behind_concat (s : Session) (as : List Assignment) (a : Assignment) :
    s.behind (as ++ [a]) = (s.behind as).assigning a := by
  simp only [behind, List.foldl_append, List.foldl_cons, List.foldl_nil]

/-! ## Words in strict mode -/

namespace Expansion

theorem one_strict_cases (lookup : Lookup) (w : Word) :
    one true lookup w = .ok (w.render lookup) ∨
      ∃ name, one true lookup w = .error name ∧ name ∈ w.references ∧ lookup name = none := by
  cases hunset : w.unset? lookup with
  | none =>
    left
    simp only [one, if_true, hunset]
  | some name =>
    obtain ⟨hmem, hnone⟩ := Word.reference_mem_of_unset? hunset
    refine Or.inr ⟨name, ?_, Word.reference?_subset hmem rfl, hnone⟩
    simp only [one, if_true, hunset]

theorem words_strict_cases (setting : Setting) (lookup : Lookup) (ws : List Word) :
    words { setting with strict := true } lookup ws =
        words { setting with strict := false } lookup ws ∨
      ∃ name, words { setting with strict := true } lookup ws = .error name ∧
        ∃ w ∈ ws, name ∈ w.references ∧ lookup name = none := by
  rw [words_strict, words_lenient]
  cases hunset : Word.unset? lookup ws.flatten with
  | none => exact Or.inl rfl
  | some name =>
    obtain ⟨w, hw, hmem, hnone⟩ := Word.exists_of_unset?_flatten hunset
    exact Or.inr ⟨name, rfl, w, hw, Word.reference?_subset hmem rfl, hnone⟩

end Expansion

/-! ## Programs -/

namespace Executable

theorem steady_perform (program : Program) (arguments : List String) (streams : Streams) :
    Steady (perform program arguments streams) := by
  have hend : ∀ out : Channel, Steady (do
      Action.writeText out program.output
      Action.writeText (streams.errors.getD .errors) program.errors
      return program.status : Action Int) :=
    fun out => (Action.steady_writeText _ _).bind fun _ =>
      (Action.steady_writeText _ _).bind fun _ => Action.steady_pure _
  unfold perform
  dsimp only
  split
  case' isTrue => refine (Action.steady_writeText _ _).bind fun _ => ?_
  -- the rest is the same, with or without the arguments before it
  all_goals
    split
    · split
      · exact (Action.steady_modifyHost _).bind fun _ => hend _
      · exact hend _
    · exact hend _

theorem steady_run (path name : String) (arguments : List String) (streams : Streams) :
    Steady (run path name arguments streams) := by
  refine Action.steady_session_bind (fun _ _ => rfl) fun s => Action.steady_host_bind fun host => ?_
  refine (Action.steady_record _).bind fun _ => ?_
  split
  · exact (Action.steady_writeText _ _).bind fun _ => Action.steady_pure _
  · split
    · exact Action.steady_pure _
    · exact steady_perform _ _ _

theorem steady_replace (path : String) (arguments : List String) :
    Steady (replace path arguments) := by
  refine Action.steady_session_bind (fun _ _ => rfl) fun s => Action.steady_host_bind fun host => ?_
  split
  · exact Action.steady_fail (by simp)
  · exact (Action.steady_record _).bind fun _ => Action.steady_throw (by simp)

end Executable

/-! ## Builtins -/

namespace Builtin

theorem steady_err (ctx : Context) (text : String) : Steady (ctx.err text) :=
  Action.steady_writeText _ text

theorem steady_out (ctx : Context) (text : String) : Steady (ctx.out text) :=
  Action.steady_writeText _ text

/-- A complaint with a status. -/
theorem steady_complain (ctx : Context) (text : String) (status : Int) :
    Steady (do
      ctx.err text
      return status : Action Int) :=
  (steady_err ctx text).bind fun _ => Action.steady_pure status

theorem steady_changeDirectory (ctx : Context) (name target : String) :
    Steady (changeDirectory ctx name target) := by
  refine Action.steady_session_bind (fun _ _ => rfl) fun s => Action.steady_host_bind fun host => ?_
  split
  · exact Action.steady_fail (by simp)
  · split
    · exact (Action.steady_modifySession fun _ _ => rfl).bind fun _ => Action.steady_pure 0
    · exact steady_complain ctx _ 1

theorem steady_runCd (ctx : Context) : Steady (runCd ctx) := by
  unfold runCd
  split
  · exact Action.steady_session_bind (fun _ _ => rfl) fun s =>
      Action.steady_host_bind fun host => steady_changeDirectory ctx "cd" _
  · exact steady_changeDirectory ctx "cd" _
  · exact steady_complain ctx _ 1

theorem steady_runPushd (ctx : Context) : Steady (runPushd ctx) := by
  unfold runPushd
  split
  · refine Action.steady_session_bind (fun _ _ => rfl) fun s => ?_
    refine (steady_changeDirectory ctx "pushd" _).bind fun status => ?_
    dsimp only
    split
    · exact (Action.steady_modifySession fun _ _ => rfl).bind fun _ => Action.steady_pure status
    · exact Action.steady_pure status
  · exact steady_complain ctx _ 1

theorem steady_runPopd (ctx : Context) : Steady (runPopd ctx) := by
  refine Action.steady_session_bind (fun _ _ => rfl) fun s => ?_
  split
  · exact steady_complain ctx _ 1
  · exact (Action.steady_modifySession fun _ _ => rfl).bind fun _ =>
      steady_changeDirectory ctx "popd" _

theorem steady_runDirs (ctx : Context) : Steady (runDirs ctx) :=
  Action.steady_session_bind (fun _ _ => rfl) fun _ =>
    (steady_out ctx _).bind fun _ => Action.steady_pure 0

theorem steady_listExported (ctx : Context) (s : Session) (names : List String) :
    Steady (listExported ctx s names) := by
  induction names with
  | nil => exact Action.steady_pure ()
  | cons name names ih =>
    unfold listExported
    dsimp only
    split
    · exact (steady_out ctx _).bind fun _ => ih
    · exact ih

theorem listExported_withStrict (ctx : Context) (s : Session) (strict : Bool)
    (names : List String) :
    listExported ctx (s.withStrict strict) names = listExported ctx s names := by
  induction names with
  | nil => rfl
  | cons name names ih => simp only [listExported, Session.get?_withStrict, ih]

theorem exportName_withStrict (s : Session) (strict : Bool) (name : String)
    (value : Option String) :
    exportName (s.withStrict strict) name value = (exportName s name value).withStrict strict := by
  cases value <;> rfl

theorem steady_exportAll (ctx : Context) (status : Int) (arguments : List String) :
    Steady (exportAll ctx status arguments) := by
  induction arguments generalizing status with
  | nil => exact Action.steady_pure status
  | cons argument arguments ih =>
    unfold exportAll
    dsimp only
    split
    · exact (Action.steady_modifySession fun s strict =>
        exportName_withStrict s strict _ _).bind fun _ => ih status
    · exact (steady_err ctx _).bind fun _ => ih 1

theorem steady_runExport (ctx : Context) : Steady (runExport ctx) := by
  unfold runExport
  split
  · refine Action.steady_session_bind (fun s strict => ?_) fun s => ?_
    · rw [listExported_withStrict]
      rfl
    · exact (steady_listExported ctx s _).bind fun _ => Action.steady_pure 0
  · exact steady_exportAll ctx 0 _

theorem steady_runExec (ctx : Context) : Steady (runExec ctx) := by
  unfold runExec
  split
  · exact Action.steady_pure 0
  · refine Action.steady_session_bind (fun _ _ => rfl) fun s =>
      Action.steady_host_bind fun host => ?_
    split
    · exact steady_complain ctx _ 127
    · exact Executable.steady_replace _ _

/-- No builtin of the shell looks at the strict mode. -/
theorem steady_run {b : Builtin} (h : ∀ script, b ≠ .scripted script) (ctx : Context) :
    Steady (b.run ctx) := by
  cases b with
  | cd => exact steady_runCd ctx
  | dirs => exact steady_runDirs ctx
  | exec => exact steady_runExec ctx
  | exit => exact Action.steady_throw (by simp)
  | «export» => exact steady_runExport ctx
  | popd => exact steady_runPopd ctx
  | pushd => exact steady_runPushd ctx
  | scripted script => exact absurd rfl (h script)

end Builtin

theorem Registry.lookup_standard {name : String} {b : Builtin}
    (h : Registry.standard.lookup name = some b) (script : Scripted) : b ≠ .scripted script := by
  rintro rfl
  obtain ⟨before, after, hsplit, -⟩ := List.lookup_eq_some_iff.mp h
  have hmem : (name, Builtin.scripted script) ∈ Registry.standard := by
    rw [hsplit]
    simp
  simp [Registry.standard] at hmem

theorem Registry.steady_dispatch (name : String) (arguments : List String) (streams : Streams) :
    Steady (Registry.standard.dispatch name arguments streams) := by
  unfold dispatch
  split
  · next b hb => exact Builtin.steady_run (Registry.lookup_standard hb) _
  · refine Action.steady_session_bind (fun _ _ => rfl) fun s =>
      Action.steady_host_bind fun host => ?_
    split
    · exact Builtin.steady_complain _ _ _
    · exact Executable.steady_run _ _ _ _

/-! ## Expanding words -/

/-- A machine that is not strict, with the variables behind some assignments. -/
structure Machine.LenientBehind (s : Session) (before : List Assignment) (m : Machine) : Prop where
  strict : m.session.strict = false
  get?_eq : m.session.get? = (s.behind before).get?

section Words

variable {s : Session} {before : List Assignment} {m : Machine}

theorem Machine.LenientBehind.misses (h : m.LenientBehind s before) {name : String} {w : Word}
    (hname : name ∈ w.references) (hunset : m.session.get? name = none) :
    s.Misses [⟨before, w⟩] name :=
  ⟨⟨before, w⟩, List.mem_singleton_self _, hname, h.get?_eq ▸ hunset⟩

theorem Execution.follows_expandArguments (h : m.LenientBehind s before) (ws : List Word) :
    Follows (s.Misses (ws.map (Occasion.mk before))) (expandArguments ws m)
      (expandArguments ws (m.withStrict true)) := by
  obtain ⟨texts, htexts⟩ : ∃ texts, Expansion.words ⟨m.host.files, m.host.workingDirectory,
      some m.session.directory, false, false⟩ m.session.get? ws = .ok texts :=
    ⟨_, Expansion.words_lenient ⟨m.host.files, m.host.workingDirectory, some m.session.directory,
      true, false⟩ m.session.get? ws⟩
  have hcases := Expansion.words_strict_cases ⟨m.host.files, m.host.workingDirectory,
    some m.session.directory, true, false⟩ m.session.get? ws
  have hrun : expandArguments ws m = .ok texts m := by
    rw [expandArguments_eq, Machine.expand, h.strict, htexts]
  rw [hrun, expandArguments_eq]
  rcases hcases with hsame | ⟨name, herror, w, hw, hname, hunset⟩
  · have hstrict : (m.withStrict true).expand ws = .ok texts := hsame.trans htexts
    rw [hstrict]
    exact .same (Action.not_failsUnset_ok texts m)
  · have hstrict : (m.withStrict true).expand ws = .error name := herror
    rw [hstrict]
    refine .unset _ ((h.misses hname hunset).mono ?_)
    simpa using hw

theorem Redirection.follows_openFile (h : m.LenientBehind s before) (w : Word)
    (mode : FileSystem.OpenMode) :
    Follows (s.Misses [⟨before, w⟩]) (openFile w mode m) (openFile w mode (m.withStrict true)) := by
  rw [openFile_eq, openFile_eq, h.strict, Expansion.one_of_not_strict]
  simp only [Machine.session_withStrict, Session.strict_withStrict, Session.get?_withStrict,
    Machine.host_withStrict]
  rcases Expansion.one_strict_cases m.session.get? w with hsame | ⟨name, herror, hname, hunset⟩
  · rw [hsame]
    have hdirectory : (m.session.withStrict true).directory = m.session.directory := rfl
    simp only [hdirectory]
    cases m.host.openFile (Path.join m.session.directory (w.render m.session.get?)) mode with
    | error e => exact .same fun name hfails => by simpa using Action.failsUnset_error.mp hfails
    | ok opened => exact .same (Action.not_failsUnset_ok _ _)
  · rw [herror]
    exact .unset _ (h.misses hname hunset)

/-- A file whose handle is put to some use. -/
theorem Redirection.follows_open (h : m.LenientBehind s before) {α : Type} {f : Nat → Action α}
    (hf : ∀ n, Steady (f n)) (w : Word) (mode : FileSystem.OpenMode) :
    Follows (s.Misses [⟨before, w⟩]) ((openFile w mode >>= f) m)
      ((openFile w mode >>= f) (m.withStrict true)) :=
  (follows_openFile h w mode).bind fun n m₁ _ => (hf n).follows m₁

theorem Redirection.follows_outputTarget (h : m.LenientBehind s before) (streams : Streams)
    (kind : RedirectKind) (target : Option Operand) :
    Follows (s.Misses ((target.elim [] Operand.words).map (Occasion.mk before)))
      (outputTarget streams kind target m)
      (outputTarget streams kind target (m.withStrict true)) := by
  unfold outputTarget
  split
  · exact (Action.steady_fail (by simp)).follows m
  · exact follows_open h (fun n => Action.steady_pure _) _ _
  · exact (Action.steady_pure _).follows m
  · exact (Action.steady_pure _).follows m
  · exact (Action.steady_fail (by simp)).follows m

theorem Redirection.follows_redirectInput (h : m.LenientBehind s before) (streams : Streams)
    (source target : Option Operand) :
    Follows (s.Misses ((source.elim [] Operand.words).map (Occasion.mk before)))
      (redirectInput streams source target m)
      (redirectInput streams source target (m.withStrict true)) := by
  unfold redirectInput
  split
  · split
    · exact follows_open h (fun n => Action.steady_pure _) _ .read
    · exact (Action.steady_fail (by simp)).follows m
  · exact (Action.steady_fail (by simp)).follows m

theorem Redirection.follows_redirectOutput (h : m.LenientBehind s before) {kind : RedirectKind}
    (hkind : kind ≠ .input) (streams : Streams) (source target : Option Operand) :
    Follows (s.Misses ((target.elim [] Operand.words).map (Occasion.mk before)))
      (apply streams ⟨kind, source, target⟩ m)
      (apply streams ⟨kind, source, target⟩ (m.withStrict true)) := by
  cases hsource : outputSource source with
  | error e =>
    rw [apply_of_outputSource_error hkind hsource]
    exact (Action.steady_fail (by simp)).follows m
  | ok stream =>
    rw [apply_of_outputSource hkind hsource]
    exact (follows_outputTarget h streams kind target).bind fun channel m₁ _ =>
      (Action.steady_pure _).follows m₁

theorem Redirection.follows_apply (h : m.LenientBehind s before) (streams : Streams)
    (r : Redirect) :
    Follows (s.Misses (r.words.map (Occasion.mk before))) (apply streams r m)
      (apply streams r (m.withStrict true)) := by
  obtain ⟨kind, source, target⟩ := r
  rw [Redirect.words, List.map_append]
  by_cases hkind : kind = .input
  · subst hkind
    exact (follows_redirectInput h streams source target).widen (List.subset_append_left _ _)
  · exact (follows_redirectOutput h hkind streams source target).widen
      (List.subset_append_right _ _)

theorem Redirection.follows_applyAll (h : m.LenientBehind s before) (streams : Streams)
    (rs : List Redirect) :
    Follows (s.Misses ((rs.flatMap Redirect.words).map (Occasion.mk before)))
      (applyAll streams rs m) (applyAll streams rs (m.withStrict true)) := by
  induction rs generalizing streams m with
  | nil => exact (Action.steady_pure streams).follows m
  | cons r rs ih =>
    rw [List.flatMap_cons, List.map_append]
    have hfirst := (follows_apply h streams r).widen
      (List.subset_append_left _ ((rs.flatMap Redirect.words).map (Occasion.mk before)))
    refine hfirst.bind fun streams' m₁ hrun => ?_
    -- a redirect leaves the session alone, so the next one is expanded with the same variables
    have hserves := obeys_apply (P := NoCall) streams r m
    rw [Action.after_of_ok hrun] at hserves
    have hbehind : m₁.LenientBehind s before :=
      ⟨hserves.session ▸ h.strict, hserves.session ▸ h.get?_eq⟩
    exact (ih hbehind streams').widen (List.subset_append_right _ _)

theorem Registry.follows_execute (h : m.LenientBehind s before) (name : String)
    (arguments : List String) (rs : List Redirect) :
    Follows (s.Misses ((rs.flatMap Redirect.words).map (Occasion.mk before)))
      (Registry.standard.execute name arguments rs m)
      (Registry.standard.execute name arguments rs (m.withStrict true)) := by
  rw [execute]
  apply Follows.closingFiles
  exact (Redirection.follows_applyAll h .inherited rs).bind fun streams m₁ _ =>
    (steady_dispatch name arguments streams).follows m₁

/-! ## Assignments -/

theorem Machine.LenientBehind.assigning (h : m.LenientBehind s before) (exporting : Bool)
    (a : Assignment) :
    LenientBehind s (before ++ [a]) { m with
      session := m.session.storeOne exporting a.name (a.value.render m.session.get?) } where
  strict := (Session.strict_storeOne exporting _ _ _).trans h.strict
  get?_eq := by
    funext name
    rw [Session.behind_concat, Session.assigning, Session.get?_set, ← h.get?_eq]
    exact congrFun (Session.get?_storeOne exporting _ _ _) name

theorem Execution.assign_cons_lenient (h : m.LenientBehind s before) (exporting : Bool)
    (a : Assignment) (as : List Assignment) :
    assign exporting (a :: as) m = assign exporting as { m with
      session := m.session.storeOne exporting a.name (a.value.render m.session.get?) } := by
  apply assign_cons_of_ok
  rw [h.strict]
  rfl

/-- All assignments are made if the session is not strict. -/
theorem Execution.assign_lenient (h : m.LenientBehind s before) (exporting : Bool)
    (as : List Assignment) :
    ∃ m₁, assign exporting as m = .ok () m₁ ∧ m₁.LenientBehind s (before ++ as) := by
  induction as generalizing before m with
  | nil => exact ⟨m, rfl, (List.append_nil before).symm ▸ h⟩
  | cons a as ih =>
    obtain ⟨m₁, hrun, hbehind⟩ := ih (h.assigning exporting a)
    refine ⟨m₁, (assign_cons_lenient h exporting a as).trans hrun, ?_⟩
    rwa [List.append_assoc] at hbehind

theorem Execution.follows_assign (h : m.LenientBehind s before) (exporting : Bool)
    (as : List Assignment) :
    Follows (s.Misses (Assignment.occasions before as)) (assign exporting as m)
      (assign exporting as (m.withStrict true)) := by
  induction as generalizing before m with
  | nil => exact (Action.steady_pure ()).follows m
  | cons a as ih =>
    rw [assign_cons_lenient h exporting a as, Assignment.occasions]
    rcases Expansion.one_strict_cases m.session.get? a.value with
      hsame | ⟨name, herror, hname, hunset⟩
    · have hstored : (m.session.withStrict true).storeOne exporting a.name
          (a.value.render m.session.get?) = (m.session.storeOne exporting a.name
            (a.value.render m.session.get?)).withStrict true := by
        cases exporting <;> rfl
      rw [assign_cons_of_ok exporting as hsame, Machine.session_withStrict, hstored]
      exact (ih (h.assigning exporting a)).widen (List.subset_cons_self _ _)
    · rw [assign_cons_of_error exporting as herror]
      exact .unset _ ((h.misses hname hunset).mono (by simp))

end Words

/-! ## Lines -/

namespace Execution

variable {m : Machine}

theorem follows_runCommand (h : m.session.strict = false) (c : Command) :
    Follows (m.session.Misses (Line.occasions (.command c))) (runCommand .standard c m)
      (runCommand .standard c (m.withStrict true)) := by
  have hstart : m.LenientBehind m.session [] := ⟨h, rfl⟩
  have hfront := List.subset_append_left
    (c.arguments.map (Occasion.mk []) ++ Assignment.occasions [] c.assignments)
    ((c.redirects.flatMap Redirect.words).map (Occasion.mk c.assignments))
  obtain ⟨harguments, hassignments⟩ := List.append_subset.mp hfront
  have hexpand := (follows_expandArguments hstart c.arguments).widen harguments
  refine hexpand.bind fun expanded m₁ hrun => ?_
  -- the session is still the same, so the redirects are read behind all the assignments of it
  have hafter := expandArguments_after c.arguments m
  rw [Action.after_of_ok hrun] at hafter
  subst hafter
  split
  · exact (Action.steady_pure 0).follows m₁
  · next name arguments =>
    dsimp only
    have hredirects : ∀ {m₂ : Machine}, m₂.LenientBehind m₁.session c.assignments →
        Follows (m₁.session.Misses (Line.occasions (.command c)))
          (Registry.standard.execute name arguments c.redirects m₂)
          (Registry.standard.execute name arguments c.redirects (m₂.withStrict true)) :=
      fun hbehind => (Registry.follows_execute hbehind name arguments c.redirects).widen
        (List.subset_append_right _ _)
    split
    · next hnone =>
      apply hredirects
      rw [List.isEmpty_iff.mp hnone]
      exact hstart
    · obtain ⟨m₂, hassign, hbehind⟩ := assign_lenient hstart true c.assignments
      have hassigns := (follows_assign hstart true c.assignments).widen hassignments
      refine (hassigns.bind fun done m₃ hdone => ?_).onCopy
      cases hassign.symm.trans hdone
      exact hredirects hbehind

theorem follows_runParsed (h : m.session.strict = false) (line : Line) :
    Follows (m.session.Misses line.occasions) (runParsed .standard line m)
      (runParsed .standard line (m.withStrict true)) := by
  cases line with
  | blank => exact (Action.steady_pure 0).follows m
  | assignments as =>
    have hstart : m.LenientBehind m.session [] := ⟨h, rfl⟩
    exact (follows_assign hstart false as).bind fun done m₁ _ =>
      (Action.steady_pure 0).follows m₁
  | command c => exact follows_runCommand h c

theorem reporting_withStrict {work : Action Int} {strict : Bool}
    (h : work (m.withStrict strict) = Action.endWith strict (work m)) :
    reporting work (m.withStrict strict) = Action.endWith strict (reporting work m) := by
  cases hrun : work m with
  | ok status m' =>
    rw [hrun] at h
    rw [reporting_of_ok h, reporting_of_ok hrun]
    rfl
  | error e m' =>
    rw [hrun] at h
    cases e with
    | failed error =>
      rw [reporting_of_error h, reporting_of_error hrun]
      split <;> rfl
    | exit status =>
      rw [reporting_of_interruption h (by simp), reporting_of_interruption hrun (by simp)]
      rfl
    | replaced =>
      rw [reporting_of_interruption h (by simp), reporting_of_interruption hrun (by simp)]
      rfl

end Execution

/-- A line that can not be read does the same in any mode. -/
theorem executeLine_withStrict_of_error (registry : Registry) {text : String}
    {failure : ParseFailure} (h : parse text = .error failure) (m : Machine) (strict : Bool) :
    executeLine registry text (m.withStrict strict) =
      Action.endWith strict (executeLine registry text m) := by
  rw [executeLine, h]
  cases failure <;> rfl

/-- Strict mode only adds failures.  If expanding a line fails in strict mode, the line ends with a
diagnostic of a variable that it refers to, and this variable is unset where it is expanded, with
the assignments made by then in place.  Otherwise the line ends in the same way as without strict
mode, and nothing but the mode of the session is different. -/
theorem strict_mode_only_adds_failures (text : String) (m : Machine) :
    let lenient := m.withStrict false
    let strict := m.withStrict true
    (∀ line, parse text = .ok line → ∀ name m',
      Execution.runParsed .standard line strict = .error (.failed (.unset name)) m' →
        executeLine .standard text strict =
            .ok Execution.errorStatus (m'.told (ShellError.unset name).message) ∧
          lenient.session.Misses line.occasions name) ∧
    ((∀ line, parse text = .ok line → ∀ name,
        ¬ Action.FailsUnset (Execution.runParsed .standard line strict) name) →
      executeLine .standard text strict =
        Action.endWith true (executeLine .standard text lenient)) := by
  intro lenient strict
  refine ⟨fun line hparse name m' hrun => ?_, fun hset => ?_⟩
  · have hfollows : Follows _ _ (Execution.runParsed .standard line strict) :=
      Execution.follows_runParsed (m := lenient) rfl line
    refine ⟨?_, hfollows.unset_of_failsUnset ⟨m', hrun⟩⟩
    rw [executeLine_of_parse .standard hparse, Execution.reporting_of_error hrun, Machine.told,
      ← errors_write_ofText]
    rfl
  · cases hparse : parse text with
    | error failure => exact executeLine_withStrict_of_error .standard hparse lenient true
    | ok line =>
      have hfollows : Follows _ _ (Execution.runParsed .standard line strict) :=
        Execution.follows_runParsed (m := lenient) rfl line
      rw [executeLine_of_parse .standard hparse]
      exact Execution.reporting_withStrict (m := lenient)
        (hfollows.eq_of_not_failsUnset (hset line hparse))

theorem strict_mode_only_adds_failures_equipped :
    (∃ m' : Machine, executeLine .standard "A=2 /p >\"/${X}\"" (equipped.withStrict true) =
      .ok 1 (m'.told "X: unset variable")) ∧
    executeLine .standard "A=2 X=\"${A}\" /p >\"/${X}\"" (equipped.withStrict true) =
      Action.endWith true
        (executeLine .standard "A=2 X=\"${A}\" /p >\"/${X}\"" (equipped.withStrict false)) := by
  have hunset : parse "A=2 /p >\"/${X}\"" = .ok (.command ⟨[⟨"A", [.fixed "2"]⟩],
      [[.fixed "/p"]], [⟨.truncate, none, some (.file [.fixed "/", .reference "X"])⟩]⟩) := by
    decide +kernel
  have hset : parse "A=2 X=\"${A}\" /p >\"/${X}\"" = .ok (.command
      ⟨[⟨"A", [.fixed "2"]⟩, ⟨"X", [.reference "A"]⟩],
      [[.fixed "/p"]], [⟨.truncate, none, some (.file [.fixed "/", .reference "X"])⟩]⟩) := by
    decide +kernel
  refine ⟨⟨_, ((strict_mode_only_adds_failures _ equipped).1 _ hunset "X" _ rfl).1⟩, ?_⟩
  refine (strict_mode_only_adds_failures _ equipped).2 fun line hline name => ?_
  obtain rfl := Except.ok.inj (hset.symm.trans hline)
  rintro ⟨m', hfails⟩
  cases hfails

end LineShell
