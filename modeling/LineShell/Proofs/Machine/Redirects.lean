import LineShell.Proofs.Machine.Descriptors
import LineShell.Proofs.Session.Line

/-!
# Redirects and their table

The streams that a command gets from its redirects are a table of descriptors: a stream without an
attachment is the one that the shell has itself.  Each redirect does to the streams what it does to
the table, so a list of them ends with streams if and only if the table comes to its end.
-/

namespace LineShell

/-! ## Streams as a table -/

namespace Redirection

def OutputStream.descriptor : OutputStream → Fin 3
  | .output => 1
  | .errors => 2

theorem table_input (streams : Streams) (n : Nat) :
    Streams.table { streams with input := some n } =
      Function.update streams.table 0 (.file n) := by
  funext d
  fin_cases d <;> rfl

theorem table_connect (streams : Streams) (stream : OutputStream) (channel : Channel) :
    (connect streams stream channel).table =
      Function.update streams.table stream.descriptor channel.endpoint := by
  funext d
  cases stream <;> fin_cases d <;> rfl

theorem table_descriptor (streams : Streams) (stream : OutputStream) :
    streams.table stream.descriptor = (current streams stream).endpoint := by
  cases stream <;> rfl

theorem isOutput_of_outputSource {source : Option Operand} {stream : OutputStream}
    (h : outputSource source = .ok stream) : IsOutput source stream.descriptor := by
  unfold outputSource at h
  split at h
  · cases h
    exact .default
  · cases h
    exact .output
  · cases h
    exact .errors
  · cases h

/-- Work that ends with streams for a table, or with an error that leaves the machine as it was. -/
def Realizes (work : Action Streams) (m : Machine) :
    Except ShellError (Host × DescriptorTable) → Prop
  | .ok (host, T) => ∃ streams, streams.table = T ∧ work m = .ok streams { m with host := host }
  | .error e => work m = .error (.failed e) m

theorem openFile_eq (w : Word) (mode : FileSystem.OpenMode) (m : Machine) :
    openFile w mode m =
      match Expansion.one m.session.strict m.session.get? w with
      | .error name => .error (.failed (.unset name)) m
      | .ok path =>
          match m.host.openFile (Path.join m.session.directory path) mode with
          | .error e => .error (.failed (.path e (Path.join m.session.directory path))) m
          | .ok (n, host) => .ok n { m with host := host } := by
  cases hpath : Expansion.one m.session.strict m.session.get? w with
  | error name =>
    have hfile : filePath w m = .error (.failed (.unset name)) m := by
      simp only [filePath, Action.session_bind, hpath]
      rfl
    exact Action.bind_of_error hfile _
  | ok path =>
    have hfile : filePath w m = .ok (Path.join m.session.directory path) m := by
      simp only [filePath, Action.session_bind, hpath]
      rfl
    simp only [openFile, Action.bind_of_ok hfile, Action.host_bind]
    cases m.host.openFile (Path.join m.session.directory path) mode <;> rfl

theorem realizes_open {attach : Nat → Streams} {T : DescriptorTable} {d : Fin 3}
    (hattach : ∀ n, (attach n).table = Function.update T d (.file n)) (w : Word)
    (mode : FileSystem.OpenMode) (m : Machine) :
    Realizes (openFile w mode >>= fun n => pure (attach n)) m
      ((Directive.open d w mode).perform m.session m.host T) := by
  have hrun := openFile_eq w mode m
  cases hpath : Expansion.one m.session.strict m.session.get? w with
  | error name =>
    simp only [hpath] at hrun
    simp only [Directive.perform, hpath]
    exact Action.bind_of_error hrun _
  | ok path =>
    simp only [hpath] at hrun
    simp only [Directive.perform, hpath]
    cases hopen : m.host.openFile (Path.join m.session.directory path) mode with
    | error e =>
      simp only [hopen] at hrun
      exact Action.bind_of_error hrun _
    | ok opened =>
      simp only [hopen] at hrun
      exact ⟨attach opened.1, hattach opened.1, Action.bind_of_ok hrun _⟩

theorem asks_write {kind : RedirectKind} {source : Option Operand} {d : Fin 3}
    (hkind : kind ≠ .input) (hsource : IsOutput source d) (w : Word) :
    Redirect.Asks ⟨kind, source, some (.file w)⟩
      (.open d w (if kind = .append then .append else .truncate)) := by
  cases kind with
  | input => exact absurd rfl hkind
  | truncate => exact .truncate hsource w
  | append => exact .append hsource w

theorem redirectInput_realizes (streams : Streams) (source target : Option Operand)
    (m : Machine) :
    ∃ result, Redirect.Outcome m.session ⟨.input, source, target⟩ m.host streams.table result ∧
      Realizes (redirectInput streams source target) m result := by
  match source with
  | some (.file w) =>
    by_cases htarget : target = none ∨ target = some (.descriptor 0)
    · refine ⟨_, .asked (.read w htarget) rfl, ?_⟩
      simp only [redirectInput, if_pos htarget]
      exact realizes_open (table_input streams) w .read m
    · refine ⟨_, .refused ?_ rfl, ?_⟩
      · rintro directive (⟨-, h⟩ | ⟨h, -⟩ | ⟨h, -⟩ | ⟨hkind, -, -⟩)
        · exact htarget h
        · exact hkind rfl
      · simp only [redirectInput, if_neg htarget]
        rfl
  | none =>
    refine ⟨_, .refused ?_ rfl, rfl⟩
    rintro directive (h | h | h | ⟨hkind, -, -⟩)
    exact hkind rfl
  | some (.descriptor n) =>
    refine ⟨_, .refused ?_ rfl, rfl⟩
    rintro directive (h | h | h | ⟨hkind, -, -⟩)
    exact hkind rfl

theorem complaint_of_isOutput {kind : RedirectKind} (hkind : kind ≠ .input)
    {source target : Option Operand} {d : Fin 3} (h : IsOutput source d) :
    Redirect.complaint ⟨kind, source, target⟩ =
      match target with
      | some (.descriptor n) => .unsupportedTarget n
      | _ => .missingTarget kind := by
  cases kind with
  | input => exact absurd rfl hkind
  | truncate => cases h <;> rfl
  | append => cases h <;> rfl

theorem complaint_of_outputSource {kind : RedirectKind} (hkind : kind ≠ .input)
    {source target : Option Operand} {e : RedirectError} (h : outputSource source = .error e) :
    Redirect.complaint ⟨kind, source, target⟩ = e := by
  have hsource : ¬ (source = none ∨ source = some (.descriptor 1) ∨
      source = some (.descriptor 2)) := by
    rintro (rfl | rfl | rfl) <;> cases h
  have he : e = .outputSource := by
    unfold outputSource at h
    split at h <;> cases h
    rfl
  cases kind with
  | input => exact absurd rfl hkind
  | truncate => simp only [Redirect.complaint, if_neg hsource, he]
  | append => simp only [Redirect.complaint, if_neg hsource, he]

theorem not_isOutput_of_error {operand : Option Operand} {e : RedirectError}
    (h : outputSource operand = .error e) (d : Fin 3) : ¬ IsOutput operand d := by
  rintro (hd | hd | hd) <;> cases h

theorem outputTarget_descriptor (streams : Streams) (kind : RedirectKind) (n : Nat) :
    outputTarget streams kind (some (.descriptor n)) =
      match outputSource (some (.descriptor n)) with
      | .ok stream => pure (current streams stream)
      | .error _ => Action.fail (.redirect (.unsupportedTarget n)) := by
  match n with
  | 0 => rfl
  | 1 => rfl
  | 2 => rfl
  | _ + 3 => rfl

theorem outputTarget_realizes (streams : Streams) {kind : RedirectKind} (hkind : kind ≠ .input)
    {source : Option Operand} {stream : OutputStream} (hsource : outputSource source = .ok stream)
    (target : Option Operand) (m : Machine) :
    ∃ result, Redirect.Outcome m.session ⟨kind, source, target⟩ m.host streams.table result ∧
      Realizes (outputTarget streams kind target >>= fun channel =>
        pure (connect streams stream channel)) m result := by
  have hout := isOutput_of_outputSource hsource
  match target with
  | none =>
    refine ⟨_, .refused ?_ rfl, ?_⟩
    · rintro directive (h | h | h | h)
      exact hkind rfl
    · rw [complaint_of_isOutput hkind hout]
      rfl
  | some (.file w) =>
    refine ⟨_, .asked (asks_write hkind hout w) rfl, ?_⟩
    simp only [outputTarget, bind_assoc, pure_bind]
    exact realizes_open (fun n => table_connect streams stream (.file n)) w _ m
  | some (.descriptor n) =>
    rw [outputTarget_descriptor]
    cases htarget : outputSource (some (.descriptor n)) with
    | ok stream' =>
      refine ⟨_, .asked (.duplicate hkind hout (isOutput_of_outputSource htarget)) rfl,
        connect streams stream (current streams stream'), ?_, rfl⟩
      rw [table_connect, table_descriptor]
    | error e =>
      refine ⟨_, .refused ?_ rfl, ?_⟩
      · rintro directive (h | h | h | ⟨-, -, h⟩)
        · exact hkind rfl
        · exact not_isOutput_of_error htarget _ h
      · rw [complaint_of_isOutput hkind hout]
        rfl

section Output

variable {kind : RedirectKind} {source : Option Operand}

theorem apply_of_outputSource (hkind : kind ≠ .input) {stream : OutputStream}
    (h : outputSource source = .ok stream) (streams : Streams) (target : Option Operand) :
    apply streams ⟨kind, source, target⟩ =
      outputTarget streams kind target >>= fun channel =>
        pure (connect streams stream channel) := by
  cases kind with
  | input => exact absurd rfl hkind
  | truncate => simp only [apply, h]
  | append => simp only [apply, h]

theorem apply_of_outputSource_error (hkind : kind ≠ .input) {e : RedirectError}
    (h : outputSource source = .error e) (streams : Streams) (target : Option Operand) :
    apply streams ⟨kind, source, target⟩ = Action.fail (.redirect e) := by
  cases kind with
  | input => exact absurd rfl hkind
  | truncate => simp only [apply, h]
  | append => simp only [apply, h]

theorem redirectOutput_realizes (hkind : kind ≠ .input) (streams : Streams)
    (source target : Option Operand) (m : Machine) :
    ∃ result, Redirect.Outcome m.session ⟨kind, source, target⟩ m.host streams.table result ∧
      Realizes (apply streams ⟨kind, source, target⟩) m result := by
  cases hsource : outputSource source with
  | ok stream =>
    rw [apply_of_outputSource hkind hsource]
    exact outputTarget_realizes streams hkind hsource target m
  | error e =>
    refine ⟨_, .refused ?_ rfl, ?_⟩
    · rintro directive (h | ⟨h, -⟩ | ⟨h, -⟩ | ⟨-, h, -⟩)
      · exact hkind rfl
      · exact not_isOutput_of_error hsource _ h
      · exact not_isOutput_of_error hsource _ h
      · exact not_isOutput_of_error hsource _ h
    · rw [apply_of_outputSource_error hkind hsource, complaint_of_outputSource hkind hsource]
      rfl

end Output

theorem apply_realizes (streams : Streams) (r : Redirect) (m : Machine) :
    ∃ result, r.Outcome m.session m.host streams.table result ∧
      Realizes (apply streams r) m result := by
  obtain ⟨kind, source, target⟩ := r
  cases kind with
  | input => exact redirectInput_realizes streams source target m
  | truncate => exact redirectOutput_realizes (by decide) streams source target m
  | append => exact redirectOutput_realizes (by decide) streams source target m

/-! ## Lists of redirects -/

theorem applyAll_append (streams : Streams) (rs rs' : List Redirect) :
    applyAll streams (rs ++ rs') =
      applyAll streams rs >>= fun streams' => applyAll streams' rs' := by
  induction rs generalizing streams with
  | nil => simp [applyAll]
  | cons r rs ih => simp only [List.cons_append, applyAll, bind_assoc, ih]

/-- The redirects are all carried out, and the streams stand for the table behind them; or one of
them fails, and only the ones before it have been carried out. -/
theorem applyAll_cases (streams : Streams) (rs : List Redirect) (m : Machine) :
    (∃ host streams', DescriptorTable.Run m.session rs m.host streams.table host streams'.table ∧
        applyAll streams rs m = .ok streams' { m with host := host }) ∨
      ∃ before r after host T error, rs = before ++ r :: after ∧
        DescriptorTable.Run m.session before m.host streams.table host T ∧
        r.Outcome m.session host T (.error error) ∧
        applyAll streams rs m = .error (.failed error) { m with host := host } := by
  induction rs generalizing streams m with
  | nil => exact Or.inl ⟨m.host, streams, .nil _ _, rfl⟩
  | cons r rs ih =>
    obtain ⟨result, houtcome, hrealizes⟩ := apply_realizes streams r m
    match result with
    | .error error =>
      exact Or.inr ⟨[], r, rs, m.host, streams.table, error, rfl, .nil _ _, houtcome,
        Action.bind_of_error hrealizes _⟩
    | .ok (host, T) =>
      obtain ⟨streams', rfl, happly⟩ := hrealizes
      rw [applyAll, Action.bind_of_ok happly]
      rcases ih streams' { m with host := host } with
        ⟨host', streams'', hrun, hrest⟩ |
        ⟨before, r', after, host', T, error, rfl, hrun, hfails, hrest⟩
      · exact Or.inl ⟨host', streams'', .cons houtcome hrun, hrest⟩
      · exact Or.inr ⟨r :: before, r', after, host', T, error, rfl, .cons houtcome hrun, hfails,
          hrest⟩

theorem applyAll_of_run {streams : Streams} {rs : List Redirect} {m : Machine} {host : Host}
    {T : DescriptorTable} (h : DescriptorTable.Run m.session rs m.host streams.table host T) :
    ∃ streams', applyAll streams rs m = .ok streams' { m with host := host } ∧
      streams'.table = T := by
  induction rs generalizing streams m with
  | nil =>
    cases h
    exact ⟨streams, rfl, rfl⟩
  | cons r rs ih =>
    cases h with
    | cons hstep hrun =>
      obtain ⟨result, houtcome, hrealizes⟩ := apply_realizes streams r m
      obtain rfl := houtcome.unique hstep
      obtain ⟨streams', rfl, happly⟩ := hrealizes
      rw [applyAll, Action.bind_of_ok happly]
      exact ih hrun

theorem applyAll_of_outcome {streams : Streams} {before : List Redirect} {r : Redirect}
    {m : Machine} {host : Host} {T : DescriptorTable} {error : ShellError}
    (hrun : DescriptorTable.Run m.session before m.host streams.table host T)
    (hfails : r.Outcome m.session host T (.error error)) (after : List Redirect) :
    applyAll streams (before ++ r :: after) m = .error (.failed error) { m with host := host } := by
  obtain ⟨streams', hbefore, rfl⟩ := applyAll_of_run hrun
  obtain ⟨result, houtcome, hrealizes⟩ := apply_realizes streams' r { m with host := host }
  obtain rfl := houtcome.unique hfails
  rw [applyAll_append, Action.bind_of_ok hbefore, applyAll]
  exact Action.bind_of_error hrealizes _

end Redirection

/-! ## Writing through a table -/

def Host.send (host : Host) (data : Content) : Endpoint → Host
  | .input => host
  | .output => host.write .output data
  | .errors => host.write .errors data
  | .file n => host.write (.file n) data

theorem Host.send_endpoint (host : Host) (data : Content) (channel : Channel) :
    host.send data channel.endpoint = host.write channel data := by
  cases channel <;> rfl

namespace DescriptorTable

def write (T : DescriptorTable) (d : Fin 3) (text : String) : Action Unit :=
  Action.modifyHost fun host => host.send (Content.ofText text) (T d)

/-- What a program does that has been given the descriptors of a table. -/
def perform (T : DescriptorTable) (program : Program) (arguments : List String) : Action Int := do
  if program.printsArguments then
    T.write 1 (String.intercalate " " arguments ++ "\n")
  if program.copiesInput then
    match T 0 with
    | .file n => Action.modifyHost fun host => host.send (host.remaining n) (T 1)
    | _ => pure ()
  T.write 1 program.output
  T.write 2 program.errors
  return program.status

end DescriptorTable

theorem Streams.write_output (streams : Streams) (text : String) :
    streams.table.write 1 text = Action.writeText (streams.output.getD .output) text := by
  unfold DescriptorTable.write Action.writeText
  congr 1
  funext host
  exact host.send_endpoint (Content.ofText text) (streams.output.getD .output)

theorem Streams.write_errors (streams : Streams) (text : String) :
    streams.table.write 2 text = Action.writeText (streams.errors.getD .errors) text := by
  unfold DescriptorTable.write Action.writeText
  congr 1
  funext host
  exact host.send_endpoint (Content.ofText text) (streams.errors.getD .errors)

theorem Executable.perform_eq (program : Program) (arguments : List String) (streams : Streams) :
    perform program arguments streams = streams.table.perform program arguments := by
  have hcopy : ∀ n, (Action.modifyHost fun host =>
      host.send (host.remaining n) (streams.table 1)) =
        Action.modifyHost fun host =>
          host.write (streams.output.getD .output) (host.remaining n) := by
    intro n
    congr 1
    funext host
    exact host.send_endpoint (host.remaining n) (streams.output.getD .output)
  unfold perform DescriptorTable.perform
  simp only [Streams.write_output, Streams.write_errors, hcopy]
  cases hinput : streams.input with
  | none => simp [Streams.table, hinput]
  | some n => simp [Streams.table, hinput]

theorem Registry.execute_of_ok (registry : Registry) (name : String) (arguments : List String)
    {rs : List Redirect} {streams : Streams} {m m' : Machine}
    (h : Redirection.applyAll .inherited rs m = .ok streams m') :
    registry.execute name arguments rs m =
      (registry.dispatch name arguments streams).closingFiles m' := by
  simp only [execute, Action.closingFiles, Action.andThen, Action.bind_of_ok h]

theorem Registry.execute_of_error (registry : Registry) (name : String) (arguments : List String)
    {rs : List Redirect} {e : Interruption} {m m' : Machine}
    (h : Redirection.applyAll .inherited rs m = .error e m') :
    registry.execute name arguments rs m =
      .error e { m' with host := { m'.host with handles := [] } } := by
  simp only [execute, Action.closingFiles, Action.andThen, Action.bind_of_error h]

/-! ## The table of a command -/

/-- Redirects are carried out like a table of descriptors.  They end with streams exactly if the
table comes to its end, and the streams stand for the table behind them all.  Otherwise they end
with the error of the first redirect that fails; the files of the ones before it have been opened,
nothing else has happened, and nothing is run.  What a builtin or a program writes goes where the
table says. -/
theorem redirects_follow_table (rs : List Redirect) (m : Machine) :
    (∀ host T, DescriptorTable.Run m.session rs m.host .initial host T ↔
      ∃ streams, Redirection.applyAll .inherited rs m = .ok streams { m with host := host } ∧
        streams.table = T) ∧
    (∀ host error,
      (∃ before r after T, rs = before ++ r :: after ∧
          DescriptorTable.Run m.session before m.host .initial host T ∧
          r.Outcome m.session host T (.error error)) ↔
        Redirection.applyAll .inherited rs m = .error (.failed error) { m with host := host }) ∧
    (∃ files handles,
      let m' := { m with host := { m.host with files := files, handles := handles } }
      (∃ streams, Redirection.applyAll .inherited rs m = .ok streams m' ∧
        ∀ (registry : Registry) name arguments, registry.execute name arguments rs m =
          (registry.dispatch name arguments streams).closingFiles m') ∨
      ∃ error, Redirection.applyAll .inherited rs m = .error (.failed error) m' ∧
        ∀ (registry : Registry) name arguments, registry.execute name arguments rs m =
          .error (.failed error) { m with host := { m.host with files := files, handles := [] } }) ∧
    ∀ streams : Streams,
      (∀ arguments text, Context.out ⟨arguments, streams⟩ text = streams.table.write 1 text ∧
        Context.err ⟨arguments, streams⟩ text = streams.table.write 2 text) ∧
      ∀ program arguments, Executable.perform program arguments streams =
        streams.table.perform program arguments := by
  have hcases := Redirection.applyAll_cases .inherited rs m
  rw [Streams.table_inherited] at hcases
  refine ⟨fun host T => ⟨@Redirection.applyAll_of_run .inherited rs m host T, ?_⟩,
    fun host error => ⟨?_, ?_⟩, ?_, ?_⟩
  · rintro ⟨streams, happly, rfl⟩
    rcases hcases with ⟨host', streams', hrun, hok⟩ | ⟨_, _, _, _, _, _, -, -, -, herror⟩
    · cases happly.symm.trans hok
      exact hrun
    · cases happly.symm.trans herror
  · rintro ⟨before, r, after, T, rfl, hrun, hfails⟩
    exact Redirection.applyAll_of_outcome hrun hfails after
  · intro happly
    rcases hcases with
      ⟨_, _, -, hok⟩ | ⟨before, r, after, host', T, error', hrs, hrun, hfails, herror⟩
    · cases happly.symm.trans hok
    · cases happly.symm.trans herror
      exact ⟨before, r, after, T, hrs, hrun, hfails⟩
  · rcases hcases with ⟨host, streams, hrun, hok⟩ | ⟨_, _, _, host, T, error, -, hrun, -, herror⟩
    · obtain ⟨files, handles, rfl⟩ := hrun.keeps
      exact ⟨files, handles, Or.inl ⟨streams, hok, fun registry name arguments =>
        registry.execute_of_ok name arguments hok⟩⟩
    · obtain ⟨files, handles, rfl⟩ := hrun.keeps
      exact ⟨files, handles, Or.inr ⟨error, herror, fun registry name arguments =>
        registry.execute_of_error name arguments herror⟩⟩
  · intro streams
    refine ⟨fun arguments text => ⟨(streams.write_output text).symm,
      (streams.write_errors text).symm⟩, fun program arguments => ?_⟩
    exact Executable.perform_eq program arguments streams

end LineShell
