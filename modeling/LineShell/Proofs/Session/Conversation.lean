import LineShell.Interaction
import LineShell.Proofs.Line.Failure
import LineShell.Proofs.Session.History

/-!
# Conversations as folds

A conversation is a fold over its inputs.  What is carried from one input to the next is the machine
and the status.  A line is run on the machine that the inputs before it have left, and the first
line that leaves the shell ends the fold.  Around the fold there are the requests to the editor,
which do not touch the machine, except that a history that can not be written is told.
-/

namespace LineShell

/-! ## Single inputs -/

/-- Where a conversation stands between two inputs. -/
structure Standing where
  machine : Machine
  status : Int

/-- The machine after the shell has written to its output. -/
def Machine.printed (m : Machine) (text : String) : Machine :=
  { m with host := { m.host with output := m.host.output ++ text } }

namespace Standing

/-- Where the conversation stands behind an input, or how and with which machine it ends there. -/
def answer (st : Standing) : Input → Except (Ending × Machine) Standing
  | .interrupt => .ok ⟨st.machine.printed "\n", st.status⟩
  | .line text =>
      match executeLine .standard text st.machine with
      | .ok status m => .ok ⟨m, status⟩
      | .error (.failed error) m => .ok ⟨m.told ("error: " ++ error.message), 1⟩
      | .error (.exit status) m => .error (.status status, m)
      | .error .replaced m => .error (.replaced, m)

def answerAll (st : Standing) (inputs : List Input) : Except (Ending × Machine) Standing :=
  inputs.foldlM answer st

theorem answerAll_cons_of_ok {st st₁ : Standing} {input : Input} (h : st.answer input = .ok st₁)
    (inputs : List Input) : st.answerAll (input :: inputs) = st₁.answerAll inputs := by
  rw [answerAll, List.foldlM_cons, h]
  rfl

theorem answerAll_cons_of_error {st : Standing} {input : Input} {e : Ending × Machine}
    (h : st.answer input = .error e) (inputs : List Input) :
    st.answerAll (input :: inputs) = .error e := by
  rw [answerAll, List.foldlM_cons, h]
  rfl

theorem exists_of_answerAll_cons {st st' : Standing} {input : Input} {inputs : List Input}
    (h : st.answerAll (input :: inputs) = .ok st') :
    ∃ st₁, st.answer input = .ok st₁ ∧ st₁.answerAll inputs = .ok st' := by
  cases hstep : st.answer input with
  | error e =>
    rw [answerAll_cons_of_error hstep] at h
    cases h
  | ok st₁ =>
    rw [answerAll_cons_of_ok hstep] at h
    exact ⟨st₁, rfl, h⟩

theorem answer_of_exit {st : Standing} {text : String} {status : Int} {m : Machine}
    (h : executeLine .standard text st.machine = .error (.exit status) m) :
    st.answer (.line text) = .error (.status status, m) := by
  simp only [answer, h]

/-- Only a line ends a conversation, by leaving the shell or by giving its place away. -/
theorem exists_of_answer_error {st : Standing} {input : Input} {e : Ending × Machine}
    (h : st.answer input = .error e) :
    ∃ text m, input = .line text ∧
      ((∃ status, executeLine .standard text st.machine = .error (.exit status) m) ∨
        executeLine .standard text st.machine = .error .replaced m) := by
  cases input with
  | interrupt => cases h
  | line text =>
    rw [answer] at h
    split at h
    · cases h
    · cases h
    · next status m hrun => exact ⟨text, m, rfl, Or.inl ⟨status, hrun⟩⟩
    · next m hrun => exact ⟨text, m, rfl, Or.inr hrun⟩

/-- All inputs are answered, or there is a first line that ends the conversation. -/
theorem answerAll_cases (st : Standing) (inputs : List Input) :
    (∃ st', st.answerAll inputs = .ok st') ∨
      ∃ front text back st' m, inputs = front ++ .line text :: back ∧
        st.answerAll front = .ok st' ∧
        ((∃ status, executeLine .standard text st'.machine = .error (.exit status) m) ∨
          executeLine .standard text st'.machine = .error .replaced m) := by
  induction inputs generalizing st with
  | nil => exact Or.inl ⟨st, rfl⟩
  | cons input inputs ih =>
    cases hstep : st.answer input with
    | error e =>
      obtain ⟨text, m, rfl, hleaves⟩ := exists_of_answer_error hstep
      exact Or.inr ⟨[], text, inputs, st, m, rfl, rfl, hleaves⟩
    | ok st₁ =>
      rcases ih st₁ with ⟨st', h⟩ | ⟨front, text, back, st', m, rfl, hfront, hleaves⟩
      · exact Or.inl ⟨st', (answerAll_cons_of_ok hstep inputs).trans h⟩
      · exact Or.inr ⟨input :: front, text, back, st', m, rfl,
          (answerAll_cons_of_ok hstep front).trans hfront, hleaves⟩

end Standing

/-! ## The loop -/

namespace Conversation

def standing (c : Conversation) : Standing :=
  ⟨c.machine, c.status⟩

theorem print_output (c : Conversation) (text : String) :
    c.print .output text = { c with machine := c.machine.printed text } := by
  simp only [print, Machine.printed, Host.write, Content.toText_ofText]

theorem print_errors (c : Conversation) (text : String) :
    c.print .errors (diagnostic text) = { c with machine := c.machine.told text } := by
  simp only [print, Machine.told, errors_write_ofText]

theorem react_of_ok {c : Conversation} {input : Input} {st : Standing}
    (h : c.standing.answer input = .ok st) :
    c.react input = ({ c with machine := st.machine, status := st.status }, none) := by
  cases input with
  | interrupt =>
    cases h
    rw [react, print_output]
    rfl
  | line text =>
    simp only [Standing.answer, standing] at h
    rw [react, runLine]
    split at h
    · next hrun =>
      cases h
      rw [hrun]
    · next hrun =>
      cases h
      rw [hrun]
      simp only [print_errors]
      rfl
    · cases h
    · cases h

theorem react_of_error {c : Conversation} {input : Input} {ending : Ending} {m : Machine}
    (h : c.standing.answer input = .error (ending, m)) :
    c.react input = ({ c with machine := m }, some ending) := by
  cases input with
  | interrupt => cases h
  | line text =>
    simp only [Standing.answer, standing] at h
    rw [react, runLine]
    split at h
    · cases h
    · cases h
    · next hrun =>
      cases h
      rw [hrun]
    · next hrun =>
      cases h
      rw [hrun]

theorem converse_cons_of_ok {c : Conversation} {input : Input} {st : Standing}
    (h : c.standing.answer input = .ok st) (inputs : List Input) :
    c.converse (input :: inputs) =
      converse { c.ask with machine := st.machine, status := st.status } inputs := by
  have hreact : c.ask.react input =
      ({ c.ask with machine := st.machine, status := st.status }, none) := react_of_ok h
  rw [converse, hreact]

theorem converse_cons_of_error {c : Conversation} {input : Input} {ending : Ending} {m : Machine}
    (h : c.standing.answer input = .error (ending, m)) (inputs : List Input) :
    c.converse (input :: inputs) = ({ c.ask with machine := m }, ending) := by
  have hreact : c.ask.react input = ({ c.ask with machine := m }, some ending) :=
    react_of_error h
  rw [converse, hreact]

/-- Behind inputs that are all answered the conversation goes on where they have left it. -/
theorem converse_append {c : Conversation} {front : List Input} {st : Standing}
    (h : c.standing.answerAll front = .ok st) (back : List Input) :
    ∃ c' : Conversation, c.converse (front ++ back) = c'.converse back ∧ c'.standing = st ∧
      c'.requests = c.requests ∧ c'.prompts.length = c.prompts.length + front.length := by
  induction front generalizing c with
  | nil =>
    cases h
    exact ⟨c, rfl, rfl, rfl, rfl⟩
  | cons input front ih =>
    obtain ⟨st₁, hstep, hrest⟩ := Standing.exists_of_answerAll_cons h
    obtain ⟨c', hconverse, hstanding, hrequests, hprompts⟩ :=
      ih (c := { c.ask with machine := st₁.machine, status := st₁.status }) hrest
    refine ⟨c', (converse_cons_of_ok hstep _).trans hconverse, hstanding, hrequests, ?_⟩
    rw [hprompts, List.length_cons]
    simp only [ask, List.length_append, List.length_singleton]
    omega

/-- The first thing that is done in any case is to ask. -/
theorem converse_prompts (c : Conversation) (inputs : List Input) :
    ∃ later, (c.converse inputs).1.prompts = c.prompts ++ c.machine.session.prompt :: later := by
  induction inputs generalizing c with
  | nil => exact ⟨[], by rw [converse, print_output]; rfl⟩
  | cons input inputs ih =>
    cases hstep : c.standing.answer input with
    | error e =>
      rw [converse_cons_of_error hstep]
      exact ⟨[], rfl⟩
    | ok st =>
      obtain ⟨later, hlater⟩ := ih { c.ask with machine := st.machine, status := st.status }
      rw [converse_cons_of_ok hstep, hlater]
      exact ⟨_, List.append_assoc _ _ _⟩

end Conversation

/-! ## The history -/

/-- The history is written once, as the last request, if there is an editor and a path for it.
Otherwise it is not written. -/
def Editor.SavesOnce (editor : Editor) (history : Option String) (requests : List EditorRequest) :
    Prop :=
  ∃ before, (∀ path, .write path ∉ before) ∧
    requests = before ++
      match history with
      | some path => if editor.available ∧ path ≠ "" then [.write path] else []
      | none => []

/-- The machine after the history has been written, or has not. -/
def Editor.saved (editor : Editor) (history : Option String) (m : Machine) : Machine :=
  match Conversation.historyFile? editor history, editor.writeError with
  | some _, some text => m.told ("could not save history: " ++ text)
  | _, _ => m

namespace Conversation

theorem historyFile?_eq_some_iff {editor : Editor} {history : Option String} {path : String} :
    historyFile? editor history = some path ↔
      editor.available = true ∧ history = some path ∧ path ≠ "" := by
  simp [historyFile?, Option.filter_eq_some_iff]

theorem saveHistory_machine (editor : Editor) (history : Option String) (c : Conversation) :
    (c.saveHistory editor history).machine = editor.saved history c.machine := by
  unfold saveHistory Editor.saved
  cases historyFile? editor history with
  | none => rfl
  | some path =>
    cases editor.writeError with
    | none => rfl
    | some text =>
      dsimp only
      rw [print_errors]
      rfl

theorem saveHistory_prompts (editor : Editor) (history : Option String) (c : Conversation) :
    (c.saveHistory editor history).prompts = c.prompts := by
  unfold saveHistory
  split
  · rfl
  · dsimp only
    split <;> rfl

theorem saveHistory_savesOnce (editor : Editor) (history : Option String) {c : Conversation}
    (h : ∀ path, .write path ∉ c.requests) :
    editor.SavesOnce history (c.saveHistory editor history).requests := by
  refine ⟨c.requests, h, ?_⟩
  unfold saveHistory
  cases hfile : historyFile? editor history with
  | none =>
    cases history with
    | none => simp
    | some path =>
      have hnot : ¬ (editor.available ∧ path ≠ "") := by
        rintro ⟨havailable, hne⟩
        rw [historyFile?_eq_some_iff.mpr ⟨havailable, rfl, hne⟩] at hfile
        cases hfile
      simp only [if_neg hnot, List.append_nil]
  | some path =>
    obtain ⟨havailable, rfl, hne⟩ := historyFile?_eq_some_iff.mp hfile
    simp only [havailable, hne, ne_eq, not_false_eq_true, and_self, if_true]
    split <;> rfl

theorem requests_foldl_bind (settings : List String) (c : Conversation) :
    settings.foldl (fun c setting => c.request (.bind setting)) c =
      { c with requests := c.requests ++ settings.map .bind } := by
  induction settings generalizing c with
  | nil => simp
  | cons setting settings ih =>
    rw [List.foldl_cons, ih]
    simp [request]

/-- Before the first line only the editor has been prepared. -/
theorem setUp_begin (editor : Editor) {history : Option String}
    (h : ∀ path ∈ history, '\x00' ∉ path.toList) (m : Machine) :
    ∃ c, (begin m).setUp editor history = (c, none) ∧ c.standing = ⟨m, 0⟩ ∧ c.prompts = [] ∧
      ∀ path, .write path ∉ c.requests := by
  have hbound : ∃ requests, (∀ path, .write path ∉ requests) ∧
      (if editor.available then (begin m).bindSettings editor else begin m) =
        ⟨m, 0, [], requests⟩ := by
    split
    · exact ⟨_, by simp [begin], requests_foldl_bind _ _⟩
    · exact ⟨[], by simp, rfl⟩
  obtain ⟨requests, hrequests, hbound⟩ := hbound
  unfold setUp
  rw [hbound]
  dsimp only
  cases hfile : historyFile? editor history with
  | none => exact ⟨_, rfl, rfl, rfl, hrequests⟩
  | some path =>
    obtain ⟨-, hpath, -⟩ := historyFile?_eq_some_iff.mp hfile
    have hnull : ¬ path.toList.contains '\x00' = true := by simpa using h path hpath
    simp only [hnull]
    exact ⟨_, rfl, rfl, rfl, by simpa [request] using hrequests⟩

end Conversation

/-! ## Whole conversations -/

/-- The end of a conversation with a status: the machine is the one that the inputs have led to,
apart from what is told of the history, and there have been so many prompts. -/
structure Editor.Concludes (editor : Editor) (history : Option String)
    (result : Conversation × Ending) (status : Int) (m : Machine) (prompts : Nat) : Prop where
  ending : result.2 = .status status
  machine : result.1.machine = editor.saved history m
  prompts_length : result.1.prompts.length = prompts
  savesOnce : editor.SavesOnce history result.1.requests

section Interact

open Conversation

variable {editor : Editor} {history : Option String} {inputs : List Input} {m : Machine}
  {c : Conversation}

theorem interact_concludes (hsetup : (begin m).setUp editor history = (c, none))
    (hrequests : ∀ path, .write path ∉ c.requests) {c' : Conversation} {status : Int}
    (h : c.converse inputs = (c', .status status)) (hsame : c'.requests = c.requests) :
    editor.Concludes history (interact editor history inputs m) status c'.machine
      c'.prompts.length := by
  have hresult : interact editor history inputs m =
      (c'.saveHistory editor history, .status status) := by
    rw [interact, hsetup]
    dsimp only
    rw [h]
  rw [hresult]
  exact ⟨rfl, saveHistory_machine _ _ _, congrArg _ (saveHistory_prompts _ _ _),
    saveHistory_savesOnce _ _ (hsame ▸ hrequests)⟩

theorem interact_prompts (hsetup : (begin m).setUp editor history = (c, none)) :
    (interact editor history inputs m).1.prompts = (c.converse inputs).1.prompts := by
  rw [interact, hsetup]
  dsimp only
  split
  · next hconverse => rw [hconverse]
  · next hconverse => rw [hconverse, saveHistory_prompts]

variable {front back : List Input} {st : Standing}

/-- If all inputs are answered, the conversation ends where they are used up. -/
theorem interact_of_answerAll (hsetup : (begin m).setUp editor history = (c, none))
    (hprompts : c.prompts = []) (hrequests : ∀ path, .write path ∉ c.requests)
    (h : c.standing.answerAll inputs = .ok st) :
    editor.Concludes history (interact editor history inputs m) st.status
      (st.machine.printed "\n") (inputs.length + 1) := by
  obtain ⟨c', hconverse, rfl, hsame, hlength⟩ := converse_append h []
  rw [List.append_nil, converse, print_output] at hconverse
  have hend := interact_concludes hsetup hrequests hconverse hsame
  simpa [ask, standing, hlength, hprompts] using hend

/-- Behind inputs that are answered, a line that leaves the shell ends the conversation. -/
theorem interact_of_exit (hsetup : (begin m).setUp editor history = (c, none))
    (hprompts : c.prompts = []) (hrequests : ∀ path, .write path ∉ c.requests)
    (h : c.standing.answerAll front = .ok st) {text : String} {status : Int} {m' : Machine}
    (hrun : executeLine .standard text st.machine = .error (.exit status) m') :
    editor.Concludes history (interact editor history (front ++ .line text :: back) m) status m'
      (front.length + 1) := by
  obtain ⟨c', hconverse, rfl, hsame, hlength⟩ := converse_append h (.line text :: back)
  rw [converse_cons_of_error (Standing.answer_of_exit hrun)] at hconverse
  have hend := interact_concludes hsetup hrequests hconverse hsame
  simpa [ask, standing, hlength, hprompts] using hend

/-- Behind inputs that are answered, the next prompt is the one of the session they have left. -/
theorem interact_prompt (hsetup : (begin m).setUp editor history = (c, none))
    (hprompts : c.prompts = []) (h : c.standing.answerAll front = .ok st) :
    (interact editor history (front ++ back) m).1.prompts[front.length]? =
      some st.machine.session.prompt := by
  obtain ⟨c', hconverse, rfl, -, hlength⟩ := converse_append h back
  obtain ⟨later, hlater⟩ := c'.converse_prompts back
  have hindex : front.length = c'.prompts.length := by simp [hlength, hprompts]
  rw [interact_prompts hsetup, hconverse, hlater, hindex,
    List.getElem?_append_right (Nat.le_refl _), Nat.sub_self]
  rfl

end Interact

/-- A conversation is a fold over its inputs.  If no line leaves the shell, it ends with the status
that the fold ends with.  The first line that leaves the shell ends it with the status that it
gives, whatever inputs are left.  All prompts tell the directory that the inputs before them have
led to, the history is written once at the end, and if it can not be written then only the
diagnostic is different.  In the only other case a line has given the place of the shell to another
program. -/
theorem conversation_folds_lines (editor : Editor) {history : Option String}
    (hhistory : ∀ path ∈ history, '\x00' ∉ path.toList) (inputs : List Input) (m : Machine) :
    let result := interact editor history inputs m
    let start : Standing := ⟨m, 0⟩
    (∀ st, start.answerAll inputs = .ok st →
      editor.Concludes history result st.status (st.machine.printed "\n") (inputs.length + 1)) ∧
    (∀ front text back st status m', inputs = front ++ .line text :: back →
      start.answerAll front = .ok st →
      executeLine .standard text st.machine = .error (.exit status) m' →
        editor.Concludes history result status m' (front.length + 1)) ∧
    (∀ front back st, inputs = front ++ back → start.answerAll front = .ok st →
      result.1.prompts[front.length]? = some (st.machine.session.directory ++ "$ ")) ∧
    ((∃ st, start.answerAll inputs = .ok st) ∨
      ∃ front text back st m', inputs = front ++ .line text :: back ∧
        start.answerAll front = .ok st ∧
        ((∃ status, executeLine .standard text st.machine = .error (.exit status) m') ∨
          executeLine .standard text st.machine = .error .replaced m')) := by
  intro result start
  -- the preparation only adds requests, so the fold starts where the conversation does
  obtain ⟨c, hsetup, (hstart : c.standing = start), hprompts, hrequests⟩ :=
    Conversation.setUp_begin editor hhistory m
  rw [← hstart]
  refine ⟨fun st hall => ?_, fun front text back st status m' hinputs hfront hrun => ?_,
    fun front back st hinputs hfront => ?_, c.standing.answerAll_cases inputs⟩
  · exact interact_of_answerAll hsetup hprompts hrequests hall
  · subst hinputs
    exact interact_of_exit hsetup hprompts hrequests hfront hrun
  · subst hinputs
    exact interact_prompt hsetup hprompts hfront

theorem conversation_folds_lines_equipped :
    let editor : Editor := ⟨true, true, some "denied"⟩
    let behind : Machine :=
      ⟨equipped.session.set "A" "2",
        { equipped.host with
          output := "\n"
          errors := diagnostic "error: invalid literal for int() with base 10: '²'" }⟩
    (∀ path ∈ some "/h", '\x00' ∉ path.toList) ∧
      editor.Concludes (some "/h")
        (interact editor (some "/h")
          [.interrupt, .line "A=2", .line "p 2>&²", .line "exit 4", .line "A=3"] equipped)
        4 behind 4 := by
  intro editor behind
  have hhistory : ∀ path ∈ some "/h", '\x00' ∉ path.toList := by decide
  have hassign : parse "A=2" = .ok (.assignments [⟨"A", [.fixed "2"]⟩]) := by decide +kernel
  have hbad : parse "p 2>&²" = .error (.numeral (.malformed "²")) := by decide +kernel
  have hexit : parse "exit 4" = .ok (.command ⟨[], [[.fixed "exit"], [.fixed "4"]], []⟩) := by
    decide +kernel
  have hfirst : executeLine .standard "A=2" (equipped.printed "\n") =
      .ok 0 { equipped.printed "\n" with session := equipped.session.set "A" "2" } := by
    rw [executeLine_of_parse .standard hassign]
    rfl
  have hmessage : (ShellError.numeral (.malformed "²")).message =
      "invalid literal for int() with base 10: '²'" := by decide +kernel
  have hfold : Standing.answerAll ⟨equipped, 0⟩ [.interrupt, .line "A=2", .line "p 2>&²"] =
      .ok ⟨behind, 1⟩ := by
    simp only [Standing.answerAll, List.foldlM_cons, List.foldlM_nil, Standing.answer, bind,
      Except.bind, hfirst, executeLine_of_numeral .standard hbad, hmessage]
    rfl
  have hstatus : Builtin.exitStatus ["4"] = 4 := by decide +kernel
  have hlast : executeLine .standard "exit 4" behind =
      .error (.exit (Builtin.exitStatus ["4"])) behind := by
    rw [executeLine_of_parse .standard hexit]
    rfl
  rw [hstatus] at hlast
  exact ⟨hhistory, (conversation_folds_lines editor hhistory _ equipped).2.1 _ _ [.line "A=3"] _ _ _
    rfl hfold hlast⟩

end LineShell
