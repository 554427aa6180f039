import LineShell.Execution
import LineShell.Proofs.FileSystem.Tree
import Mathlib

/-!
# Work on a machine

What work may do to a machine is a relation between the machine before it and the machine behind
it, however the work ends.  A relation that is a preorder holds of a piece of work if it holds of
its steps.

The host *evolves* under all work: its tree of directories stays as it is, and calls are added to
its record.  Most work also *serves*: it leaves the session alone.
-/

namespace LineShell

namespace Action

/-- The machine behind some work, however the work ends. -/
def after {α : Type} (action : Action α) (m : Machine) : Machine :=
  match action m with
  | .ok _ m' => m'
  | .error _ m' => m'

/-- Whatever the work does, it stays within the relation. -/
def Obeys {α : Type} (R : Machine → Machine → Prop) (action : Action α) : Prop :=
  ∀ m, R m (action.after m)

theorem after_of_ok {α : Type} {action : Action α} {m m' : Machine} {a : α}
    (h : action m = .ok a m') : action.after m = m' := by
  simp [after, h]

theorem after_of_error {α : Type} {action : Action α} {m m' : Machine} {e : Interruption}
    (h : action m = .error e m') : action.after m = m' := by
  simp [after, h]

theorem after_bind {α β : Type} (action : Action α) (f : α → Action β) (m : Machine) :
    (action >>= f).after m =
      match action m with
      | .ok a m' => (f a).after m'
      | .error _ m' => m' := by
  simp only [after, bind, EStateM.bind]
  cases action m <;> rfl

theorem after_andThen {α : Type} (f : Machine → Machine) (action : Action α) (m : Machine) :
    (action.andThen f).after m = f (action.after m) := by
  simp only [after, andThen]
  cases action m <;> rfl

theorem after_onCopy {α : Type} (action : Action α) (m : Machine) :
    action.onCopy.after m = { action.after m with session := m.session } :=
  after_andThen _ action m

theorem bind_of_ok {α β : Type} {action : Action α} {m m' : Machine} {a : α}
    (h : action m = .ok a m') (f : α → Action β) : (action >>= f) m = f a m' := by
  simp only [bind, EStateM.bind, h]

theorem bind_of_error {α β : Type} {action : Action α} {m m' : Machine} {e : Interruption}
    (h : action m = .error e m') (f : α → Action β) : (action >>= f) m = .error e m' := by
  simp only [bind, EStateM.bind, h]

theorem session_bind {α : Type} (f : Session → Action α) (m : Machine) :
    (session >>= f) m = f m.session m := rfl

theorem host_bind {α : Type} (f : Host → Action α) (m : Machine) :
    (host >>= f) m = f m.host m := rfl

theorem modifySession_bind {α : Type} (change : Session → Session) (f : Unit → Action α)
    (m : Machine) :
    (modifySession change >>= f) m = f () { m with session := change m.session } := rfl

theorem after_session_bind {α : Type} (f : Session → Action α) (m : Machine) :
    (session >>= f).after m = (f m.session).after m := rfl

theorem after_host_bind {α : Type} (f : Host → Action α) (m : Machine) :
    (host >>= f).after m = (f m.host).after m := rfl

theorem tryCatch_of_ok {α : Type} {action : Action α} {m m' : Machine} {a : α}
    (h : action m = .ok a m') (handle : Interruption → Action α) :
    tryCatch action handle m = .ok a m' := by
  simp only [tryCatch, tryCatchThe, MonadExceptOf.tryCatch, EStateM.tryCatch, h]

theorem tryCatch_of_error {α : Type} {action : Action α} {m m' : Machine} {e : Interruption}
    (h : action m = .error e m') (handle : Interruption → Action α) :
    tryCatch action handle m = handle e m' := by
  simp only [tryCatch, tryCatchThe, MonadExceptOf.tryCatch, EStateM.tryCatch, h]
  rfl

theorem after_tryCatch {α : Type} (action : Action α) (handle : Interruption → Action α)
    (m : Machine) :
    (tryCatch action handle).after m =
      match action m with
      | .ok _ m' => m'
      | .error e m' => (handle e).after m' := by
  simp only [after, tryCatch, tryCatchThe, MonadExceptOf.tryCatch, EStateM.tryCatch]
  cases action m <;> rfl

section Preorder

variable {α β : Type} {R : Machine → Machine → Prop} [IsPreorder Machine R]

theorem obeys_pure (a : α) : Obeys R (pure a : Action α) :=
  fun m => Std.Refl.refl m

theorem obeys_throw (e : Interruption) : Obeys R (throw e : Action α) :=
  fun m => Std.Refl.refl m

theorem obeys_fail (error : ShellError) : Obeys R (fail error : Action α) :=
  fun m => Std.Refl.refl m

theorem obeys_session : Obeys R session :=
  fun m => Std.Refl.refl m

theorem Obeys.bind {action : Action α} {f : α → Action β} (ha : Obeys R action)
    (hf : ∀ a, Obeys R (f a)) : Obeys R (action >>= f) := by
  intro m
  have hfirst := ha m
  rw [after_bind]
  cases hrun : action m with
  | ok a m' =>
    rw [after_of_ok hrun] at hfirst
    exact IsTrans.trans m m' _ hfirst (hf a m')
  | error e m' =>
    rw [after_of_error hrun] at hfirst
    exact hfirst

end Preorder

end Action

/-! ## The evolution of the host -/

def Call.invocation : Call → Invocation
  | .run invocation _ _ _ => invocation
  | .exec invocation => invocation

/-- The host goes on without losing a directory, a link or a call, and the new calls have a
property. -/
structure Machine.Evolves (P : Call → Prop) (m m' : Machine) : Prop where
  workingDirectory : m'.host.workingDirectory = m.host.workingDirectory
  tree : m.host.files.SameTree m'.host.files
  calls : ∃ new, m'.host.calls = m.host.calls ++ new ∧ ∀ call ∈ new, P call

/-- The session is left alone while the host evolves. -/
structure Machine.Serves (P : Call → Prop) (m m' : Machine) : Prop extends
    Machine.Evolves P m m' where
  session : m'.session = m.session

/-- The property of the calls of work that makes none. -/
def NoCall : Call → Prop :=
  fun _ => False

namespace Machine

variable {P Q : Call → Prop}

theorem Evolves.trans {m m' m'' : Machine} (h : Evolves P m m') (h' : Evolves P m' m'') :
    Evolves P m m'' := by
  obtain ⟨new, hnew, hP⟩ := h.calls
  obtain ⟨new', hnew', hP'⟩ := h'.calls
  refine ⟨h'.workingDirectory.trans h.workingDirectory, h.tree.trans h'.tree, new ++ new', ?_, ?_⟩
  · rw [hnew', hnew, List.append_assoc]
  · intro call hcall
    rcases List.mem_append.mp hcall with hold | hlater
    · exact hP call hold
    · exact hP' call hlater

instance : IsPreorder Machine (Evolves P) where
  refl m := ⟨rfl, .refl m.host.files, [], by simp, by simp⟩
  trans _ _ _ h h' := h.trans h'

instance : IsPreorder Machine (Serves P) where
  refl m := ⟨Std.Refl.refl m, rfl⟩
  trans _ _ _ h h' := ⟨h.toEvolves.trans h'.toEvolves, h'.session.trans h.session⟩

theorem Evolves.mono {m m' : Machine} (h : Evolves P m m') (hPQ : ∀ call, P call → Q call) :
    Evolves Q m m' := by
  obtain ⟨new, hnew, hP⟩ := h.calls
  exact ⟨h.workingDirectory, h.tree, new, hnew, fun call hcall => hPQ call (hP call hcall)⟩

theorem Evolves.of_noCall {m m' : Machine} (h : Evolves NoCall m m') : Evolves P m m' :=
  h.mono fun _ hcall => hcall.elim

/-- A change of the host in which no directory, link or call is touched. -/
theorem serves_of_host (m : Machine) {host : Host}
    (hcwd : host.workingDirectory = m.host.workingDirectory)
    (htree : m.host.files.SameTree host.files) (hcalls : host.calls = m.host.calls) :
    Serves P m { m with host := host } :=
  ⟨⟨hcwd, htree, [], by simp [hcalls], by simp⟩, rfl⟩

theorem evolves_of_session (m : Machine) (s : Session) : Evolves P m { m with session := s } :=
  ⟨rfl, .refl m.host.files, [], (List.append_nil m.host.calls).symm, by simp⟩

theorem serves_write (m : Machine) (channel : Channel) (data : Content) :
    Serves P m { m with host := m.host.write channel data } := by
  cases channel with
  | output => exact m.serves_of_host rfl (.refl _) rfl
  | errors => exact m.serves_of_host rfl (.refl _) rfl
  | file n =>
    rw [Host.write, Host.writeFile]
    split
    · exact Std.Refl.refl m
    · next handle hhandle =>
      simp only
      split
      · exact m.serves_of_host rfl (FileSystem.setContent_sameTree _ _ _) rfl
      · exact m.serves_of_host rfl (FileSystem.setContent_sameTree _ _ _) rfl

theorem serves_openFile (m : Machine) {path : String} {mode : FileSystem.OpenMode} {handle : Nat}
    {host : Host} (h : m.host.openFile path mode = .ok (handle, host)) :
    Serves P m { m with host := host } := by
  unfold Host.openFile at h
  cases mode with
  | read =>
    cases hopen : m.host.files.openForReading m.host.workingDirectory path with
    | error e => simp [hopen, Except.map] at h
    | ok loc =>
      simp only [hopen, Except.map, Except.ok.injEq, Prod.mk.injEq] at h
      rw [← h.2]
      exact m.serves_of_host rfl (.refl _) rfl
  | truncate =>
    cases hopen : m.host.files.openForWriting m.host.workingDirectory path true with
    | error e => simp [hopen] at h
    | ok opened =>
      simp only [hopen, Except.ok.injEq, Prod.mk.injEq] at h
      rw [← h.2]
      exact m.serves_of_host rfl (FileSystem.openForWriting_sameTree hopen) rfl
  | append =>
    cases hopen : m.host.files.openForWriting m.host.workingDirectory path false with
    | error e => simp [hopen] at h
    | ok opened =>
      simp only [hopen, Except.ok.injEq, Prod.mk.injEq] at h
      rw [← h.2]
      exact m.serves_of_host rfl (FileSystem.openForWriting_sameTree hopen) rfl

theorem serves_closed (m : Machine) : Serves P m { m with host := { m.host with handles := [] } } :=
  m.serves_of_host rfl (.refl _) rfl

end Machine

open Machine (Evolves Serves serves_write serves_openFile serves_closed)

namespace Action

variable {α : Type} {P : Call → Prop}

theorem obeys_writeText (channel : Channel) (text : String) :
    (writeText channel text).Obeys (Serves P) :=
  fun m => serves_write m channel (Content.ofText text)

theorem obeys_modifySession (f : Session → Session) : (modifySession f).Obeys (Evolves P) :=
  fun m => m.evolves_of_session (f m.session)

end Action

/-! ## Redirects -/

namespace Redirection

variable {P : Call → Prop}

theorem obeys_openFile (w : Word) (mode : FileSystem.OpenMode) :
    (openFile w mode).Obeys (Serves P) := by
  have hpath : (filePath w).Obeys (Serves P) := by
    unfold filePath
    refine Action.obeys_session.bind fun s => ?_
    split
    · exact Action.obeys_fail _
    · exact Action.obeys_pure _
  refine hpath.bind fun path m => ?_
  rw [Action.after_host_bind]
  cases hopen : m.host.openFile path mode with
  | error e => exact Action.obeys_fail (α := Nat) (.path e path) m
  | ok opened => exact serves_openFile m hopen

theorem obeys_apply (streams : Streams) (r : Redirect) : (apply streams r).Obeys (Serves P) := by
  unfold apply
  split
  · unfold redirectInput
    split
    · split
      · exact (obeys_openFile _ _).bind fun _ => Action.obeys_pure _
      · exact Action.obeys_fail _
    · exact Action.obeys_fail _
  · split
    · exact Action.obeys_fail _
    · refine Action.Obeys.bind ?_ fun _ => Action.obeys_pure _
      unfold outputTarget
      split
      · exact Action.obeys_fail _
      · exact (obeys_openFile _ _).bind fun _ => Action.obeys_pure _
      · exact Action.obeys_pure _
      · exact Action.obeys_pure _
      · exact Action.obeys_fail _

theorem obeys_applyAll (streams : Streams) (rs : List Redirect) :
    (applyAll streams rs).Obeys (Serves P) := by
  induction rs generalizing streams with
  | nil => exact Action.obeys_pure streams
  | cons r rs ih => exact (obeys_apply streams r).bind ih

end Redirection

end LineShell
