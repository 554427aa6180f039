import LineShell.Proofs.Machine.Work

/-!
# Two machines side by side

What a program is given does not depend on the order of the variables in its environment.  Hosts
look alike if they differ in nothing else.  Work on two machines is *parallel* if it ends the same
way on both of them: with the same value or the same interruption, with hosts that look alike, and
with sessions in some relation.
-/

namespace LineShell

/-! ## Hosts that look alike -/

structure Invocation.Alike (i i' : Invocation) : Prop where
  path : i.path = i'.path
  arguments : i.arguments = i'.arguments
  environment : ∀ name, i.environment.get? name = i'.environment.get? name
  directory : i.directory = i'.directory

/-- The same program is started the same way. -/
inductive Call.Alike : Call → Call → Prop
  | run {i i' : Invocation} (h : i.Alike i') (input output errors : Option Attachment) :
      Alike (.run i input output errors) (.run i' input output errors)
  | exec {i i' : Invocation} (h : i.Alike i') : Alike (.exec i) (.exec i')

def Host.withCalls (host : Host) (calls : List Call) : Host :=
  { host with calls := calls }

@[simp] theorem Host.withCalls_files (host : Host) (calls : List Call) :
    (host.withCalls calls).files = host.files := rfl

@[simp] theorem Host.withCalls_workingDirectory (host : Host) (calls : List Call) :
    (host.withCalls calls).workingDirectory = host.workingDirectory := rfl

/-- The files, the streams and all else are the same, and the calls are alike one by one. -/
def Host.Alike (host host' : Host) : Prop :=
  ∃ calls, List.Forall₂ Call.Alike host.calls calls ∧ host' = host.withCalls calls

theorem Call.Alike.refl (call : Call) : call.Alike call := by
  cases call with
  | run i input output errors => exact .run ⟨rfl, rfl, fun _ => rfl, rfl⟩ input output errors
  | exec i => exact .exec ⟨rfl, rfl, fun _ => rfl, rfl⟩

namespace Host

theorem Alike.refl (host : Host) : host.Alike host :=
  ⟨host.calls, List.forall₂_same.mpr fun call _ => .refl call, rfl⟩

/-- A change that neither reads nor writes the record of calls. -/
def Unrecorded (change : Host → Host) : Prop :=
  ∀ host calls, change (host.withCalls calls) = (change host).withCalls calls

theorem Unrecorded.calls {change : Host → Host} (h : Unrecorded change) (host : Host) :
    (change host).calls = host.calls := by
  have hsame := congrArg Host.calls (h host host.calls)
  exact hsame

theorem Alike.map {change : Host → Host} (hchange : Unrecorded change) {host host' : Host}
    (h : host.Alike host') : (change host).Alike (change host') := by
  obtain ⟨calls, hcalls, rfl⟩ := h
  refine ⟨calls, ?_, hchange host calls⟩
  rw [hchange.calls]
  exact hcalls

theorem unrecorded_write (channel : Channel) (data : Content) :
    Unrecorded fun host => host.write channel data := by
  intro host calls
  cases channel with
  | output => rfl
  | errors => rfl
  | file n =>
    simp only [write, writeFile, withCalls]
    cases host.handles[n]? with
    | none => rfl
    | some handle => cases hmode : handle.mode <;> simp only [hmode]

theorem unrecorded_copy (channel : Channel) (n : Nat) :
    Unrecorded fun host => host.write channel (host.remaining n) :=
  fun host calls => unrecorded_write channel (host.remaining n) host calls

theorem openFile_withCalls (host : Host) (calls : List Call) (path : String)
    (mode : FileSystem.OpenMode) :
    (host.withCalls calls).openFile path mode =
      (host.openFile path mode).map fun opened => (opened.1, opened.2.withCalls calls) := by
  cases mode with
  | read =>
    simp only [openFile, withCalls]
    cases host.files.openForReading host.workingDirectory path <;> rfl
  | truncate =>
    simp only [openFile, withCalls]
    cases host.files.openForWriting host.workingDirectory path true <;> rfl
  | append =>
    simp only [openFile, withCalls]
    cases host.files.openForWriting host.workingDirectory path false <;> rfl

theorem Alike.record {host host' : Host} (h : host.Alike host') {call call' : Call}
    (hcall : call.Alike call') :
    Host.Alike { host with calls := host.calls ++ [call] }
      { host' with calls := host'.calls ++ [call'] } := by
  obtain ⟨calls, hcalls, rfl⟩ := h
  exact ⟨calls ++ [call'], List.rel_append hcalls (.cons hcall .nil), rfl⟩

end Host

/-! ## Parallel work -/

namespace Action

variable {α β : Type}

/-- The same value or the same interruption, with related machines. -/
inductive SameEnd (R : Machine → Machine → Prop) :
    EStateM.Result Interruption Machine α → EStateM.Result Interruption Machine α → Prop
  | ok {m m' : Machine} (a : α) (h : R m m') : SameEnd R (.ok a m) (.ok a m')
  | error {m m' : Machine} (e : Interruption) (h : R m m') : SameEnd R (.error e m) (.error e m')

theorem SameEnd.mono {R R' : Machine → Machine → Prop}
    {r r' : EStateM.Result Interruption Machine α} (h : SameEnd R r r')
    (hR : ∀ m m', R m m' → R' m m') : SameEnd R' r r' := by
  cases h with
  | ok a h => exact .ok a (hR _ _ h)
  | error e h => exact .error e (hR _ _ h)

theorem SameEnd.bind {R R' : Machine → Machine → Prop} {action action' : Action α}
    {f f' : α → Action β} {m m' : Machine} (h : SameEnd R (action m) (action' m'))
    (hok : ∀ a m m', R m m' → SameEnd R' (f a m) (f' a m')) (herror : ∀ m m', R m m' → R' m m') :
    SameEnd R' ((action >>= f) m) ((action' >>= f') m') := by
  simp only [Bind.bind, EStateM.bind]
  generalize action m = r at h
  generalize action' m' = r' at h
  cases h with
  | ok a h => exact hok a _ _ h
  | error e h => exact .error e (herror _ _ h)

theorem SameEnd.tryCatch {R R' : Machine → Machine → Prop} {action action' : Action α}
    {handle handle' : Interruption → Action α} {m m' : Machine}
    (h : SameEnd R (action m) (action' m')) (hok : ∀ m m', R m m' → R' m m')
    (herror : ∀ e m m', R m m' → SameEnd R' (handle e m) (handle' e m')) :
    SameEnd R' (tryCatch action handle m) (tryCatch action' handle' m') := by
  simp only [MonadExcept.tryCatch, tryCatchThe, MonadExceptOf.tryCatch, EStateM.tryCatch]
  generalize action m = r at h
  generalize action' m' = r' at h
  cases h with
  | ok a h => exact .ok a (hok _ _ h)
  | error e h => exact herror e _ _ h

theorem SameEnd.andThen {R R' : Machine → Machine → Prop} {action action' : Action α}
    {change change' : Machine → Machine} {m m' : Machine}
    (h : SameEnd R (action m) (action' m')) (hR : ∀ m m', R m m' → R' (change m) (change' m')) :
    SameEnd R' (action.andThen change m) (action'.andThen change' m') := by
  simp only [Action.andThen]
  generalize action m = r at h
  generalize action' m' = r' at h
  cases h with
  | ok a h => exact .ok a (hR _ _ h)
  | error e h => exact .error e (hR _ _ h)

end Action

/-- Machines on hosts that look alike, with sessions in a relation. -/
structure Machine.Paired (S : Session → Session → Prop) (m m' : Machine) : Prop where
  session : S m.session m'.session
  host : m.host.Alike m'.host

namespace Action

variable {α β : Type} {S T : Session → Session → Prop} {s s' : Session}

/-- Work on two sessions that ends the same way on hosts that look alike. -/
def Parallel (s s' : Session) (S : Session → Session → Prop) (action action' : Action α) : Prop :=
  ∀ host host', host.Alike host' →
    SameEnd (Machine.Paired S) (action ⟨s, host⟩) (action' ⟨s', host'⟩)

theorem Parallel.mono {action action' : Action α} (h : Parallel s s' S action action')
    (hS : ∀ t t', S t t' → T t t') : Parallel s s' T action action' :=
  fun host host' hhost =>
    (h host host' hhost).mono fun _ _ hpaired => ⟨hS _ _ hpaired.session, hpaired.host⟩

theorem parallel_pure (h : S s s') (a : α) : Parallel s s' S (pure a) (pure a) :=
  fun _ _ hhost => .ok a ⟨h, hhost⟩

theorem parallel_throw (h : S s s') (e : Interruption) :
    Parallel s s' S (throw e : Action α) (throw e) :=
  fun _ _ hhost => .error e ⟨h, hhost⟩

theorem parallel_fail (h : S s s') (error : ShellError) :
    Parallel s s' S (fail error : Action α) (fail error) :=
  fun _ _ hhost => .error (.failed error) ⟨h, hhost⟩

theorem parallel_modifyHost (h : S s s') {change : Host → Host} (hchange : Host.Unrecorded change) :
    Parallel s s' S (modifyHost change) (modifyHost change) :=
  fun _ _ hhost => .ok () ⟨h, hhost.map hchange⟩

theorem parallel_writeText (h : S s s') (channel : Channel) (text : String) :
    Parallel s s' S (writeText channel text) (writeText channel text) :=
  parallel_modifyHost h (Host.unrecorded_write channel (Content.ofText text))

theorem parallel_record (h : S s s') {call call' : Call} (hcall : call.Alike call') :
    Parallel s s' S (record call) (record call') :=
  fun _ _ hhost => .ok () ⟨h, hhost.record hcall⟩

theorem Parallel.bind {action action' : Action α} {f f' : α → Action β}
    (h : Parallel s s' S action action') (hS : ∀ t t', S t t' → T t t')
    (hf : ∀ a t t', S t t' → Parallel t t' T (f a) (f' a)) :
    Parallel s s' T (action >>= f) (action' >>= f') :=
  fun host host' hhost =>
    (h host host' hhost).bind
      (fun a _ _ hpaired => hf a _ _ hpaired.session _ _ hpaired.host)
      fun _ _ hpaired => ⟨hS _ _ hpaired.session, hpaired.host⟩

theorem Parallel.tryCatch {action action' : Action α} {handle handle' : Interruption → Action α}
    (h : Parallel s s' S action action')
    (hhandle : ∀ e t t', S t t' → Parallel t t' S (handle e) (handle' e)) :
    Parallel s s' S (tryCatch action handle) (tryCatch action' handle') :=
  fun host host' hhost =>
    (h host host' hhost).tryCatch (fun _ _ hpaired => hpaired)
      fun e _ _ hpaired => hhandle e _ _ hpaired.session _ _ hpaired.host

end Action

/-- Exactly these sessions. -/
def Session.Only (s s' t t' : Session) : Prop :=
  t = s ∧ t' = s'

namespace Action

variable {α β : Type} {S : Session → Session → Prop} {s s' : Session}

theorem Parallel.of_only {t t' : Session} {action action' : Action α}
    (h : Parallel s s' (Session.Only t t') action action') (hS : S t t') :
    Parallel s s' S action action' := by
  apply h.mono
  rintro u u' ⟨rfl, rfl⟩
  exact hS

/-- Work behind work that ends with sessions that are known. -/
theorem Parallel.bind_only {t t' : Session} {action action' : Action α} {f f' : α → Action β}
    (h : Parallel s s' (Session.Only t t') action action') (hS : S t t')
    (hf : ∀ a, Parallel t t' S (f a) (f' a)) :
    Parallel s s' S (action >>= f) (action' >>= f') := by
  refine h.bind ?_ ?_
  · rintro u u' ⟨rfl, rfl⟩
    exact hS
  · rintro a u u' ⟨rfl, rfl⟩
    exact hf a

theorem parallel_session_bind {f f' : Session → Action α} (h : Parallel s s' S (f s) (f' s')) :
    Parallel s s' S (session >>= f) (session >>= f') :=
  h

theorem parallel_host_bind {f f' : Host → Action α}
    (h : ∀ host calls, Parallel s s' S (f host) (f' (host.withCalls calls))) :
    Parallel s s' S (host >>= f) (host >>= f') := by
  rintro host host' hhost
  have hsame := hhost
  obtain ⟨calls, -, rfl⟩ := hsame
  exact h host calls host _ hhost

theorem parallel_modifySession_bind {change change' : Session → Session} {f f' : Unit → Action α}
    (h : Parallel (change s) (change' s') S (f ()) (f' ())) :
    Parallel s s' S (modifySession change >>= f) (modifySession change' >>= f') :=
  h

theorem Parallel.closingFiles {action action' : Action α} (h : Parallel s s' S action action') :
    Parallel s s' S action.closingFiles action'.closingFiles := by
  have hclose : Host.Unrecorded fun host => { host with handles := [] } := fun _ _ => rfl
  exact fun host host' hhost => (h host host' hhost).andThen fun _ _ hpaired =>
    ⟨hpaired.session, hpaired.host.map hclose⟩

/-- Work on copies leaves both sessions alone. -/
theorem Parallel.onCopy {action action' : Action α} (h : Parallel s s' S action action') :
    Parallel s s' (Session.Only s s') action.onCopy action'.onCopy :=
  fun host host' hhost => (h host host' hhost).andThen fun _ _ hpaired =>
    ⟨⟨rfl, rfl⟩, hpaired.host⟩

end Action

end LineShell
