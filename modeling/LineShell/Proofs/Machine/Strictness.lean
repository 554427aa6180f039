import LineShell.Proofs.Machine.Work

/-!
# The strict mode

Two machines that differ in the strict mode of their sessions go side by side.  Work is *steady*
if it does not look at the mode and never fails on an unset variable.  It then commutes with
setting the mode.  Work that does look at the mode *follows* in strict mode what it does without:
either it does the same, or it fails on an unset variable.
-/

namespace LineShell

def Session.withStrict (s : Session) (strict : Bool) : Session :=
  { s with strict := strict }

def Machine.withStrict (m : Machine) (strict : Bool) : Machine :=
  { m with session := m.session.withStrict strict }

@[simp] theorem Session.get?_withStrict (s : Session) (strict : Bool) :
    (s.withStrict strict).get? = s.get? := rfl

@[simp] theorem Session.strict_withStrict (s : Session) (strict : Bool) :
    (s.withStrict strict).strict = strict := rfl

@[simp] theorem Machine.session_withStrict (m : Machine) (strict : Bool) :
    (m.withStrict strict).session = m.session.withStrict strict := rfl

@[simp] theorem Machine.host_withStrict (m : Machine) (strict : Bool) :
    (m.withStrict strict).host = m.host := rfl

namespace Action

variable {α β : Type}

/-- The same end of some work, with the mode of the session set. -/
def endWith (strict : Bool) :
    EStateM.Result Interruption Machine α → EStateM.Result Interruption Machine α
  | .ok a m => .ok a (m.withStrict strict)
  | .error e m => .error e (m.withStrict strict)

/-- The work fails on an unset variable. -/
def FailsUnset (r : EStateM.Result Interruption Machine α) (name : String) : Prop :=
  ∃ m, r = .error (.failed (.unset name)) m

theorem not_failsUnset_ok (a : α) (m : Machine) (name : String) :
    ¬ FailsUnset (.ok a m : EStateM.Result Interruption Machine α) name := by
  rintro ⟨m', h⟩
  cases h

theorem failsUnset_error {e : Interruption} {m : Machine} {name : String} :
    FailsUnset (.error e m : EStateM.Result Interruption Machine α) name ↔
      e = .failed (.unset name) := by
  constructor
  · rintro ⟨m', h⟩
    cases h
    rfl
  · rintro rfl
    exact ⟨m, rfl⟩

/-! ## Work that does not look at the mode -/

structure Steady (action : Action α) : Prop where
  commutes : ∀ m strict, action (m.withStrict strict) = endWith strict (action m)
  not_unset : ∀ m name, ¬ FailsUnset (action m) name

theorem steady_pure (a : α) : Steady (pure a : Action α) where
  commutes _ _ := rfl
  not_unset := not_failsUnset_ok a

theorem steady_throw {e : Interruption} (he : ∀ name, e ≠ .failed (.unset name)) :
    Steady (throw e : Action α) where
  commutes _ _ := rfl
  not_unset _ name h := he name (failsUnset_error.mp h)

theorem steady_fail {error : ShellError} (h : ∀ name, error ≠ .unset name) :
    Steady (fail error : Action α) :=
  steady_throw fun name heq => h name (Interruption.failed.inj heq)

theorem steady_modifyHost (change : Host → Host) : Steady (modifyHost change) where
  commutes _ _ := rfl
  not_unset _ := not_failsUnset_ok () _

theorem steady_writeText (channel : Channel) (text : String) : Steady (writeText channel text) :=
  steady_modifyHost _

theorem steady_record (call : Call) : Steady (record call) :=
  steady_modifyHost _

theorem steady_modifySession {change : Session → Session}
    (h : ∀ s strict, change (s.withStrict strict) = (change s).withStrict strict) :
    Steady (modifySession change) where
  commutes m strict := by
    have hsession := h m.session strict
    simp only [modifySession, modify, modifyGet, MonadStateOf.modifyGet, EStateM.modifyGet,
      Machine.session_withStrict, hsession]
    rfl
  not_unset _ := not_failsUnset_ok () _

theorem Steady.bind {action : Action α} {f : α → Action β} (h : Steady action)
    (hf : ∀ a, Steady (f a)) : Steady (action >>= f) where
  commutes m strict := by
    have hfirst := h.commutes m strict
    cases hrun : action m with
    | ok a m₁ =>
      rw [hrun] at hfirst
      rw [bind_of_ok hfirst, bind_of_ok hrun]
      exact (hf a).commutes m₁ strict
    | error e m₁ =>
      rw [hrun] at hfirst
      rw [bind_of_error hfirst, bind_of_error hrun]
      rfl
  not_unset m name := by
    cases hrun : action m with
    | ok a m₁ =>
      rw [bind_of_ok hrun]
      exact (hf a).not_unset m₁ name
    | error e m₁ =>
      have hset := h.not_unset m name
      rw [hrun, failsUnset_error] at hset
      rw [bind_of_error hrun, failsUnset_error]
      exact hset

/-- Work that uses of the session only what does not depend on the mode. -/
theorem steady_session_bind {f : Session → Action α}
    (hsame : ∀ s strict, f (s.withStrict strict) = f s) (hf : ∀ s, Steady (f s)) :
    Steady (session >>= f) where
  commutes m strict := by
    rw [session_bind, session_bind, Machine.session_withStrict, hsame]
    exact (hf m.session).commutes m strict
  not_unset m name := (hf m.session).not_unset m name

theorem steady_host_bind {f : Host → Action α} (hf : ∀ host, Steady (f host)) :
    Steady (host >>= f) where
  commutes m strict := (hf m.host).commutes m strict
  not_unset m name := (hf m.host).not_unset m name

/-! ## Work that fails more often in strict mode -/

/-- In strict mode the work has the same end, which is no failure on an unset variable, or else it
fails on one of the variables in `Q`. -/
inductive Follows (Q : String → Prop) (r : EStateM.Result Interruption Machine α) :
    EStateM.Result Interruption Machine α → Prop
  | same (h : ∀ name, ¬ FailsUnset r name) : Follows Q r (endWith true r)
  | unset {name : String} (m : Machine) (h : Q name) :
      Follows Q r (.error (.failed (.unset name)) m)

variable {Q Q' : String → Prop}

theorem Follows.mono {r r' : EStateM.Result Interruption Machine α} (h : Follows Q r r')
    (hQ : ∀ name, Q name → Q' name) : Follows Q' r r' := by
  cases h with
  | same hset => exact .same hset
  | unset m hname => exact .unset m (hQ _ hname)

theorem Follows.unset_of_failsUnset {r r' : EStateM.Result Interruption Machine α}
    (h : Follows Q r r') {name : String} (hfails : FailsUnset r' name) : Q name := by
  cases h with
  | same hset =>
    cases r with
    | ok a m => exact absurd hfails (not_failsUnset_ok a _ name)
    | error e m => exact absurd (failsUnset_error.mpr (failsUnset_error.mp hfails)) (hset name)
  | unset m hname =>
    cases failsUnset_error.mp hfails
    exact hname

theorem Follows.eq_of_not_failsUnset {r r' : EStateM.Result Interruption Machine α}
    (h : Follows Q r r') (hset : ∀ name, ¬ FailsUnset r' name) : r' = endWith true r := by
  cases h with
  | same => rfl
  | unset m => exact absurd ⟨m, rfl⟩ (hset _)

theorem Steady.follows {action : Action α} (h : Steady action) (m : Machine) :
    Follows Q (action m) (action (m.withStrict true)) := by
  rw [h.commutes]
  exact .same (h.not_unset m)

theorem Follows.bind {action : Action α} {f : α → Action β} {m : Machine}
    (h : Follows Q (action m) (action (m.withStrict true)))
    (hf : ∀ a m₁, action m = .ok a m₁ → Follows Q (f a m₁) (f a (m₁.withStrict true))) :
    Follows Q ((action >>= f) m) ((action >>= f) (m.withStrict true)) := by
  generalize hstrict : action (m.withStrict true) = r at h
  cases h with
  | same hset =>
    cases hrun : action m with
    | ok a m₁ =>
      rw [hrun] at hstrict
      rw [bind_of_ok hstrict, bind_of_ok hrun]
      exact hf a m₁ hrun
    | error e m₁ =>
      rw [hrun] at hstrict hset
      rw [bind_of_error hstrict, bind_of_error hrun]
      exact .same fun name hfails => hset name (failsUnset_error.mpr (failsUnset_error.mp hfails))
  | unset m₁ hname =>
    rw [bind_of_error hstrict]
    exact .unset m₁ hname

/-- A change of the machine behind some work that leaves the mode alone. -/
theorem Follows.andThen {action : Action α} {f f' : Machine → Machine} {m : Machine}
    (h : Follows Q (action m) (action (m.withStrict true)))
    (hf : ∀ m₁, f' (m₁.withStrict true) = (f m₁).withStrict true) :
    Follows Q (action.andThen f m) (action.andThen f' (m.withStrict true)) := by
  unfold Action.andThen
  generalize action (m.withStrict true) = r at h
  cases h with
  | same hset =>
    cases hrun : action m with
    | ok a m₁ =>
      have hend : Follows Q (.ok a (f m₁) : EStateM.Result Interruption Machine α)
          (endWith true (.ok a (f m₁))) := .same (not_failsUnset_ok a _)
      simpa only [endWith, hf] using hend
    | error e m₁ =>
      rw [hrun] at hset
      have hend : Follows Q (.error e (f m₁) : EStateM.Result Interruption Machine α)
          (endWith true (.error e (f m₁))) :=
        .same fun name hfails => hset name (failsUnset_error.mpr (failsUnset_error.mp hfails))
      simpa only [endWith, hf] using hend
  | unset m₁ hname => exact .unset _ hname

theorem Follows.closingFiles {action : Action α} {m : Machine}
    (h : Follows Q (action m) (action (m.withStrict true))) :
    Follows Q (action.closingFiles m) (action.closingFiles (m.withStrict true)) :=
  h.andThen fun _ => rfl

theorem Follows.onCopy {action : Action α} {m : Machine}
    (h : Follows Q (action m) (action (m.withStrict true))) :
    Follows Q (action.onCopy m) (action.onCopy (m.withStrict true)) :=
  h.andThen fun _ => rfl

end Action

end LineShell
