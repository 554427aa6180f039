import LineShell.Redirection
import Mathlib

/-!
# The table of descriptors

A command has three descriptors, and a table says where each of them leads.  At first they lead to
the streams of the shell.  A redirect opens a file for one of them, or makes one lead to where
another one leads at that moment; every other form of a redirect is refused.
-/

namespace LineShell

/-! ## Tables -/

/-- Where a descriptor leads: to a stream of the shell, or to an open file. -/
inductive Endpoint where
  | input
  | output
  | errors
  | file (handle : Nat)
  deriving DecidableEq

/-- Where the descriptors 0, 1 and 2 lead. -/
abbrev DescriptorTable := Fin 3 → Endpoint

def DescriptorTable.initial : DescriptorTable :=
  ![.input, .output, .errors]

def Channel.endpoint : Channel → Endpoint
  | .output => .output
  | .errors => .errors
  | .file n => .file n

/-- The table that streams stand for. -/
def Streams.table (streams : Streams) : DescriptorTable :=
  ![streams.input.elim .input .file, (streams.output.getD .output).endpoint,
    (streams.errors.getD .errors).endpoint]

theorem Streams.table_inherited : Streams.inherited.table = .initial := rfl

/-! ## What redirects ask for -/

inductive Directive where
  /-- Lets a descriptor lead to a file. -/
  | «open» (descriptor : Fin 3) (path : Word) (mode : FileSystem.OpenMode)
  /-- Lets a descriptor lead to where another one leads. -/
  | duplicate (descriptor source : Fin 3)

/-- The output descriptor that an operand stands for.  It is 1 where none is written. -/
inductive IsOutput : Option Operand → Fin 3 → Prop
  | default : IsOutput none 1
  | output : IsOutput (some (.descriptor 1)) 1
  | errors : IsOutput (some (.descriptor 2)) 2

/-- The redirects that can be carried out.  Only a file can be an input, and only on
descriptor 0. -/
inductive Redirect.Asks : Redirect → Directive → Prop
  | read {target : Option Operand} (w : Word)
      (htarget : target = none ∨ target = some (.descriptor 0)) :
      Asks ⟨.input, some (.file w), target⟩ (.open 0 w .read)
  | truncate {source : Option Operand} {d : Fin 3} (hsource : IsOutput source d) (w : Word) :
      Asks ⟨.truncate, source, some (.file w)⟩ (.open d w .truncate)
  | append {source : Option Operand} {d : Fin 3} (hsource : IsOutput source d) (w : Word) :
      Asks ⟨.append, source, some (.file w)⟩ (.open d w .append)
  | duplicate {kind : RedirectKind} {source : Option Operand} {n : Nat} {d d' : Fin 3}
      (hkind : kind ≠ .input) (hsource : IsOutput source d)
      (htarget : IsOutput (some (.descriptor n)) d') :
      Asks ⟨kind, source, some (.descriptor n)⟩ (.duplicate d d')

/-- What is wrong with a redirect that can not be carried out. -/
def Redirect.complaint (r : Redirect) : RedirectError :=
  match r.kind, r.source, r.target with
  | .input, some (.file _), _ => .inputTarget
  | .input, _, _ => .inputNeedsFile
  | kind, source, target =>
      if source = none ∨ source = some (.descriptor 1) ∨ source = some (.descriptor 2) then
        match target with
        | some (.descriptor n) => .unsupportedTarget n
        | _ => .missingTarget kind
      else .outputSource

theorem IsOutput.unique {operand : Option Operand} {d d' : Fin 3} (h : IsOutput operand d)
    (h' : IsOutput operand d') : d = d' := by
  cases h <;> cases h' <;> rfl

theorem Redirect.Asks.unique {r : Redirect} {directive directive' : Directive}
    (h : r.Asks directive) (h' : r.Asks directive') : directive = directive' := by
  cases h with
  | read w htarget =>
    cases h' with
    | read => rfl
    | duplicate hkind => exact absurd rfl hkind
  | truncate hsource w =>
    cases h' with
    | truncate hsource' => rw [hsource.unique hsource']
  | append hsource w =>
    cases h' with
    | append hsource' => rw [hsource.unique hsource']
  | duplicate hkind hsource htarget =>
    cases h' with
    | read => exact absurd rfl hkind
    | duplicate hkind' hsource' htarget' =>
      rw [hsource.unique hsource', htarget.unique htarget']

/-! ## Runs of a table -/

/-- Carries out what a redirect asks for, or tells why it can not. -/
def Directive.perform (s : Session) (host : Host) (T : DescriptorTable) :
    Directive → Except ShellError (Host × DescriptorTable)
  | .open d w mode =>
      match Expansion.one s.strict s.get? w with
      | .error name => .error (.unset name)
      | .ok path =>
          match host.openFile (Path.join s.directory path) mode with
          | .error e => .error (.path e (Path.join s.directory path))
          | .ok (n, host') => .ok (host', Function.update T d (.file n))
  | .duplicate d source => .ok (host, Function.update T d (T source))

/-- What comes of a redirect: a new table, or an error. -/
inductive Redirect.Outcome (s : Session) (r : Redirect) (host : Host) (T : DescriptorTable)
    (result : Except ShellError (Host × DescriptorTable)) : Prop
  | asked {directive : Directive} (hasks : r.Asks directive)
      (hresult : directive.perform s host T = result)
  | refused (hasks : ∀ directive, ¬ r.Asks directive)
      (hresult : .error (.redirect r.complaint) = result)

/-- Redirects that are all carried out, from left to right. -/
inductive DescriptorTable.Run (s : Session) :
    List Redirect → Host → DescriptorTable → Host → DescriptorTable → Prop
  | nil (host : Host) (T : DescriptorTable) : Run s [] host T host T
  | cons {r : Redirect} {rs : List Redirect} {host host' host'' : Host}
      {T T' T'' : DescriptorTable} (hstep : r.Outcome s host T (.ok (host', T')))
      (hrun : Run s rs host' T' host'' T'') : Run s (r :: rs) host T host'' T''

theorem Redirect.Outcome.unique {s : Session} {r : Redirect} {host : Host} {T : DescriptorTable}
    {result result' : Except ShellError (Host × DescriptorTable)}
    (h : r.Outcome s host T result) (h' : r.Outcome s host T result') : result = result' := by
  cases h with
  | asked hasks hresult =>
    cases h' with
    | asked hasks' hresult' =>
      cases hasks.unique hasks'
      exact hresult.symm.trans hresult'
    | refused hrefused => exact absurd hasks (hrefused _)
  | refused hrefused hresult =>
    cases h' with
    | asked hasks' => exact absurd hasks' (hrefused _)
    | refused hrefused' hresult' => exact hresult.symm.trans hresult'

theorem Host.openFile_keeps {host host' : Host} {path : String} {mode : FileSystem.OpenMode}
    {n : Nat} (h : host.openFile path mode = .ok (n, host')) :
    ∃ files handles, host' = { host with files := files, handles := handles } := by
  unfold openFile at h
  dsimp only at h
  split at h
  · cases h
  · cases h
    exact ⟨_, _, rfl⟩

/-- Redirects touch files, and nothing else of the host. -/
theorem DescriptorTable.Run.keeps {s : Session} {rs : List Redirect} {host host' : Host}
    {T T' : DescriptorTable} (h : Run s rs host T host' T') :
    ∃ files handles, host' = { host with files := files, handles := handles } := by
  induction h with
  | nil host T => exact ⟨host.files, host.handles, rfl⟩
  | @cons r rs host host' host'' T T' T'' hstep _ ih =>
    have hfirst : ∃ files handles, host' = { host with files := files, handles := handles } := by
      cases hstep with
      | @asked directive hasks hresult =>
        cases directive with
        | «open» d w mode =>
          simp only [Directive.perform] at hresult
          split at hresult
          · cases hresult
          · split at hresult
            · cases hresult
            · next hopen =>
              cases hresult
              exact Host.openFile_keeps hopen
        | duplicate d source =>
          cases hresult
          exact ⟨host.files, host.handles, rfl⟩
      | refused hasks hresult => cases hresult
    obtain ⟨files, handles, rfl⟩ := hfirst
    obtain ⟨files', handles', rfl⟩ := ih
    exact ⟨files', handles', rfl⟩

end LineShell
