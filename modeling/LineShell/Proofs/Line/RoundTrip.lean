import LineShell.Proofs.Line.Joined
import LineShell.Proofs.Redirect.Written

/-!
# Writing lines

A line is written by joining the texts of its parts with blanks, and it is read as the line
again.  The only values without a text are those that no reading gives: a redirect without an
operand behind its operator would take a bare path that follows it.
-/

namespace LineShell

open LineShell.Parser
open Production (Steps Mismatches)

/-! ## Lines that can be read -/

def Assignment.WellFormed (a : Assignment) : Prop :=
  IsName a.name.toList ∧ a.value.WellFormed

structure Command.WellFormed (c : Command) : Prop where
  assignments : ∀ a ∈ c.assignments, a.WellFormed
  arguments_ne_nil : c.arguments ≠ []
  arguments : ∀ w ∈ c.arguments, w.WellFormed
  redirects : ∀ d ∈ c.redirects, d.WellFormed

def Line.WellFormed : Line → Prop
  | .blank => True
  | .assignments as => as ≠ [] ∧ ∀ a ∈ as, a.WellFormed
  | .command c => c.WellFormed

/-- No descriptor is too long, and no path could be taken for the operand that the redirect before
it does not have. -/
def RedirectsPrintable (ds : List Redirect) : Prop :=
  (∀ d ∈ ds, d.Operands Operand.Bounded) ∧
    ds.IsChain fun d d' => d.right = none → ∀ path, d'.left ≠ some (.file path)

def Line.Printable : Line → Prop
  | .blank | .assignments _ => True
  | .command c => RedirectsPrintable c.redirects

theorem Source.assignment_wellFormed (t : Source assignment) : t.value.WellFormed := by
  rcases assignment_eq_ok_iff.mp t.reads with ⟨s, hname, -, hword | ⟨hnil, -, -⟩⟩
  · exact ⟨hname, word_wellFormed hword⟩
  · refine ⟨hname, ?_⟩
    rw [hnil]
    exact Word.wellFormed_nil

theorem Placed.forall_mem_values {α : Type} {p : Production α} {P : α → Prop}
    (h : ∀ t : Source p, P t.value) (ts : List (Placed p)) : ∀ v ∈ Placed.values ts, P v := by
  intro v hv
  rcases List.mem_map.mp hv with ⟨t, -, rfl⟩
  exact h t.toSource

theorem Source.head_of_left (t : Source redirect) {path : Word}
    (h : t.value.left = some (.file path)) :
    ∃ c u, t.text = c :: u ∧ isFragmentStart c = true := by
  rcases redirect_eq_ok_iff.mp t.reads with ⟨w, u, hw, -, htext, -, -⟩
  rw [h] at hw
  cases hw with
  | file hne hp hdigit =>
    rcases List.exists_cons_of_ne_nil hne with ⟨c, x, rfl⟩
    rcases t.head t.redirect_reads.1.ne_nil htext with ⟨y, hy⟩
    exact ⟨c, y, hy, by simp [isFragmentStart, hp c List.mem_cons_self]⟩

theorem Layout.Unambiguous.isChain_values {L : Layout} (h : L.Unambiguous) :
    (Placed.values L.redirects).IsChain fun d d' =>
      d.right = none → ∀ path, d'.left ≠ some (.file path) := by
  rw [Placed.values, List.isChain_map]
  apply List.IsChain.imp _ h
  intro t t' hstops hright path hleft
  rcases t'.head_of_left hleft with ⟨c, u, hu, hc⟩
  have hstop := hstops hright
  rw [hu, stops_cons, hc] at hstop
  exact absurd hstop (by decide)

theorem Layout.Fits.wellFormed_line {L : Layout} {r : List Char} (h : L.Fits r) :
    L.line.WellFormed ∧ L.line.Printable := by
  have hassignments := Placed.forall_mem_values Source.assignment_wellFormed L.assignments
  have hwords := Placed.forall_mem_values (fun t => word_wellFormed t.reads) L.words
  have hredirects : ∀ d ∈ Placed.values L.redirects,
      d.WellFormed ∧ d.Operands Operand.Bounded :=
    Placed.forall_mem_values (fun t => redirect_wellFormed t.reads) L.redirects
  unfold Layout.line
  split
  · split
    · exact ⟨trivial, trivial⟩
    · next hne =>
      refine ⟨⟨?_, hassignments⟩, trivial⟩
      simpa [Placed.values] using hne
  · next hne =>
    refine ⟨⟨hassignments, ?_, hwords, fun d hd => (hredirects d hd).1⟩, ?_,
      h.unambiguous.isChain_values⟩
    · simpa [Layout.command, Placed.values] using hne
    · intro d hd
      exact (hredirects d hd).2

/-! ## Written lines -/

def Assignment.written (a : Assignment) : List Char :=
  a.name.toList ++ '=' :: a.value.written

/-- The script of a descriptor before an operator, behind this redirect.  If an operand could follow
it, the digits must not be path characters. -/
def Redirect.scriptBehind (d : Redirect) : Script :=
  if d.right = none then .arabicIndic else .ascii

def redirectTexts : Script → List Redirect → List (List Char)
  | _, [] => []
  | script, d :: ds => d.written script :: redirectTexts d.scriptBehind ds

def Line.texts : Line → List (List Char)
  | .blank => []
  | .assignments as => as.map Assignment.written
  | .command c =>
      c.assignments.map Assignment.written ++
        (c.arguments.map Word.written ++ redirectTexts .ascii c.redirects)

def Line.written (v : Line) : String :=
  String.ofList ([' '].intercalate v.texts)

theorem Assignment.WellFormed.assignment_written {a : Assignment} (h : a.WellFormed) :
    assignment (a.written ++ ['\n']) = .ok (a, ['\n']) := by
  have hword := h.2.word_written (r := ['\n']) (stops_cons.mpr (by decide))
  apply assignment_eq_ok_iff.mpr
  exact ⟨a.value.written ++ ['\n'], h.1, by simp [Assignment.written], Or.inl hword⟩

theorem exists_sources {α : Type} {p : Production α} {write : α → List Char} {xs : List α}
    (h : ∀ x ∈ xs, p (write x ++ ['\n']) = .ok (x, ['\n'])) :
    ∃ ts : List (Source p), ts.map Source.text = xs.map write ∧ ts.map Source.value = xs := by
  induction xs with
  | nil => exact ⟨[], rfl, rfl⟩
  | cons x xs ih =>
    have hx := h x List.mem_cons_self
    rcases ih fun y hy => h y (List.mem_cons_of_mem x hy) with ⟨ts, htexts, hvalues⟩
    exact ⟨⟨write x, x, hx⟩ :: ts, by simp [htexts], by simp [hvalues]⟩

theorem Piece.WellFormed.stops_written {p : Piece} (h : p.WellFormed) (s : List Char) :
    Stops isPathChar (p.written ++ s) := by
  cases p with
  | fixed text => exact stops_cons.mpr (by decide)
  | reference name => exact stops_cons.mpr (by decide)
  | glob pattern =>
    rcases isGlobPattern_head h with ⟨c, t, ht, hc⟩
    rw [Piece.written, ht]
    exact stops_cons.mpr (isPathChar_of_isGlobStart hc)

theorem Word.WellFormed.stops_written {w : Word} (h : w.WellFormed) :
    Stops isPathChar w.written := by
  cases w with
  | nil => exact stops_cons.mpr (by decide)
  | cons p w =>
    have hp := (Word.wellFormed_cons.mp h).1.stops_written (w.flatMap Piece.written)
    simpa [Word.written] using hp

/-- Without a path before its operator, a redirect in this script can not be taken for a word. -/
theorem stops_redirect_written {d : Redirect} (h : ∀ path, d.left ≠ some (.file path)) :
    Stops isFragmentStart (d.written .arabicIndic) := by
  have hdigit : ∀ e < 10, isFragmentStart (Script.arabicIndic.digit e) = false := by decide
  unfold Redirect.written
  cases hleft : d.left with
  | none =>
    apply stops_of_startsOperator (by decide) (by decide)
    exact startsOperator_symbol d.kind _
  | some operand =>
    cases operand with
    | file path => exact absurd hleft (h path)
    | descriptor n =>
      rcases List.exists_cons_of_ne_nil (decimalDigits_ne_nil n) with ⟨e, es, he⟩
      have hlt : e < 10 := lt_of_mem_decimalDigits (he ▸ List.mem_cons_self)
      rw [leftWritten, Script.numeral, he]
      exact stops_cons.mpr (hdigit e hlt)

theorem exists_redirect_sources {ds : List Redirect} (hds : ∀ d ∈ ds, d.WellFormed)
    (hprintable : RedirectsPrintable ds) (script : Script) :
    ∃ ts : List (Source redirect), ts.map Source.text = redirectTexts script ds ∧
      ts.map Source.value = ds ∧
      ts.IsChain fun t t' => t.value.right = none → Stops isFragmentStart t'.text := by
  induction ds generalizing script with
  | nil => exact ⟨[], rfl, rfl, List.isChain_nil⟩
  | cons d ds ih =>
    rcases hprintable with ⟨hbounded, hchain⟩
    have hd := (hds d List.mem_cons_self).redirect_written (hbounded d List.mem_cons_self) script
    have htail : RedirectsPrintable ds :=
      ⟨fun e he => hbounded e (List.mem_cons_of_mem d he), hchain.tail⟩
    rcases ih (fun e he => hds e (List.mem_cons_of_mem d he)) htail d.scriptBehind with
      ⟨ts, htexts, hvalues, hts⟩
    refine ⟨⟨d.written script, d, hd⟩ :: ts, by simp [redirectTexts, htexts], by simp [hvalues], ?_⟩
    cases ts with
    | nil => exact List.isChain_singleton _
    | cons t ts =>
      rw [List.isChain_cons_cons]
      refine ⟨?_, hts⟩
      intro hright
      cases ds with
      | nil => simp at hvalues
      | cons d' ds =>
        have htext : t.text = d'.written d.scriptBehind := by
          simpa [redirectTexts] using congrArg List.head? htexts
        have hscript : d.scriptBehind = .arabicIndic := if_pos hright
        rw [htext, hscript]
        exact stops_redirect_written ((List.isChain_cons_cons.mp hchain).1 hright)

theorem parse_written {v : Line} (h : v.WellFormed) (hprintable : v.Printable) :
    parse v.written = .ok v := by
  cases v with
  | blank =>
    have hjoined := @parse_joined [] [] [] (by simp) (by simp) List.isChain_nil
    exact hjoined
  | assignments as =>
    rcases h with ⟨hne, has⟩
    rcases exists_sources fun a ha => (has a ha).assignment_written with ⟨ts, htexts, hvalues⟩
    have hjoined := @parse_joined ts [] [] (by simp) (by simp) List.isChain_nil
    rw [htexts, hvalues] at hjoined
    simpa [Line.written, Line.texts, lineOf, hne] using hjoined
  | command c =>
    rcases c with ⟨as, args, ds⟩
    rcases h with ⟨has, hne, hargs, hds⟩
    simp only at has hne hargs hds
    rcases exists_sources fun a ha => (has a ha).assignment_written with ⟨ts, htexts, hvalues⟩
    rcases exists_sources fun w hw => (hargs w hw).word_written (r := ['\n'])
      (stops_cons.mpr (by decide)) with ⟨ws, hwords, hwvalues⟩
    rcases exists_redirect_sources hds hprintable .ascii with ⟨rs, hrtexts, hrvalues, hchain⟩
    have hws : ws ≠ [] := by
      rintro rfl
      exact hne hwvalues.symm
    have hname : ∀ t ∈ ws.head?, ¬ BeginsAssignment t.text := by
      intro t ht
      have hmem : t.text ∈ args.map Word.written := by
        rw [← hwords]
        exact List.mem_map_of_mem (List.mem_of_head? ht)
      rcases List.mem_map.mp hmem with ⟨w, hw, htext⟩
      rw [← htext]
      exact not_beginsAssignment_of_stops (hargs w hw).stops_written
    have hjoined := @parse_joined ts ws rs (fun _ => hws) hname hchain
    rw [htexts, hvalues, hwords, hwvalues, hrtexts, hrvalues] at hjoined
    simpa [Line.written, Line.texts, lineOf, hne] using hjoined

example : (Line.command ⟨[], [[.glob "*", .glob "*"]], [⟨.truncate, none, none⟩,
    ⟨.input, some (.file [.fixed "in"]), some (.descriptor 0)⟩]⟩).written = "*''*'' > ٠<'in'" := by
  cbv

/-- Reading and writing are inverse to each other: what is read is well-formed and can be written,
and what is well-formed and can be written is read from its text. -/
theorem parse_inverse_written :
    (∀ (text : String) (v : Line), parse text = .ok v → v.WellFormed ∧ v.Printable) ∧
      ∀ v : Line, v.WellFormed → v.Printable → parse v.written = .ok v := by
  constructor
  · intro text v h
    rcases parse_eq_ok_iff.mp h with ⟨L, trailing, -, hfits, -, rfl⟩
    exact hfits.wellFormed_line
  · intro v h hprintable
    exact parse_written h hprintable

end LineShell
