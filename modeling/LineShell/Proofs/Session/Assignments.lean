import LineShell.Proofs.Line.Failure
import LineShell.Proofs.Session.Prefix

/-!
# Lines of assignments

A line of several assignments makes them one after the other, each with the ones before it in place,
and it ends at the first whose value can not be expanded.  It is the same to run the assignments as
lines of their own until one of these fails.
-/

namespace LineShell

open LineShell.Parser

/-! ## Assignments one after the other -/

/-- Assignments with these values, each expanded with the ones before it in place, lead from one
session to another. -/
inductive Session.Assigns : Session → List Assignment → List String → Session → Prop where
  | nil (s : Session) : Assigns s [] [] s
  | cons {s s' : Session} {a : Assignment} {as : List Assignment} {value : String}
      {values : List String} (head : Expansion.one s.strict s.get? a.value = .ok value)
      (tail : Assigns (s.set a.name value) as values s') :
      Assigns s (a :: as) (value :: values) s'

namespace Session.Assigns

variable {s s' : Session} {as : List Assignment} {values : List String}

/-- Only variables change. -/
theorem eq_vars (h : s.Assigns as values s') : s' = { s with vars := s'.vars } := by
  induction h with
  | nil => rfl
  | cons _ _ ih => exact ih

/-- A variable has the value that was assigned to it last. -/
theorem get?_eq (h : s.Assigns as values s') (name : String) :
    s'.get? name =
      (((as.map Assignment.name).zip values).reverse.lookup name).or (s.get? name) := by
  induction h with
  | nil => rfl
  | cons _ _ ih =>
    rw [ih, List.map_cons, List.zip_cons_cons, List.reverse_cons, List.lookup_append,
      Option.or_assoc, get?_set]
    congr 1
    split <;> simp_all

end Session.Assigns

namespace Execution

variable {registry : Registry} {a : Assignment} {as : List Assignment} {m : Machine}

theorem runAssignments_cons_of_ok (registry : Registry) (as : List Assignment) {value : String}
    (h : Expansion.one m.session.strict m.session.get? a.value = .ok value) :
    runParsed registry (.assignments (a :: as)) m =
      runParsed registry (.assignments as)
        { m with session := m.session.set a.name value } := by
  have hassign := assign_cons_of_ok false as h
  simp only [runParsed, bind, EStateM.bind, hassign]
  rfl

theorem reporting_of_unset {work : Action Int} {m' : Machine} {name : String}
    (h : work m = .error (.failed (.unset name)) m') :
    reporting work m = .ok errorStatus (m'.told (ShellError.unset name).message) := by
  rw [reporting_of_error h, Machine.told, ← errors_write_ofText]
  rfl

theorem reporting_assignments_of_error {name : String}
    (h : Expansion.one m.session.strict m.session.get? a.value = .error name) :
    reporting (runParsed registry (.assignments (a :: as))) m =
      .ok errorStatus (m.told (ShellError.unset name).message) :=
  reporting_of_unset (Action.bind_of_error (assign_cons_of_error false as h) _)

/-- Assignments are made up to the first whose value can not be expanded. -/
theorem reporting_assignments_cases (registry : Registry) (as : List Assignment) (m : Machine) :
    ∃ front back values s, as = front ++ back ∧ m.session.Assigns front values s ∧
      (back = [] ∧
          reporting (runParsed registry (.assignments as)) m = .ok 0 { m with session := s } ∨
        ∃ a rest name, back = a :: rest ∧
          Expansion.one s.strict s.get? a.value = .error name ∧
          reporting (runParsed registry (.assignments as)) m =
            .ok errorStatus
              (Machine.told { m with session := s } (ShellError.unset name).message)) := by
  induction as generalizing m with
  | nil => exact ⟨[], [], [], m.session, rfl, .nil _, Or.inl ⟨rfl, rfl⟩⟩
  | cons a as ih =>
    cases hvalue : Expansion.one m.session.strict m.session.get? a.value with
    | error name =>
      exact ⟨[], a :: as, [], m.session, rfl, .nil _,
        Or.inr ⟨a, as, name, rfl, hvalue, reporting_assignments_of_error hvalue⟩⟩
    | ok value =>
      have hrun := reporting_congr (runAssignments_cons_of_ok registry as hvalue)
      obtain ⟨front, back, values, s, rfl, hfront, hend⟩ :=
        ih { m with session := m.session.set a.name value }
      exact ⟨a :: front, back, value :: values, s, rfl, .cons hvalue hfront, by rwa [hrun]⟩

end Execution

/-! ## Lines one after the other -/

/-- Runs lines up to the first that does not end with status zero. -/
def runUntilFailure (registry : Registry) : List String → Action Int
  | [] => return 0
  | text :: texts => do
      let status ← executeLine registry text
      if status = 0 then runUntilFailure registry texts else return status

theorem runUntilFailure_of_zero {registry : Registry} {text : String} {m m' : Machine}
    (h : executeLine registry text m = .ok 0 m') (texts : List String) :
    runUntilFailure registry (text :: texts) m = runUntilFailure registry texts m' := by
  rw [runUntilFailure, Action.bind_of_ok h, if_pos rfl]

theorem runUntilFailure_of_ne_zero {registry : Registry} {text : String} {m m' : Machine}
    {status : Int} (h : executeLine registry text m = .ok status m') (hne : status ≠ 0)
    (texts : List String) :
    runUntilFailure registry (text :: texts) m = .ok status m' := by
  rw [runUntilFailure, Action.bind_of_ok h, if_neg hne]
  rfl

namespace Source

variable {registry : Registry} {t : Source assignment} {m : Machine}

theorem executeLine_of_ok {value : String}
    (h : Expansion.one m.session.strict m.session.get? t.value.value = .ok value) :
    executeLine registry (String.ofList t.text) m =
      .ok 0 { m with session := m.session.set t.value.name value } := by
  rw [executeLine_of_parse registry t.parse_assignment,
    reporting_congr (Execution.runAssignments_cons_of_ok registry [] h)]
  rfl

theorem executeLine_of_error {name : String}
    (h : Expansion.one m.session.strict m.session.get? t.value.value = .error name) :
    executeLine registry (String.ofList t.text) m =
      .ok Execution.errorStatus (m.told (ShellError.unset name).message) := by
  rw [executeLine_of_parse registry t.parse_assignment,
    Execution.reporting_assignments_of_error h]

end Source

theorem runUntilFailure_assignments (registry : Registry) (ts : List (Source assignment))
    (m : Machine) :
    runUntilFailure registry (ts.map fun t => String.ofList t.text) m =
      Execution.reporting
        (Execution.runParsed registry (.assignments (ts.map Source.value))) m := by
  induction ts generalizing m with
  | nil => rfl
  | cons t ts ih =>
    rw [List.map_cons, List.map_cons]
    cases hvalue : Expansion.one m.session.strict m.session.get? t.value.value with
    | error name =>
      rw [Execution.reporting_assignments_of_error hvalue]
      exact runUntilFailure_of_ne_zero (Source.executeLine_of_error hvalue) (by decide) _
    | ok value =>
      rw [runUntilFailure_of_zero (Source.executeLine_of_ok hvalue), ih]
      exact (reporting_congr (Execution.runAssignments_cons_of_ok registry _ hvalue)).symm

/-! ## Assignments on one line -/

/-- It makes no difference if a line feed stands behind the text or nothing. -/
theorem assignment_whole_iff {text : List Char} {a : Assignment} :
    assignment text = .ok (a, []) ↔ ∃ t : Source assignment, t.text = text ∧ t.value = a := by
  constructor
  · intro h
    obtain ⟨w, hw, -, hread⟩ := assignment_extent h
    rw [List.append_nil] at hw
    exact ⟨⟨w, a, hread _ endsWord_newline⟩, hw.symm, rfl⟩
  · rintro ⟨t, rfl, rfl⟩
    have hends : EndsWord [] := ⟨stops_nil _, by simp⟩
    have hread := t.assignment_reads.2 [] hends
    rwa [List.append_nil] at hread

def Layout.ofAssignments (ts : List (Placed assignment)) : Layout where
  assignments := ts
  words := []
  redirects := []
  words_ne_nil h := absurd rfl h
  not_assignment := by simp

theorem parse_assignments {ts : List (Placed assignment)} (hts : ∀ t ∈ ts.tail, t.gap ≠ [])
    {trailing : List Char} (htrailing : ∀ c ∈ trailing, isBlank c = true) :
    parse (String.ofList (Placed.join ts ++ trailing)) =
      .ok (Layout.ofAssignments ts).line := by
  have hspaced : (Layout.ofAssignments ts).Spaced := by
    intro gap hgap
    simp only [Layout.gaps, Layout.ofAssignments, List.map_nil, List.append_nil, ← List.map_tail]
      at hgap
    obtain ⟨t, ht, rfl⟩ := List.mem_map.mp hgap
    exact hts t ht
  have htext : (Layout.ofAssignments ts).text = Placed.join ts := by
    simp [Layout.ofAssignments, Layout.text]
  have hterminated := (Layout.ofAssignments ts).terminated_text htrailing
  refine parse_of_terminated htrailing (hspaced.fits List.isChain_nil htrailing) ?_
  rw [String.toList_ofList, ← htext]
  exact hterminated

/-- A line without assignments is blank, and it does the same as no assignments. -/
theorem runParsed_ofAssignments (registry : Registry) (ts : List (Placed assignment)) :
    Execution.runParsed registry (Layout.ofAssignments ts).line =
      Execution.runParsed registry (.assignments (Placed.values ts)) := by
  cases ts with
  | nil => rfl
  | cons t ts => rfl

/-- A line of assignments does the same as its assignments on lines of their own, up to the first
that fails.  Each value is expanded with exactly the assignments before it in place.  In strict mode
the line may end at a value that refers to an unset variable; then the assignments before it have
been made, and neither it nor one behind it has.  Nothing but the assigned variables ever changes,
and each has the value that was assigned last. -/
theorem assignments_run_line_by_line (registry : Registry) {ts : List (Placed assignment)}
    (hts : ∀ t ∈ ts.tail, t.gap ≠ []) {trailing : List Char}
    (htrailing : ∀ c ∈ trailing, isBlank c = true) (m : Machine) :
    let text := String.ofList (Placed.join ts ++ trailing)
    executeLine registry text m =
        runUntilFailure registry (ts.map fun t => String.ofList t.text) m ∧
      (∃ front back values s, Placed.values ts = front ++ back ∧
        m.session.Assigns front values s ∧
        s = { m.session with vars := s.vars } ∧
        (∀ name, s.get? name =
          (((front.map Assignment.name).zip values).reverse.lookup name).or
            (m.session.get? name)) ∧
        (back = [] ∧ executeLine registry text m = .ok 0 { m with session := s } ∨
          ∃ a rest name, back = a :: rest ∧
            Expansion.one s.strict s.get? a.value = .error name ∧
            executeLine registry text m =
              .ok 1 (Machine.told { m with session := s } (name ++ ": unset variable")))) ∧
      ∀ source a, assignment source = .ok (a, []) ↔
        ∃ t : Source assignment, t.text = source ∧ t.value = a := by
  intro text
  have hline : executeLine registry text m =
      Execution.reporting
        (Execution.runParsed registry (.assignments (Placed.values ts))) m := by
    rw [executeLine_of_parse registry (parse_assignments hts htrailing),
      runParsed_ofAssignments]
  have hlines := runUntilFailure_assignments registry (ts.map Placed.toSource) m
  simp only [List.map_map, Function.comp_def] at hlines
  obtain ⟨front, back, values, s, hsplit, hassigns, hend⟩ :=
    Execution.reporting_assignments_cases registry (Placed.values ts) m
  rw [← hline] at hend
  exact ⟨hline.trans hlines.symm,
    ⟨front, back, values, s, hsplit, hassigns, hassigns.eq_vars, hassigns.get?_eq, hend⟩,
    fun _ _ => assignment_whole_iff⟩

/-- The second value refers to the first, and the third to a variable that is unset. -/
theorem assignments_run_line_by_line_strict :
    let m := { equipped with session := { equipped.session with strict := true } }
    let ts : List (Placed assignment) :=
      [⟨⟨"A=2".toList, ⟨"A", [.fixed "2"]⟩, by decide +kernel⟩, [], by simp⟩,
        ⟨⟨"A=\"${A}3\"".toList, ⟨"A", [.reference "A", .fixed "3"]⟩, by decide +kernel⟩, [' '],
          by simp [isBlank]⟩,
        ⟨⟨"B=\"${Z}\"".toList, ⟨"B", [.reference "Z"]⟩, by decide +kernel⟩, [' ', '\t'],
          by simp [isBlank]⟩,
        ⟨⟨"A=*".toList, ⟨"A", [.glob "*"]⟩, by decide +kernel⟩, [' '], by simp [isBlank]⟩]
    (∀ t ∈ ts.tail, t.gap ≠ []) ∧ (∀ c ∈ [' '], isBlank c = true) ∧
      executeLine .standard "A=2 A=\"${A}3\" \tB=\"${Z}\" A=* " m =
        runUntilFailure .standard ["A=2", "A=\"${A}3\"", "B=\"${Z}\"", "A=*"] m ∧
      ["A", "B"].map ((executeLine .standard "A=2 A=\"${A}3\" \tB=\"${Z}\" A=* ").after
        m).session.get? = [some "23", none] := by
  intro m ts
  have hts : ∀ t ∈ ts.tail, t.gap ≠ [] := by simp [ts]
  have htrailing : ∀ c ∈ [' '], isBlank c = true := by simp [isBlank]
  have hrun := (assignments_run_line_by_line .standard hts htrailing m).1
  exact ⟨hts, htrailing, hrun, by decide +kernel⟩

end LineShell
