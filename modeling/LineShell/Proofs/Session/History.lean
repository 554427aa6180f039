import LineShell.Proofs.Session.Change

/-!
# What programs see

The environment of a program is determined by the lines before its own, and by the assignments in
front of it.  The lines before tell what was stored in the session and what was exported from it;
the assignments in front of earlier commands are no part of that.
-/

namespace LineShell

/-- What the lines of a run do to the variables of the session. -/
def history (registry : Registry) : List String → Machine → Change
  | [], _ => .nothing
  | text :: texts, m =>
      lineChange registry text m ++ history registry texts ((executeLine registry text).after m)

theorem history_describes (registry : Registry) (texts : List String) (m : Machine) :
    (history registry texts m).Describes m.session (runLines registry texts m).session := by
  induction texts generalizing m with
  | nil => exact .refl m.session
  | cons text texts ih => exact (lineChange_describes registry text m).append (ih _)

/-- The values that assignments in front of a command store, and the names that they export. -/
def prefixChange (s : Session) (as : List Assignment) : Change :=
  ⟨Assignment.stores s.strict s.get? as, (Assignment.stores s.strict s.get? as).map Prod.fst⟩

theorem prefixChange_describes (s : Session) (as : List Assignment) :
    (prefixChange s as).Describes s (Execution.prefixed s as) :=
  s.describes_store true (Assignment.stores s.strict s.get? as)

/-- A session exports a variable that was in the environment it started with, or was exported since,
with the value that was stored last. -/
theorem Change.Describes.exportedVariables {c : Change} {environment : Variables} {p : String}
    {strict : Bool} {s : Session}
    (h : c.Describes ⟨environment, environment.names, p, [], strict⟩ s) (name : String) :
    s.exportedVariables.get? name =
      if name ∈ environment.names ∨ name ∈ c.exports then (c.last name).or (environment.get? name)
      else none := by
  rw [Session.get?_exportedVariables, h.get?_eq]
  exact if_congr (h.mem_exported name) rfl rfl

/-- A program sees the variables that the session started with, those that earlier lines exported
and those that are assigned in front of it.  The value of each is the last one that is assigned in
front of it, or else the last one that was stored by an earlier line, or else the one that the
session started with. -/
theorem environment_of_history {m : Machine} {environment : Variables} {dir : Option String}
    {strict : Bool}
    (hstart : Session.start m.host.files m.host.workingDirectory environment dir strict =
      .ok m.session)
    (registry : Registry) (texts : List String) (text : String) :
    let before := runLines registry texts m
    let past := history registry texts m
    ∃ calls, ((executeLine registry text).after before).host.calls = before.host.calls ++ calls ∧
      ∀ call ∈ calls, ∃ c, parse text = .ok (.command c) ∧
        ∀ name, call.invocation.environment.get? name =
          if name ∈ environment.names ∨ name ∈ past.exports ∨
              name ∈ c.assignments.map Assignment.name then
            ((prefixChange before.session c.assignments).last name).or
              ((past.last name).or (environment.get? name))
          else none := by
  intro before past
  obtain ⟨p, -, hsession⟩ := Session.eq_of_start hstart
  have hpast : past.Describes m.session before.session := history_describes registry texts m
  rw [hsession] at hpast
  obtain ⟨calls, hcalls, hmade⟩ := (executeLine_evolves registry text before).calls
  refine ⟨calls, hcalls, fun call hcall => ?_⟩
  obtain ⟨c, hparse, hmakes, hnames⟩ := hmade call hcall
  refine ⟨c, hparse, fun name => ?_⟩
  -- the session that makes the call is behind the earlier lines and then the assignments
  have hall := hpast.append (prefixChange_describes before.session c.assignments)
  have hprefix : (prefixChange before.session c.assignments).exports =
      c.assignments.map Assignment.name := hnames
  have hexported : name ∈ (past ++ prefixChange before.session c.assignments).exports ↔
      name ∈ past.exports ∨ name ∈ c.assignments.map Assignment.name := by
    rw [Change.mem_exports_append, hprefix]
  rw [hmakes.1, hall.exportedVariables, Change.last_append, Option.or_assoc]
  exact if_congr (or_congr Iff.rfl hexported) rfl rfl

/-- A machine with a program that does nothing, and one variable. -/
def equipped : Machine :=
  ⟨⟨⟨[("A", "1")]⟩, ["A"], "/", [], false⟩,
    .start ⟨[(["p"], .file [] (some ⟨.runs, false, false, "", "", 0⟩))]⟩ "/" .empty⟩

theorem environment_of_history_equipped :
    let before := runLines .standard ["B=2", "export B", "C=4 /p", "D=5"] equipped
    ∃ calls, ((executeLine .standard "X=3 /p").after before).host.calls =
          before.host.calls ++ calls ∧
      calls.length = 1 ∧
      ∀ call ∈ calls,
        ["A", "B", "C", "D", "X"].map call.invocation.environment.get? =
          [some "1", some "2", none, none, some "3"] := by
  intro before
  have hstart : Session.start equipped.host.files equipped.host.workingDirectory ⟨[("A", "1")]⟩
      none false = .ok equipped.session := by decide +kernel
  have hpast : history .standard ["B=2", "export B", "C=4 /p", "D=5"] equipped =
      ⟨[("B", "2"), ("D", "5")], ["B"]⟩ := by decide +kernel
  have hcommand : parse "X=3 /p" =
      .ok (.command ⟨[⟨"X", [.fixed "3"]⟩], [[.fixed "/p"]], []⟩) := by decide +kernel
  have hcount : ((executeLine .standard "X=3 /p").after before).host.calls.length =
      before.host.calls.length + 1 := by decide +kernel
  obtain ⟨calls, hcalls, hseen⟩ := environment_of_history hstart .standard
    ["B=2", "export B", "C=4 /p", "D=5"] "X=3 /p"
  refine ⟨calls, hcalls, ?_, ?_⟩
  · rw [hcalls, List.length_append] at hcount
    exact Nat.add_left_cancel hcount
  · intro call hcall
    obtain ⟨c, hparse, hsees⟩ := hseen call hcall
    rw [hcommand] at hparse
    cases hparse
    rw [hpast] at hsees
    simp only [List.map_cons, List.map_nil, hsees]
    decide +kernel

end LineShell
