import LineShell.Proofs.Line.Extension
import LineShell.Proofs.Line.Rejection

/-!
# Where a line is rejected

A rejection tells an offset, and what stands before this offset can be completed to a line.  Each
fault lies in a source that has been begun, or behind a layout of sources that are complete.  The
source is completed with another text than the one that is there, and the sources before it fit
this other text as well, because it begins in the same way.
-/

namespace LineShell

open LineShell.Parser
open Production (Steps)

/-! ## Commands that have been read so far -/

theorem exists_spaced_arguments {s r : List Char} {ws : List Word} (h : Steps nextArgument s ws r) :
    ∃ ts : List (Placed word), s = Placed.join ts ++ r ∧ ∀ t ∈ ts, t.gap ≠ [] := by
  induction h with
  | nil s => exact ⟨[], rfl, by simp⟩
  | @cons s u r w ws head _ ih =>
    obtain ⟨hblank, -, hword⟩ := nextArgument_eq_ok_iff.mp head
    obtain ⟨ts, rfl, hts⟩ := ih
    obtain ⟨gap, hgap, hsplit⟩ := exists_blanks s
    obtain ⟨src, hsrc, rfl⟩ := exists_word_source hword
    rw [hsrc] at hsplit
    refine ⟨⟨src, gap, hgap⟩ :: ts, by rw [hsplit]; simp, ?_⟩
    have hne : gap ≠ [] := by
      rintro rfl
      rw [hsrc] at hblank
      exact hblank hsplit.symm
    simpa [hne] using hts

/-- Without redirects, there are blanks between all sources of a command. -/
theorem exists_spaced_layout {s r : List Char} {c : Command} (h : ReadsCommand s c r)
    (hnone : c.redirects = []) :
    ∃ L : Layout, L.words ≠ [] ∧ L.redirects = [] ∧ L.Spaced ∧ s = L.text ++ r := by
  obtain ⟨t, u, v, w, ws, has, hw, hws, hds, -⟩ := h
  rw [hnone] at hds
  obtain rfl := hds.eq_of_nil
  obtain ⟨before, hbefore, hsplit⟩ := exists_blanks s
  obtain ⟨ts, gap, hgap, htext, -, hfit, -, hend⟩ :=
    assignmentPrefix_ok has (stops_skipBlanks s) hbefore
  obtain ⟨src, rfl, rfl⟩ := exists_word_source hw
  obtain ⟨args, rfl, hargs⟩ := exists_spaced_arguments hws
  have hfitted : AssignmentsFit ts (Placed.join (⟨src, gap, hgap⟩ :: args) ++ v) := by
    simpa using hfit
  have hgaps := gaps_of_assignmentsFit hfitted (by simpa using hargs)
  refine ⟨⟨ts, ⟨src, gap, hgap⟩ :: args, [], fun _ => by simp, ?_⟩, by simp, rfl, ?_, ?_⟩
  · rintro _ ⟨⟩ hname
    exact hend (hname.append _)
  · simpa [Layout.Spaced, Layout.gaps] using hgaps
  · rw [hsplit, htext]
    simp [Layout.text]

/-- Behind what has been read of a command, a redirect can stand that begins like the text there. -/
theorem exists_layout_addRedirect {s r b x y : List Char} {o : Char} {c : Command}
    {t : Source redirect} (h : ReadsCommand s c r) (hr : skipBlanks r = b ++ o :: x)
    (ht : t.text = b ++ o :: y) (ho : o = '<' ∨ o = '>') {trailing : List Char}
    (htrailing : ∀ c ∈ trailing, isBlank c = true) :
    ∃ (L : Layout) (front : List Char), s = front ++ skipBlanks r ∧ L.text = front ++ t.text ∧
      L.Fits (trailing ++ ['\n']) := by
  obtain ⟨gap, hgap, hsplit⟩ := exists_blanks r
  have hopens : OpensRedirect r := by
    obtain ⟨e, z, hz, he⟩ := t.redirect_head
    rw [ht] at hz
    cases b with
    | nil =>
      obtain ⟨rfl, -⟩ := List.cons.inj hz
      exact ⟨o, x, hr, Or.inr he⟩
    | cons d b =>
      obtain ⟨rfl, -⟩ := List.cons.inj hz
      exact ⟨d, b ++ o :: x, hr, Or.inr he⟩
  obtain ⟨L, hwords, hfits, rfl, -⟩ := exists_layout_of_readsCommand h hopens
  have hends : t.value.EndsBefore (trailing ++ ['\n']) := by
    refine endsBefore_of_breaks (breaks_newline htrailing) fun _ => ?_
    rw [skipBlanks_newline htrailing]
    exact ⟨by decide, endsWord_newline.1⟩
  have hfits' : L.Fits (gap ++ (t.text ++ (trailing ++ ['\n']))) := by
    rw [hsplit, hr, ← List.append_assoc] at hfits
    rw [ht, List.append_assoc, List.cons_append, ← List.append_assoc]
    exact hfits.exchange ho
  refine ⟨L.addRedirect hwords ⟨t, gap, hgap⟩, L.text ++ gap, ?_, ?_,
    Layout.Fits.addRedirect hfits' hends⟩
  · conv => lhs; rw [hsplit]
    rw [List.append_assoc]
  · rw [Layout.addRedirect_text, List.append_assoc]

/-! ## Texts that can be completed -/

def Viable (front : List Char) : Prop :=
  ∃ (tail : List Char) (v : Line), parse (String.ofList (front ++ tail)) = .ok v

/-- What stands before `rest` can be completed, and the end of the line does not stand there. -/
def ViableAt (s rest : List Char) : Prop :=
  ∃ front, s = front ++ rest ∧ Ended rest ∧ Viable front

theorem viable_of_layout {L : Layout} {trailing front tail : List Char}
    (htrailing : ∀ c ∈ trailing, isBlank c = true) (h : L.Fits (trailing ++ ['\n']))
    (htext : L.text ++ trailing = front ++ tail) : Viable front := by
  refine ⟨tail, L.line, parse_of_terminated htrailing h ?_⟩
  rw [String.toList_ofList, ← htext]
  exact L.terminated_text htrailing

theorem viable_of_text {L : Layout} {front tail : List Char} (h : L.Fits ['\n'])
    (htext : L.text = front ++ tail) : Viable front :=
  viable_of_layout (List.forall_mem_nil _) h (by rw [htext, List.append_nil])

theorem Layout.ended_rest {L : Layout} {gap rest : List Char} (hs : Ended (L.text ++ (gap ++ rest)))
    (hgap : ∀ c ∈ gap, isBlank c = true) : Ended rest := by
  rw [← List.append_assoc] at hs
  exact hs.rest (getLast?_append_ne L.getLast?_text_ne (getLast?_blanks_ne hgap))

/-! ## Assignments -/

/-- Where a run of assignments fails: behind an assignment without a blank, or in one. -/
theorem assignmentPrefix_error {s : List Char} {failure : Failure}
    (h : assignmentPrefix s = .error failure) (hs : Stops isBlank s) {before : List Char}
    (hbefore : ∀ c ∈ before, isBlank c = true) :
    ∃ (ts : List (Placed assignment)) (gap x : List Char), (∀ c ∈ gap, isBlank c = true) ∧
      before ++ s = Placed.join ts ++ (gap ++ x) ∧ AssignmentsFit ts (gap ++ x) ∧
      ((∃ a t, assignment x = .ok (a, t) ∧ failure = .mismatch ⟨.whitespace, t⟩) ∨
        (assignment x = .error failure ∧ ∀ fault, failure ≠ .mismatch fault)) := by
  fun_induction assignmentPrefix s generalizing before with
  | case1 => simp at h
  | case2 s failure' hne hread =>
    obtain rfl := Except.error.inj h
    exact ⟨[], before, s, hbefore, rfl, trivial, Or.inr ⟨hread, fun fault => hne fault⟩⟩
  | case3 s a t ha failure' hsep =>
    refine ⟨[], before, s, hbefore, rfl, trivial, Or.inl ⟨a, t, ha, ?_⟩⟩
    rw [← Except.error.inj h]
    unfold separator at hsep
    split at hsep
    · simp at hsep
    · exact (Except.error.inj hsep).symm
  | case4 s a t ha u hsep _ failure' hrest ih =>
    obtain ⟨hbreaks, rfl⟩ := separator_eq_ok_iff.mp hsep
    obtain ⟨src, rfl, rfl⟩ := exists_assignment_source ha
    obtain ⟨behind, hbehind, ht⟩ := exists_blanks t
    obtain ⟨ts, gap, x, hgap, htext, hfit, hfails⟩ :=
      ih (hrest.trans h) (stops_skipBlanks t) hbehind
    rw [← ht] at htext
    refine ⟨⟨src, before, hbefore⟩ :: ts, gap, x, hgap, ?_, ⟨htext ▸ hbreaks, hfit⟩, hfails⟩
    rw [Placed.join_cons, htext]
    simp
  | case5 => simp at h
  | case6 => simp at h

theorem viable_of_assignments {ts : List (Placed assignment)} {t : Source assignment}
    {gap x w tail : List Char} {c : Char} (hgap : ∀ c ∈ gap, isBlank c = true)
    (hts : AssignmentsFit ts (gap ++ c :: x)) (hc : c ≠ '\n') (ht : t.text = c :: w ++ tail) :
    Viable (Placed.join ts ++ (gap ++ c :: w)) := by
  have hfit : AssignmentsFit (ts ++ [⟨t, gap, hgap⟩]) ['\n'] := by
    refine assignmentsFit_concat (hts.mono fun hbreaks => ?_) (Or.inl rfl)
    rw [ht]
    exact hbreaks.exchange hc
  have hfits : Layout.Fits ⟨ts ++ [⟨t, gap, hgap⟩], [], [], by simp, by simp⟩ ['\n'] :=
    ⟨hfit, by simp, trivial, trivial⟩
  refine viable_of_text hfits (?_ : _ = _ ++ tail)
  simp [Layout.text, Placed.join_append, ht]

/-- A fault in the assignments of a line leaves something that can be completed. -/
theorem viableAt_of_assignmentPrefix {s : List Char} {failure : Failure} {fault : Fault}
    (h : assignmentPrefix (skipBlanks s) = .error failure)
    (hfailure : failure = .mismatch fault ∨ failure = .rejection fault) (hs : Ended s) :
    ViableAt s fault.rest := by
  obtain ⟨before, hbefore, hsplit⟩ := exists_blanks s
  obtain ⟨ts, gap, x, hgap, htext, hfit, hfails⟩ :=
    assignmentPrefix_error h (stops_skipBlanks s) hbefore
  rw [← hsplit] at htext
  have hcut : ∃ c w tail, ∃ t : Source assignment, x = c :: w ++ fault.rest ∧
      t.text = c :: w ++ tail ∧ c ≠ '\n' ∧ Ended fault.rest := by
    rcases hfails with ⟨a, t, ha, rfl⟩ | ⟨hread, hfinal⟩
    · obtain rfl : Fault.mk .whitespace t = fault := by simpa using hfailure
      obtain ⟨src, rfl, -⟩ := exists_assignment_source ha
      obtain ⟨c, w, hw, hc⟩ := src.assignment_head
      refine ⟨c, w, [], src, by rw [hw], by rw [hw, List.append_nil], ?_, ?_⟩
      · rintro rfl
        exact absurd hc (by decide)
      · rw [htext, ← List.append_assoc, ← List.append_assoc] at hs
        exact hs.rest (src.assignment_reads.1.append_left _).getLast?_ne
    · rcases hfailure with rfl | rfl
      · exact absurd rfl (hfinal fault)
      · refine exists_completed_assignment hread ?_
        rw [htext, ← List.append_assoc] at hs
        apply hs.of_append
        rintro rfl
        simp [assignment, variableName, mismatch] at hread
  obtain ⟨c, w, tail, t, rfl, ht, hc, hend⟩ := hcut
  exact ⟨_, by rw [htext]; simp, hend, viable_of_assignments hgap hfit hc ht⟩

/-! ## Commands -/

/-- The first word of a command that is not finished. -/
theorem viableAt_of_word {s t : List Char} {as : List Assignment} {fault : Fault}
    (has : assignmentPrefix (skipBlanks s) = .ok (as, t))
    (h : word t = .error (.rejection fault)) (hs : Ended s) : ViableAt s fault.rest := by
  obtain ⟨before, hbefore, hsplit⟩ := exists_blanks s
  obtain ⟨ts, gap, hgap, htext, -, hfit, -, hend⟩ :=
    assignmentPrefix_ok has (stops_skipBlanks s) hbefore
  rw [← hsplit] at htext
  have hended : Ended t := by
    rw [htext, ← List.append_assoc] at hs
    apply hs.of_append
    rintro rfl
    obtain ⟨fault', hmismatch⟩ := word_mismatches (stops_nil isFragmentStart)
    rw [hmismatch] at h
    simp at h
  obtain ⟨c, w, tail, src, rfl, hsrc, hc, hrest, hbegins⟩ := exists_completed_word h hended
  have hname : ∀ t ∈ [Placed.mk src gap hgap].head?, ¬ BeginsAssignment t.text := by
    rintro _ ⟨⟩ hname
    exact hend (hbegins hname)
  have hfits : Layout.Fits ⟨ts, [⟨src, gap, hgap⟩], [], by simp, hname⟩ ['\n'] := by
    refine ⟨hfit.mono fun hbreaks => ?_, ?_, trivial, trivial⟩
    · simp only [Placed.join_cons, Placed.join_nil, hsrc, List.append_nil, List.append_assoc,
        List.cons_append]
      exact Breaks.exchange (by simpa using hbreaks) hc
    · rintro _ ⟨⟩
      exact endsWord_newline
  refine ⟨Placed.join ts ++ (gap ++ c :: w), by rw [htext]; simp, hrest, ?_⟩
  refine viable_of_text hfits (?_ : _ = _ ++ tail)
  simp [Layout.text, hsrc]

theorem Source.exists_operator (t : Source redirect) :
    ∃ b o y, t.text = b ++ o :: y ∧ (o = '<' ∨ o = '>') := by
  obtain ⟨b, u, -, -, hsplit, -⟩ := redirect_eq_ok_iff.mp t.reads
  obtain ⟨o, x, hsymbol, ho⟩ := exists_symbol t.value.kind
  rw [hsymbol, List.cons_append] at hsplit
  rcases List.eq_nil_or_concat (x ++ u) with hnil | ⟨y, c, hy⟩
  · rw [hnil] at hsplit
    obtain ⟨-, hc⟩ := List.append_inj' hsplit rfl
    rcases ho with rfl | rfl <;> simp at hc
  · rw [hy, List.concat_eq_append, ← List.cons_append, ← List.append_assoc] at hsplit
    exact ⟨b, o, y, (List.append_inj' hsplit rfl).1, ho⟩

theorem Production.Steps.exists_append {α : Type} {p : Production α} (hp : p.Consumes)
    {s r : List Char} {vs : List α} (h : Steps p s vs r) : ∃ w, s = w ++ r := by
  induction h with
  | nil s => exact ⟨[], rfl⟩
  | cons head _ ih =>
    obtain ⟨front, -, rfl⟩ := hp _ _ _ head
    obtain ⟨back, rfl⟩ := ih
    exact ⟨front ++ back, (List.append_assoc _ _ _).symm⟩

theorem Production.Steps.exists_of_concat {α : Type} {p : Production α} {s r : List Char}
    {vs : List α} {v : α} (h : Steps p s (vs ++ [v]) r) :
    ∃ t, Steps p s vs t ∧ p t = .ok (v, r) := by
  induction vs generalizing s with
  | nil =>
    cases h with
    | cons head tail =>
      obtain rfl := tail.eq_of_nil
      exact ⟨s, .nil s, head⟩
  | cons w vs ih =>
    cases h with
    | cons head tail =>
      obtain ⟨t, hsteps, ht⟩ := ih tail
      exact ⟨t, .cons head hsteps, ht⟩

theorem ReadsCommand.ended {s r : List Char} {c : Command} (h : ReadsCommand s c r) (hs : Ended s)
    (hr : skipBlanks r ≠ []) : Ended (skipBlanks r) := by
  obtain ⟨t, u, v, w, ws, has, hw, hws, hds, -⟩ := h
  obtain ⟨before, hbefore, hsplit⟩ := exists_blanks s
  obtain ⟨ts, gap, -, htext, -, -, -, -⟩ := assignmentPrefix_ok has (stops_skipBlanks s) hbefore
  obtain ⟨x, -, rfl⟩ := word_consumes _ _ _ hw
  obtain ⟨y, rfl⟩ := hws.exists_append nextArgument_consumes
  obtain ⟨z, rfl⟩ := hds.exists_append nextRedirect_consumes
  obtain ⟨skipped, hskipped⟩ := skipBlanks_append r
  rw [← hsplit] at htext
  rw [htext, hskipped] at hs
  simp only [← List.append_assoc] at hs
  exact hs.of_append hr

theorem ReadsCommand.viableAt_end {s r : List Char} {c : Command} (h : ReadsCommand s c r)
    (hs : Ended s) : ViableAt s (skipBlanks r) := by
  obtain ⟨gap, hgap, hsplit⟩ := exists_blanks r
  rcases List.eq_nil_or_concat c.redirects with hnone | ⟨ds, d, hds⟩
  · obtain ⟨L, -, hredirects, hspaced, rfl⟩ := exists_spaced_layout h hnone
    have hunambiguous : L.Unambiguous := by
      rw [Layout.Unambiguous, hredirects]
      exact List.isChain_nil
    have hended : Ended (skipBlanks r) := by
      rw [hsplit] at hs
      exact Layout.ended_rest hs hgap
    refine ⟨L.text ++ gap, by rw [List.append_assoc, ← hsplit], hended, ?_⟩
    exact viable_of_layout hgap (hspaced.fits hunambiguous hgap) (List.append_nil _).symm
  · obtain ⟨t, u, v, w, ws, has, hw, hws, hsteps, hargs⟩ := h
    rw [hds, List.concat_eq_append] at hsteps
    obtain ⟨r', hinit, hlast⟩ := hsteps.exists_of_concat
    obtain ⟨src, hsrc, -⟩ := exists_redirect_source (nextRedirect_eq_ok_iff.mp hlast)
    obtain ⟨b, o, y, htext, ho⟩ := src.exists_operator
    have hread : ReadsCommand s ⟨c.assignments, c.arguments, ds⟩ r' :=
      ⟨t, u, v, w, ws, has, hw, hws, hinit, hargs⟩
    have hr' : skipBlanks r' = b ++ o :: (y ++ r) := by
      rw [hsrc, htext, List.append_assoc, List.cons_append]
    obtain ⟨L, front, rfl, hL, hfits⟩ := exists_layout_addRedirect hread hr' htext ho hgap
    have hsplit' : front ++ skipBlanks r' = L.text ++ (gap ++ skipBlanks r) := by
      rw [hsrc, ← List.append_assoc, ← hL, ← hsplit]
    rw [hsplit'] at hs ⊢
    refine ⟨L.text ++ gap, (List.append_assoc _ _ _).symm, Layout.ended_rest hs hgap, ?_⟩
    exact viable_of_layout hgap hfits (List.append_nil _).symm

theorem ReadsCommand.viableAt_redirect {s r : List Char} {c : Command} {fault : Fault}
    (h : ReadsCommand s c r) (hr : redirect (skipBlanks r) = .error (.rejection fault))
    (hs : Ended s) : ViableAt s fault.rest := by
  have hended : Ended (skipBlanks r) := by
    apply h.ended hs
    intro hnil
    obtain ⟨w, left, kind, u, -, -, hsplit, -⟩ := redirect_rejection hr
    obtain ⟨o, x, hsymbol, -⟩ := exists_symbol kind
    rw [hnil, hsymbol] at hsplit
    simp at hsplit
  obtain ⟨b, o, w, tail, t, hsplit, ht, ho, hend⟩ := exists_completed_redirect hr hended
  have hcut : skipBlanks r = b ++ o :: (w ++ fault.rest) := by simpa using hsplit
  have htext : t.text = b ++ o :: (w ++ tail) := by simpa using ht
  obtain ⟨L, front, rfl, hL, hfits⟩ :=
    exists_layout_addRedirect h hcut htext ho (List.forall_mem_nil _)
  refine ⟨front ++ (b ++ o :: w), by rw [hcut]; simp, hend, ?_⟩
  refine viable_of_text hfits (?_ : _ = _ ++ tail)
  rw [hL, htext]
  simp

theorem ReadsCommand.viableAt_word {s r : List Char} {c : Command} {fault : Fault}
    (h : ReadsCommand s c r) (hnone : c.redirects = []) (hblank : skipBlanks r ≠ r)
    (hr : word (skipBlanks r) = .error (.rejection fault)) (hs : Ended s) :
    ViableAt s fault.rest := by
  have hended : Ended (skipBlanks r) := by
    apply h.ended hs
    intro hnil
    obtain ⟨fault', hmismatch⟩ := word_mismatches (stops_nil isFragmentStart)
    rw [hnil, hmismatch] at hr
    simp at hr
  obtain ⟨x, w, tail, t, hcut, ht, -, hend, -⟩ := exists_completed_word hr hended
  obtain ⟨L, hwords, hredirects, hspaced, rfl⟩ := exists_spaced_layout h hnone
  obtain ⟨gap, hgap, hsplit⟩ := exists_blanks r
  have hne : gap ≠ [] := by
    rintro rfl
    exact hblank hsplit.symm
  have hadded := hspaced.addWord hwords hredirects (t := ⟨t, gap, hgap⟩) hne
  have hunambiguous : (L.addWord hwords ⟨t, gap, hgap⟩).Unambiguous := by
    have hnil : (L.addWord hwords ⟨t, gap, hgap⟩).redirects = [] := hredirects
    rw [Layout.Unambiguous, hnil]
    exact List.isChain_nil
  have hfits := hadded.fits hunambiguous (List.forall_mem_nil _)
  refine ⟨L.text ++ (gap ++ x :: w), ?_, hend, ?_⟩
  · conv => lhs; rw [hsplit, hcut]
    simp
  · refine viable_of_text hfits (?_ : _ = _ ++ tail)
    rw [L.addWord_text hwords hredirects, ht]
    simp

theorem viableAt_of_command {s : List Char} {fault : Fault}
    (h : Parser.command s = .error (.rejection fault)) (hs : Ended s) : ViableAt s fault.rest := by
  rcases command_rejection h with hprefix | ⟨as, t, has, hword⟩ | ⟨c, r, hread, hfails⟩
  · exact viableAt_of_assignmentPrefix hprefix (Or.inr rfl) hs
  · exact viableAt_of_word has hword hs
  · rcases hfails with hrest | hredirect | ⟨hnone, hblank, hword⟩
    · rw [hrest]
      exact hread.viableAt_end hs
    · exact hread.viableAt_redirect hredirect hs
    · exact hread.viableAt_word hnone hblank hword hs

/-! ## Lines -/

theorem viable_nil : Viable [] := by
  have hfits : Layout.Fits ⟨[], [], [], by simp, by simp⟩ ['\n'] :=
    ⟨trivial, by simp, trivial, trivial⟩
  exact viable_of_text hfits (rfl : _ = [] ++ [])

theorem viableAt_of_assignments_error {s : List Char} {failure : Failure} {fault : Fault}
    (h : Parser.assignments s = .error failure)
    (hfailure : failure = .mismatch fault ∨ failure = .rejection fault) (hs : Ended s) :
    ViableAt s fault.rest := by
  unfold Parser.assignments at h
  split at h
  · next failure' hprefix =>
    obtain rfl := Except.error.inj h
    exact viableAt_of_assignmentPrefix hprefix hfailure hs
  · obtain rfl := Except.error.inj h
    obtain rfl : Fault.mk .variableAssignment s = fault := by simpa using hfailure
    exact ⟨[], rfl, hs, viable_nil⟩
  · simp at h

/-- Behind assignments and blanks something stands that is no assignment. -/
theorem viableAt_of_assignments_ok {s r : List Char} {as : List Assignment}
    (h : Parser.assignments s = .ok (as, r)) (hs : Ended s) : ViableAt s (skipBlanks r) := by
  unfold Parser.assignments at h
  split at h
  · simp at h
  · simp [mismatch] at h
  · next a as' t hprefix =>
    simp only [Except.ok.injEq, Prod.mk.injEq] at h
    obtain ⟨-, rfl⟩ := h
    obtain ⟨before, hbefore, hsplit⟩ := exists_blanks s
    obtain ⟨ts, gap, hgap, htext, -, hfit, hstop, -⟩ :=
      assignmentPrefix_ok hprefix (stops_skipBlanks s) hbefore
    rw [← hsplit] at htext
    have hskip : skipBlanks t = t := hstop.dropWhile_eq
    have hfits : Layout.Fits ⟨ts, [], [], by simp, by simp⟩ (gap ++ ['\n']) :=
      ⟨hfit.mono fun _ => breaks_newline hgap, by simp, trivial, trivial⟩
    have hjoin : (Layout.mk ts [] [] (by simp) (by simp)).text = Placed.join ts := by
      simp [Layout.text]
    rw [htext, ← hjoin] at hs
    rw [hskip]
    refine ⟨Placed.join ts ++ gap, by rw [htext, List.append_assoc], Layout.ended_rest hs hgap, ?_⟩
    refine viable_of_layout hgap hfits (?_ : _ = _ ++ [])
    rw [hjoin, List.append_nil]

theorem viableAt_of_line_error {s : List Char} {failure : Failure} {fault : Fault}
    (h : Parser.line s = .error failure)
    (hfailure : failure = .mismatch fault ∨ failure = .rejection fault) (hs : Ended s) :
    ViableAt s fault.rest := by
  unfold Parser.line at h
  split at h
  · simp at h
  · split at h
    · simp at h
    · next fault' hassignments =>
      simp only at h
      split at h
      · simp at h
      · obtain rfl := Except.error.inj h
        exact viableAt_of_assignments_error hassignments hfailure hs
    · next failure' _ hassignments =>
      obtain rfl := Except.error.inj h
      exact viableAt_of_assignments_error hassignments hfailure hs
  · next failure' hne hcommand =>
    obtain rfl := Except.error.inj h
    rcases hfailure with rfl | rfl
    · exact absurd rfl (hne fault)
    · exact viableAt_of_command hcommand hs

theorem viableAt_of_line_ok {s r : List Char} {v : Line} (h : Parser.line s = .ok (v, r))
    (hr : atEnd r = false) (hs : Ended s) : ViableAt s r := by
  unfold Parser.line at h
  split at h
  · next c t hcommand =>
    simp only [Except.ok.injEq, Prod.mk.injEq] at h
    obtain ⟨-, rfl⟩ := h
    rw [(command_eq_ok_iff.mp hcommand).1] at hr
    exact absurd hr (by decide)
  · split at h
    · next as t hassignments =>
      simp only [Except.ok.injEq, Prod.mk.injEq] at h
      obtain ⟨-, rfl⟩ := h
      exact viableAt_of_assignments_ok hassignments hs
    · simp only at h
      split at h
      · next hend =>
        simp only [Except.ok.injEq, Prod.mk.injEq] at h
        obtain ⟨-, rfl⟩ := h
        rw [hr] at hend
        exact absurd hend (by decide)
      · simp at h
    · simp at h
  · simp at h

/-! ## Whole texts -/

/-- A text without the line feed that ends it, if there is one. -/
def lineBody (text : List Char) : List Char :=
  if text.getLast? = some '\n' then text.dropLast else text

theorem terminated_eq_lineBody (text : List Char) : terminated text = lineBody text ++ ['\n'] := by
  unfold terminated lineBody
  split
  · next hlast => exact (List.dropLast_append_getLast? '\n' hlast).symm
  · rfl

theorem lineBody_prefix (text : List Char) : lineBody text <+: text := by
  unfold lineBody
  split
  · exact List.dropLast_prefix text
  · exact List.prefix_refl text

theorem ended_terminated (text : List Char) : Ended (terminated text) := by
  rw [terminated_eq_lineBody, Ended, List.getLast?_concat]

theorem exists_viableAt {text : String} {expected : Expected} {offset : Nat}
    (h : parse text = .error (.rejection expected offset)) :
    ∃ rest, ViableAt (terminated text.toList) rest ∧
      offset = offsetOf 0 (terminated text.toList) rest := by
  have hs := ended_terminated text.toList
  simp only [parse, whole] at h
  split at h
  · next fault hline =>
    obtain ⟨-, rfl⟩ : fault.expected = expected ∧ _ = offset := by simpa [Failure.locate] using h
    exact ⟨_, viableAt_of_line_error hline (Or.inl rfl) hs, rfl⟩
  · next failure hne hline =>
    cases failure with
    | mismatch fault => exact absurd rfl (hne fault)
    | numeral error => simp [Failure.locate] at h
    | rejection fault =>
      obtain ⟨-, rfl⟩ : fault.expected = expected ∧ _ = offset := by simpa [Failure.locate] using h
      exact ⟨_, viableAt_of_line_error hline (Or.inr rfl) hs, rfl⟩
  · next v r hline =>
    split at h
    · simp at h
    · next hend =>
      obtain ⟨-, rfl⟩ : Expected.endOfLine = expected ∧ _ = offset := by
        simpa [Failure.locate] using h
      exact ⟨r, viableAt_of_line_ok hline (by simpa using hend) hs, rfl⟩

/-- Where a text is rejected: the offset lies within its line, and what stands before it is the
beginning of an accepted text. -/
theorem rejected_behind_viable {text : String} {expected : Expected} {offset : Nat}
    (h : parse text = .error (.rejection expected offset)) :
    offset ≤ (lineBody text.toList).length ∧
      ∃ (tail : String) (v : Line),
        parse (String.ofList (text.toList.take offset) ++ tail) = .ok v := by
  obtain ⟨rest, ⟨front, hsplit, hend, tail, v, hv⟩, hoffset⟩ := exists_viableAt h
  have hrest : 0 < rest.length := List.length_pos_iff.mpr hend.ne_nil
  have hlength : front.length + rest.length = (lineBody text.toList).length + 1 := by
    have := congrArg List.length (hsplit.symm.trans (terminated_eq_lineBody text.toList))
    simpa using this
  have hfront : offset = front.length := by
    rw [hoffset, hsplit, offsetOf, List.length_append]
    omega
  have hbound : offset ≤ (lineBody text.toList).length := by omega
  have htake : text.toList.take offset = front := by
    have hbody : front = (lineBody text.toList).take offset := by
      rw [← List.take_append_of_le_length hbound, ← terminated_eq_lineBody, hsplit, hfront,
        List.take_left]
    obtain ⟨behind, hbehind⟩ := lineBody_prefix text.toList
    rw [hbody, ← List.take_append_of_le_length hbound, hbehind]
  refine ⟨hbound, String.ofList tail, v, ?_⟩
  rw [htake, ← String.ofList_append]
  exact hv

/-- The descriptor behind an ampersand is missing, and everything up to there is the beginning of
a command. -/
theorem rejected_behind_viable_descriptor :
    parse "cat <in >&x" = .error (.rejection .fileDescriptor 10) ∧
      10 ≤ (lineBody "cat <in >&x".toList).length ∧
        ∃ (tail : String) (v : Line),
          parse (String.ofList ("cat <in >&x".toList.take 10) ++ tail) = .ok v := by
  have hfails : parse "cat <in >&x" = .error (.rejection .fileDescriptor 10) := by cbv
  exact ⟨hfails, rejected_behind_viable hfails⟩

end LineShell
