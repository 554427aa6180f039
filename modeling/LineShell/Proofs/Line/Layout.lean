import Mathlib
import LineShell.Proofs.Line.Reading

/-!
# The layout of a line

A layout says which sources a line consists of, and which blanks stand before each of them.  A
line is accepted exactly if it has a layout whose sources end where the text behind them begins,
and then it means the values of these sources, in their order.  With a blank before every source
there is only one thing left to ask for: a redirect without an operand behind its operator is
not followed by something that could be this operand.
-/

namespace LineShell

open LineShell.Parser
open Production (Steps Mismatches)

/-- Sources in their places: assignments, then words, then redirects.  The first word can not be
read as an assignment, and redirects only follow words. -/
structure Layout where
  assignments : List (Placed assignment)
  words : List (Placed word)
  redirects : List (Placed redirect)
  words_ne_nil : redirects ≠ [] → words ≠ []
  not_assignment : ∀ t ∈ words.head?, ¬ BeginsAssignment t.text

namespace Layout

def text (L : Layout) : List Char :=
  Placed.join L.assignments ++ (Placed.join L.words ++ Placed.join L.redirects)

def command (L : Layout) : Command :=
  ⟨Placed.values L.assignments, Placed.values L.words, Placed.values L.redirects⟩

def line (L : Layout) : Line :=
  if L.words = [] then
    if L.assignments = [] then .blank else .assignments (Placed.values L.assignments)
  else .command L.command

/-- Every source ends where the text behind it begins, when `r` is behind the last one. -/
structure Fits (L : Layout) (r : List Char) : Prop where
  assignments : AssignmentsFit L.assignments (Placed.join L.words ++ (Placed.join L.redirects ++ r))
  name : ∀ t ∈ L.words.head?, EndsWord (Placed.join L.words.tail ++ (Placed.join L.redirects ++ r))
  arguments : ArgumentsFit L.words.tail (Placed.join L.redirects ++ r)
  redirects : RedirectsFit L.redirects r

theorem text_append (L : Layout) (r : List Char) :
    L.text ++ r =
      Placed.join L.assignments ++ (Placed.join L.words ++ (Placed.join L.redirects ++ r)) := by
  simp [text]

end Layout

/-! ## Commands -/

theorem exists_layout_of_readsCommand {s r : List Char} {c : Command} (h : ReadsCommand s c r)
    (hr : OpensRedirect r) :
    ∃ L : Layout, L.words ≠ [] ∧ L.Fits r ∧ s = L.text ++ r ∧ L.command = c := by
  obtain ⟨as, args, ds⟩ := c
  obtain ⟨t, u, v, w, ws, has, hw, hws, hds, rfl⟩ := h
  obtain ⟨before, hbefore, hsplit⟩ := exists_blanks s
  obtain ⟨ts, gap, hgap, htext, rfl, hfit, -, hend⟩ :=
    assignmentPrefix_ok has (stops_skipBlanks s) hbefore
  obtain ⟨src, rfl, rfl⟩ := exists_word_source hw
  have hv : OpensRedirect v := opensRedirect_of_steps hds hr
  obtain ⟨hstop, args, rfl, rfl, hargs⟩ := exists_arguments hws (stops_isPathChar_of_word hw) hv
  obtain ⟨reds, rfl, rfl, hreds⟩ := exists_redirects hds hr
  refine ⟨⟨ts, ⟨src, gap, hgap⟩ :: args, reds, fun _ => by simp, ?_⟩, by simp,
    ⟨?_, ?_, hargs, hreds⟩, ?_, rfl⟩
  · rintro _ ⟨⟩ hname
    exact hend (hname.append _)
  · simpa using hfit
  · rintro _ ⟨⟩
    cases args with
    | nil => exact hv.endsWord hstop
    | cons arg args =>
      simp only [List.tail_cons, Placed.join_cons, List.append_assoc]
      exact (breaks_append hargs.1 arg.blank _).endsWord
  · rw [Layout.text_append, hsplit, htext]
    simp

theorem readsCommand_of_layout {L : Layout} {r : List Char} (h : L.Fits r)
    (hwords : L.words ≠ []) :
    ReadsCommand (L.text ++ r) L.command r := by
  obtain ⟨ts, words, reds, hneed, hname⟩ := L
  obtain ⟨t, args, rfl⟩ : ∃ t args, words = t :: args := List.exists_cons_of_ne_nil hwords
  obtain ⟨hfit, hends, hargs, hreds⟩ := h
  have hends : EndsWord (Placed.join args ++ (Placed.join reds ++ r)) := hends t rfl
  have hread := t.word_reads.2 _ hends
  have hprefix : assignmentPrefix (skipBlanks (Placed.join ts ++ (t.gap ++ (t.text ++
      (Placed.join args ++ (Placed.join reds ++ r)))))) =
        .ok (Placed.values ts, t.text ++ (Placed.join args ++ (Placed.join reds ++ r))) := by
    refine assignmentPrefix_of_fit (by simpa using hfit) t.blank ?_ ?_
    · obtain ⟨c, x, hx, hc⟩ := word_head hread
      rw [hx]
      exact stops_cons.mpr (isBlank_of_isFragmentStart hc)
    · intro hbegins
      exact hname t rfl (hbegins.of_append (stops_isPathChar_of_stops hends.1))
  refine ⟨_, _, _, _, _, ?_, hread, arguments_of_fit hargs, redirects_of_fit hreds, rfl⟩
  rw [Layout.text_append]
  simpa [Layout.command] using hprefix

/-! ## Whole lines -/

theorem opensRedirect_of_skipBlanks {r : List Char} (h : skipBlanks r = ['\n']) :
    OpensRedirect r :=
  ⟨'\n', [], h, Or.inl rfl⟩

theorem skipBlanks_newline {gap : List Char} (hgap : ∀ c ∈ gap, isBlank c = true) :
    skipBlanks (gap ++ ['\n']) = ['\n'] :=
  skipBlanks_append_of_stops hgap (stops_cons.mpr (by decide))

theorem exists_layout_of_assignments {s r : List Char} {as : List Assignment}
    (h : Parser.assignments s = .ok (as, r)) (hr : atEnd (skipBlanks r) = true) :
    ∃ (L : Layout) (trailing : List Char), (∀ c ∈ trailing, isBlank c = true) ∧
      L.Fits (trailing ++ ['\n']) ∧ s = L.text ++ (trailing ++ ['\n']) ∧
      L.line = .assignments as := by
  unfold Parser.assignments at h
  split at h
  · simp at h
  · simp [mismatch] at h
  · next a as' t hprefix =>
    simp only [Except.ok.injEq, Prod.mk.injEq] at h
    obtain ⟨rfl, rfl⟩ := h
    obtain ⟨before, hbefore, hsplit⟩ := exists_blanks s
    obtain ⟨ts, gap, hgap, htext, hvalues, hfit, hstop, -⟩ :=
      assignmentPrefix_ok hprefix (stops_skipBlanks s) hbefore
    have hend : t = ['\n'] := by
      rw [← skipBlanks_eq_newline hr, skipBlanks, hstop.dropWhile_eq]
    subst hend
    have hts : ts ≠ [] := by
      rintro rfl
      simp at hvalues
    refine ⟨⟨ts, [], [], by simp, by simp⟩, gap, hgap, ⟨hfit, by simp, trivial, trivial⟩, ?_, ?_⟩
    · rw [hsplit, htext]
      simp [Layout.text]
    · simp [Layout.line, hts, hvalues]

theorem exists_layout {s r : List Char} {v : Line} (h : Parser.line s = .ok (v, r))
    (hr : atEnd r = true) :
    ∃ (L : Layout) (trailing : List Char), (∀ c ∈ trailing, isBlank c = true) ∧
      L.Fits (trailing ++ ['\n']) ∧ s = L.text ++ (trailing ++ ['\n']) ∧ L.line = v := by
  unfold Parser.line at h
  split at h
  · next c u hcommand =>
    simp only [Except.ok.injEq, Prod.mk.injEq] at h
    obtain ⟨rfl, rfl⟩ := h
    obtain ⟨-, r₀, hreads, hend⟩ := command_eq_ok_iff.mp hcommand
    obtain ⟨L, hwords, hfit, rfl, rfl⟩ :=
      exists_layout_of_readsCommand hreads (opensRedirect_of_skipBlanks hend)
    obtain ⟨trailing, htrailing, hsplit⟩ := exists_blanks r₀
    rw [hend] at hsplit
    subst hsplit
    exact ⟨L, trailing, htrailing, hfit, rfl, by simp [Layout.line, hwords]⟩
  · split at h
    · next as u has =>
      simp only [Except.ok.injEq, Prod.mk.injEq] at h
      obtain ⟨rfl, rfl⟩ := h
      exact exists_layout_of_assignments has hr
    · simp only at h
      split at h
      · next hend =>
        simp only [Except.ok.injEq, Prod.mk.injEq] at h
        obtain ⟨rfl, rfl⟩ := h
        obtain ⟨before, hbefore, hsplit⟩ := exists_blanks s
        rw [skipBlanks_eq_newline hend] at hsplit
        refine ⟨⟨[], [], [], by simp, by simp⟩, before, hbefore,
          ⟨trivial, by simp, trivial, trivial⟩, by simpa [Layout.text] using hsplit, rfl⟩
      · simp at h
    · simp at h
  · simp at h

theorem command_mismatches_of_prefix {s : List Char} {as : List Assignment}
    (h : assignmentPrefix (skipBlanks s) = .ok (as, ['\n'])) : Mismatches Parser.command s := by
  obtain ⟨fault, hfault⟩ := word_mismatches endsWord_newline.1
  exact ⟨fault, by simp [Parser.command, h, hfault]⟩

theorem line_of_assignments {s : List Char} {a : Assignment} {as : List Assignment}
    (h : assignmentPrefix (skipBlanks s) = .ok (a :: as, ['\n'])) :
    Parser.line s = .ok (.assignments (a :: as), ['\n']) := by
  obtain ⟨fault, hfault⟩ := command_mismatches_of_prefix h
  have hskip : skipBlanks ['\n'] = ['\n'] := rfl
  simp [Parser.line, hfault, Parser.assignments, h, hskip]

theorem line_of_no_assignments {s : List Char} (h : skipBlanks s = ['\n']) :
    Parser.line s = .ok (.blank, ['\n']) := by
  have hprefix : assignmentPrefix ['\n'] = .ok ([], ['\n']) := by cbv
  have hread : assignmentPrefix (skipBlanks s) = .ok ([], ['\n']) := by
    rw [h]
    exact hprefix
  obtain ⟨fault, hfault⟩ := command_mismatches_of_prefix hread
  simp [Parser.line, hfault, Parser.assignments, hprefix, h, mismatch, atEnd]

/-- A layout that fits is read as the line that its values make. -/
theorem line_of_layout {L : Layout} {trailing : List Char}
    (htrailing : ∀ c ∈ trailing, isBlank c = true) (h : L.Fits (trailing ++ ['\n'])) :
    Parser.line (L.text ++ (trailing ++ ['\n'])) = .ok (L.line, ['\n']) := by
  have hend : skipBlanks (trailing ++ ['\n']) = ['\n'] := skipBlanks_newline htrailing
  by_cases hwords : L.words = []
  · have hredirects : L.redirects = [] := by
      by_cases hnil : L.redirects = []
      · exact hnil
      · exact absurd hwords (L.words_ne_nil hnil)
    obtain ⟨ts, words, reds, hneed, hname⟩ := L
    simp only at hwords hredirects
    subst hwords hredirects
    have hprefix : assignmentPrefix (skipBlanks (Placed.join ts ++ (trailing ++ ['\n']))) =
        .ok (Placed.values ts, ['\n']) := by
      refine assignmentPrefix_of_fit h.assignments htrailing (stops_cons.mpr (by decide)) ?_
      rintro ⟨name, t, hvalid, heq⟩
      obtain ⟨c, x, rfl⟩ := List.exists_cons_of_ne_nil hvalid.ne_nil
      obtain ⟨rfl, -⟩ := List.cons.inj heq
      exact absurd (hvalid.isNameChar '\n' List.mem_cons_self) (by decide)
    have htext : (Layout.mk ts [] [] hneed hname).text ++ (trailing ++ ['\n']) =
        Placed.join ts ++ (trailing ++ ['\n']) := by simp [Layout.text]
    rw [htext]
    cases ts with
    | nil => exact line_of_no_assignments hend
    | cons t ts => exact line_of_assignments hprefix
  · have hreads := readsCommand_of_layout h hwords
    have hcommand := command_eq_ok_iff.mpr ⟨rfl, _, hreads, hend⟩
    simp [Parser.line, hcommand, Layout.line, hwords]

/-! ## Blanks between sources -/

/-- The blanks before the sources, except for those at the beginning of the line. -/
def Layout.gaps (L : Layout) : List (List Char) :=
  (L.assignments.map Placed.gap ++ (L.words.map Placed.gap ++ L.redirects.map Placed.gap)).tail

/-- There are blanks between assignments and words.  Redirects do not need any. -/
def Layout.Separated (L : Layout) : Prop :=
  ∀ gap ∈ (L.assignments.map Placed.gap ++ L.words.map Placed.gap).tail, gap ≠ []

def Layout.Spaced (L : Layout) : Prop :=
  ∀ gap ∈ L.gaps, gap ≠ []

/-- A redirect without an operand behind its operator is not followed by one that begins like such
an operand. -/
def Layout.Unambiguous (L : Layout) : Prop :=
  L.redirects.IsChain fun t t' => t.value.right = none → Stops isFragmentStart t'.text

theorem gap_ne_nil_of_breaks {gap w s : List Char} (h : Breaks (gap ++ (w ++ s)))
    (hw : ∃ c t, w = c :: t ∧ isFragmentStart c = true) : gap ≠ [] := by
  rintro rfl
  obtain ⟨c, t, rfl, hc⟩ := hw
  have hends := h.endsWord.1
  rw [List.nil_append, List.cons_append, stops_cons, hc] at hends
  exact absurd hends (by decide)

theorem gaps_of_argumentsFit {ts : List (Placed word)} {r : List Char} (h : ArgumentsFit ts r) :
    ∀ gap ∈ ts.map Placed.gap, gap ≠ [] := by
  induction ts with
  | nil => simp
  | cons t ts ih =>
    intro gap hgap
    rcases List.mem_cons.mp hgap with rfl | hgap
    · exact h.1
    · exact ih h.2.2.2 gap hgap

theorem gaps_of_assignmentsFit {ts : List (Placed assignment)} {ws : List (Placed word)}
    {r : List Char} (h : AssignmentsFit ts (Placed.join ws ++ r))
    (hws : ∀ gap ∈ ws.tail.map Placed.gap, gap ≠ []) :
    ∀ gap ∈ (ts.map Placed.gap ++ ws.map Placed.gap).tail, gap ≠ [] := by
  induction ts with
  | nil => simpa [List.map_tail] using hws
  | cons t ts ih =>
    obtain ⟨hbreaks, hfit⟩ := h
    have htail := ih hfit
    simp only [List.map_cons, List.cons_append, List.tail_cons]
    -- what stands behind the assignment begins with a gap of its own
    cases ts with
    | nil =>
      cases ws with
      | nil => simp
      | cons w ws =>
        have hgap : w.gap ≠ [] := by
          refine gap_ne_nil_of_breaks (s := Placed.join ws ++ r) ?_ w.word_head
          simpa using hbreaks
        simpa [hgap] using hws
    | cons t' ts =>
      have hgap : t'.gap ≠ [] := by
        refine gap_ne_nil_of_breaks (s := Placed.join ts ++ (Placed.join ws ++ r)) ?_
          t'.assignment_head
        simpa using hbreaks
      simpa [hgap] using htail

theorem Layout.Fits.separated {L : Layout} {r : List Char} (h : L.Fits r) : L.Separated :=
  gaps_of_assignmentsFit h.assignments (gaps_of_argumentsFit h.arguments)

theorem RedirectsFit.isChain {ts : List (Placed redirect)} {r : List Char}
    (h : RedirectsFit ts r) :
    ts.IsChain fun t t' => t.value.right = none → Stops isFragmentStart t'.text := by
  induction ts with
  | nil => exact List.isChain_nil
  | cons t ts ih =>
    rcases h with ⟨hends, hfit⟩
    have htail := ih hfit
    cases ts with
    | nil => exact List.isChain_singleton t
    | cons t' ts =>
      rw [List.isChain_cons_cons]
      refine ⟨?_, htail⟩
      intro hright
      simp only [Redirect.EndsBefore, hright] at hends
      rcases t'.redirect_head with ⟨c, u, hu, -⟩
      have hstop := hends.2.2
      rw [Placed.join_cons, List.append_assoc, List.append_assoc, t'.redirect_skip hfit.1] at hstop
      rw [hu] at hstop ⊢
      exact stops_cons.mpr (stops_cons.mp hstop)

theorem Layout.Fits.unambiguous {L : Layout} {r : List Char} (h : L.Fits r) : L.Unambiguous :=
  h.redirects.isChain

theorem breaks_join {α : Type} {p : Production α} {ts : List (Placed p)} {r : List Char}
    (hts : ∀ t ∈ ts.head?, t.gap ≠ []) (hr : Breaks r) : Breaks (Placed.join ts ++ r) := by
  cases ts with
  | nil => exact hr
  | cons t ts =>
    rw [Placed.join_cons, List.append_assoc]
    exact breaks_append (hts t rfl) t.blank _

theorem Breaks.startsOperator {r : List Char} (h : Breaks r) : startsOperator r = false := by
  rcases h with rfl | ⟨c, hc, hblank⟩
  · decide
  · obtain ⟨t, rfl⟩ := List.head?_eq_some_iff.mp hc
    simp only [isBlank, Bool.or_eq_true, beq_iff_eq] at hblank
    rcases hblank with rfl | rfl <;> simp [Parser.startsOperator]

theorem Breaks.stops_isDigitChar {r : List Char} (h : Breaks r) : Stops isDigitChar r := by
  rcases h with rfl | ⟨c, hc, hblank⟩
  · exact stops_cons.mpr (by decide)
  · obtain ⟨t, rfl⟩ := List.head?_eq_some_iff.mp hc
    simp only [isBlank, Bool.or_eq_true, beq_iff_eq] at hblank
    rcases hblank with rfl | rfl <;> exact stops_cons.mpr (by decide)

theorem assignmentsFit_of_gaps {ts : List (Placed assignment)} {r : List Char}
    (hts : ∀ t ∈ ts.tail, t.gap ≠ []) (hr : ts ≠ [] → Breaks r) : AssignmentsFit ts r := by
  induction ts with
  | nil => trivial
  | cons t ts ih =>
    refine ⟨breaks_join (fun t' ht' => hts t' (List.mem_of_head? ht')) (hr (by simp)), ih ?_ ?_⟩
    · intro t' ht'
      exact hts t' (List.mem_of_mem_tail ht')
    · intro _
      exact hr (by simp)

theorem argumentsFit_of_gaps {ts : List (Placed word)} {r : List Char}
    (hts : ∀ t ∈ ts, t.gap ≠ []) (hr : Breaks r) : ArgumentsFit ts r := by
  induction ts with
  | nil => trivial
  | cons t ts ih =>
    have htail : ∀ t' ∈ ts, t'.gap ≠ [] := fun t' ht' => hts t' (List.mem_cons_of_mem t ht')
    have hbreaks : Breaks (Placed.join ts ++ r) :=
      breaks_join (fun t' ht' => htail t' (List.mem_of_head? ht')) hr
    have hread := t.word_reads.2 _ hbreaks.endsWord
    exact ⟨hts t List.mem_cons_self, hbreaks.endsWord,
      redirect_mismatches_of_word hread hbreaks.startsOperator hbreaks.stops_isDigitChar, ih htail⟩

theorem endsBefore_of_breaks {d : Redirect} {r : List Char} (h : Breaks r)
    (hright : d.right = none → NoOperand (skipBlanks r)) : d.EndsBefore r := by
  unfold Redirect.EndsBefore
  split
  · next operand _ =>
    cases operand with
    | file w => exact h.endsWord
    | descriptor n => exact h.stops_isDigitChar
  · next hnone =>
    refine ⟨fun _ hhead => ?_, hright hnone⟩
    obtain ⟨t, rfl⟩ := List.head?_eq_some_iff.mp hhead
    exact absurd h.startsOperator (by simp [startsOperator])

theorem breaks_newline {trailing : List Char} (h : ∀ c ∈ trailing, isBlank c = true) :
    Breaks (trailing ++ ['\n']) := by
  cases trailing with
  | nil => exact Or.inl rfl
  | cons c trailing => exact breaks_append (by simp) h _

theorem redirectsFit_of_gaps {ts : List (Placed redirect)} {trailing : List Char}
    (hts : ∀ t ∈ ts.tail, t.gap ≠ []) (htrailing : ∀ c ∈ trailing, isBlank c = true)
    (hchain : ts.IsChain fun t t' => t.value.right = none → Stops isFragmentStart t'.text) :
    RedirectsFit ts (trailing ++ ['\n']) := by
  have hend := breaks_newline htrailing
  induction ts with
  | nil => trivial
  | cons t ts ih =>
    have hbreaks : Breaks (Placed.join ts ++ (trailing ++ ['\n'])) :=
      breaks_join (fun t' ht' => hts t' (List.mem_of_head? ht')) hend
    have hfit := ih (fun t' ht' => hts t' (List.mem_of_mem_tail ht')) hchain.tail
    refine ⟨endsBefore_of_breaks hbreaks ?_, hfit⟩
    intro hright
    cases ts with
    | nil =>
      rw [Placed.join_nil, List.nil_append, skipBlanks_newline htrailing]
      exact ⟨by decide, endsWord_newline.1⟩
    | cons t' ts =>
      rw [List.isChain_cons_cons] at hchain
      have hskip := t'.redirect_skip hfit.1
      obtain ⟨c, u, hu, hc⟩ := t'.redirect_head
      have hstop := hchain.1 hright
      rw [hu, stops_cons] at hstop
      rw [Placed.join_cons, List.append_assoc, List.append_assoc, hskip, hu]
      refine ⟨?_, stops_cons.mpr hstop⟩
      rintro ⟨⟩
      exact absurd hc (by decide)

/-- With a blank before every source, each of them ends where it would end alone. -/
theorem Layout.Spaced.fits {L : Layout} {trailing : List Char} (h : L.Spaced)
    (hunambiguous : L.Unambiguous) (htrailing : ∀ c ∈ trailing, isBlank c = true) :
    L.Fits (trailing ++ ['\n']) := by
  obtain ⟨ts, ws, ds, hneed, hname⟩ := L
  have hts : ∀ t ∈ ts.tail, t.gap ≠ [] := by
    intro t ht
    cases ts with
    | nil => simp at ht
    | cons a ts => exact h t.gap (List.mem_append_left _ (List.mem_map_of_mem ht))
  have hws : ∀ t ∈ ws.tail, t.gap ≠ [] := by
    intro t ht
    have hmem : t.gap ∈ (ws.map Placed.gap).tail := by
      rw [← List.map_tail]
      exact List.mem_map_of_mem ht
    cases ts with
    | nil =>
      cases ws with
      | nil => simp at ht
      | cons w ws => exact h t.gap (List.mem_append_left _ hmem)
    | cons a ts =>
      exact h t.gap (List.mem_append_right _ (List.mem_append_left _ (List.mem_of_mem_tail hmem)))
  have hds : ∀ t ∈ ds, t.gap ≠ [] := by
    intro t ht
    have hmem : t.gap ∈ ds.map Placed.gap := List.mem_map_of_mem ht
    cases ts with
    | nil =>
      cases ws with
      | nil => exact absurd rfl (hneed (List.ne_nil_of_mem ht))
      | cons w ws => exact h t.gap (List.mem_append_right _ hmem)
    | cons a ts => exact h t.gap (List.mem_append_right _ (List.mem_append_right _ hmem))
  have hbehind : Breaks (Placed.join ds ++ (trailing ++ ['\n'])) :=
    breaks_join (fun t ht => hds t (List.mem_of_head? ht)) (breaks_newline htrailing)
  refine ⟨assignmentsFit_of_gaps hts ?_, ?_, argumentsFit_of_gaps hws hbehind,
    redirectsFit_of_gaps (fun t ht => hds t (List.mem_of_mem_tail ht)) htrailing hunambiguous⟩
  · intro hne
    refine breaks_join (fun t ht => ?_) hbehind
    obtain ⟨a, ts, rfl⟩ : ∃ a ts', ts = a :: ts' := List.exists_cons_of_ne_nil hne
    have hmem : t.gap ∈ ws.map Placed.gap := List.mem_map_of_mem (List.mem_of_head? ht)
    exact h t.gap (List.mem_append_right _ (List.mem_append_left _ hmem))
  · intro t ht
    exact (breaks_join (fun t ht => hws t (List.mem_of_head? ht)) hbehind).endsWord

/-! ## Texts -/

theorem parse_of_terminated {text : String} {L : Layout} {trailing : List Char}
    (htrailing : ∀ c ∈ trailing, isBlank c = true) (h : L.Fits (trailing ++ ['\n']))
    (htext : terminated text.toList = L.text ++ (trailing ++ ['\n'])) :
    parse text = .ok L.line := by
  have hline := line_of_layout htrailing h
  have hend : atEnd ['\n'] = true := by decide
  simp [parse, whole, htext, hline, hend]

/-- Exactly the lines that have a layout are accepted, and they mean its line. -/
theorem parse_eq_ok_iff {text : String} {v : Line} :
    parse text = .ok v ↔
      ∃ (L : Layout) (trailing : List Char), (∀ c ∈ trailing, isBlank c = true) ∧
        L.Fits (trailing ++ ['\n']) ∧
        terminated text.toList = L.text ++ (trailing ++ ['\n']) ∧ L.line = v := by
  constructor
  · intro h
    simp only [parse, whole] at h
    split at h
    · simp at h
    · simp at h
    · next v' r hline =>
      split at h
      · next hend =>
        obtain rfl := Except.ok.inj h
        exact exists_layout hline hend
      · simp at h
  · rintro ⟨L, trailing, htrailing, hfits, htext, rfl⟩
    exact parse_of_terminated htrailing hfits htext

theorem getLast?_blanks_ne {gap : List Char} (h : ∀ c ∈ gap, isBlank c = true) :
    gap.getLast? ≠ some '\n' := by
  intro hlast
  exact absurd (h '\n' (List.mem_of_getLast? hlast)) (by decide)

theorem Placed.getLast?_join_ne {α : Type} {p : Production α}
    (hp : ∀ t : Source p, t.text.getLast? ≠ some '\n') (ts : List (Placed p)) :
    (Placed.join ts).getLast? ≠ some '\n' := by
  induction ts with
  | nil => simp
  | cons t ts ih =>
    rw [Placed.join_cons]
    exact getLast?_append_ne (getLast?_blanks_ne t.blank) (getLast?_append_ne (hp t.toSource) ih)

theorem Layout.getLast?_text_ne (L : Layout) : L.text.getLast? ≠ some '\n' := by
  refine getLast?_append_ne ?_ (getLast?_append_ne ?_ ?_)
  · exact Placed.getLast?_join_ne (fun t => t.assignment_reads.1.getLast?_ne) L.assignments
  · exact Placed.getLast?_join_ne (fun t => t.word_reads.1.getLast?_ne) L.words
  · exact Placed.getLast?_join_ne (fun t => t.redirect_reads.1.getLast?_ne) L.redirects

theorem Layout.terminated_text (L : Layout) {trailing : List Char}
    (htrailing : ∀ c ∈ trailing, isBlank c = true) :
    terminated (L.text ++ trailing) = L.text ++ (trailing ++ ['\n']) := by
  have hlast := getLast?_append_ne L.getLast?_text_ne (getLast?_blanks_ne htrailing)
  rw [terminated, if_neg hlast, List.append_assoc]

theorem parseRedirect_eq_ok_iff {text : String} {d : Redirect}
    (htext : text.toList.getLast? ≠ some '\n') :
    parseRedirect text = .ok d ↔ redirect (text.toList ++ ['\n']) = .ok (d, ['\n']) := by
  have hterminated : terminated text.toList = text.toList ++ ['\n'] := by simp [terminated, htext]
  simp only [parseRedirect, whole, hterminated]
  constructor
  · intro h
    split at h
    · simp at h
    · simp at h
    · next d' r hread =>
      split at h
      · next hend =>
        have hr : r = ['\n'] := by simpa [atEnd] using hend
        obtain rfl := Except.ok.inj h
        rw [hread, hr]
      · simp at h
  · intro h
    rw [h]
    rfl

/-- Every accepted line consists of sources and blanks and means what its sources mean alone;
sources with blanks between them, and around them, are accepted as the line of their values; and
the sources of redirects are the texts that are accepted as redirects. -/
theorem parse_accounts_for_layout :
    (∀ (text : String) (v : Line), parse text = .ok v →
      ∃ (L : Layout) (trailing : List Char), L.Separated ∧ L.Unambiguous ∧
        (∀ c ∈ trailing, isBlank c = true) ∧
        terminated text.toList = L.text ++ trailing ++ ['\n'] ∧ L.line = v) ∧
    (∀ (L : Layout) (trailing : List Char), L.Spaced → L.Unambiguous →
      (∀ c ∈ trailing, isBlank c = true) →
        parse (String.ofList (L.text ++ trailing)) = .ok L.line) ∧
    ∀ (text : String) (d : Redirect), text.toList.getLast? ≠ some '\n' →
      (parseRedirect text = .ok d ↔ ∃ t : Source redirect, t.text = text.toList ∧ t.value = d) := by
  refine ⟨?_, ?_, ?_⟩
  · intro text v h
    rcases parse_eq_ok_iff.mp h with ⟨L, trailing, htrailing, hfits, htext, hline⟩
    refine ⟨L, trailing, hfits.separated, hfits.unambiguous, htrailing, ?_, hline⟩
    rw [htext, List.append_assoc]
  · intro L trailing hspaced hunambiguous htrailing
    apply parse_of_terminated htrailing (hspaced.fits hunambiguous htrailing)
    rw [String.toList_ofList]
    exact L.terminated_text htrailing
  · intro text d htext
    rw [parseRedirect_eq_ok_iff htext]
    constructor
    · intro h
      exact ⟨⟨text.toList, d, h⟩, rfl, rfl⟩
    · rintro ⟨⟨text', d', h⟩, rfl, rfl⟩
      exact h

end LineShell
