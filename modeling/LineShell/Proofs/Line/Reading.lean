import LineShell.Proofs.Line.Source

/-!
# Reading a command

The productions of a command are runs: of assignments, of words and of redirects.  Here a run is
compared with a list of sources in their places.  Each run reads the sources exactly if every one
of them ends where the text behind it begins, and if none of the words is the beginning of a
redirect.
-/

namespace LineShell

open LineShell.Parser
open Production (Steps Mismatches)

/-! ## Blanks -/

def Breaks (s : List Char) : Prop :=
  s = ['\n'] ∨ ∃ c ∈ s.head?, isBlank c = true

theorem Breaks.endsWord {s : List Char} (h : Breaks s) : EndsWord s := by
  rcases h with rfl | ⟨c, hc, hblank⟩
  · exact endsWord_newline
  · obtain ⟨t, rfl⟩ := List.head?_eq_some_iff.mp hc
    simp only [isBlank, Bool.or_eq_true, beq_iff_eq] at hblank
    rcases hblank with rfl | rfl <;> exact endsWord_of_head (by decide) (by decide) t

theorem breaks_append {gap : List Char} (hne : gap ≠ []) (hblank : ∀ c ∈ gap, isBlank c = true)
    (s : List Char) : Breaks (gap ++ s) := by
  obtain ⟨c, gap, rfl⟩ := List.exists_cons_of_ne_nil hne
  exact Or.inr ⟨c, rfl, hblank c List.mem_cons_self⟩

theorem separator_eq_ok_iff {s r : List Char} :
    separator s = .ok r ↔ Breaks s ∧ r = skipBlanks s := by
  have hcond : (s.head?.any isBlank || atEnd s) = true ↔ Breaks s := by
    cases s with
    | nil => simp [Breaks, atEnd]
    | cons c t => simp [Breaks, atEnd, or_comm]
  constructor
  · intro h
    refine ⟨hcond.mp ?_, separator_ok h⟩
    unfold separator at h
    split at h
    · assumption
    · simp [mismatch] at h
  · rintro ⟨hbreaks, rfl⟩
    simp [separator, hcond.mpr hbreaks]

theorem exists_blanks (s : List Char) :
    ∃ gap, (∀ c ∈ gap, isBlank c = true) ∧ s = gap ++ skipBlanks s :=
  ⟨s.takeWhile isBlank, fun _ => List.mem_takeWhile_imp, List.takeWhile_append_dropWhile.symm⟩

theorem stops_skipBlanks (s : List Char) : Stops isBlank (skipBlanks s) :=
  stops_dropWhile isBlank s

theorem stops_isBlank_of_isPathChar {c : Char} (h : isPathChar c = true) (t : List Char) :
    Stops isBlank (c :: t) :=
  stops_cons.mpr (isBlank_of_isFragmentStart (by simp [isFragmentStart, h]))

/-! ## Runs of assignments -/

/-- Between assignments there are blanks, and behind the last one there are blanks or the end. -/
def AssignmentsFit : List (Placed assignment) → List Char → Prop
  | [], _ => True
  | _ :: ts, r => Breaks (Placed.join ts ++ r) ∧ AssignmentsFit ts r

theorem assignmentPrefix_of_fit {ts : List (Placed assignment)} {gap r : List Char}
    (hts : AssignmentsFit ts (gap ++ r)) (hgap : ∀ c ∈ gap, isBlank c = true)
    (hr : Stops isBlank r) (hend : ¬ BeginsAssignment r) :
    assignmentPrefix (skipBlanks (Placed.join ts ++ (gap ++ r))) = .ok (Placed.values ts, r) := by
  induction ts with
  | nil =>
    obtain ⟨fault, hfault⟩ := assignment_mismatches_iff.mpr hend
    rw [Placed.join_nil, List.nil_append, skipBlanks_append_of_stops hgap hr, assignmentPrefix,
      hfault]
    rfl
  | cons t ts ih =>
    obtain ⟨hbreaks, hfit⟩ := hts
    have hread := t.assignment_reads.2 _ hbreaks.endsWord
    have hstops : Stops isBlank (t.text ++ (Placed.join ts ++ (gap ++ r))) := by
      obtain ⟨c, u, hu, hc⟩ := assignment_head hread
      rw [hu]
      exact stops_isBlank_of_isPathChar hc u
    have hsep := separator_eq_ok_iff.mpr ⟨hbreaks, rfl⟩
    have hlt := length_separator_lt hread hsep
    rw [Placed.join_cons, List.append_assoc, List.append_assoc,
      skipBlanks_append_of_stops t.blank hstops, assignmentPrefix, hread]
    simp only [hsep, hlt, ↓reduceIte, ih hfit]
    rfl

theorem assignmentPrefix_ok {s r : List Char} {as : List Assignment}
    (h : assignmentPrefix s = .ok (as, r)) (hs : Stops isBlank s) {before : List Char}
    (hbefore : ∀ c ∈ before, isBlank c = true) :
    ∃ ts : List (Placed assignment), ∃ gap, (∀ c ∈ gap, isBlank c = true) ∧
      before ++ s = Placed.join ts ++ (gap ++ r) ∧ Placed.values ts = as ∧
      AssignmentsFit ts (gap ++ r) ∧ Stops isBlank r ∧ ¬ BeginsAssignment r := by
  fun_induction assignmentPrefix s generalizing as r before with
  | case1 s fault hfault =>
    simp only [Except.ok.injEq, Prod.mk.injEq] at h
    obtain ⟨rfl, rfl⟩ := h
    exact ⟨[], before, hbefore, rfl, rfl, trivial, hs,
      assignment_mismatches_iff.mp ⟨fault, hfault⟩⟩
  | case2 => simp at h
  | case3 => simp at h
  | case4 => simp at h
  | case5 s a t ha u hu _ as' r' hprefix ih =>
    simp only [Except.ok.injEq, Prod.mk.injEq] at h
    obtain ⟨rfl, rfl⟩ := h
    obtain ⟨hbreaks, rfl⟩ := separator_eq_ok_iff.mp hu
    obtain ⟨src, rfl, rfl⟩ := exists_assignment_source ha
    obtain ⟨behind, hbehind, ht⟩ := exists_blanks t
    obtain ⟨ts, gap, hgap, htext, hvalues, hfit, hr, hend⟩ :=
      ih hprefix (stops_skipBlanks t) hbehind
    rw [← ht] at htext
    refine ⟨⟨src, before, hbefore⟩ :: ts, gap, hgap, ?_, by rw [Placed.values_cons, hvalues],
      ⟨htext ▸ hbreaks, hfit⟩, hr, hend⟩
    rw [Placed.join_cons, htext]
    simp
  | case6 s a t ha u hu hlt => exact absurd (length_separator_lt ha hu) hlt

/-! ## Runs of words -/

/-- Behind blanks the line ends, or something begins with which a redirect can begin. -/
def OpensRedirect (r : List Char) : Prop :=
  ∃ c t, skipBlanks r = c :: t ∧ (c = '\n' ∨ isRedirectStart c = true)

theorem endsWord_of_opens {c : Char} (hpath : isPathChar c = false)
    (hc : c = '\n' ∨ isRedirectStart c = true) (t : List Char) : EndsWord (c :: t) := by
  simp only [isRedirectStart, hpath, Bool.or_false, Bool.or_eq_true, beq_iff_eq] at hc
  rcases hc with rfl | (rfl | rfl) | hdigit
  · exact endsWord_of_head (by decide) (by decide) t
  · exact endsWord_of_head (by decide) (by decide) t
  · exact endsWord_of_head (by decide) (by decide) t
  · have hstart : isFragmentStart c = false := by
      cases hstart : isFragmentStart c with
      | false => rfl
      | true =>
        rw [isDigitChar_of_isFragmentStart hstart hpath] at hdigit
        exact absurd hdigit (by decide)
    refine endsWord_of_head hstart ?_ t
    rintro rfl
    exact absurd hdigit (by decide)

theorem OpensRedirect.endsWord {r : List Char} (h : OpensRedirect r) (hr : Stops isPathChar r) :
    EndsWord r := by
  obtain ⟨c, t, hskip, hc⟩ := h
  cases r with
  | nil => simp [skipBlanks] at hskip
  | cons d u =>
    cases hd : isBlank d with
    | true => exact Breaks.endsWord (Or.inr ⟨d, rfl, hd⟩)
    | false =>
      have hhead : d = c := by
        rw [skipBlanks, (stops_cons.mpr hd).dropWhile_eq] at hskip
        exact (List.cons.inj hskip).1
      subst hhead
      exact endsWord_of_opens (stops_cons.mp hr) hc u

theorem nextArgument_eq_ok_iff {s r : List Char} {w : Word} :
    nextArgument s = .ok (w, r) ↔
      skipBlanks s ≠ s ∧ Mismatches redirect (skipBlanks s) ∧ word (skipBlanks s) = .ok (w, r) := by
  constructor
  · intro h
    simp only [nextArgument] at h
    split at h
    · simp [mismatch] at h
    · split at h
      · simp [mismatch] at h
      · next fault hfault =>
        split at h
        · simp [rejection] at h
        · next hblank =>
          split at h
          · simp [rejection] at h
          · exact ⟨hblank, ⟨fault, hfault⟩, h⟩
      · simp at h
  · rintro ⟨hblank, ⟨fault, hfault⟩, hword⟩
    have hend : atEnd (skipBlanks s) = false := by
      obtain ⟨c, t, hs, hc⟩ := word_head hword
      rw [hs]
      cases hend : atEnd (c :: t) with
      | false => rfl
      | true =>
        obtain ⟨rfl, -⟩ : c = '\n' ∧ t = [] := by simpa [atEnd] using hend
        exact absurd hc (by decide)
    simp only [nextArgument, hend, hfault, hblank, hword, Bool.false_eq_true, ↓reduceIte]

/-- Every word stands behind a blank, ends where the text behind it begins, and is not the
beginning of a redirect. -/
def ArgumentsFit : List (Placed word) → List Char → Prop
  | [], _ => True
  | t :: ts, r =>
      t.gap ≠ [] ∧ EndsWord (Placed.join ts ++ r) ∧
        Mismatches redirect (t.text ++ (Placed.join ts ++ r)) ∧ ArgumentsFit ts r

theorem Placed.word_skip (t : Placed word) {r : List Char} (hr : EndsWord r) :
    skipBlanks (t.gap ++ (t.text ++ r)) = t.text ++ r := by
  obtain ⟨c, u, hu, hc⟩ := word_head (t.word_reads.2 r hr)
  rw [hu]
  exact skipBlanks_append_of_stops t.blank (stops_cons.mpr (isBlank_of_isFragmentStart hc))

theorem arguments_of_fit {ts : List (Placed word)} {r : List Char} (h : ArgumentsFit ts r) :
    Steps nextArgument (Placed.join ts ++ r) (Placed.values ts) r := by
  induction ts with
  | nil => exact .nil r
  | cons t ts ih =>
    obtain ⟨hgap, hends, hmismatch, hfit⟩ := h
    have hskip := t.word_skip hends
    rw [Placed.join_cons, List.append_assoc, List.append_assoc]
    refine .cons (nextArgument_eq_ok_iff.mpr ⟨?_, ?_, ?_⟩) (ih hfit)
    · rw [hskip]
      intro hself
      exact hgap (List.self_eq_append_left.mp hself)
    · rw [hskip]
      exact hmismatch
    · rw [hskip]
      exact t.word_reads.2 _ hends

theorem exists_arguments {s r : List Char} {ws : List Word} (h : Steps nextArgument s ws r)
    (hs : Stops isPathChar s) (hr : OpensRedirect r) :
    Stops isPathChar r ∧
      ∃ ts, s = Placed.join ts ++ r ∧ Placed.values ts = ws ∧ ArgumentsFit ts r := by
  induction h with
  | nil s => exact ⟨hs, [], rfl, rfl, trivial⟩
  | @cons s u r w ws head _ ih =>
    obtain ⟨hblank, hmismatch, hword⟩ := nextArgument_eq_ok_iff.mp head
    obtain ⟨hstop, ts, rfl, rfl, hfit⟩ := ih (stops_isPathChar_of_word hword) hr
    obtain ⟨gap, hgap, hsplit⟩ := exists_blanks s
    obtain ⟨src, hsrc, rfl⟩ := exists_word_source hword
    rw [hsrc] at hsplit hmismatch
    refine ⟨hstop, ⟨src, gap, hgap⟩ :: ts, by rw [hsplit]; simp, rfl, ?_, ?_, hmismatch, hfit⟩
    · rintro rfl
      rw [hsrc] at hblank
      exact hblank hsplit.symm
    · cases ts with
      | nil => exact hr.endsWord hstop
      | cons t ts =>
        rw [Placed.join_cons, List.append_assoc]
        exact (breaks_append hfit.1 t.blank _).endsWord

/-! ## Runs of redirects -/

theorem Placed.redirect_skip (t : Placed redirect) {r : List Char} (hr : t.value.EndsBefore r) :
    skipBlanks (t.gap ++ (t.text ++ r)) = t.text ++ r := by
  obtain ⟨c, u, hu, hc⟩ := redirect_head (t.redirect_reads.2 r hr)
  rw [hu]
  exact skipBlanks_append_of_stops t.blank (stops_cons.mpr (isBlank_of_isRedirectStart hc))

theorem opensRedirect_of_skip {s : List Char} {r : List Char} {d : Redirect}
    (h : redirect (skipBlanks s) = .ok (d, r)) : OpensRedirect s := by
  obtain ⟨c, t, hs, hc⟩ := redirect_head h
  exact ⟨c, t, hs, Or.inr hc⟩

theorem nextRedirect_eq_ok_iff {s r : List Char} {d : Redirect} :
    nextRedirect s = .ok (d, r) ↔ redirect (skipBlanks s) = .ok (d, r) := by
  constructor
  · intro h
    simp only [nextRedirect] at h
    split at h
    · simp [mismatch] at h
    · split at h
      · simp [rejection] at h
      · exact h
  · intro h
    have hend : atEnd (skipBlanks s) = false := by
      cases hend : atEnd (skipBlanks s) with
      | false => rfl
      | true =>
        have hline : skipBlanks s = ['\n'] := by simpa [atEnd] using hend
        obtain ⟨c, t, hs, hc⟩ := redirect_head h
        rw [hline] at hs
        obtain ⟨rfl, -⟩ := List.cons.inj hs
        exact absurd hc (by decide)
    simp only [nextRedirect, hend, h, Bool.false_eq_true, ↓reduceIte]

/-- Every redirect ends where the text behind it begins. -/
def RedirectsFit : List (Placed redirect) → List Char → Prop
  | [], _ => True
  | t :: ts, r => t.value.EndsBefore (Placed.join ts ++ r) ∧ RedirectsFit ts r

theorem redirects_of_fit {ts : List (Placed redirect)} {r : List Char} (h : RedirectsFit ts r) :
    Steps nextRedirect (Placed.join ts ++ r) (Placed.values ts) r := by
  induction ts with
  | nil => exact .nil r
  | cons t ts ih =>
    obtain ⟨hends, hfit⟩ := h
    rw [Placed.join_cons, List.append_assoc, List.append_assoc]
    refine .cons (nextRedirect_eq_ok_iff.mpr ?_) (ih hfit)
    rw [t.redirect_skip hends]
    exact t.redirect_reads.2 _ hends

theorem opensRedirect_of_steps {s r : List Char} {ds : List Redirect}
    (h : Steps nextRedirect s ds r) (hr : OpensRedirect r) : OpensRedirect s := by
  cases h with
  | nil => exact hr
  | cons head _ => exact opensRedirect_of_skip (nextRedirect_eq_ok_iff.mp head)

theorem endsBefore_of_redirect {s r : List Char} {d : Redirect} (h : redirect s = .ok (d, r))
    (hr : OpensRedirect r) : d.EndsBefore r := by
  obtain ⟨w, u, -, -, -, hu, ⟨hright, hread, rfl⟩ | ⟨operand, hright, hread⟩⟩ :=
    redirect_eq_ok_iff.mp h
  · rcases rightOperand_ok hread with ⟨-, -, hamp, fault, hfault⟩ | ⟨_, _, _, _, h, _⟩ | ⟨_, h, _⟩
    · simp only [Redirect.EndsBefore, hright]
      obtain ⟨c, t, hskip, hc⟩ := hr
      have hstop := stops_isPathChar_of_fragment (fragment_mismatches_of_word ⟨fault, hfault⟩)
      rw [hskip] at hstop
      have hpath : isPathChar c = false := stops_cons.mp hstop
      refine ⟨hu, hamp, ?_⟩
      rw [hskip]
      exact (endsWord_of_opens hpath hc t).1
    · simp at h
    · simp at h
  · simp only [Redirect.EndsBefore, hright]
    rcases rightOperand_ok hread with ⟨h, -⟩ | ⟨_, n, _, _, hop, _, hstop⟩ | ⟨v, hop, hword⟩
    · simp at h
    · obtain rfl := Option.some.inj hop
      exact hstop
    · obtain rfl := Option.some.inj hop
      exact hr.endsWord (stops_isPathChar_of_word hword)

theorem exists_redirects {s r : List Char} {ds : List Redirect} (h : Steps nextRedirect s ds r)
    (hr : OpensRedirect r) :
    ∃ ts, s = Placed.join ts ++ r ∧ Placed.values ts = ds ∧ RedirectsFit ts r := by
  induction h with
  | nil s => exact ⟨[], rfl, rfl, trivial⟩
  | @cons s u r d ds head tail ih =>
    have hread := nextRedirect_eq_ok_iff.mp head
    have hends := endsBefore_of_redirect hread (opensRedirect_of_steps tail hr)
    obtain ⟨ts, rfl, rfl, hfit⟩ := ih hr
    obtain ⟨gap, hgap, hsplit⟩ := exists_blanks s
    obtain ⟨src, hsrc, rfl⟩ := exists_redirect_source hread
    rw [hsrc] at hsplit
    exact ⟨⟨src, gap, hgap⟩ :: ts, by rw [hsplit]; simp, rfl, hends, hfit⟩

/-! ## Commands -/

/-- Read from the beginning of `s`, the parts of the command leave `r`. -/
def ReadsCommand (s : List Char) (c : Command) (r : List Char) : Prop :=
  ∃ t u v w ws, assignmentPrefix (skipBlanks s) = .ok (c.assignments, t) ∧
    word t = .ok (w, u) ∧ Steps nextArgument u ws v ∧ Steps nextRedirect v c.redirects r ∧
    c.arguments = w :: ws

theorem skipBlanks_eq_newline {s : List Char} (h : atEnd (skipBlanks s) = true) :
    skipBlanks s = ['\n'] := by
  simpa [atEnd] using h

theorem redirect_newline : Mismatches redirect ['\n'] :=
  redirect_mismatches (by decide) (by decide)

theorem nextRedirect_mismatches_iff {s : List Char} :
    Mismatches nextRedirect s ↔ skipBlanks s = ['\n'] := by
  constructor
  · rintro ⟨fault, hfault⟩
    simp only [nextRedirect] at hfault
    split at hfault
    · next hend => exact skipBlanks_eq_newline hend
    · split at hfault
      · simp [rejection] at hfault
      · next hnot => exact absurd hfault (hnot fault)
  · intro h
    exact ⟨⟨.redirect, ['\n']⟩, by simp [nextRedirect, h, atEnd, mismatch]⟩

theorem nextArgument_mismatches {s r : List Char} {ds : List Redirect}
    (h : Steps nextRedirect s ds r) (hr : ds = [] → skipBlanks r = ['\n']) :
    Mismatches nextArgument s := by
  cases h with
  | nil =>
    exact ⟨⟨.argument, ['\n']⟩, by simp [nextArgument, hr rfl, atEnd, mismatch]⟩
  | cons head _ =>
    have hread := nextRedirect_eq_ok_iff.mp head
    have hend : atEnd (skipBlanks s) = false := by
      cases hend : atEnd (skipBlanks s) with
      | false => rfl
      | true =>
        obtain ⟨fault, hfault⟩ := redirect_newline
        rw [skipBlanks_eq_newline hend, hfault] at hread
        simp at hread
    exact ⟨⟨.argument, skipBlanks s⟩, by simp [nextArgument, hend, hread, mismatch]⟩

theorem command_eq_ok_iff {s r : List Char} {c : Command} :
    command s = .ok (c, r) ↔
      r = ['\n'] ∧ ∃ r₀, ReadsCommand s c r₀ ∧ skipBlanks r₀ = ['\n'] := by
  constructor
  · intro h
    unfold command at h
    split at h
    · simp at h
    · next as t has =>
      split at h
      · simp at h
      · next w u hw =>
        unfold argumentsAndRedirects redirects at h
        cases harguments : Production.repeated nextArgument u with
        | error failure => simp [harguments] at h
        | ok reading =>
          obtain ⟨ws, v⟩ := reading
          cases hredirects : Production.repeated nextRedirect v with
          | error failure => simp [harguments, hredirects] at h
          | ok reading =>
            obtain ⟨ds, r₀⟩ := reading
            simp only [harguments, hredirects, Except.ok.injEq, Prod.mk.injEq] at h
            obtain ⟨rfl, rfl⟩ := h
            obtain ⟨hws, -⟩ := (Production.repeated_eq_ok_iff nextArgument_consumes).mp harguments
            obtain ⟨hds, hmismatch⟩ :=
              (Production.repeated_eq_ok_iff nextRedirect_consumes).mp hredirects
            have hend := nextRedirect_mismatches_iff.mp hmismatch
            exact ⟨hend, r₀, ⟨t, u, v, w, ws, has, hw, hws, hds, rfl⟩, hend⟩
  · obtain ⟨as, args, ds⟩ := c
    rintro ⟨rfl, r₀, ⟨t, u, v, w, ws, has, hw, hws, hds, rfl⟩, hend⟩
    have harguments : Production.repeated nextArgument u = .ok (ws, v) :=
      hws.repeated_eq_ok nextArgument_consumes (nextArgument_mismatches hds fun _ => hend)
    have hredirects : Production.repeated nextRedirect v = .ok (ds, r₀) :=
      hds.repeated_eq_ok nextRedirect_consumes (nextRedirect_mismatches_iff.mpr hend)
    simp only at has
    simp [command, has, hw, argumentsAndRedirects, harguments, redirects, hredirects, hend]

end LineShell
