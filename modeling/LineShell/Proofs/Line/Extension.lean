import LineShell.Proofs.Line.Layout
import LineShell.Proofs.Redirect.Beginning

/-!
# Layouts that are extended

What is read of the sources of a line depends on the text behind them at most up to the operator
of the next redirect, and for assignments and words up to the next character.  So the text behind a
layout can be exchanged, and a source can be added to it.
-/

namespace LineShell

open LineShell.Parser
open Production (Mismatches)

/-! ## Exchanging what follows -/

section Exchange

variable {b x y : List Char} {c : Char}

theorem head?_exchange (b x y : List Char) (c : Char) :
    (b ++ c :: y).head? = (b ++ c :: x).head? := by
  cases b <;> rfl

theorem skipBlanks_head?_exchange (hc : isBlank c = false) :
    (skipBlanks (b ++ c :: y)).head? = (skipBlanks (b ++ c :: x)).head? := by
  induction b with
  | nil => simp [skipBlanks, hc]
  | cons d b ih =>
    cases hd : isBlank d with
    | true => simpa [skipBlanks, hd] using ih
    | false => simp [skipBlanks, hd]

theorem Breaks.exchange (h : Breaks (b ++ c :: x)) (hc : c ≠ '\n') : Breaks (b ++ c :: y) := by
  rcases h with h | ⟨d, hd, hblank⟩
  · have hmem : c ∈ ['\n'] := by
      rw [← h]
      simp
    exact absurd (List.mem_singleton.mp hmem) hc
  · rw [← head?_exchange b x y c] at hd
    exact Or.inr ⟨d, hd, hblank⟩

theorem Parser.EndsWord.exchange (h : EndsWord (b ++ c :: x)) : EndsWord (b ++ c :: y) := by
  have hhead := head?_exchange b x y c
  refine ⟨h.1.of_head?_eq hhead, ?_⟩
  rw [hhead]
  exact h.2

theorem Redirect.EndsBefore.exchange {d : Redirect} (h : d.EndsBefore (b ++ c :: x))
    (hc : isBlank c = false) : d.EndsBefore (b ++ c :: y) := by
  have hhead := head?_exchange b x y c
  unfold Redirect.EndsBefore at h ⊢
  split
  · next operand hright =>
    rw [hright] at h
    cases operand with
    | file w => exact EndsWord.exchange h
    | descriptor n => exact Stops.of_head?_eq h hhead
  · next hright =>
    rw [hright] at h
    obtain ⟨hsingle, hamp, hstop⟩ := h
    have hskip := skipBlanks_head?_exchange (b := b) (x := x) (y := y) hc
    refine ⟨fun hkind => ?_, ?_, hstop.of_head?_eq hskip⟩
    · rw [hhead]
      exact hsingle hkind
    · rw [hskip]
      exact hamp

theorem AssignmentsFit.mono {ts : List (Placed assignment)} {r r' : List Char}
    (h : AssignmentsFit ts r) (hr : Breaks r → Breaks r') : AssignmentsFit ts r' := by
  induction ts with
  | nil => trivial
  | cons t ts ih =>
    obtain ⟨hbreaks, hfit⟩ := h
    refine ⟨?_, ih hfit⟩
    cases ts with
    | nil => exact hr hbreaks
    | cons t' ts =>
      rw [Placed.join_cons, List.append_assoc, List.append_assoc] at hbreaks ⊢
      have hgap := gap_ne_nil_of_breaks hbreaks t'.assignment_head
      exact breaks_append hgap t'.blank _

theorem ArgumentsFit.exchange {ts : List (Placed word)} (h : ArgumentsFit ts (b ++ c :: x))
    (hdigit : isDigitChar c = false) (hpath : isPathChar c = false) :
    ArgumentsFit ts (b ++ c :: y) := by
  induction ts with
  | nil => trivial
  | cons t ts ih =>
    obtain ⟨hgap, hends, hmismatch, hfit⟩ := h
    rw [← List.append_assoc] at hends
    refine ⟨hgap, ?_, ?_, ih hfit⟩
    · rw [← List.append_assoc]
      exact hends.exchange
    · rw [redirect_mismatches_iff, ← List.append_assoc, ← List.append_assoc] at hmismatch ⊢
      exact fun hbegins => hmismatch (hbegins.exchange hdigit hpath)

theorem RedirectsFit.exchange {ts : List (Placed redirect)} (h : RedirectsFit ts (b ++ c :: x))
    (hc : isBlank c = false) : RedirectsFit ts (b ++ c :: y) := by
  induction ts with
  | nil => trivial
  | cons t ts ih =>
    obtain ⟨hends, hfit⟩ := h
    rw [← List.append_assoc] at hends
    refine ⟨?_, ih hfit⟩
    rw [← List.append_assoc]
    exact hends.exchange hc

/-- A layout that fits a text with an operator fits every text that is the same up to there. -/
theorem Layout.Fits.exchange {L : Layout} (h : L.Fits (b ++ c :: x)) (hc : c = '<' ∨ c = '>') :
    L.Fits (b ++ c :: y) := by
  obtain ⟨hassignments, hname, harguments, hredirects⟩ := h
  have hplain : c ≠ '\n' ∧ isBlank c = false ∧ isDigitChar c = false ∧ isPathChar c = false := by
    rcases hc with rfl | rfl <;> decide
  obtain ⟨hnewline, hblank, hdigit, hpath⟩ := hplain
  refine ⟨hassignments.mono fun hbreaks => ?_, fun t ht => ?_, ?_, hredirects.exchange hblank⟩
  · rw [← List.append_assoc, ← List.append_assoc] at hbreaks ⊢
    exact hbreaks.exchange hnewline
  · have hends := hname t ht
    rw [← List.append_assoc, ← List.append_assoc] at hends ⊢
    exact hends.exchange
  · rw [← List.append_assoc] at harguments ⊢
    exact harguments.exchange hdigit hpath

end Exchange

/-! ## Layouts with one more source -/

theorem Placed.join_append {α : Type} {p : Production α} (ts us : List (Placed p)) :
    Placed.join (ts ++ us) = Placed.join ts ++ Placed.join us := by
  simp [Placed.join]

theorem assignmentsFit_concat {ts : List (Placed assignment)} {t : Placed assignment}
    {r : List Char} (hts : AssignmentsFit ts (t.gap ++ (t.text ++ r))) (hr : Breaks r) :
    AssignmentsFit (ts ++ [t]) r := by
  induction ts with
  | nil => exact ⟨hr, trivial⟩
  | cons t' ts ih =>
    obtain ⟨hbreaks, hfit⟩ := hts
    refine ⟨?_, ih hfit⟩
    simpa [Placed.join_append] using hbreaks

theorem redirectsFit_concat {ts : List (Placed redirect)} {t : Placed redirect} {r : List Char}
    (hts : RedirectsFit ts (t.gap ++ (t.text ++ r))) (hr : t.value.EndsBefore r) :
    RedirectsFit (ts ++ [t]) r := by
  induction ts with
  | nil => exact ⟨hr, trivial⟩
  | cons t' ts ih =>
    obtain ⟨hends, hfit⟩ := hts
    refine ⟨?_, ih hfit⟩
    simpa [Placed.join_append] using hends

namespace Layout

def addRedirect (L : Layout) (hwords : L.words ≠ []) (t : Placed redirect) : Layout :=
  { L with redirects := L.redirects ++ [t], words_ne_nil := fun _ => hwords }

theorem addRedirect_text (L : Layout) (hwords : L.words ≠ []) (t : Placed redirect) :
    (L.addRedirect hwords t).text = L.text ++ (t.gap ++ t.text) := by
  simp [text, addRedirect, Placed.join_append]

theorem Fits.addRedirect {L : Layout} {hwords : L.words ≠ []} {t : Placed redirect}
    {r : List Char} (h : L.Fits (t.gap ++ (t.text ++ r))) (hr : t.value.EndsBefore r) :
    (L.addRedirect hwords t).Fits r := by
  obtain ⟨hassignments, hname, harguments, hredirects⟩ := h
  have hjoin : Placed.join (L.redirects ++ [t]) ++ r =
      Placed.join L.redirects ++ (t.gap ++ (t.text ++ r)) := by simp [Placed.join_append]
  refine ⟨?_, ?_, ?_, redirectsFit_concat hredirects hr⟩
  · simpa [Layout.addRedirect, hjoin] using hassignments
  · simpa [Layout.addRedirect, hjoin] using hname
  · simpa [Layout.addRedirect, hjoin] using harguments

def addWord (L : Layout) (hwords : L.words ≠ []) (t : Placed word) : Layout :=
  { L with
    words := L.words ++ [t]
    words_ne_nil := fun _ => by simp
    not_assignment := by
      obtain ⟨w, ws, hw⟩ := List.exists_cons_of_ne_nil hwords
      intro t' ht'
      rw [hw] at ht'
      exact L.not_assignment t' (by rw [hw]; exact ht') }

theorem addWord_text (L : Layout) (hwords : L.words ≠ []) (hnone : L.redirects = [])
    (t : Placed word) : (L.addWord hwords t).text = L.text ++ (t.gap ++ t.text) := by
  simp [text, addWord, Placed.join_append, hnone]

theorem Spaced.addWord {L : Layout} (h : L.Spaced) (hwords : L.words ≠ [])
    (hnone : L.redirects = []) {t : Placed word} (ht : t.gap ≠ []) :
    (L.addWord hwords t).Spaced := by
  have hgaps : (L.addWord hwords t).gaps = L.gaps ++ [t.gap] := by
    obtain ⟨w, ws, hw⟩ := List.exists_cons_of_ne_nil hwords
    cases has : L.assignments <;> simp [gaps, Layout.addWord, hnone, hw, has]
  intro gap hgap
  rw [hgaps] at hgap
  rcases List.mem_append.mp hgap with hgap | hgap
  · exact h gap hgap
  · rw [List.mem_singleton.mp hgap]
    exact ht

end Layout

end LineShell
