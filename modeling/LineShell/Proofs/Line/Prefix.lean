import LineShell.Proofs.Line.RoundTrip

/-!
# Assignments in front of a command

Assignments and a command can stand on lines of their own, or on one line with a blank between
them.  In both cases the assignments are the same, and so are the words and redirects of the
command.
-/

namespace LineShell

open LineShell.Parser

theorem terminated_append_blank (front back : List Char) :
    terminated (front ++ ' ' :: back) = front ++ ' ' :: terminated back := by
  have hlast : (front ++ ' ' :: back).getLast? = some '\n' ↔ back.getLast? = some '\n' := by
    cases back with
    | nil => simp
    | cons c back => simp [List.getLast?_append, List.getLast?_cons_cons]
  unfold terminated
  by_cases hback : back.getLast? = some '\n'
  · rw [if_pos (hlast.mpr hback), if_pos hback]
  · rw [if_neg (mt hlast.mp hback), if_neg hback]
    simp

theorem exists_placed_assignments {text : String} {as : List Assignment}
    (h : parse text = .ok (.assignments as)) (hlast : text.toList.getLast? ≠ some '\n') :
    ∃ (ts : List (Placed assignment)) (trailing : List Char),
      (∀ c ∈ trailing, isBlank c = true) ∧ text.toList = Placed.join ts ++ trailing ∧
        Placed.values ts = as ∧ ∀ t ∈ ts.tail, t.gap ≠ [] := by
  obtain ⟨L, trailing, htrailing, hfits, htext, hline⟩ := parse_eq_ok_iff.mp h
  have hwords : L.words = [] := by
    by_contra hne
    rw [Layout.line, if_neg hne] at hline
    cases hline
  have hredirects : L.redirects = [] := by
    by_contra hne
    exact L.words_ne_nil hne hwords
  rw [Layout.line, if_pos hwords] at hline
  split at hline
  · cases hline
  · cases hline
    refine ⟨L.assignments, trailing, htrailing, ?_, rfl, ?_⟩
    · rw [terminated, if_neg hlast, Layout.text, hwords, hredirects] at htext
      have hline : text.toList ++ ['\n'] = (Placed.join L.assignments ++ trailing) ++ ['\n'] := by
        simpa using htext
      exact List.append_cancel_right hline
    · intro t ht
      apply hfits.separated
      rw [hwords, List.map_nil, List.append_nil, ← List.map_tail]
      exact List.mem_map_of_mem ht

theorem exists_placed_words {text : String} {ws : List Word} {ds : List Redirect}
    (h : parse text = .ok (.command ⟨[], ws, ds⟩)) :
    ∃ (L : Layout) (trailing : List Char), (∀ c ∈ trailing, isBlank c = true) ∧
      L.Fits (trailing ++ ['\n']) ∧ L.assignments = [] ∧ L.words ≠ [] ∧
        terminated text.toList = L.text ++ (trailing ++ ['\n']) ∧
          Placed.values L.words = ws ∧ Placed.values L.redirects = ds := by
  obtain ⟨L, trailing, htrailing, hfits, htext, hline⟩ := parse_eq_ok_iff.mp h
  rw [Layout.line] at hline
  split at hline
  · split at hline <;> cases hline
  · next hwords =>
    obtain ⟨hassignments, hvalues, hredirects⟩ : Placed.values L.assignments = [] ∧
        Placed.values L.words = ws ∧ Placed.values L.redirects = ds := by
      simpa [Layout.command] using hline
    exact ⟨L, trailing, htrailing, hfits, List.map_eq_nil_iff.mp hassignments, hwords, htext,
      hvalues, hredirects⟩

/-- A source with more blanks before it. -/
def Placed.behind {α : Type} {p : Production α} (t : Placed p) (gap : List Char)
    (hgap : ∀ c ∈ gap, isBlank c = true) : Placed p where
  toSource := t.toSource
  gap := gap ++ t.gap
  blank := by
    intro c hc
    rcases List.mem_append.mp hc with hc | hc
    · exact hgap c hc
    · exact t.blank c hc

/-- The layout of a command with its name. -/
def Layout.ofCommand (ts : List (Placed assignment)) (name : Placed word)
    (words : List (Placed word)) (ds : List (Placed redirect))
    (hname : ¬ BeginsAssignment name.text) : Layout where
  assignments := ts
  words := name :: words
  redirects := ds
  words_ne_nil _ := List.cons_ne_nil name words
  not_assignment := by
    intro t ht
    cases ht
    exact hname

/-- Assignments in front of a command mean what they mean on a line of their own, and so do the
words and redirects of the command. -/
theorem parse_append {front back : String} {as : List Assignment} {ws : List Word}
    {ds : List Redirect} (hfront : parse front = .ok (.assignments as))
    (hlast : front.toList.getLast? ≠ some '\n')
    (hback : parse back = .ok (.command ⟨[], ws, ds⟩)) :
    parse (front ++ " " ++ back) = .ok (.command ⟨as, ws, ds⟩) := by
  obtain ⟨ts, gap, hgap, hjoin, rfl, hts⟩ := exists_placed_assignments hfront hlast
  obtain ⟨L, trailing, htrailing, hfits, hnone, hwords, htext, rfl, rfl⟩ :=
    exists_placed_words hback
  obtain ⟨t, words, hcons⟩ := List.exists_cons_of_ne_nil hwords
  have hname : ¬ BeginsAssignment t.text := L.not_assignment t (by rw [hcons]; rfl)
  have hblank : ∀ c ∈ gap ++ [' '], isBlank c = true := by
    intro c hc
    rcases List.mem_append.mp hc with hc | hc
    · exact hgap c hc
    · rw [List.mem_singleton.mp hc]
      rfl
  have hword := hfits.name
  have harguments := hfits.arguments
  rw [hcons] at hword harguments
  -- the blanks behind the assignments come to stand before the name of the command
  have hfit : (Layout.ofCommand ts (t.behind _ hblank) words L.redirects hname).Fits
      (trailing ++ ['\n']) := by
    refine ⟨assignmentsFit_of_gaps hts fun _ => ?_, ?_, harguments, hfits.redirects⟩
    · have hbreaks := breaks_append (by simp [Placed.behind]) (t.behind _ hblank).blank
        (t.text ++ (Placed.join words ++ (Placed.join L.redirects ++ (trailing ++ ['\n']))))
      simpa [Layout.ofCommand, Placed.behind] using hbreaks
    · intro other hother
      cases hother
      exact hword t rfl
  rw [hcons]
  refine parse_of_terminated htrailing hfit ?_
  rw [Layout.text, hnone, hcons] at htext
  rw [String.toList_append, String.toList_append, hjoin, List.append_assoc]
  calc terminated (Placed.join ts ++ gap ++ (" ".toList ++ back.toList))
      = Placed.join ts ++ gap ++ ' ' :: terminated back.toList := terminated_append_blank _ _
    _ = (Layout.ofCommand ts (t.behind _ hblank) words L.redirects hname).text ++
          (trailing ++ ['\n']) := by
      rw [htext, Layout.text]
      simp [Layout.ofCommand, Placed.behind]

/-! ## Lines of names -/

/-- Names with blanks between them. -/
def namesLine (names : List String) : String :=
  String.ofList ([' '].intercalate (names.map String.toList))

theorem pathWord_of_isName {cs : List Char} (h : IsName cs) :
    pathWord cs = [.fixed (String.ofList cs)] := by
  have htilde : cs.head? ≠ some '~' := by
    intro hhead
    obtain ⟨t, rfl⟩ := List.head?_eq_some_iff.mp hhead
    exact absurd h.1 (by decide)
  unfold pathWord
  split
  · exact absurd rfl htilde
  · exact absurd rfl htilde
  · rfl

theorem word_name {name : String} (h : IsName name.toList) :
    word (name.toList ++ ['\n']) = .ok ([.fixed name], ['\n']) := by
  have hword := word_of_path h.ne_nil fun c hc => isPathChar_of_isNameChar (h.isNameChar c hc)
  rw [pathWord_of_isName h, String.ofList_toList] at hword
  exact hword

theorem not_beginsAssignment_of_isName {cs : List Char} (h : IsName cs) :
    ¬ BeginsAssignment cs := by
  rintro ⟨name, t, -, rfl⟩
  exact absurd (h.isNameChar '=' (by simp)) (by decide)

theorem exists_name_sources {names : List String} (h : ∀ name ∈ names, IsName name.toList) :
    ∃ ts : List (Source word), ts.map Source.text = names.map String.toList ∧
      ts.map Source.value = names.map fun name => [.fixed name] := by
  induction names with
  | nil => exact ⟨[], rfl, rfl⟩
  | cons name names ih =>
    obtain ⟨ts, htexts, hvalues⟩ := ih fun other hother => h other (List.mem_cons_of_mem _ hother)
    refine ⟨⟨name.toList, [.fixed name], word_name (h name List.mem_cons_self)⟩ :: ts, ?_, ?_⟩
    · rw [List.map_cons, List.map_cons, htexts]
    · rw [List.map_cons, List.map_cons, hvalues]

/-- A line of names is a command with these names as its arguments. -/
theorem parse_namesLine {names : List String} (hne : names ≠ [])
    (h : ∀ name ∈ names, IsName name.toList) :
    parse (namesLine names) = .ok (.command ⟨[], names.map fun name => [.fixed name], []⟩) := by
  obtain ⟨ts, htexts, hvalues⟩ := exists_name_sources h
  have hname : ∀ t ∈ ts.head?, ¬ BeginsAssignment t.text := by
    intro t ht
    have hmem : t.text ∈ names.map String.toList := by
      rw [← htexts]
      exact List.mem_map_of_mem (List.mem_of_head? ht)
    obtain ⟨name, hname, htext⟩ := List.mem_map.mp hmem
    rw [← htext]
    exact not_beginsAssignment_of_isName (h name hname)
  have hjoined := @parse_joined [] ts [] (by simp) hname List.isChain_nil
  rw [htexts, hvalues] at hjoined
  simpa [namesLine, lineOf, hne] using hjoined

theorem names_of_parse {text : String} {as : List Assignment}
    (h : parse text = .ok (.assignments as)) :
    as ≠ [] ∧ ∀ name ∈ as.map Assignment.name, IsName name.toList := by
  obtain ⟨L, trailing, -, hfits, -, hline⟩ := parse_eq_ok_iff.mp h
  have hline' := hfits.wellFormed_line.1
  rw [hline] at hline'
  refine ⟨hline'.1, fun name hname => ?_⟩
  obtain ⟨a, ha, rfl⟩ := List.mem_map.mp hname
  exact (hline'.2 a ha).1

end LineShell
