import LineShell.Proofs.Parser.Repetition
import LineShell.Proofs.Word.Forms
import Mathlib.Data.List.Basic

/-!
# Where words end

A word is read up to the first character with which no fragment begins.  So what is read of a
word does not depend on the text behind it, as long as that text does not make the word longer:
`word_extent` exchanges it.  This is how a word that stands on a line is compared with the same
word alone.
-/

namespace LineShell

/-- A text that does not end with a line feed, and is not empty. -/
def Solid (w : List Char) : Prop :=
  ∃ u c, w = u ++ [c] ∧ c ≠ '\n'

theorem Solid.ne_nil {w : List Char} (h : Solid w) : w ≠ [] := by
  obtain ⟨u, c, rfl, -⟩ := h
  simp

theorem Solid.append_left (u : List Char) {w : List Char} (h : Solid w) : Solid (u ++ w) := by
  obtain ⟨v, c, rfl, hc⟩ := h
  exact ⟨u ++ v, c, (List.append_assoc u v [c]).symm, hc⟩

theorem Solid.getLast?_ne {w : List Char} (h : Solid w) : w.getLast? ≠ some '\n' := by
  obtain ⟨u, c, rfl, hc⟩ := h
  simpa using hc

theorem solid_concat {u : List Char} {c : Char} (hc : c ≠ '\n') : Solid (u ++ [c]) :=
  ⟨u, c, rfl, hc⟩

theorem solid_of_forall {p : Char → Bool} (hp : p '\n' = false) {w : List Char} (hne : w ≠ [])
    (hw : ∀ c ∈ w, p c = true) : Solid w := by
  refine ⟨w.dropLast, w.getLast hne, (List.dropLast_concat_getLast hne).symm, ?_⟩
  intro hlast
  have hmem : p (w.getLast hne) = true := hw _ (List.getLast_mem hne)
  rw [hlast, hp] at hmem
  exact absurd hmem (by decide)

theorem IsGlobPattern.eq_concat {p : List Char} (h : IsGlobPattern p) :
    ∃ u c, p = u ++ [c] ∧ c ∈ ['?', '*', ']'] := by
  rcases h with h | ⟨body, -, -, rfl⟩
  · simp only [List.mem_cons, List.not_mem_nil, or_false] at h
    rcases h with rfl | rfl | rfl | rfl | rfl
    · exact ⟨[], '?', rfl, by decide⟩
    · exact ⟨[], '*', rfl, by decide⟩
    · exact ⟨['*'], '*', rfl, by decide⟩
    · exact ⟨['[', ']'], ']', rfl, by decide⟩
    · exact ⟨['[', '!', ']'], ']', rfl, by decide⟩
  · exact ⟨'[' :: body, ']', rfl, by decide⟩

theorem IsGlobPattern.solid {p : List Char} (h : IsGlobPattern p) : Solid p := by
  obtain ⟨u, c, rfl, hc⟩ := h.eq_concat
  refine solid_concat ?_
  rintro rfl
  exact absurd hc (by decide)

/-! ## Quotes at the ends of a text -/

def isQuote (c : Char) : Bool :=
  c == '"' || c == '\''

def BeginsQuoted (w : List Char) : Prop :=
  ∃ c ∈ w.head?, isQuote c = true

def EndsQuoted (w : List Char) : Prop :=
  ∃ c ∈ w.getLast?, isQuote c = true

theorem isPathChar_of_isQuote {c : Char} (h : isQuote c = true) : Parser.isPathChar c = false := by
  simp only [isQuote, Bool.or_eq_true, beq_iff_eq] at h
  rcases h with rfl | rfl <;> decide

theorem not_endsQuoted_of_path {p : List Char} (hp : ∀ c ∈ p, Parser.isPathChar c = true) :
    ¬ EndsQuoted p := by
  rintro ⟨c, hc, hquote⟩
  have hpath := hp c (List.mem_of_getLast? hc)
  rw [isPathChar_of_isQuote hquote] at hpath
  exact absurd hpath (by decide)

theorem IsGlobPattern.not_endsQuoted {p : List Char} (h : IsGlobPattern p) : ¬ EndsQuoted p := by
  obtain ⟨u, c, rfl, hc⟩ := h.eq_concat
  rintro ⟨d, hd, hquote⟩
  obtain rfl : c = d := by simpa using hd
  simp only [List.mem_cons, List.not_mem_nil, or_false] at hc
  rcases hc with rfl | rfl | rfl <;> exact absurd hquote (by decide)

namespace Parser

/-! ## First characters -/

def isFragmentStart (c : Char) : Bool :=
  isPathChar c || isGlobStart c || c == '"' || c == '\''

theorem stops_isPathChar_of_stops {r : List Char} (h : Stops isFragmentStart r) :
    Stops isPathChar r := by
  intro c hc
  have hstart := h c hc
  simp only [isFragmentStart, Bool.or_eq_false_iff] at hstart
  exact hstart.1.1.1

theorem isGlobPattern_head {p : List Char} (h : IsGlobPattern p) :
    ∃ c t, p = c :: t ∧ isGlobStart c = true := by
  rcases h with h | ⟨body, -, -, rfl⟩
  · simp only [List.mem_cons, List.not_mem_nil, or_false] at h
    rcases h with rfl | rfl | rfl | rfl | rfl <;> exact ⟨_, _, rfl, by decide⟩
  · exact ⟨'[', body ++ [']'], rfl, by decide⟩

theorem isPathChar_of_isGlobStart {c : Char} (h : isGlobStart c = true) : isPathChar c = false := by
  simp only [isGlobStart, Bool.or_eq_true, beq_iff_eq] at h
  rcases h with (rfl | rfl) | rfl <;> decide

theorem path_head {s r : List Char} {v : Word} (h : path s = .ok (v, r)) :
    ∃ c t, s = c :: t ∧ isPathChar c = true := by
  obtain ⟨p, hne, hp, -, rfl, -⟩ := path_eq_ok_iff.mp h
  cases p with
  | nil => exact absurd rfl hne
  | cons c t => exact ⟨c, t ++ r, rfl, hp c List.mem_cons_self⟩

theorem glob_head {s r : List Char} {v : Word} (h : glob s = .ok (v, r)) :
    ∃ c t, s = c :: t ∧ isGlobStart c = true := by
  obtain ⟨p, hp, -, rfl, -⟩ := glob_eq_ok_iff.mp h
  obtain ⟨c, t, rfl, hc⟩ := isGlobPattern_head hp
  exact ⟨c, t ++ r, rfl, hc⟩

/-! ## Fragments -/

theorem fragment_eq_ok_iff {s r : List Char} {v : Word} :
    fragment s = .ok (v, r) ↔
      path s = .ok (v, r) ∨ glob s = .ok (v, r) ∨ doubleQuoted s = .ok (v, r) ∨
        singleQuoted s = .ok (v, r) := by
  constructor
  · intro h
    obtain ⟨p, hp, hread⟩ := Production.mem_of_firstOf_ok h
    simp only [fragments, List.mem_cons, List.not_mem_nil, or_false] at hp
    rcases hp with rfl | rfl | rfl | rfl
    · exact Or.inl hread
    · exact Or.inr (Or.inl hread)
    · exact Or.inr (Or.inr (Or.inl hread))
    · exact Or.inr (Or.inr (Or.inr hread))
  · -- the productions that are tried before do not read the first character
    rintro (h | h | h | h)
    · simp [fragment, fragments, Production.firstOf, h]
    · obtain ⟨c, t, rfl, hc⟩ := glob_head h
      have hpath : path (c :: t) = mismatch .path (c :: t) :=
        path_of_stops (stops_cons.mpr (isPathChar_of_isGlobStart hc))
      simp [fragment, fragments, Production.firstOf, hpath, mismatch, h]
    · obtain ⟨w, items, -, -, rfl⟩ := doubleQuoted_eq_ok_iff.mp h
      have hpath := path_of_stops (s := '"' :: (w ++ '"' :: r)) (stops_cons.mpr (by decide))
      have hglob := glob_of_stops (s := '"' :: (w ++ '"' :: r)) (stops_cons.mpr (by decide))
      simp [fragment, fragments, Production.firstOf, hpath, hglob, mismatch, h]
    · obtain ⟨w, cs, -, -, rfl⟩ := singleQuoted_eq_ok_iff.mp h
      have hpath := path_of_stops (s := '\'' :: (w ++ '\'' :: r)) (stops_cons.mpr (by decide))
      have hglob := glob_of_stops (s := '\'' :: (w ++ '\'' :: r)) (stops_cons.mpr (by decide))
      have hdouble := doubleQuoted_of_head?_ne (s := '\'' :: (w ++ '\'' :: r)) (by simp)
      simp [fragment, fragments, Production.firstOf, hpath, hglob, hdouble, mismatch, h]

theorem fragment_head {s r : List Char} {v : Word} (h : fragment s = .ok (v, r)) :
    ∃ c t, s = c :: t ∧ isFragmentStart c = true := by
  rcases fragment_eq_ok_iff.mp h with h | h | h | h
  · obtain ⟨c, t, rfl, hc⟩ := path_head h
    exact ⟨c, t, rfl, by simp [isFragmentStart, hc]⟩
  · obtain ⟨c, t, rfl, hc⟩ := glob_head h
    exact ⟨c, t, rfl, by simp [isFragmentStart, hc]⟩
  · obtain ⟨w, items, -, -, rfl⟩ := doubleQuoted_eq_ok_iff.mp h
    exact ⟨'"', w ++ '"' :: r, rfl, by decide⟩
  · obtain ⟨w, cs, -, -, rfl⟩ := singleQuoted_eq_ok_iff.mp h
    exact ⟨'\'', w ++ '\'' :: r, rfl, by decide⟩

theorem fragment_mismatches {s : List Char} (h : Stops isFragmentStart s) :
    Production.Mismatches fragment s := by
  have hpath : Stops isPathChar s := stops_isPathChar_of_stops h
  have hglob : Stops isGlobStart s := by
    intro c hc
    have hstart := h c hc
    simp only [isFragmentStart, Bool.or_eq_false_iff] at hstart
    exact hstart.1.1.2
  have hdouble : s.head? ≠ some '"' := fun hc => absurd (h '"' hc) (by decide)
  have hsingle : s.head? ≠ some '\'' := fun hc => absurd (h '\'' hc) (by decide)
  refine ⟨⟨.argument, s⟩, ?_⟩
  simp [fragment, fragments, Production.firstOf, path_of_stops hpath, glob_of_stops hglob,
    doubleQuoted_of_head?_ne hdouble, singleQuoted_of_head?_ne hsingle, mismatch]

theorem stops_isPathChar_of_fragment {s : List Char} (h : Production.Mismatches fragment s) :
    Stops isPathChar s := by
  obtain ⟨fault, hfault⟩ := h
  cases s with
  | nil => exact stops_nil _
  | cons c t =>
    cases hc : isPathChar c with
    | false => exact stops_cons.mpr hc
    | true => simp [fragment, fragments, Production.firstOf, path, hc] at hfault

/-- Nothing that follows a word makes it longer, or makes another wildcard of its last one. -/
def EndsWord (r : List Char) : Prop :=
  Stops isFragmentStart r ∧ r.head? ≠ some ']'

theorem endsWord_of_head {c : Char} (hc : isFragmentStart c = false) (hclose : c ≠ ']')
    (r : List Char) : EndsWord (c :: r) :=
  ⟨stops_cons.mpr hc, by simpa using hclose⟩

/-- The last fragment of the first text does not go on with the other one: a quote has closed it,
or the other text begins with no part of it. -/
def Separate (w r : List Char) : Prop :=
  EndsQuoted w ∨ (Stops isPathChar r ∧ ∀ p, EndsPattern p r)

theorem EndsWord.separate {r : List Char} (h : EndsWord r) (w : List Char) : Separate w r := by
  refine Or.inr ⟨stops_isPathChar_of_stops h.1, fun p => ⟨fun _ hstar => ?_, fun _ => h.2⟩⟩
  exact absurd (h.1 '*' hstar) (by decide)

theorem Separate.of_append {u w r : List Char} (h : Separate (u ++ w) r) (hw : w ≠ []) :
    Separate w r := by
  refine h.imp_left ?_
  rintro ⟨c, hc, hquote⟩
  rw [List.getLast?_append_of_ne_nil u hw] at hc
  exact ⟨c, hc, hquote⟩

/-- What is read of a fragment stays the same if the text behind it is exchanged for one that
begins with the same character, or for one that the fragment does not go on with. -/
theorem fragment_extent {s r : List Char} {v : Word} (h : fragment s = .ok (v, r)) :
    ∃ w, s = w ++ r ∧ Solid w ∧
      ∀ r', r'.head? = r.head? ∨ Separate w r' → fragment (w ++ r') = .ok (v, r') := by
  rcases fragment_eq_ok_iff.mp h with h | h | h | h
  · obtain ⟨p, hne, hp, hv, rfl, hr⟩ := path_eq_ok_iff.mp h
    refine ⟨p, rfl, solid_of_forall (by decide) hne hp, ?_⟩
    intro r' hr'
    have hstop : Stops isPathChar r' := by
      rcases hr' with hhead | hquoted | hseparate
      · exact hr.of_head?_eq hhead
      · exact absurd hquoted (not_endsQuoted_of_path hp)
      · exact hseparate.1
    exact fragment_eq_ok_iff.mpr (Or.inl (path_eq_ok_iff.mpr ⟨p, hne, hp, hv, rfl, hstop⟩))
  · obtain ⟨p, hp, hv, rfl, hr⟩ := glob_eq_ok_iff.mp h
    refine ⟨p, rfl, hp.solid, ?_⟩
    intro r' hr'
    have hstop : EndsPattern p r' := by
      rcases hr' with hhead | hquoted | hseparate
      · exact hr.of_head?_eq hhead
      · exact absurd hquoted hp.not_endsQuoted
      · exact hseparate.2 p
    exact fragment_eq_ok_iff.mpr (Or.inr (Or.inl (glob_eq_ok_iff.mpr ⟨p, hp, hv, rfl, hstop⟩)))
  · obtain ⟨w, items, hw, hv, rfl⟩ := doubleQuoted_eq_ok_iff.mp h
    refine ⟨'"' :: w ++ ['"'], by simp, solid_concat (by decide), ?_⟩
    intro r' _
    exact fragment_eq_ok_iff.mpr
      (Or.inr (Or.inr (Or.inl (doubleQuoted_eq_ok_iff.mpr ⟨w, items, hw, hv, by simp⟩))))
  · obtain ⟨w, cs, hw, hv, rfl⟩ := singleQuoted_eq_ok_iff.mp h
    refine ⟨'\'' :: w ++ ['\''], by simp, solid_concat (by decide), ?_⟩
    intro r' _
    exact fragment_eq_ok_iff.mpr
      (Or.inr (Or.inr (Or.inr (singleQuoted_eq_ok_iff.mpr ⟨w, cs, hw, hv, by simp⟩))))

/-! ## Words -/

theorem word_eq_ok_iff {s r : List Char} {v : Word} :
    word s = .ok (v, r) ↔
      ∃ vs, vs ≠ [] ∧ Production.Steps fragment s vs r ∧ Production.Mismatches fragment r ∧
        v = vs.flatten := by
  constructor
  · intro h
    unfold word at h
    split at h
    · simp at h
    · simp [mismatch] at h
    · next w ws u hrepeated =>
      simp only [Except.ok.injEq, Prod.mk.injEq] at h
      obtain ⟨rfl, rfl⟩ := h
      obtain ⟨hsteps, hmismatch⟩ :=
        (Production.repeated_eq_ok_iff fragment_consumes).mp hrepeated
      exact ⟨w :: ws, by simp, hsteps, hmismatch, rfl⟩
  · rintro ⟨vs, hne, hsteps, hmismatch, rfl⟩
    have hrepeated := hsteps.repeated_eq_ok fragment_consumes hmismatch
    cases vs with
    | nil => exact absurd rfl hne
    | cons w ws => rw [word, hrepeated]

theorem word_mismatches {s : List Char} (h : Stops isFragmentStart s) :
    Production.Mismatches word s := by
  have hrepeated := Production.repeated_of_mismatches (fragment_mismatches h)
  exact ⟨⟨.argument, s⟩, by rw [word, hrepeated]; rfl⟩

theorem fragment_mismatches_of_word {s : List Char} (h : Production.Mismatches word s) :
    Production.Mismatches fragment s := by
  obtain ⟨fault, hfault⟩ := h
  unfold word at hfault
  split at hfault
  · next failure hrepeated =>
    obtain ⟨vs, r, -, -, hfailure⟩ :=
      (Production.repeated_eq_error_iff fragment_consumes).mp hrepeated
    exact absurd (Except.error.inj hfault) (hfailure fault)
  · next r hrepeated =>
    obtain ⟨hsteps, hmismatch⟩ :=
      (Production.repeated_eq_ok_iff fragment_consumes).mp hrepeated
    rw [hsteps.eq_of_nil]
    exact hmismatch
  · simp at hfault

theorem stops_isPathChar_of_word {s r : List Char} {v : Word} (h : word s = .ok (v, r)) :
    Stops isPathChar r := by
  obtain ⟨vs, -, -, hmismatch, -⟩ := word_eq_ok_iff.mp h
  exact stops_isPathChar_of_fragment hmismatch

theorem word_head {s r : List Char} {v : Word} (h : word s = .ok (v, r)) :
    ∃ c t, s = c :: t ∧ isFragmentStart c = true := by
  obtain ⟨vs, hne, hsteps, -, -⟩ := word_eq_ok_iff.mp h
  cases hsteps with
  | nil => exact absurd rfl hne
  | cons head _ => exact fragment_head head

theorem fragments_extent {s r : List Char} {vs : List Word}
    (h : Production.Steps fragment s vs r) :
    ∃ w, s = w ++ r ∧ (vs ≠ [] → Solid w) ∧
      ∀ r', r'.head? = r.head? ∨ Separate w r' → Production.Steps fragment (w ++ r') vs r' := by
  induction h with
  | nil s => exact ⟨[], rfl, fun hne => absurd rfl hne, fun r' _ => .nil r'⟩
  | @cons s t r v vs head tail ih =>
    obtain ⟨w₂, rfl, hsolid, htail⟩ := ih
    obtain ⟨w₁, rfl, hw₁, hhead⟩ := fragment_extent head
    refine ⟨w₁ ++ w₂, (List.append_assoc w₁ w₂ r).symm, ?_⟩
    cases vs with
    | nil =>
      have hw₂ : w₂ = [] := by simpa using tail.eq_of_nil
      subst hw₂
      rw [List.append_nil]
      exact ⟨fun _ => hw₁, fun r' hr' => .cons (hhead r' hr') (.nil r')⟩
    | cons v' vs' =>
      have hw₂ : Solid w₂ := hsolid (by simp)
      refine ⟨fun _ => hw₂.append_left w₁, ?_⟩
      intro r' hr'
      have hbehind : (w₂ ++ r').head? = (w₂ ++ r).head? := by
        rw [List.head?_append_of_ne_nil _ hw₂.ne_nil, List.head?_append_of_ne_nil _ hw₂.ne_nil]
      rw [List.append_assoc]
      exact .cons (hhead _ (Or.inl hbehind))
        (htail r' (hr'.imp_right fun h => h.of_append hw₂.ne_nil))

/-- What is read of a word does not depend on the text behind it. -/
theorem word_extent {s r : List Char} {v : Word} (h : word s = .ok (v, r)) :
    ∃ w, s = w ++ r ∧ Solid w ∧ ∀ r', EndsWord r' → word (w ++ r') = .ok (v, r') := by
  obtain ⟨vs, hne, hsteps, -, rfl⟩ := word_eq_ok_iff.mp h
  obtain ⟨w, rfl, hsolid, hread⟩ := fragments_extent hsteps
  refine ⟨w, rfl, hsolid hne, ?_⟩
  intro r' hr'
  exact word_eq_ok_iff.mpr
    ⟨vs, hne, hread r' (Or.inr (hr'.separate w)), fragment_mismatches hr'.1, rfl⟩

/-- A bare run of path characters that stands alone is one word. -/
theorem word_of_path {p : List Char} (hne : p ≠ []) (hp : ∀ c ∈ p, isPathChar c = true) :
    word (p ++ ['\n']) = .ok (pathWord p, ['\n']) := by
  have hpath : path (p ++ ['\n']) = .ok (pathWord p, ['\n']) :=
    path_eq_ok_iff.mpr ⟨p, hne, hp, rfl, rfl, stops_cons.mpr (by decide)⟩
  have hfragment := fragment_eq_ok_iff.mpr (Or.inl hpath)
  exact word_eq_ok_iff.mpr ⟨[pathWord p], by simp, .cons hfragment (.nil _),
    fragment_mismatches (stops_cons.mpr (by decide)), by simp⟩

end Parser

end LineShell
