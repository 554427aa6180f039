import LineShell.Proofs.Redirect.Extent

/-!
# Sources

A source is a text that one production reads up to its end, when the text stands alone on a line.
It keeps its value on a line with other texts as long as what follows does not become a part of
it; for assignments and words this is the case in front of a blank.
-/

namespace LineShell

namespace Parser

/-! ## Assignments -/

def BeginsAssignment (s : List Char) : Prop :=
  ∃ name t, IsName name ∧ s = name ++ '=' :: t

theorem variableName_equals {name t : List Char} (h : IsName name) :
    variableName (name ++ '=' :: t) = .ok (String.ofList name, '=' :: t) := by
  rw [variableName_eq_ok_iff, String.toList_ofList]
  exact ⟨h, rfl, stops_cons.mpr (by decide)⟩

theorem assignment_eq_ok_iff {s r : List Char} {a : Assignment} :
    assignment s = .ok (a, r) ↔
      ∃ t, IsName a.name.toList ∧ s = a.name.toList ++ '=' :: t ∧
        (word t = .ok (a.value, r) ∨ (a.value = [] ∧ Production.Mismatches word t ∧ t = r)) := by
  constructor
  · intro h
    unfold assignment at h
    split at h
    · simp at h
    · next name t hname =>
      obtain ⟨hvalid, rfl, -⟩ := variableName_eq_ok_iff.mp hname
      cases hword : word t with
      | error failure =>
        cases failure with
        | mismatch fault =>
          simp only [Production.optional, hword, Except.ok.injEq, Prod.mk.injEq] at h
          obtain ⟨rfl, rfl⟩ := h
          exact ⟨t, hvalid, rfl, Or.inr ⟨rfl, ⟨fault, hword⟩, rfl⟩⟩
        | rejection fault => simp [Production.optional, hword] at h
        | numeral error => simp [Production.optional, hword] at h
      | ok reading =>
        obtain ⟨v, u⟩ := reading
        simp only [Production.optional, hword, Except.ok.injEq, Prod.mk.injEq] at h
        obtain ⟨rfl, rfl⟩ := h
        exact ⟨t, hvalid, rfl, Or.inl hword⟩
    · simp [mismatch] at h
  · obtain ⟨name, value⟩ := a
    rintro ⟨t, hname, rfl, hword | ⟨rfl, ⟨fault, hword⟩, rfl⟩⟩
    · have hread := variableName_equals (t := t) hname
      simp [assignment, hread, Production.optional, hword]
    · have hread := variableName_equals (t := t) hname
      simp [assignment, hread, Production.optional, hword]

theorem assignment_mismatches_iff {s : List Char} :
    Production.Mismatches assignment s ↔ ¬ BeginsAssignment s := by
  constructor
  · rintro ⟨fault, hfault⟩ ⟨name, t, hname, rfl⟩
    have hread := variableName_equals (t := t) hname
    cases hword : word t with
    | error failure =>
      cases failure <;> simp [assignment, hread, Production.optional, hword] at hfault
    | ok reading => simp [assignment, hread, Production.optional, hword] at hfault
  · intro h
    cases hread : variableName s with
    | error failure =>
      rw [variableName_error hread] at hread
      exact ⟨⟨.variableName, s⟩, by rw [assignment, hread]⟩
    | ok reading =>
      obtain ⟨name, t⟩ := reading
      obtain ⟨hname, rfl, -⟩ := variableName_eq_ok_iff.mp hread
      have ht : ∀ u, t ≠ '=' :: u := by
        rintro u rfl
        exact h ⟨name.toList, u, hname, rfl⟩
      refine ⟨⟨.equalsSign, t⟩, ?_⟩
      rw [assignment, hread]
      split
      · next h => simp at h
      · next name' u h =>
        have hu : t = '=' :: u := (Prod.mk.inj (Except.ok.inj h)).2
        exact absurd hu (ht u)
      · next name' u _ h =>
        have hu : t = u := (Prod.mk.inj (Except.ok.inj h)).2
        rw [hu]
        rfl

theorem isPathChar_of_isNameChar {c : Char} (h : isNameChar c = true) : isPathChar c = true := by
  simp only [isNameChar, Bool.or_eq_true, beq_iff_eq] at h
  rcases h with h | rfl
  · simp [isPathChar, h]
  · decide

theorem BeginsAssignment.of_append {w r : List Char} (h : BeginsAssignment (w ++ r))
    (hr : Stops isPathChar r) : BeginsAssignment w := by
  obtain ⟨name, t, hname, heq⟩ := h
  rcases List.append_eq_append_iff.mp heq with ⟨u, rfl, hu⟩ | ⟨u, rfl, hu⟩
  · -- the word would end within the name
    cases u with
    | nil =>
      rw [List.nil_append] at hu
      rw [hu] at hr
      exact absurd (stops_cons.mp hr) (by decide)
    | cons c u =>
      rw [hu] at hr
      have hc : isNameChar c = true := hname.isNameChar c (by simp)
      rw [List.cons_append, stops_cons, isPathChar_of_isNameChar hc] at hr
      exact absurd hr (by decide)
  · cases u with
    | nil =>
      rw [List.nil_append] at hu
      rw [← hu] at hr
      exact absurd (stops_cons.mp hr) (by decide)
    | cons c u =>
      obtain ⟨rfl, -⟩ := List.cons.inj hu
      exact ⟨name, u, hname, rfl⟩

theorem BeginsAssignment.append {s : List Char} (h : BeginsAssignment s) (r : List Char) :
    BeginsAssignment (s ++ r) := by
  obtain ⟨name, t, hname, rfl⟩ := h
  exact ⟨name, t ++ r, hname, by simp⟩

theorem not_beginsAssignment_of_stops {s : List Char} (h : Stops isPathChar s) :
    ¬ BeginsAssignment s := by
  rintro ⟨name, t, hname, rfl⟩
  rcases List.exists_cons_of_ne_nil hname.ne_nil with ⟨c, u, rfl⟩
  have hc := isPathChar_of_isNameChar (hname.isNameChar c List.mem_cons_self)
  rw [List.cons_append, stops_cons, hc] at h
  exact absurd h (by decide)

theorem assignment_head {s r : List Char} {a : Assignment} (h : assignment s = .ok (a, r)) :
    ∃ c t, s = c :: t ∧ isPathChar c = true := by
  obtain ⟨t, hname, rfl, -⟩ := assignment_eq_ok_iff.mp h
  obtain ⟨c, u, hu⟩ := List.exists_cons_of_ne_nil hname.ne_nil
  rw [hu]
  refine ⟨c, u ++ '=' :: t, rfl, isPathChar_of_isNameChar (hname.isNameChar c ?_)⟩
  simp [hu]

theorem assignment_extent {s r : List Char} {a : Assignment} (h : assignment s = .ok (a, r)) :
    ∃ w, s = w ++ r ∧ Solid w ∧ ∀ r', EndsWord r' → assignment (w ++ r') = .ok (a, r') := by
  obtain ⟨t, hname, rfl, hvalue⟩ := assignment_eq_ok_iff.mp h
  rcases hvalue with hword | ⟨hvalue, -, rfl⟩
  · obtain ⟨w, rfl, hsolid, hread⟩ := word_extent hword
    refine ⟨a.name.toList ++ '=' :: w, by simp, ?_, ?_⟩
    · exact (hsolid.append_left ['=']).append_left _
    · intro r' hr'
      exact assignment_eq_ok_iff.mpr ⟨w ++ r', hname, by simp, Or.inl (hread r' hr')⟩
  · refine ⟨a.name.toList ++ ['='], by simp, solid_concat (by decide), ?_⟩
    intro r' hr'
    exact assignment_eq_ok_iff.mpr
      ⟨r', hname, by simp, Or.inr ⟨hvalue, word_mismatches hr'.1, rfl⟩⟩

/-! ## Words before a blank -/

/-- The bare text with which a word begins is followed by another fragment, or by what follows
the word. -/
theorem dropWhile_isPathChar_of_word {s r : List Char} {v : Word} (h : word s = .ok (v, r)) :
    s.dropWhile isPathChar = r ∨
      ∃ c t, s.dropWhile isPathChar = c :: t ∧ isFragmentStart c = true ∧
        isPathChar c = false := by
  obtain ⟨vs, hne, hsteps, -, -⟩ := word_eq_ok_iff.mp h
  cases hsteps with
  | nil => exact absurd rfl hne
  | @cons _ t _ _ vs head tail =>
    obtain ⟨c, u, rfl, hc⟩ := fragment_head head
    cases hpath : isPathChar c with
    | false => exact Or.inr ⟨c, u, by simp [hpath], hc, hpath⟩
    | true =>
      have hread : path (c :: u) = .ok (pathWord ((c :: u).takeWhile isPathChar),
          (c :: u).dropWhile isPathChar) := by simp [path, hpath]
      have hfragment := fragment_eq_ok_iff.mpr (Or.inl hread)
      rw [head] at hfragment
      obtain ⟨-, rfl⟩ := Prod.mk.inj (Except.ok.inj hfragment)
      cases tail with
      | nil => exact Or.inl rfl
      | cons head' _ =>
        obtain ⟨d, x, hd, hstart⟩ := fragment_head head'
        refine Or.inr ⟨d, x, hd, hstart, ?_⟩
        have hstop := stops_dropWhile isPathChar (c :: u)
        rw [hd] at hstop
        exact stops_cons.mp hstop

theorem isDigitChar_of_isFragmentStart {c : Char} (h : isFragmentStart c = true)
    (hpath : isPathChar c = false) : isDigitChar c = false := by
  simp only [isFragmentStart, isGlobStart, hpath, Bool.false_or, Bool.or_eq_true,
    beq_iff_eq] at h
  rcases h with (((rfl | rfl) | rfl) | rfl) | rfl <;> decide

theorem redirect_mismatches_of_word {s r : List Char} {v : Word} (h : word s = .ok (v, r))
    (hop : startsOperator r = false) (hdigit : Stops isDigitChar r) :
    Production.Mismatches redirect s := by
  have hbehind : startsOperator (s.dropWhile isPathChar) = false ∧
      Stops isDigitChar (s.dropWhile isPathChar) := by
    rcases dropWhile_isPathChar_of_word h with hrest | ⟨c, t, hrest, hc, hpath⟩
    · rw [hrest]
      exact ⟨hop, hdigit⟩
    · rw [hrest]
      refine ⟨?_, stops_cons.mpr (isDigitChar_of_isFragmentStart hc hpath)⟩
      have hne : c ≠ '<' ∧ c ≠ '>' := by
        constructor <;> rintro rfl <;> exact absurd hc (by decide)
      simp [startsOperator, hne]
  refine redirect_mismatches ?_ hbehind.1
  have hpath : ∀ c ∈ s.takeWhile isPathChar, isPathChar c = true := fun _ => List.mem_takeWhile_imp
  rw [← List.takeWhile_append_dropWhile (p := isPathChar) (l := s)]
  generalize s.takeWhile isPathChar = bare at hpath
  rcases forall_or_exists isDigitChar bare with hdigits | hmixed
  · rw [dropWhile_append_of_stops hdigits hbehind.2]
    exact hbehind.1
  · exact startsOperator_dropWhile_append hmixed fun c hc => ne_operator_of_isPathChar (hpath c hc)

end Parser

open LineShell.Parser

/-! ## Sources and their places -/

/-- A text that is read up to its end when it stands alone on a line. -/
structure Source {α : Type} (p : Production α) where
  text : List Char
  value : α
  reads : p (text ++ ['\n']) = .ok (value, ['\n'])

/-- A source with the blanks before it. -/
structure Placed {α : Type} (p : Production α) extends Source p where
  gap : List Char
  blank : ∀ c ∈ gap, isBlank c = true

namespace Placed

variable {α : Type} {p : Production α}

def join (ts : List (Placed p)) : List Char :=
  ts.flatMap fun t => t.gap ++ t.text

def values (ts : List (Placed p)) : List α :=
  ts.map fun t => t.value

@[simp] theorem join_nil : join ([] : List (Placed p)) = [] := rfl

@[simp] theorem join_cons (t : Placed p) (ts : List (Placed p)) :
    join (t :: ts) = t.gap ++ (t.text ++ join ts) := by
  simp [join]

@[simp] theorem values_nil : values ([] : List (Placed p)) = [] := rfl

@[simp] theorem values_cons (t : Placed p) (ts : List (Placed p)) :
    values (t :: ts) = t.value :: values ts := rfl

end Placed

theorem Source.eq_text {α : Type} {p : Production α} (t : Source p) {w : List Char}
    (h : t.text ++ ['\n'] = w ++ ['\n']) : t.text = w :=
  List.append_cancel_right h

theorem Source.head {α : Type} {p : Production α} (t : Source p) (hne : t.text ≠ [])
    {c : Char} {u : List Char} (h : t.text ++ ['\n'] = c :: u) : ∃ x, t.text = c :: x := by
  rcases List.exists_cons_of_ne_nil hne with ⟨d, x, hd⟩
  rw [hd] at h ⊢
  rw [(List.cons.inj h).1]
  exact ⟨x, rfl⟩

theorem Source.word_reads (t : Source word) :
    Solid t.text ∧ ∀ r, EndsWord r → word (t.text ++ r) = .ok (t.value, r) := by
  obtain ⟨w, hw, hsolid, hread⟩ := word_extent t.reads
  rw [t.eq_text hw]
  exact ⟨hsolid, hread⟩

theorem Source.assignment_reads (t : Source assignment) :
    Solid t.text ∧ ∀ r, EndsWord r → assignment (t.text ++ r) = .ok (t.value, r) := by
  obtain ⟨w, hw, hsolid, hread⟩ := assignment_extent t.reads
  rw [t.eq_text hw]
  exact ⟨hsolid, hread⟩

theorem Source.redirect_reads (t : Source redirect) :
    Solid t.text ∧ ∀ r, t.value.EndsBefore r → redirect (t.text ++ r) = .ok (t.value, r) := by
  obtain ⟨w, hw, hsolid, hread⟩ := redirect_extent t.reads
  rw [t.eq_text hw]
  exact ⟨hsolid, hread⟩

theorem Source.word_head (t : Source word) : ∃ c u, t.text = c :: u ∧ isFragmentStart c = true := by
  rcases Parser.word_head t.reads with ⟨c, u, hu, hc⟩
  rcases t.head t.word_reads.1.ne_nil hu with ⟨x, hx⟩
  exact ⟨c, x, hx, hc⟩

theorem Source.assignment_head (t : Source assignment) :
    ∃ c u, t.text = c :: u ∧ isFragmentStart c = true := by
  rcases Parser.assignment_head t.reads with ⟨c, u, hu, hc⟩
  rcases t.head t.assignment_reads.1.ne_nil hu with ⟨x, hx⟩
  exact ⟨c, x, hx, by simp [isFragmentStart, hc]⟩

theorem Source.redirect_head (t : Source redirect) :
    ∃ c u, t.text = c :: u ∧ isRedirectStart c = true := by
  rcases Parser.redirect_head t.reads with ⟨c, u, hu, hc⟩
  rcases t.head t.redirect_reads.1.ne_nil hu with ⟨x, hx⟩
  exact ⟨c, x, hx, hc⟩

theorem endsWord_newline : EndsWord ['\n'] :=
  endsWord_of_head (by decide) (by decide) []

theorem endsBefore_newline (d : Redirect) : d.EndsBefore ['\n'] := by
  unfold Redirect.EndsBefore
  split
  · next operand _ =>
    cases operand with
    | file w => exact endsWord_newline
    | descriptor n => exact stops_cons.mpr (by decide)
  · exact ⟨fun _ => by decide, by decide, stops_cons.mpr (by decide)⟩

theorem exists_word_source {s r : List Char} {v : Word} (h : word s = .ok (v, r)) :
    ∃ t : Source word, s = t.text ++ r ∧ t.value = v := by
  obtain ⟨w, rfl, -, hread⟩ := word_extent h
  exact ⟨⟨w, v, hread _ endsWord_newline⟩, rfl, rfl⟩

theorem exists_assignment_source {s r : List Char} {a : Assignment}
    (h : assignment s = .ok (a, r)) : ∃ t : Source assignment, s = t.text ++ r ∧ t.value = a := by
  obtain ⟨w, rfl, -, hread⟩ := assignment_extent h
  exact ⟨⟨w, a, hread _ endsWord_newline⟩, rfl, rfl⟩

theorem exists_redirect_source {s r : List Char} {d : Redirect} (h : redirect s = .ok (d, r)) :
    ∃ t : Source redirect, s = t.text ++ r ∧ t.value = d := by
  obtain ⟨w, rfl, -, hread⟩ := redirect_extent h
  exact ⟨⟨w, d, hread _ (endsBefore_newline d)⟩, rfl, rfl⟩

end LineShell
