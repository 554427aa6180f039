import LineShell.Proofs.Parser.Scanner
import LineShell.Proofs.Word.Bounds

/-!
# Scanning words

The productions of words, each as a scanner, and the proofs that the two read the same.  A scanner
of a quoted text looks for the end of the text before each character, where the production finds
it only at a line feed that nothing follows.
-/

namespace LineShell

open LineShell.Parser

namespace Scanner

/-! ## Variables -/

def variableName (text : List Char) (i : Nat) : Except ParseFailure (String × Nat) :=
  if text[i]?.any isNameStart then
    let j := runEnd isNameChar text (i + 1)
    .ok (String.ofList (text.extract i j), j)
  else mismatchAt .variableName i

/-- Behind the dollar sign a mismatch is final. -/
def variableReference (text : List Char) (i : Nat) : Except ParseFailure (String × Nat) :=
  if text[i]? ≠ some '$' then mismatchAt .dollar i
  else if text[i + 1]? ≠ some '\x7b' then rejectionAt .openBrace (i + 1)
  else
    match variableName text (i + 2) with
    | .error (.mismatch expected offset) => rejectionAt expected offset
    | .error failure => .error failure
    | .ok (name, j) =>
        if text[j]? = some '\x7d' then .ok (name, j + 1) else rejectionAt .closeBrace j

/-! ## Bare text and wildcards -/

def path (text : List Char) (i : Nat) : Except ParseFailure (Word × Nat) :=
  let j := runEnd isPathChar text i
  if j = i then mismatchAt .path i else .ok (pathWord (text.extract i j), j)

/-- The wildcards that are not written as a general class, in the order in which they are tried. -/
def simpleGlobs : List (List Char) :=
  [['?'], ['*', '*'], ['*'], ['[', ']', ']'], ['[', '!', ']', ']']]

def generalClass (text : List Char) (i : Nat) : Except ParseFailure (Word × Nat) :=
  let j := runEnd isClassChar text (i + 1)
  if text[i]? = some '[' ∧ i + 1 < j ∧ text[j]? = some ']' then
    .ok ([.glob (String.ofList (text.extract i (j + 1)))], j + 1)
  else mismatchAt .glob i

def glob (text : List Char) (i : Nat) : Except ParseFailure (Word × Nat) :=
  match simpleGlobs.find? fun g => holdsAt text g i with
  | some g => .ok ([.glob (String.ofList g)], i + g.length)
  | none => generalClass text i

/-! ## Quotes -/

def quotedItems (text : List Char) (j : Nat) : Except ParseFailure (List QuotedItem × Nat) :=
  if hlt : j < text.length then
    if atEnd text j then rejectionAt .closingDoubleQuote j
    else if text[j] = '"' then .ok ([], j + 1)
    else if text[j] = '$' then
      match variableReference text j with
      | .error failure => .error failure
      | .ok (name, k) =>
          if text.length - k < text.length - j then
            withValue (.reference name :: ·) (quotedItems text k)
          else .ok ([.reference name], k)
    else if text[j] = '\\' then
      match text[j + 1]?.bind unescape? with
      | none => rejectionAt .escapeSequence j
      | some d => withValue (.char d :: ·) (quotedItems text (j + 2))
    else withValue (.char text[j] :: ·) (quotedItems text (j + 1))
  else rejectionAt .closingDoubleQuote j
termination_by text.length - j

def doubleQuoted (text : List Char) (i : Nat) : Except ParseFailure (Word × Nat) :=
  if text[i]? ≠ some '"' then mismatchAt .doubleQuote i
  else withValue fuse (quotedItems text (i + 1))

/-- A backslash before this character makes it part of a text in single quotes. -/
def isLiteralEscape (c : Char) : Bool :=
  c == '\\' || c == '\''

def literalText (text : List Char) (j : Nat) : Except ParseFailure (List Char × Nat) :=
  if hlt : j < text.length then
    if atEnd text j then rejectionAt .closingSingleQuote j
    else if text[j] = '\'' then .ok ([], j + 1)
    else
      match if text[j] = '\\' then text[j + 1]?.filter isLiteralEscape else none with
      | some d => withValue (d :: ·) (literalText text (j + 2))
      | none => withValue (text[j] :: ·) (literalText text (j + 1))
  else rejectionAt .closingSingleQuote j
termination_by text.length - j

def singleQuoted (text : List Char) (i : Nat) : Except ParseFailure (Word × Nat) :=
  if text[i]? ≠ some '\'' then mismatchAt .singleQuote i
  else withValue literalWord (literalText text (i + 1))

/-! ## Words -/

def fragment : Scanner Word :=
  firstOf .argument [path, glob, doubleQuoted, singleQuoted]

def word (text : List Char) (i : Nat) : Except ParseFailure (Word × Nat) :=
  match many fragment text i with
  | .error failure => .error failure
  | .ok (ws, j) => if j = i then mismatchAt .argument i else .ok (ws.flatten, j)

end Scanner

/-! ## The same words -/

theorem head?_ne_of_forall {s : List Char} {c : Char} (h : ∀ t, s = c :: t → False) :
    s.head? ≠ some c := by
  intro hs
  obtain ⟨t, ht⟩ := List.head?_eq_some_iff.mp hs
  exact h t ht

theorem variableName_scans : Scans Scanner.variableName variableName := by
  intro text s i h
  rw [Scanner.variableName, h.getElem?_eq]
  cases s with
  | nil => exact sameReading_mismatch _ h
  | cons c t =>
    have hend := h.tail.runEnd isNameChar
    have hname : text.extract i (Scanner.runEnd isNameChar text (i + 1)) =
        c :: t.takeWhile isNameChar := by
      refine Remains.extract_eq ?_ hend
      rwa [List.cons_append, List.takeWhile_append_dropWhile]
    simp only [variableName, List.head?_cons, Option.any_some, hname]
    split
    · exact .ok hend
    · exact sameReading_mismatch _ h

theorem variableReference_scans : Scans Scanner.variableReference variableReference := by
  intro text s i h
  unfold Scanner.variableReference variableReference
  rw [h.getElem?_eq]
  split
  · next t =>
    rw [h.tail.getElem?_eq, if_neg (by simp), if_neg (by simp)]
    have hname := variableName_scans h.tail.tail
    generalize hread : variableName t = reading, Scanner.variableName text (i + 2) = result
      at hname
    cases hname with
    | error hfailure =>
      rw [variableName_error hread] at hfailure
      cases hfailure with
      | mismatch hj => exact sameReading_rejection _ hj
    | @ok name j r hj =>
      simp only [hj.getElem?_eq]
      split
      · next heq =>
        obtain ⟨rfl, rfl⟩ := Prod.mk.inj (Except.ok.inj heq)
        rw [if_pos (by simp)]
        exact .ok hj.tail
      · next hne heq =>
        obtain ⟨rfl, rfl⟩ := Prod.mk.inj (Except.ok.inj heq)
        rw [if_neg (head?_ne_of_forall hne)]
        exact sameReading_rejection _ hj
      · next heq => simp at heq
  · next t hne =>
    have hbrace : t.head? ≠ some '\x7b' := head?_ne_of_forall fun r hr => hne r (by rw [hr])
    rw [h.tail.getElem?_eq, if_neg (by simp), if_pos hbrace]
    exact sameReading_rejection _ h.tail
  · next hne =>
    rw [if_pos (head?_ne_of_forall hne)]
    exact sameReading_mismatch _ h

theorem path_scans : Scans Scanner.path path := by
  intro text s i h
  simp only [Scanner.path, path, h.runEnd_eq_self_iff, h.extract_runEnd, List.isEmpty_iff]
  split
  · exact sameReading_mismatch _ h
  · exact .ok (h.runEnd _)

theorem isPrefixOf_eq_false {w s : List Char} (h : ¬w <+: s) : w.isPrefixOf s = false :=
  Bool.eq_false_iff.mpr (mt List.isPrefixOf_iff_prefix.mp h)

theorem classBody_eq_some_iff {t body r : List Char} (hclosing : ¬[']', ']'] <+: t)
    (hnegated : ¬['!', ']', ']'] <+: t) :
    classBody t = some (body, r) ↔
      body ≠ [] ∧ t.takeWhile isClassChar = body ∧ t.dropWhile isClassChar = ']' :: r := by
  rw [classBody]
  · split
    · next r' hr =>
      simp only [List.isEmpty_iff, Option.ite_none_left_eq_some, Option.some.injEq,
        Prod.mk.injEq, hr, List.cons.injEq, true_and]
      constructor
      · rintro ⟨hne, rfl, rfl⟩
        exact ⟨hne, rfl, rfl⟩
      · rintro ⟨hne, rfl, rfl⟩
        exact ⟨hne, rfl, rfl⟩
    · next hne =>
      simp only [reduceCtorEq, false_iff, not_and]
      exact fun _ _ => hne r
  · exact fun u hu => hclosing ⟨u, hu.symm⟩
  · exact fun u hu => hnegated ⟨u, hu.symm⟩

theorem generalClass_scans {text t : List Char} {i : Nat} (h : Remains text i ('[' :: t))
    (hclosing : ¬[']', ']'] <+: t) (hnegated : ¬['!', ']', ']'] <+: t) :
    SameReading text (glob ('[' :: t)) (Scanner.generalClass text i) := by
  have hend := h.tail.runEnd isClassChar
  have hbody : i + 1 < Scanner.runEnd isClassChar text (i + 1) ↔
      t.takeWhile isClassChar ≠ [] := by
    rw [h.tail.runEnd_eq, Nat.lt_add_right_iff_pos, List.length_pos_iff]
  simp only [Scanner.generalClass, h.getElem?_eq, List.head?_cons, true_and, hbody,
    hend.getElem?_eq, glob]
  split
  · next body r hclass =>
    obtain ⟨hne, rfl, hrest⟩ := (classBody_eq_some_iff hclosing hnegated).mp hclass
    rw [hrest] at hend ⊢
    have hpattern : text.extract i (Scanner.runEnd isClassChar text (i + 1) + 1) =
        '[' :: t.takeWhile isClassChar ++ [']'] := by
      refine Remains.extract_eq ?_ hend.tail
      rwa [List.append_assoc, List.singleton_append, ← hrest, List.cons_append,
        List.takeWhile_append_dropWhile]
    rw [if_pos ⟨hne, rfl⟩, hpattern]
    exact .ok hend.tail
  · next hclass =>
    rw [if_neg]
    · exact sameReading_mismatch _ h
    · rintro ⟨hne, hhead⟩
      obtain ⟨r, hr⟩ := List.head?_eq_some_iff.mp hhead
      rw [(classBody_eq_some_iff hclosing hnegated).mpr ⟨hne, rfl, hr⟩] at hclass
      simp at hclass

theorem glob_scans : Scans Scanner.glob glob := by
  intro text s i h
  simp only [Scanner.glob, h.holdsAt_eq]
  unfold glob
  split
  · next r => exact .ok h.tail
  · next r => exact .ok h.tail.tail
  · next r hstar =>
    have hstars : ¬['*'] <+: r := fun ⟨u, hu⟩ => hstar u hu.symm
    have hfind : Scanner.simpleGlobs.find? (·.isPrefixOf ('*' :: r)) = some ['*'] := by
      simp [Scanner.simpleGlobs, isPrefixOf_eq_false hstars]
    rw [hfind]
    exact .ok h.tail
  · next t =>
    change SameReading text (glob ('[' :: t)) _
    by_cases hclosing : [']', ']'] <+: t
    · obtain ⟨r, rfl⟩ := hclosing
      exact .ok h.tail.tail.tail
    by_cases hnegated : ['!', ']', ']'] <+: t
    · obtain ⟨r, rfl⟩ := hnegated
      exact .ok h.tail.tail.tail.tail
    have hfind : Scanner.simpleGlobs.find? (·.isPrefixOf ('[' :: t)) = none := by
      simp [Scanner.simpleGlobs, isPrefixOf_eq_false hclosing, isPrefixOf_eq_false hnegated]
    rw [hfind]
    exact generalClass_scans h hclosing hnegated
  · next hquestion hstars hstar hopen =>
    have hfind : Scanner.simpleGlobs.find? (·.isPrefixOf s) = none := by
      rw [List.find?_eq_none]
      intro g hg hprefix
      obtain ⟨r, rfl⟩ := List.isPrefixOf_iff_prefix.mp hprefix
      simp only [Scanner.simpleGlobs, List.mem_cons, List.not_mem_nil, or_false] at hg
      rcases hg with rfl | rfl | rfl | rfl | rfl
      · exact hquestion _ rfl
      · exact hstar _ rfl
      · exact hstar _ rfl
      · exact hopen _ rfl
      · exact hopen _ rfl
    have hclass : ¬s.head? = some '[' := head?_ne_of_forall hopen
    simp only [hfind, Scanner.generalClass, h.getElem?_eq, hclass, false_and, if_false]
    exact sameReading_mismatch _ h

/-! ## Quotes -/

theorem quotedItems_scans : Scans Scanner.quotedItems quotedItems := by
  intro text s i h
  induction hn : s.length using Nat.strongRecOn generalizing s i with
  | ind n ih =>
    subst hn
    rw [quotedItems_unrolls, Scanner.quotedItems]
    cases s with
    | nil =>
      rw [dif_neg h.not_lt_length]
      exact sameReading_rejection _ h
    | cons c t =>
      obtain ⟨hlt, hc⟩ := h.exists_getElem
      have hitem {k : Nat} {r : List Char} (hk : Remains text k r)
          (hr : r.length < (c :: t).length) (item : QuotedItem) :=
        (ih r.length hr hk rfl).map (item :: ·)
      rw [dif_pos hlt, hc, h.tail.getElem?_eq]
      simp only [quotedTurn]
      by_cases hend : c = '\n' ∧ t = []
      · obtain ⟨rfl, rfl⟩ := hend
        rw [if_pos (h.atEnd_iff.mpr rfl)]
        exact sameReading_rejection _ h
      · rw [if_neg (mt h.atEnd_iff.mp (by simpa using hend)), if_neg hend]
        split
        · exact .ok h.tail
        · split
          · have hname := variableReference_scans h
            generalize hread : variableReference (c :: t) = reading,
              Scanner.variableReference text i = result at hname
            cases hname with
            | error hfailure => exact .error hfailure
            | ok hk =>
              have hlt := variableReference_consumes.length_lt hread
              simp only [if_pos ((h.length_sub_lt_iff hk).mpr hlt)]
              exact hitem hk hlt _
          · split
            · cases t with
              | nil => exact sameReading_rejection _ h
              | cons e r =>
                simp only [List.head?_cons, Option.bind_some]
                cases unescape? e with
                | none => exact sameReading_rejection _ h
                | some d => exact hitem h.tail.tail (by simp only [List.length_cons]; omega) _
            · exact hitem h.tail (Nat.lt_succ_self _) _

theorem doubleQuoted_cons (t : List Char) :
    doubleQuoted ('"' :: t) = Production.map fuse quotedItems t := by
  rw [doubleQuoted, Production.map]
  cases quotedItems t <;> rfl

theorem doubleQuoted_scans : Scans Scanner.doubleQuoted doubleQuoted := by
  intro text s i h
  rw [Scanner.doubleQuoted, h.getElem?_eq]
  split
  · next hne =>
    rw [doubleQuoted_of_head?_ne hne]
    exact sameReading_mismatch _ h
  · next hquote =>
    obtain ⟨t, rfl⟩ := List.head?_eq_some_iff.mp (not_not.mp hquote)
    rw [doubleQuoted_cons]
    exact (quotedItems_scans h.tail).map fuse

theorem exists_of_literalEscape {c d : Char} {t : List Char}
    (h : (if c = '\\' then t.head?.filter Scanner.isLiteralEscape else none) = some d) :
    c = '\\' ∧ Scanner.isLiteralEscape d = true ∧ ∃ r, t = d :: r := by
  split at h
  · next hc =>
    obtain ⟨hhead, hd⟩ := Option.filter_eq_some_iff.mp h
    exact ⟨hc, hd, List.head?_eq_some_iff.mp hhead⟩
  · simp at h

theorem literalText_cons_of_escape {d : Char} (hd : Scanner.isLiteralEscape d = true)
    (t : List Char) :
    literalText ('\\' :: d :: t) = Production.map (d :: ·) literalText t := by
  have hcases : d = '\\' ∨ d = '\'' := by simpa [Scanner.isLiteralEscape] using hd
  unfold Production.map
  rcases hcases with rfl | rfl <;> rw [literalText] <;> cases literalText t <;> rfl

theorem literalText_cons_of_plain {c : Char} {t : List Char} (hquote : c ≠ '\'')
    (hescape : c = '\\' → t.head?.filter Scanner.isLiteralEscape = none)
    (hend : ¬(c = '\n' ∧ t = [])) :
    literalText (c :: t) = Production.map (c :: ·) literalText t := by
  unfold Production.map
  rw [literalText, if_neg hend]
  · cases literalText t <;> rfl
  · exact hquote
  · rintro r rfl rfl
    simp [Scanner.isLiteralEscape] at hescape
  · rintro r rfl rfl
    simp [Scanner.isLiteralEscape] at hescape

theorem literalText_scans : Scans Scanner.literalText literalText := by
  intro text s i h
  induction hn : s.length using Nat.strongRecOn generalizing s i with
  | ind n ih =>
    subst hn
    rw [Scanner.literalText]
    cases s with
    | nil =>
      rw [dif_neg h.not_lt_length]
      exact sameReading_rejection _ h
    | cons c t =>
      obtain ⟨hlt, hc⟩ := h.exists_getElem
      rw [dif_pos hlt, hc, h.tail.getElem?_eq]
      by_cases hend : c = '\n' ∧ t = []
      · obtain ⟨rfl, rfl⟩ := hend
        rw [if_pos (h.atEnd_iff.mpr rfl)]
        exact sameReading_rejection _ h
      · rw [if_neg (mt h.atEnd_iff.mp (by simpa using hend))]
        split
        · next hquote =>
          subst hquote
          exact .ok h.tail
        · next hquote =>
          have htext {k : Nat} {r : List Char} (hk : Remains text k r)
              (hr : r.length < (c :: t).length) (d : Char) :=
            (ih r.length hr hk rfl).map (d :: ·)
          split
          · next d hescape =>
            obtain ⟨rfl, hd, r, rfl⟩ := exists_of_literalEscape hescape
            rw [literalText_cons_of_escape hd]
            exact htext h.tail.tail (by simp only [List.length_cons]; omega) d
          · next hescape =>
            rw [literalText_cons_of_plain hquote (fun hc => by rwa [if_pos hc] at hescape) hend]
            exact htext h.tail (Nat.lt_succ_self _) c

theorem singleQuoted_cons (t : List Char) :
    singleQuoted ('\'' :: t) = Production.map literalWord literalText t := by
  rw [singleQuoted, Production.map]
  cases literalText t <;> rfl

theorem singleQuoted_scans : Scans Scanner.singleQuoted singleQuoted := by
  intro text s i h
  rw [Scanner.singleQuoted, h.getElem?_eq]
  split
  · next hne =>
    rw [singleQuoted_of_head?_ne hne]
    exact sameReading_mismatch _ h
  · next hquote =>
    obtain ⟨t, rfl⟩ := List.head?_eq_some_iff.mp (not_not.mp hquote)
    rw [singleQuoted_cons]
    exact (literalText_scans h.tail).map literalWord

/-! ## Words -/

theorem fragment_scans : Scans Scanner.fragment fragment :=
  Scans.firstOf (.cons path_scans (.cons glob_scans
    (.cons doubleQuoted_scans (.cons singleQuoted_scans .nil))))

theorem word_scans : Scans Scanner.word word := by
  intro text s i h
  have hread := fragment_scans.many fragment_consumes h
  rw [Scanner.word, word]
  generalize hs : Production.repeated fragment s = reading,
    Scanner.many Scanner.fragment text i = result at hread
  cases hread with
  | error hfailure => exact .error hfailure
  | @ok ws j r hj =>
    cases ws with
    | nil =>
      obtain rfl := ((Production.repeated_eq_ok_iff fragment_consumes).mp hs).1.eq_of_nil
      simp only [if_pos ((h.eq_iff hj).mpr rfl)]
      exact sameReading_mismatch _ h
    | cons v vs =>
      obtain ⟨w, rfl, hw⟩ := Production.repeated_append fragment_consumes hs
      have hne : j ≠ i := by
        have hpos := List.length_pos_iff.mpr (hw (List.cons_ne_nil v vs))
        rw [h.position_eq hj]
        omega
      simp only [if_neg hne]
      exact .ok hj

end LineShell
