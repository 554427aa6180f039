import LineShell.Proofs.Parser.Position
import LineShell.Proofs.Word.Rejection
import LineShell.Proofs.Word.Written
import Mathlib.Algebra.Group.Nat.Even
import Mathlib.Data.Nat.Find

/-!
# Texts in single quotes

Which single quote closes a text is decided by the backslashes right before it: it is the first
quote with an even number of them.  The production reads the backslashes from left to right, two
at a time.  Each of its steps keeps the parity that counts for the quotes behind it, and that is
how the two agree.
-/

namespace LineShell

open LineShell.Parser

/-! ## Backslashes before a quote -/

/-- The number of backslashes at the end of a text. -/
def backslashes (w : List Char) : Nat :=
  (w.reverse.takeWhile (· == '\\')).length

/-- The text with each escaped backslash and quote replaced, from left to right.  Other backslashes
stand for themselves. -/
def unescaped : List Char → List Char
  | [] => []
  | '\\' :: '\\' :: t => '\\' :: unescaped t
  | '\\' :: '\'' :: t => '\'' :: unescaped t
  | c :: t => c :: unescaped t

/-- A quote behind the text closes it, and no quote within it does. -/
def ClosedBehind (w : List Char) : Prop :=
  Even (backslashes w) ∧ ∀ front back, w = front ++ '\'' :: back → ¬ Even (backslashes front)

/-- Any other character ends the count. -/
theorem backslashes_behind (front : List Char) {c : Char} (hc : c ≠ '\\') (w : List Char) :
    backslashes (front ++ c :: w) = backslashes w := by
  have hstop : ([c] ++ front.reverse).takeWhile (· == '\\') = [] := by simp [hc]
  rw [backslashes, backslashes, List.reverse_append, List.reverse_cons, List.append_assoc,
    List.takeWhile_append, hstop, List.append_nil]
  split
  · next hlength =>
    have hall : w.reverse.takeWhile (· == '\\') = w.reverse :=
      (List.takeWhile_prefix _).eq_of_length hlength
    rw [hall]
  · rfl

theorem even_backslashes_escaped (w : List Char) :
    Even (backslashes ('\\' :: '\\' :: w)) ↔ Even (backslashes w) := by
  have hpair : ['\\', '\\'].takeWhile (· == '\\') = ['\\', '\\'] := rfl
  rw [backslashes, backslashes, List.reverse_cons, List.reverse_cons, List.append_assoc,
    List.singleton_append, List.takeWhile_append, hpair]
  split
  · next hlength =>
    have htwo : Even ['\\', '\\'].length := ⟨1, rfl⟩
    rw [List.length_append, hlength, Nat.even_add, iff_true_right htwo]
  · exact Iff.rfl

theorem not_even_backslash : ¬ Even (backslashes ['\\']) := by
  decide

/-- What is read at the beginning may be left out, if it keeps the parity that decides about each
of the quotes behind it, and no quote in it closes the text. -/
theorem closedBehind_append (pre : List Char) {w : List Char}
    (hpre : ∀ front back, pre = front ++ '\'' :: back → ¬ Even (backslashes front))
    (hparity : ∀ f, f = w ∨ (∃ back, w = f ++ '\'' :: back) →
      (Even (backslashes (pre ++ f)) ↔ Even (backslashes f))) :
    ClosedBehind (pre ++ w) ↔ ClosedBehind w := by
  constructor
  · rintro ⟨heven, hquotes⟩
    refine ⟨(hparity w (Or.inl rfl)).mp heven, ?_⟩
    intro front back hw hfront
    apply hquotes (pre ++ front) back (by rw [hw, List.append_assoc])
    exact (hparity front (Or.inr ⟨back, hw⟩)).mpr hfront
  · rintro ⟨heven, hquotes⟩
    refine ⟨(hparity w (Or.inl rfl)).mpr heven, ?_⟩
    intro front back hw hfront
    have hbehind : ∀ f, front = pre ++ f → w ≠ f ++ '\'' :: back := by
      rintro f rfl hf
      exact hquotes f back hf ((hparity f (Or.inr ⟨back, hf⟩)).mp hfront)
    rcases List.append_eq_append_iff.mp hw with ⟨f, hf, hback⟩ | ⟨f, hf, hback⟩
    · exact hbehind f hf hback
    · cases f with
      | nil => exact hbehind [] (by simpa using hf.symm) (by simpa using hback.symm)
      | cons c f =>
        obtain ⟨rfl, -⟩ := List.cons.inj hback
        exact hpre front f hf hfront

theorem closedBehind_escaped {c : Char} (hc : c = '\\' ∨ c = '\'') {w : List Char} :
    ClosedBehind ('\\' :: c :: w) ↔ ClosedBehind w := by
  rcases hc with rfl | rfl
  · refine closedBehind_append ['\\', '\\'] ?_ fun f _ => even_backslashes_escaped f
    intro front back hpre
    have hmem : '\'' ∈ ['\\', '\\'] := by rw [hpre]; simp
    exact absurd hmem (by decide)
  · refine closedBehind_append ['\\', '\''] ?_ fun f _ => ?_
    · -- the one quote in it stands behind a single backslash
      intro front back hpre
      match front, hpre with
      | ['\\'], _ => exact not_even_backslash
      | _ :: _ :: front, hpre => simp at hpre
    · have hsplit : ['\\', '\''] ++ f = ['\\'] ++ '\'' :: f := rfl
      rw [hsplit, backslashes_behind ['\\'] (by decide)]

theorem closedBehind_plain {c : Char} (hc : c ≠ '\'') {w : List Char}
    (halone : c = '\\' → w ≠ [] ∧ w.head? ≠ some '\\' ∧ w.head? ≠ some '\'') :
    ClosedBehind (c :: w) ↔ ClosedBehind w := by
  refine closedBehind_append [c] ?_ ?_
  · intro front back hpre
    have hmem : '\'' ∈ [c] := by rw [hpre]; simp
    exact absurd (List.mem_singleton.mp hmem).symm hc
  · intro f hf
    by_cases hback : c = '\\'
    · -- the text goes on with a character that is neither a backslash nor a quote
      obtain ⟨hne, hnot, hquote⟩ := halone hback
      cases f with
      | nil =>
        rcases hf with rfl | ⟨back, rfl⟩
        · exact absurd rfl hne
        · exact absurd rfl hquote
      | cons d f =>
        have hd : d ≠ '\\' := by
          rintro rfl
          rcases hf with rfl | ⟨back, rfl⟩ <;> exact hnot rfl
        rw [backslashes_behind [c] hd]
        rw [← List.nil_append (d :: f), backslashes_behind [] hd]
    · rw [List.singleton_append, ← List.nil_append (c :: f), backslashes_behind [] hback]

/-! ## The texts that are read -/

theorem closedBehind_nil : ClosedBehind [] := by
  refine ⟨by decide, ?_⟩
  intro front back h
  simp at h

theorem literalText_unescaped {w : List Char} (h : ClosedBehind w) :
    LiteralText w (unescaped w) := by
  fun_induction unescaped w with
  | case1 => exact .nil
  | case2 t ih => exact .escape (Or.inl rfl) (ih ((closedBehind_escaped (Or.inl rfl)).mp h))
  | case3 t ih => exact .escape (Or.inr rfl) (ih ((closedBehind_escaped (Or.inr rfl)).mp h))
  | case4 c t hdouble hsingle ih =>
    -- what is closed behind neither begins with a quote nor is a single backslash
    have hc : c ≠ '\'' := by
      rintro rfl
      exact h.2 [] t rfl (by decide)
    have halone : c = '\\' → t ≠ [] ∧ t.head? ≠ some '\\' ∧ t.head? ≠ some '\'' := by
      rintro rfl
      refine ⟨?_, ?_, ?_⟩
      · rintro rfl
        exact not_even_backslash h.1
      · intro hhead
        obtain ⟨u, rfl⟩ := List.head?_eq_some_iff.mp hhead
        exact hdouble u rfl rfl
      · intro hhead
        obtain ⟨u, rfl⟩ := List.head?_eq_some_iff.mp hhead
        exact hsingle u rfl rfl
    exact .plain hc halone (ih ((closedBehind_plain hc halone).mp h))

theorem literalText_iff {w cs : List Char} :
    LiteralText w cs ↔ ClosedBehind w ∧ cs = unescaped w := by
  constructor
  · intro h
    induction h with
    | nil => exact ⟨closedBehind_nil, rfl⟩
    | @escape c w cs hc _ ih =>
      refine ⟨(closedBehind_escaped hc).mpr ih.1, ?_⟩
      rcases hc with rfl | rfl <;> rw [unescaped, ih.2]
    | @plain c w cs hquote halone _ ih =>
      refine ⟨(closedBehind_plain hquote halone).mpr ih.1, ?_⟩
      rw [ih.2, unescaped]
      · rintro t rfl rfl
        exact (halone rfl).2.1 rfl
      · rintro t rfl rfl
        exact (halone rfl).2.2 rfl
  · rintro ⟨h, rfl⟩
    exact literalText_unescaped h

/-! ## Readings -/

/-- A quote at the one position closes the text that a quote at the other one opens: the backslashes
before it, back to the opening quote at most, are even in number. -/
def ClosesAt (text : List Char) (start close : Nat) : Prop :=
  start < close ∧ text[close]? = some '\'' ∧ Even (backslashes (text.extract (start + 1) close))

def FirstClosesAt (text : List Char) (start close : Nat) : Prop :=
  ClosesAt text start close ∧ ∀ earlier < close, ¬ ClosesAt text start earlier

theorem exists_firstClosesAt {text : List Char} {start close : Nat}
    (h : ClosesAt text start close) :
    ∃ first, FirstClosesAt text start first := by
  classical
  have hsome : ∃ close, ClosesAt text start close := ⟨close, h⟩
  exact ⟨Nat.find hsome, Nat.find_spec hsome, fun earlier hlt => Nat.find_min hsome hlt⟩

theorem closesAt_iff {text : List Char} {start close : Nat} :
    ClosesAt text start close ↔
      ∃ body rest, text.drop (start + 1) = body ++ '\'' :: rest ∧
        close = start + 1 + body.length ∧ Even (backslashes body) := by
  constructor
  · rintro ⟨hlt, hquote, heven⟩
    have hlength : close < text.length := (List.getElem?_eq_some_iff.mp hquote).1
    refine ⟨text.extract (start + 1) close, text.drop (close + 1), ?_, ?_, heven⟩
    · rw [drop_eq_extract_append hlt, drop_of_getElem? hquote]
    · rw [List.extract_eq_take_drop, List.length_take, List.length_drop]
      omega
  · rintro ⟨body, rest, htext, rfl, heven⟩
    refine ⟨by omega, ?_, ?_⟩
    · rw [← List.getElem?_drop, htext, List.getElem?_append_right (Nat.le_refl _), Nat.sub_self]
      rfl
    · rw [extract_of_drop_eq htext]
      exact heven

theorem firstClosesAt_iff {text : List Char} {start close : Nat} :
    FirstClosesAt text start close ↔
      ∃ body rest, text.drop (start + 1) = body ++ '\'' :: rest ∧
        close = start + 1 + body.length ∧ ClosedBehind body := by
  constructor
  · rintro ⟨hcloses, hfirst⟩
    obtain ⟨body, rest, htext, rfl, heven⟩ := closesAt_iff.mp hcloses
    refine ⟨body, rest, htext, rfl, heven, ?_⟩
    rintro front back rfl hfront
    have hlt : start + 1 + front.length < start + 1 + (front ++ '\'' :: back).length := by
      simp
    refine hfirst _ hlt (closesAt_iff.mpr ⟨front, back ++ '\'' :: rest, ?_, rfl, hfront⟩)
    rw [htext, List.append_assoc, List.cons_append]
  · rintro ⟨body, rest, htext, rfl, heven, hquotes⟩
    refine ⟨closesAt_iff.mpr ⟨body, rest, htext, rfl, heven⟩, ?_⟩
    intro earlier hlt hcloses
    obtain ⟨front, behind, hfront, rfl, heven'⟩ := closesAt_iff.mp hcloses
    have hlength : front.length < body.length := by omega
    rcases List.append_eq_append_iff.mp (htext.symm.trans hfront) with ⟨z, rfl, -⟩ | ⟨z, rfl, hz⟩
    · simp only [List.length_append] at hlength
      omega
    · cases z with
      | nil => simp at hlength
      | cons c z =>
        obtain ⟨rfl, -⟩ := List.cons.inj hz
        exact hquotes front z rfl heven'

theorem singleQuoted_readAt_ok_iff {text : List Char} {start stop : Nat} {w : Word}
    (hquote : text[start]? = some '\'') :
    singleQuoted.readAt text start = .ok (w, stop) ↔
      ∃ close, FirstClosesAt text start close ∧ stop = close + 1 ∧
        w = literalWord (unescaped (text.extract (start + 1) close)) := by
  rw [Production.readAt_eq_ok_iff singleQuoted_consumes, drop_of_getElem? hquote]
  have hbehind : ∀ body rest, text.drop (start + 1) = body ++ '\'' :: rest →
      text.drop (start + 1 + body.length + 1) = rest ∧
        start + 1 + body.length + 1 ≤ text.length := by
    intro body rest htext
    have hrest := drop_of_drop_eq (w := body ++ ['\'']) (by simpa using htext)
    have hlength := congrArg List.length htext
    simp only [List.length_drop, List.length_append, List.length_cons] at hlength
    exact ⟨by simpa [Nat.add_assoc] using hrest, by omega⟩
  constructor
  · rintro ⟨hlt, hstop, hread⟩
    obtain ⟨body, cs, hbody, rfl, hquoted⟩ := singleQuoted_eq_ok_iff.mp hread
    obtain ⟨hclosed, rfl⟩ := literalText_iff.mp hbody
    have htext : text.drop (start + 1) = body ++ '\'' :: text.drop stop := (List.cons.inj hquoted).2
    obtain ⟨hrest, hlength⟩ := hbehind body _ htext
    refine ⟨_, firstClosesAt_iff.mpr ⟨body, _, htext, rfl, hclosed⟩, ?_, ?_⟩
    · exact drop_injective hstop hlength hrest.symm
    · rw [extract_of_drop_eq htext]
  · rintro ⟨close, hfirst, rfl, rfl⟩
    obtain ⟨body, rest, htext, rfl, hclosed⟩ := firstClosesAt_iff.mp hfirst
    obtain ⟨hrest, hlength⟩ := hbehind body rest htext
    refine ⟨by omega, hlength, ?_⟩
    rw [extract_of_drop_eq htext, hrest, htext]
    exact singleQuoted_eq_ok_iff.mpr ⟨body, _, literalText_unescaped hclosed, rfl, rfl⟩

theorem singleQuoted_readAt_rejects {text : List Char} {start : Nat}
    (hquote : text[start]? = some '\'') (hnone : ¬ ∃ close, ClosesAt text start close) :
    ∃ expected offset, singleQuoted.readAt text start = .error (.rejection expected offset) := by
  apply Production.readAt_rejects
  · rw [drop_of_getElem? hquote]
    exact fun failure => singleQuoted_rejects
  · intro w stop hok
    obtain ⟨close, hfirst, -, -⟩ := (singleQuoted_readAt_ok_iff hquote).mp hok
    exact hnone ⟨close, hfirst.1⟩

/-- A written text is read back, whatever stands around it. -/
theorem singleQuoted_readAt_quoteLiteral (cs front back : List Char) :
    singleQuoted.readAt (front ++ (quoteLiteral cs ++ back)) front.length =
      .ok (literalWord cs, front.length + (quoteLiteral cs).length) := by
  have hread : singleQuoted (quoteLiteral cs ++ back) = .ok (literalWord cs, back) :=
    singleQuoted_eq_ok_iff.mpr ⟨_, cs, literalText_escaped cs, rfl, by simp [quoteLiteral]⟩
  rw [Production.readAt_append, hread]
  simp [offsetOf]

theorem literalWord_eq (cs : List Char) :
    literalWord cs = if cs = [] then [] else [.fixed (String.ofList cs)] := by
  simp [literalWord]

/-- A reading in single quotes ends behind the first quote that closes the text, which is the first
one with an even number of backslashes before it, and its word is the unescaped text.  Without such
a quote it is rejected.  Escaping is undone by it. -/
theorem singleQuoted_exact :
    (∀ (text : List Char) (start : Nat), text[start]? = some '\'' →
      ((∃ w stop, singleQuoted.readAt text start = .ok (w, stop)) ↔
        ∃ close, ClosesAt text start close) ∧
      (∀ w stop, singleQuoted.readAt text start = .ok (w, stop) ↔
        ∃ close, FirstClosesAt text start close ∧ stop = close + 1 ∧
          w = let cs := unescaped (text.extract (start + 1) close)
            if cs = [] then [] else [.fixed (String.ofList cs)]) ∧
      ((∃ expected offset, singleQuoted.readAt text start = .error (.rejection expected offset)) ↔
        ¬ ∃ close, ClosesAt text start close)) ∧
    ∀ cs front back : List Char,
      singleQuoted.readAt (front ++ (quoteLiteral cs ++ back)) front.length =
        .ok (if cs = [] then [] else [.fixed (String.ofList cs)],
          front.length + (quoteLiteral cs).length) := by
  simp only [← literalWord_eq]
  refine ⟨fun text start hquote => ?_, singleQuoted_readAt_quoteLiteral⟩
  have hsome : (∃ w stop, singleQuoted.readAt text start = .ok (w, stop)) ↔
      ∃ close, ClosesAt text start close := by
    constructor
    · rintro ⟨w, stop, hread⟩
      obtain ⟨close, hfirst, -, -⟩ := (singleQuoted_readAt_ok_iff hquote).mp hread
      exact ⟨close, hfirst.1⟩
    · rintro ⟨close, hcloses⟩
      obtain ⟨first, hfirst⟩ := exists_firstClosesAt hcloses
      exact ⟨_, _, (singleQuoted_readAt_ok_iff hquote).mpr ⟨first, hfirst, rfl, rfl⟩⟩
  refine ⟨hsome, fun w stop => singleQuoted_readAt_ok_iff hquote, ?_,
    singleQuoted_readAt_rejects hquote⟩
  rintro ⟨expected, offset, hrejection⟩ hcloses
  obtain ⟨w, stop, hread⟩ := hsome.mpr hcloses
  rw [hread] at hrejection
  cases hrejection

/-- The quote behind one backslash does not close the text, and the one behind two does.  Behind
the last quote there is none. -/
theorem singleQuoted_exact_escaped :
    let text := ['x', '\'', 'a', '\\', '\'', 'b', '\\', '\\', '\'', 'c', '\'']
    singleQuoted.readAt text 1 = .ok ([.fixed "a'b\\"], 9) ∧ FirstClosesAt text 1 8 ∧
      ¬ ∃ close, ClosesAt text 10 close := by
  intro text
  have hread : singleQuoted.readAt text 1 = .ok ([.fixed "a'b\\"], 9) := by decide +kernel
  have hrejected : singleQuoted.readAt text 10 = .error (.rejection .closingSingleQuote 11) := by
    decide +kernel
  obtain ⟨-, hok, -⟩ := singleQuoted_exact.1 text 1 rfl
  obtain ⟨-, -, hrejection⟩ := singleQuoted_exact.1 text 10 rfl
  obtain ⟨close, hfirst, hstop, -⟩ := (hok _ _).mp hread
  obtain rfl : close = 8 := by omega
  exact ⟨hread, hfirst, hrejection.mp ⟨_, _, hrejected⟩⟩

end LineShell
