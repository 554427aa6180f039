import LineShell.Parser.Word
import LineShell.Proofs.Text.Span

/-!
# The forms of fragments

Each production of a word is described here without the production: by the texts that it reads,
by what each of them stands for, and by what may not follow.  The descriptions are exact, so all
that is proved later about words rests on them and not on how the productions scan.
-/

namespace LineShell

/-! ## Names -/

def IsName : List Char → Prop
  | [] => False
  | c :: t => isNameStart c = true ∧ ∀ d ∈ t, isNameChar d = true

instance decidableIsName : (cs : List Char) → Decidable (IsName cs)
  | [] => inferInstanceAs (Decidable False)
  | c :: t =>
    have : Decidable (∀ d ∈ t, isNameChar d = true) := List.decidableBAll _ t
    inferInstanceAs (Decidable (isNameStart c = true ∧ ∀ d ∈ t, isNameChar d = true))

theorem IsName.ne_nil {cs : List Char} (h : IsName cs) : cs ≠ [] := by
  rintro rfl
  exact h

theorem isNameChar_of_isNameStart {c : Char} (h : isNameStart c = true) : isNameChar c = true := by
  simp only [isNameStart, isNameChar, Char.isAlphanum, Bool.or_eq_true] at h ⊢
  rcases h with h | h
  · exact Or.inl (Or.inl h)
  · exact Or.inr h

theorem IsName.isNameChar {cs : List Char} (h : IsName cs) : ∀ c ∈ cs, isNameChar c = true := by
  cases cs with
  | nil => simp
  | cons c t =>
    rintro d hd
    rcases List.mem_cons.mp hd with rfl | hd
    · exact isNameChar_of_isNameStart h.1
    · exact h.2 d hd

namespace Parser

theorem variableName_eq_ok_iff {s r : List Char} {name : String} :
    variableName s = .ok (name, r) ↔
      IsName name.toList ∧ s = name.toList ++ r ∧ Stops isNameChar r := by
  constructor
  · intro h
    obtain ⟨c, t, hc, rfl, rfl, rfl⟩ := variableName_ok h
    refine ⟨?_, ?_, stops_dropWhile isNameChar t⟩
    · rw [String.toList_ofList]
      exact ⟨hc, fun _ => List.mem_takeWhile_imp⟩
    · rw [String.toList_ofList, List.cons_append, List.takeWhile_append_dropWhile]
  · rintro ⟨hname, rfl, hr⟩
    cases hcs : name.toList with
    | nil => exact absurd hcs hname.ne_nil
    | cons c t =>
      rw [hcs] at hname
      have htake : (t ++ r).takeWhile isNameChar = t := takeWhile_append_of_stops hname.2 hr
      have hdrop : (t ++ r).dropWhile isNameChar = r := dropWhile_append_of_stops hname.2 hr
      rw [List.cons_append]
      simp only [variableName, hname.1, ↓reduceIte, htake, hdrop]
      rw [← hcs, String.ofList_toList]

theorem variableName_error {s : List Char} {failure : Failure}
    (h : variableName s = .error failure) : failure = .mismatch ⟨.variableName, s⟩ := by
  cases s with
  | nil => simpa [variableName, mismatch, eq_comm] using h
  | cons c t =>
    simp only [variableName] at h
    split at h
    · simp at h
    · simpa [mismatch, eq_comm] using h

def referenceText (name : String) : List Char :=
  '$' :: '\x7b' :: (name.toList ++ ['\x7d'])

theorem variableReference_eq_ok_iff {s r : List Char} {name : String} :
    variableReference s = .ok (name, r) ↔
      IsName name.toList ∧ s = referenceText name ++ r := by
  constructor
  · intro h
    unfold variableReference at h
    split at h
    · next t =>
      split at h
      · next name' r' hread =>
        simp only [Except.ok.injEq, Prod.mk.injEq] at h
        obtain ⟨rfl, rfl⟩ := h
        obtain ⟨hname, rfl, -⟩ := variableName_eq_ok_iff.mp hread
        exact ⟨hname, by simp [referenceText]⟩
      · simp [rejection] at h
      · simp [rejection] at h
    · simp [rejection] at h
    · simp [mismatch] at h
  · rintro ⟨hname, rfl⟩
    have hread : variableName (name.toList ++ '\x7d' :: r) = .ok (name, '\x7d' :: r) := by
      rw [variableName_eq_ok_iff]
      exact ⟨hname, rfl, stops_cons.mpr (by decide)⟩
    have htext : referenceText name ++ r = '$' :: '\x7b' :: (name.toList ++ '\x7d' :: r) := by
      simp [referenceText]
    rw [htext, variableReference, hread]
    rfl

/-! ## Bare text and wildcards -/

theorem path_eq_ok_iff {s r : List Char} {v : Word} :
    path s = .ok (v, r) ↔
      ∃ p, p ≠ [] ∧ (∀ c ∈ p, isPathChar c = true) ∧ v = pathWord p ∧ s = p ++ r ∧
        Stops isPathChar r := by
  constructor
  · intro h
    simp only [path] at h
    split at h
    · simp [mismatch] at h
    · next hne =>
      simp only [Except.ok.injEq, Prod.mk.injEq] at h
      obtain ⟨rfl, rfl⟩ := h
      exact ⟨s.takeWhile isPathChar, by simpa using hne, fun _ => List.mem_takeWhile_imp, rfl,
        List.takeWhile_append_dropWhile.symm, stops_dropWhile isPathChar s⟩
  · rintro ⟨p, hne, hp, rfl, rfl, hr⟩
    have htake : (p ++ r).takeWhile isPathChar = p := takeWhile_append_of_stops hp hr
    have hdrop : (p ++ r).dropWhile isPathChar = r := dropWhile_append_of_stops hp hr
    simp [path, htake, hdrop, hne]

theorem path_of_stops {s : List Char} (h : Stops isPathChar s) : path s = mismatch .path s := by
  simp [path, h.takeWhile_eq_nil]

end Parser

/-- One of the wildcards: `?`, `*`, `**`, a class of one closing bracket, plain or negated, or
another class. -/
def IsGlobPattern (cs : List Char) : Prop :=
  cs ∈ [['?'], ['*'], ['*', '*'], ['[', ']', ']'], ['[', '!', ']', ']']] ∨
    ∃ body, body ≠ [] ∧ (∀ c ∈ body, Parser.isClassChar c = true) ∧ cs = '[' :: (body ++ [']'])

/-- What would make another wildcard of a wildcard does not follow it. -/
def EndsPattern (p r : List Char) : Prop :=
  (p = ['*'] → r.head? ≠ some '*') ∧ (p = ['[', '!', ']'] → r.head? ≠ some ']')

theorem EndsPattern.of_head?_eq {p r r' : List Char} (h : EndsPattern p r)
    (hhead : r'.head? = r.head?) : EndsPattern p r' := by
  rw [EndsPattern, hhead]
  exact h

namespace Parser

theorem classBody_of_class {body r : List Char} (hne : body ≠ [])
    (hbody : ∀ c ∈ body, isClassChar c = true) (hr : body = ['!'] → r.head? ≠ some ']') :
    classBody (body ++ ']' :: r) = some (body, r) := by
  have hstop : Stops isClassChar (']' :: r) := stops_cons.mpr (by decide)
  have htake : (body ++ ']' :: r).takeWhile isClassChar = body :=
    takeWhile_append_of_stops hbody hstop
  have hdrop : (body ++ ']' :: r).dropWhile isClassChar = ']' :: r :=
    dropWhile_append_of_stops hbody hstop
  have hclose : ']' ∉ body := by
    intro hmem
    exact absurd (hbody ']' hmem) (by decide)
  unfold classBody
  split
  · next t ht =>
    cases body with
    | nil => exact absurd rfl hne
    | cons c t' =>
      have hc : c = ']' := (List.cons.inj ht).1
      exact absurd (hc ▸ List.mem_cons_self) hclose
  · next t ht =>
    match body, hne, hclose, hr, ht with
    | ['!'], _, _, hr, ht =>
      have hhead : r = ']' :: t := by simpa using ht
      exact absurd (by rw [hhead]; rfl) (hr rfl)
    | c :: d :: t', _, hclose, _, ht =>
      have hd : d = ']' := by simpa using (List.cons.inj (List.cons.inj ht).2).1
      exact absurd (by simp [hd]) hclose
  · simp [htake, hdrop, hne]

theorem isGlobPattern_of_classBody {t body r : List Char} (h : classBody t = some (body, r)) :
    IsGlobPattern ('[' :: (body ++ [']'])) ∧ EndsPattern ('[' :: (body ++ [']'])) r := by
  have happend : t = body ++ ']' :: r := classBody_append h
  unfold classBody at h
  split at h
  · simp only [Option.some.injEq, Prod.mk.injEq] at h
    obtain ⟨rfl, rfl⟩ := h
    simp [IsGlobPattern, EndsPattern]
  · simp only [Option.some.injEq, Prod.mk.injEq] at h
    obtain ⟨rfl, rfl⟩ := h
    simp [IsGlobPattern, EndsPattern]
  · next _ hnegated =>
    simp only at h
    split at h
    · split at h
      · simp at h
      · next hne =>
        simp only [Option.some.injEq, Prod.mk.injEq] at h
        obtain ⟨rfl, rfl⟩ := h
        refine ⟨Or.inr ⟨_, by simpa using hne, fun _ => List.mem_takeWhile_imp, rfl⟩, ?_, ?_⟩
        · simp
        · -- the negated class of one closing bracket would have been read
          intro hbang hhead
          have hbody : t.takeWhile isClassChar = ['!'] :=
            List.append_cancel_right (List.cons.inj hbang).2
          obtain ⟨u, hu⟩ : ∃ u, _ = ']' :: u := List.head?_eq_some_iff.mp hhead
          rw [hbody, hu] at happend
          exact hnegated u happend
    · simp at h

theorem glob_eq_ok_iff {s r : List Char} {v : Word} :
    glob s = .ok (v, r) ↔
      ∃ p, IsGlobPattern p ∧ v = [.glob (String.ofList p)] ∧ s = p ++ r ∧ EndsPattern p r := by
  constructor
  · intro h
    unfold glob at h
    split at h
    · simp only [Except.ok.injEq, Prod.mk.injEq] at h
      obtain ⟨rfl, rfl⟩ := h
      exact ⟨['?'], by simp [IsGlobPattern], rfl, rfl, by simp [EndsPattern]⟩
    · simp only [Except.ok.injEq, Prod.mk.injEq] at h
      obtain ⟨rfl, rfl⟩ := h
      exact ⟨['*', '*'], by simp [IsGlobPattern], rfl, rfl, by simp [EndsPattern]⟩
    · next t hstar =>
      simp only [Except.ok.injEq, Prod.mk.injEq] at h
      obtain ⟨rfl, rfl⟩ := h
      refine ⟨['*'], by simp [IsGlobPattern], rfl, rfl, ?_, by simp⟩
      intro _ hhead
      obtain ⟨u, hu⟩ := List.head?_eq_some_iff.mp hhead
      exact hstar u hu
    · next t =>
      split at h
      · next body r' hbody =>
        simp only [Except.ok.injEq, Prod.mk.injEq] at h
        obtain ⟨rfl, rfl⟩ := h
        obtain ⟨hpattern, hends⟩ := isGlobPattern_of_classBody hbody
        exact ⟨_, hpattern, rfl, by simp [classBody_append hbody], hends⟩
      · simp [mismatch] at h
    · simp [mismatch] at h
  · rintro ⟨p, hp | ⟨body, hne, hbody, rfl⟩, rfl, rfl, hends⟩
    · simp only [List.mem_cons, List.not_mem_nil, or_false] at hp
      rcases hp with rfl | rfl | rfl | rfl | rfl
      · rfl
      · have hr : ∀ t, r ≠ '*' :: t := by
          rintro t rfl
          exact hends.1 rfl rfl
        rw [List.cons_append, List.nil_append, glob]
        exact hr
      · rfl
      · rfl
      · rfl
    · have hclass : classBody (body ++ ']' :: r) = some (body, r) := by
        refine classBody_of_class hne hbody ?_
        rintro rfl
        exact hends.2 rfl
      have htext : '[' :: (body ++ [']']) ++ r = '[' :: (body ++ ']' :: r) := by simp
      rw [htext]
      simp [glob, hclass]

def isGlobStart (c : Char) : Bool :=
  c == '?' || c == '*' || c == '['

theorem glob_of_stops {s : List Char} (h : Stops isGlobStart s) : glob s = mismatch .glob s := by
  cases s with
  | nil => rfl
  | cons c t =>
    have hc : c ≠ '?' ∧ c ≠ '*' ∧ c ≠ '[' := by
      simpa [isGlobStart, and_assoc] using stops_cons.mp h
    simp [glob, hc]

/-! ## Double quotes -/

/-- The ways to write an item between double quotes. -/
inductive ItemText : List Char → QuotedItem → Prop where
  | plain {c : Char} (hquote : c ≠ '"') (hdollar : c ≠ '$') (hbackslash : c ≠ '\\') :
      ItemText [c] (.char c)
  | escape {e d : Char} (h : unescape? e = some d) : ItemText ['\\', e] (.char d)
  | reference {name : String} (h : IsName name.toList) :
      ItemText (referenceText name) (.reference name)

inductive ItemsText : List Char → List QuotedItem → Prop where
  | nil : ItemsText [] []
  | cons {w ws : List Char} {item : QuotedItem} {items : List QuotedItem}
      (head : ItemText w item) (tail : ItemsText ws items) :
      ItemsText (w ++ ws) (item :: items)

theorem quotedItems_item {w s u : List Char} {item : QuotedItem} {items : List QuotedItem}
    (hw : ItemText w item) (hs : s ≠ []) (h : quotedItems s = .ok (items, u)) :
    quotedItems (w ++ s) = .ok (item :: items, u) := by
  cases hw with
  | @plain c hquote hdollar hbackslash =>
    rw [List.cons_append, List.nil_append, quotedItems.eq_def]
    simp [hquote, hdollar, hbackslash, hs, h]
  | @escape e d he =>
    rw [List.cons_append, List.cons_append, List.nil_append, quotedItems.eq_def]
    simp [he, h]
  | @reference name hname =>
    have hread : variableReference (referenceText name ++ s) = .ok (name, s) :=
      variableReference_eq_ok_iff.mpr ⟨hname, rfl⟩
    have htext : referenceText name ++ s = '$' :: '\x7b' :: (name.toList ++ '\x7d' :: s) := by
      simp [referenceText]
    have hlt : s.length < ('\x7b' :: (name.toList ++ '\x7d' :: s)).length + 1 := by
      simp only [List.length_cons, List.length_append]
      omega
    rw [htext] at hread ⊢
    rw [quotedItems.eq_def]
    simp only [hread, hlt, h]
    simp

theorem exists_itemsText {s r : List Char} {items : List QuotedItem}
    (h : quotedItems s = .ok (items, r)) : ∃ w, ItemsText w items ∧ s = w ++ '"' :: r := by
  fun_induction quotedItems s generalizing items r with
  | case1 => simp [rejection] at h
  | case2 t =>
    simp only [Except.ok.injEq, Prod.mk.injEq] at h
    obtain ⟨rfl, rfl⟩ := h
    exact ⟨[], .nil, rfl⟩
  | case3 => simp at h
  | case4 => simp at h
  | case5 t name u _ items' u' hitems _ hname ih =>
    simp only [Except.ok.injEq, Prod.mk.injEq] at h
    obtain ⟨rfl, rfl⟩ := h
    obtain ⟨hvalid, htext⟩ := variableReference_eq_ok_iff.mp hname
    obtain ⟨w, hw, rfl⟩ := ih hitems
    exact ⟨referenceText name ++ w, .cons (.reference hvalid) hw, by rw [htext, List.append_assoc]⟩
  | case6 t name u hlt _ hname =>
    exact absurd (variableReference_consumes.length_lt hname) hlt
  | case7 => simp [rejection] at h
  | case8 => simp [rejection] at h
  | case9 => simp at h
  | case10 e t d hd items' u' hitems _ _ ih =>
    simp only [Except.ok.injEq, Prod.mk.injEq] at h
    obtain ⟨rfl, rfl⟩ := h
    obtain ⟨w, hw, rfl⟩ := ih hitems
    exact ⟨['\\', e] ++ w, .cons (.escape hd) hw, rfl⟩
  | case11 => simp [rejection] at h
  | case12 => simp at h
  | case13 c t hquote hdollar hbackslash _ items' u' hitems ih =>
    simp only [Except.ok.injEq, Prod.mk.injEq] at h
    obtain ⟨rfl, rfl⟩ := h
    obtain ⟨w, hw, rfl⟩ := ih hitems
    exact ⟨[c] ++ w, .cons (.plain hquote hdollar hbackslash) hw, rfl⟩

theorem quotedItems_eq_ok_iff {s r : List Char} {items : List QuotedItem} :
    quotedItems s = .ok (items, r) ↔ ∃ w, ItemsText w items ∧ s = w ++ '"' :: r := by
  constructor
  · exact exists_itemsText
  · rintro ⟨w, hw, rfl⟩
    induction hw with
    | nil =>
      rw [List.nil_append, quotedItems.eq_def]
      simp
    | cons head _ ih =>
      rw [List.append_assoc]
      exact quotedItems_item head (by simp) ih

theorem doubleQuoted_eq_ok_iff {s r : List Char} {v : Word} :
    doubleQuoted s = .ok (v, r) ↔
      ∃ w items, ItemsText w items ∧ v = fuse items ∧ s = '"' :: (w ++ '"' :: r) := by
  constructor
  · intro h
    unfold doubleQuoted at h
    split at h
    · next t =>
      split at h
      · simp at h
      · next items u hitems =>
        simp only [Except.ok.injEq, Prod.mk.injEq] at h
        obtain ⟨rfl, rfl⟩ := h
        obtain ⟨w, hw, rfl⟩ := quotedItems_eq_ok_iff.mp hitems
        exact ⟨w, items, hw, rfl, rfl⟩
    · simp [mismatch] at h
  · rintro ⟨w, items, hw, rfl, rfl⟩
    have hread : quotedItems (w ++ '"' :: r) = .ok (items, r) :=
      quotedItems_eq_ok_iff.mpr ⟨w, hw, rfl⟩
    rw [doubleQuoted, hread]

theorem doubleQuoted_of_head?_ne {s : List Char} (h : s.head? ≠ some '"') :
    doubleQuoted s = mismatch .doubleQuote s := by
  cases s with
  | nil => rfl
  | cons c t =>
    have hc : c ≠ '"' := by simpa using h
    simp [doubleQuoted, hc]

/-! ## Single quotes -/

/-- The ways to write a text between single quotes.  A backslash stands for itself if neither
another one nor the closing quote follows it. -/
inductive LiteralText : List Char → List Char → Prop where
  | nil : LiteralText [] []
  | escape {c : Char} {w cs : List Char} (hc : c = '\\' ∨ c = '\'') (tail : LiteralText w cs) :
      LiteralText ('\\' :: c :: w) (c :: cs)
  | plain {c : Char} {w cs : List Char} (hquote : c ≠ '\'')
      (halone : c = '\\' → w ≠ [] ∧ w.head? ≠ some '\\' ∧ w.head? ≠ some '\'')
      (tail : LiteralText w cs) : LiteralText (c :: w) (c :: cs)

theorem exists_literalText {s r cs : List Char} (h : literalText s = .ok (cs, r)) :
    ∃ w, LiteralText w cs ∧ s = w ++ '\'' :: r := by
  fun_induction literalText s generalizing cs r with
  | case1 => simp [rejection] at h
  | case2 t =>
    simp only [Except.ok.injEq, Prod.mk.injEq] at h
    rcases h with ⟨rfl, rfl⟩
    exact ⟨[], .nil, rfl⟩
  | case3 => simp at h
  | case4 t _ _ htext ih =>
    simp only [Except.ok.injEq, Prod.mk.injEq] at h
    rcases h with ⟨rfl, rfl⟩
    rcases ih htext with ⟨w, hw, rfl⟩
    exact ⟨'\\' :: '\\' :: w, .escape (Or.inl rfl) hw, rfl⟩
  | case5 => simp at h
  | case6 t _ _ htext ih =>
    simp only [Except.ok.injEq, Prod.mk.injEq] at h
    rcases h with ⟨rfl, rfl⟩
    rcases ih htext with ⟨w, hw, rfl⟩
    exact ⟨'\\' :: '\'' :: w, .escape (Or.inr rfl) hw, rfl⟩
  | case7 => simp [rejection] at h
  | case8 => simp at h
  | case9 c t hquote hbackslash hescaped _ cs' u htext ih =>
    simp only [Except.ok.injEq, Prod.mk.injEq] at h
    rcases h with ⟨rfl, rfl⟩
    rcases ih htext with ⟨w, hw, rfl⟩
    refine ⟨c :: w, .plain hquote ?_ hw, rfl⟩
    intro hc
    cases w with
    | nil => exact absurd rfl (hescaped u hc)
    | cons d w =>
      refine ⟨by simp, ?_, ?_⟩
      · intro hd
        exact hbackslash (w ++ '\'' :: u) hc (by rw [Option.some.inj hd, List.cons_append])
      · intro hd
        exact hescaped (w ++ '\'' :: u) hc (by rw [Option.some.inj hd, List.cons_append])

theorem head_ne_of_head?_ne {w r : List Char} {c : Char} (hne : w ≠ []) (hhead : w.head? ≠ some c)
    (t : List Char) : w ++ r ≠ c :: t := by
  intro ht
  cases w with
  | nil => exact hne rfl
  | cons d w => exact hhead (by rw [(List.cons.inj ht).1]; rfl)

theorem LiteralText.reads {w cs : List Char} (h : LiteralText w cs) (r : List Char) :
    literalText (w ++ '\'' :: r) = .ok (cs, r) := by
  induction h with
  | nil => simp [literalText]
  | escape hc _ ih =>
    rcases hc with rfl | rfl
    · simp [literalText, ih]
    · simp [literalText, ih]
  | @plain c w cs hquote halone _ ih =>
    rw [List.cons_append, literalText]
    · simp [ih]
    · exact hquote
    · intro t hc
      exact head_ne_of_head?_ne (halone hc).1 (halone hc).2.1 t
    · intro t hc
      exact head_ne_of_head?_ne (halone hc).1 (halone hc).2.2 t

theorem literalText_eq_ok_iff {s r cs : List Char} :
    literalText s = .ok (cs, r) ↔ ∃ w, LiteralText w cs ∧ s = w ++ '\'' :: r := by
  constructor
  · exact exists_literalText
  · rintro ⟨w, hw, rfl⟩
    exact hw.reads r

theorem singleQuoted_eq_ok_iff {s r : List Char} {v : Word} :
    singleQuoted s = .ok (v, r) ↔
      ∃ w cs, LiteralText w cs ∧ v = literalWord cs ∧ s = '\'' :: (w ++ '\'' :: r) := by
  constructor
  · intro h
    unfold singleQuoted at h
    split at h
    · next t =>
      split at h
      · simp at h
      · next cs u htext =>
        simp only [Except.ok.injEq, Prod.mk.injEq] at h
        obtain ⟨rfl, rfl⟩ := h
        obtain ⟨w, hw, rfl⟩ := literalText_eq_ok_iff.mp htext
        exact ⟨w, cs, hw, rfl, rfl⟩
    · simp [mismatch] at h
  · rintro ⟨w, cs, hw, rfl, rfl⟩
    have hread : literalText (w ++ '\'' :: r) = .ok (cs, r) :=
      literalText_eq_ok_iff.mpr ⟨w, hw, rfl⟩
    rw [singleQuoted, hread]

theorem singleQuoted_of_head?_ne {s : List Char} (h : s.head? ≠ some '\'') :
    singleQuoted s = mismatch .singleQuote s := by
  cases s with
  | nil => rfl
  | cons c t =>
    have hc : c ≠ '\'' := by simpa using h
    simp [singleQuoted, hc]

end Parser

end LineShell
