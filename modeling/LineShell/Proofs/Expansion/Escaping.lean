import LineShell.Expansion
import LineShell.Proofs.Expansion.Concatenation
import LineShell.Proofs.Word.Forms
import Mathlib.Data.List.Forall2

/-!
# Quoted patterns

In a quoted pattern the wildcards of a word keep their meaning and all other text is escaped, piece
by piece.  The pattern is then read as a whole.  An escaped text and nearly every wildcard end where
they are written to end, so a name matches if it is made of parts for the pieces.  There is one
wildcard that does not: the class `[!]` is not closed by its own bracket.  Alone it stands for these
three characters, but with a closing bracket anywhere behind it, in a text or in another wildcard,
it becomes a class that ends there.
-/

namespace LineShell

open NamePattern (symbols accepts)

namespace NamePattern

/-! ## Escaped texts -/

def escaped (c : Char) : List Char :=
  if hasMagic [c] then ['[', c, ']'] else [c]

theorem toList_escape (text : String) : (escape text).toList = text.toList.flatMap escaped := by
  rw [escape, String.toList_ofList]
  rfl

theorem contains_ofBody_magic {c : Char} (h : hasMagic [c] = true) (d : Char) :
    (CharClass.ofBody [c]).contains d = true ↔ d = c := by
  have hbody : CharClass.ofBody [c] = ⟨false, [(c, c)]⟩ := by
    simp only [hasMagic, List.any_cons, List.any_nil, Bool.or_false, Bool.or_eq_true,
      beq_iff_eq] at h
    rcases h with (rfl | rfl) | rfl <;> rfl
  rw [hbody]
  simp only [CharClass.contains, List.any_cons, List.any_nil, Bool.or_false, Bool.false_bne,
    Bool.and_eq_true, decide_eq_true_eq]
  constructor
  · rintro ⟨hle, hge⟩
    exact Char.le_antisymm hge hle
  · rintro rfl
    exact ⟨Char.le_refl d, Char.le_refl d⟩

/-- An escaped character is one symbol, and it stands for this character. -/
theorem symbols_escaped (c : Char) :
    ∃ a, a ≠ .anyText ∧ (∀ d, a.admits d = true ↔ d = c) ∧
      ∀ rest, symbols (escaped c ++ rest) = a :: symbols rest := by
  cases h : hasMagic [c] with
  | false =>
    refine ⟨.literal c, by simp, fun d => ?_, fun rest => ?_⟩
    · rw [Symbol.admits, beq_iff_eq]
      exact eq_comm
    · simp [escaped, h, symbols_literal h]
  | true =>
    refine ⟨.member (CharClass.ofBody [c]), by simp, contains_ofBody_magic h, fun rest => ?_⟩
    have hplain : c ≠ '!' ∧ c ≠ ']' := by
      constructor <;> rintro rfl <;> exact absurd h (by decide)
    have hclose : closeClass (c :: ([] ++ ']' :: rest)) = some ([c], rest) :=
      closeClass_plain hplain.1 (by simp [eq_comm, hplain.2]) rest
    have htext : escaped c ++ rest = '[' :: c :: ([] ++ ']' :: rest) := by simp [escaped, h]
    rw [htext, symbols_class hclose]

theorem accepts_escaped {text rest s : List Char} :
    accepts (symbols (text.flatMap escaped ++ rest)) s = true ↔
      ∃ back, s = text ++ back ∧ accepts (symbols rest) back = true := by
  induction text generalizing s with
  | nil => simp
  | cons c text ih =>
    obtain ⟨a, ha, hadmits, hsymbols⟩ := symbols_escaped c
    rw [List.flatMap_cons, List.append_assoc, hsymbols, accepts_cons_iff ha]
    simp only [hadmits, ih]
    constructor
    · rintro ⟨d, t, rfl, rfl, back, rfl, hback⟩
      exact ⟨back, rfl, hback⟩
    · rintro ⟨back, rfl, hback⟩
      exact ⟨c, text ++ back, rfl, rfl, back, rfl, hback⟩

/-- An escaped text stands for itself in front of any other. -/
theorem accepts_escape_append {text : String} {rest s : List Char} :
    accepts (symbols ((escape text).toList ++ rest)) s = true ↔
      ∃ front back, s = front ++ back ∧ front = text.toList ∧
        accepts (symbols rest) back = true := by
  rw [toList_escape, accepts_escaped]
  constructor
  · rintro ⟨back, rfl, hback⟩
    exact ⟨text.toList, back, rfl, rfl, hback⟩
  · rintro ⟨_, back, rfl, rfl, hback⟩
    exact ⟨back, rfl, hback⟩

theorem closing_mem_escape {text : String} :
    ']' ∈ (escape text).toList ↔ ∃ c ∈ ['*', '?', '[', ']'], c ∈ text.toList := by
  have hescaped : ∀ c, ']' ∈ escaped c ↔ c ∈ ['*', '?', '[', ']'] := by
    intro c
    cases h : hasMagic [c] with
    | false =>
      have hplain : c ≠ '*' ∧ c ≠ '?' ∧ c ≠ '[' := by simpa [hasMagic, and_assoc] using h
      simp [escaped, h, hplain, eq_comm]
    | true =>
      have hmagic : c = '*' ∨ c = '?' ∨ c = '[' := by simpa [hasMagic, or_assoc] using h
      rcases hmagic with rfl | rfl | rfl <;> simp [escaped, h]
  rw [toList_escape, List.mem_flatMap]
  simp only [hescaped]
  constructor
  · rintro ⟨c, hc, hclose⟩
    exact ⟨c, hclose, hc⟩
  · rintro ⟨c, hclose, hc⟩
    exact ⟨c, hc, hclose⟩

end NamePattern

open NamePattern

/-! ## Wildcards -/

theorem accepts_of_symbols_append {p rest s : List Char}
    (h : symbols (p ++ rest) = symbols p ++ symbols rest) :
    accepts (symbols (p ++ rest)) s = true ↔
      ∃ front back, s = front ++ back ∧ accepts (symbols p) front = true ∧
        accepts (symbols rest) back = true := by
  rw [h, accepts_append]

theorem accepts_star_append {rest s : List Char} :
    accepts (symbols ('*' :: rest)) s = true ↔
      ∃ front back, s = front ++ back ∧ accepts (symbols ['*']) front = true ∧
        accepts (symbols rest) back = true := by
  have hstar : symbols ['*'] = [.anyText] := by simp [symbols_star, symbols]
  rw [accepts_star, hstar, ← List.singleton_append, accepts_append]

theorem symbols_class_append {body : List Char}
    (h : ∀ rest, closeClass (body ++ ']' :: rest) = some (body, rest)) (rest : List Char) :
    symbols ('[' :: (body ++ [']']) ++ rest) =
      symbols ('[' :: (body ++ [']'])) ++ symbols rest := by
  have htext : '[' :: (body ++ [']']) ++ rest = '[' :: (body ++ ']' :: rest) := by simp
  rw [htext, symbols_class (h rest), symbols_class (h [])]
  simp [symbols]

/-- The class `[!]` that nothing closes. -/
theorem symbols_open_class {rest : List Char} (h : ']' ∉ rest) :
    symbols ('[' :: '!' :: ']' :: rest) =
      .literal '[' :: .literal '!' :: .literal ']' :: symbols rest := by
  rw [symbols_unclosed (closeClass_negated_unclosed h), symbols_literal (by decide),
    symbols_literal (by decide)]

/-- A wildcard matches in front of other text what it matches alone, if it is not left open. -/
theorem IsGlobPattern.accepts_append {p rest s : List Char} (hp : IsGlobPattern p)
    (hopen : p = ['[', '!', ']'] → ']' ∉ rest) :
    accepts (symbols (p ++ rest)) s = true ↔
      ∃ front back, s = front ++ back ∧ accepts (symbols p) front = true ∧
        accepts (symbols rest) back = true := by
  rcases hp with hp | ⟨body, hne, hbody, rfl⟩
  · simp only [List.mem_cons, List.not_mem_nil, or_false] at hp
    rcases hp with rfl | rfl | rfl | rfl | rfl
    · apply accepts_of_symbols_append
      simp [symbols_question, symbols]
    · exact accepts_star_append
    · have hstars : ∀ t, symbols ('*' :: '*' :: t) = symbols ('*' :: t) := by
        intro t
        simp [symbols_star]
      rw [hstars, List.cons_append, List.cons_append, List.nil_append, hstars]
      exact accepts_star_append
    · have hclass : ∀ t, closeClass ([']'] ++ ']' :: t) = some ([']'], t) := closeClass_closing
      exact accepts_of_symbols_append (symbols_class_append hclass rest)
    · have hclass : ∀ t, closeClass (['!', ']'] ++ ']' :: t) = some (['!', ']'], t) := by
        intro t
        exact closeClass_negated_closing (List.not_mem_nil) t
      exact accepts_of_symbols_append (symbols_class_append hclass rest)
  · have hclose : ']' ∉ body := fun hmem => absurd (hbody ']' hmem) (by decide)
    by_cases hbang : body = ['!']
    · subst hbang
      apply accepts_of_symbols_append
      rw [List.singleton_append] at hopen ⊢
      rw [List.cons_append, List.cons_append, List.cons_append, List.nil_append,
        symbols_open_class (hopen rfl), symbols_open_class (by simp)]
      simp [symbols]
    · exact accepts_of_symbols_append
        (symbols_class_append (closeClass_of_not_mem hne hbang hclose) rest)

/-! ## Words -/

/-- What a piece stands for in a file name: a wildcard for what it matches alone, any other piece
for its text. -/
def Piece.Covers (lookup : Lookup) : Piece → List Char → Prop
  | .glob pattern, part => isMatch pattern (String.ofList part) = true
  | p, part => part = (p.render lookup).toList

instance Piece.decidableCovers (lookup : Lookup) :
    (p : Piece) → (part : List Char) → Decidable (p.Covers lookup part)
  | .fixed text, part => inferInstanceAs (Decidable (part = text.toList))
  | .reference name, part =>
    inferInstanceAs (Decidable (part = ((Piece.reference name).render lookup).toList))
  | .glob pattern, part =>
    inferInstanceAs (Decidable (isMatch pattern (String.ofList part) = true))

/-- The name is made of a part for each piece. -/
def Word.Covers (lookup : Lookup) (w : Word) (name : List Char) : Prop :=
  ∃ parts, List.Forall₂ (Piece.Covers lookup) w parts ∧ name = parts.flatten

/-- The piece has a closing bracket in a quoted pattern: its own one, or that of an escaped
character. -/
def Piece.Closes (lookup : Lookup) : Piece → Prop
  | .glob pattern => ']' ∈ pattern.toList
  | p => ∃ c ∈ ['*', '?', '[', ']'], c ∈ (p.render lookup).toList

/-- No class is left open by its own piece and closed by a later one. -/
def Word.Closed (lookup : Lookup) (w : Word) : Prop :=
  w.Pairwise fun p q => p = .glob "[!]" → ¬ q.Closes lookup

variable {lookup : Lookup}

theorem Word.covers_nil {name : List Char} : Word.Covers lookup [] name ↔ name = [] := by
  constructor
  · rintro ⟨parts, hparts, rfl⟩
    cases hparts
    rfl
  · rintro rfl
    exact ⟨[], .nil, rfl⟩

theorem Word.covers_cons {p : Piece} {w : Word} {name : List Char} :
    Word.Covers lookup (p :: w) name ↔
      ∃ front back, name = front ++ back ∧ p.Covers lookup front ∧ Word.Covers lookup w back := by
  constructor
  · rintro ⟨parts, hparts, rfl⟩
    cases hparts with
    | @cons _ part _ parts hpart hparts =>
      exact ⟨part, parts.flatten, rfl, hpart, parts, hparts, rfl⟩
  · rintro ⟨front, back, rfl, hfront, parts, hparts, rfl⟩
    exact ⟨front :: parts, .cons hfront hparts, rfl⟩

theorem Word.closed_of_not_mem {w : Word} (h : .glob "[!]" ∉ w) : w.Closed lookup := by
  apply List.pairwise_of_forall_mem_list
  rintro p hp q - rfl
  exact absurd hp h

namespace Expansion

theorem toList_pattern (w : Word) :
    (pattern true lookup w).toList = w.flatMap fun p => (quotedPiece lookup p).toList := by
  induction w with
  | nil => rfl
  | cons p w ih =>
    rw [List.flatMap_cons, ← ih]
    simp [pattern]

theorem closing_mem_quotedPiece {p : Piece} :
    ']' ∈ (quotedPiece lookup p).toList ↔ p.Closes lookup := by
  cases p with
  | fixed text => exact closing_mem_escape
  | reference name => exact closing_mem_escape
  | glob pattern => exact Iff.rfl

theorem closing_mem_pattern {w : Word} :
    ']' ∈ (pattern true lookup w).toList ↔ ∃ p ∈ w, p.Closes lookup := by
  rw [toList_pattern, List.mem_flatMap]
  simp only [closing_mem_quotedPiece]

theorem accepts_quotedPiece {p : Piece} {rest s : List Char}
    (hglob : ∀ pattern, p = .glob pattern → IsGlobPattern pattern.toList)
    (hopen : p = .glob "[!]" → ']' ∉ rest) :
    accepts (symbols ((quotedPiece lookup p).toList ++ rest)) s = true ↔
      ∃ front back, s = front ++ back ∧ p.Covers lookup front ∧
        accepts (symbols rest) back = true := by
  cases p with
  | fixed text => exact accepts_escape_append
  | reference name => exact accepts_escape_append
  | glob pattern =>
    simp only [Piece.Covers, isMatch, String.toList_ofList]
    apply (hglob pattern rfl).accepts_append
    intro hpattern
    apply hopen
    rw [← String.ofList_toList (s := pattern), hpattern]

/-- A name matches the quoted pattern of a word in front of another one if a part of it is covered
by the word and the rest matches the other pattern. -/
theorem accepts_pattern_append {w : Word} {rest s : List Char}
    (hglobs : ∀ pattern, .glob pattern ∈ w → IsGlobPattern pattern.toList)
    (hclosed : w.Closed lookup) (hopen : .glob "[!]" ∈ w → ']' ∉ rest) :
    accepts (symbols ((pattern true lookup w).toList ++ rest)) s = true ↔
      ∃ front back, s = front ++ back ∧ w.Covers lookup front ∧
        accepts (symbols rest) back = true := by
  induction w generalizing s with
  | nil => simp [pattern, Word.covers_nil]
  | cons p w ih =>
    obtain ⟨hbehind, hclosed⟩ := List.pairwise_cons.mp hclosed
    have hpiece : p = .glob "[!]" → ']' ∉ (pattern true lookup w).toList ++ rest := by
      intro hp
      rw [List.mem_append, closing_mem_pattern]
      rintro (⟨q, hq, hcloses⟩ | hrest)
      · exact hbehind q hq hp hcloses
      · exact hopen (hp ▸ List.mem_cons_self) hrest
    have hhead : ∀ pattern, p = .glob pattern → IsGlobPattern pattern.toList := by
      rintro pattern rfl
      exact hglobs pattern List.mem_cons_self
    have htail : ∀ {s}, accepts (symbols ((pattern true lookup w).toList ++ rest)) s = true ↔
        ∃ front back, s = front ++ back ∧ Word.Covers lookup w front ∧
          accepts (symbols rest) back = true :=
      ih (fun pattern hmem => hglobs pattern (List.mem_cons_of_mem p hmem)) hclosed
        fun hmem => hopen (List.mem_cons_of_mem p hmem)
    rw [toList_pattern, List.flatMap_cons, ← toList_pattern, List.append_assoc,
      accepts_quotedPiece hhead hpiece]
    simp only [htail, Word.covers_cons]
    constructor
    · rintro ⟨front, _, rfl, hfront, middle, back, rfl, hmiddle, hback⟩
      exact ⟨front ++ middle, back, by simp, ⟨front, middle, rfl, hfront, hmiddle⟩, hback⟩
    · rintro ⟨_, back, rfl, ⟨front, middle, rfl, hfront, hmiddle⟩, hback⟩
      exact ⟨front, middle ++ back, by simp, hfront, middle, back, rfl, hmiddle, hback⟩

end Expansion

/-- A pattern that is read as a wildcard. -/
theorem isGlobPattern_of_reads {pattern : String}
    (h : ∃ s r, Parser.glob s = .ok ([.glob pattern], r)) : IsGlobPattern pattern.toList := by
  obtain ⟨s, r, hread⟩ := h
  obtain ⟨p, hp, hpattern, -, -⟩ := Parser.glob_eq_ok_iff.mp hread
  obtain rfl : pattern = String.ofList p := by simpa using hpattern
  rwa [String.toList_ofList]

/-- In a quoted pattern only wildcards have a meaning, if no class is left open: the names that
match are those with a part for each piece.  A class that is left open and closed later is one
character, and what is left of the pattern begins behind the bracket that closes it. -/
theorem quoted_pattern_covers (lookup : Lookup) (w : Word)
    (hglobs : ∀ pattern, .glob pattern ∈ w → ∃ s r, Parser.glob s = .ok ([.glob pattern], r)) :
    (w.Closed lookup → ∀ name,
      isMatch (Expansion.pattern true lookup w) name = true ↔ w.Covers lookup name.toList) ∧
    ∀ front back : Word, w = front ++ .glob "[!]" :: back → .glob "[!]" ∉ front →
      (∃ p ∈ back, p.Closes lookup) →
        ∃ body behind, (Expansion.pattern true lookup back).toList = body ++ ']' :: behind ∧
          ']' ∉ body ∧ ∀ name, isMatch (Expansion.pattern true lookup w) name = true ↔
            ∃ part c rest, name.toList = part ++ c :: rest ∧ front.Covers lookup part ∧
              (CharClass.ofBody ('!' :: ']' :: body)).contains c = true ∧
              accepts (symbols behind) rest = true := by
  have hpatterns : ∀ pattern, .glob pattern ∈ w → IsGlobPattern pattern.toList :=
    fun pattern hmem => isGlobPattern_of_reads (hglobs pattern hmem)
  constructor
  · intro hclosed name
    have hnothing : .glob "[!]" ∈ w → ']' ∉ ([] : List Char) := fun _ => List.not_mem_nil
    rw [isMatch, ← List.append_nil (Expansion.pattern true lookup w).toList,
      Expansion.accepts_pattern_append hpatterns hclosed hnothing]
    simp [symbols, accepts_nil_iff]
  · rintro front back rfl hfirst hcloses
    obtain ⟨body, behind, hback, hbody⟩ :=
      List.eq_append_cons_of_mem (Expansion.closing_mem_pattern.mpr hcloses)
    refine ⟨body, behind, hback, hbody, fun name => ?_⟩
    have hpattern : (Expansion.pattern true lookup (front ++ .glob "[!]" :: back)).toList =
        (Expansion.pattern true lookup front).toList ++
          '[' :: '!' :: ']' :: (body ++ ']' :: behind) := by
      rw [← hback, Expansion.toList_pattern, Expansion.toList_pattern, Expansion.toList_pattern,
        List.flatMap_append, List.flatMap_cons]
      simp [Expansion.quotedPiece]
    have hsymbols := symbols_class (closeClass_negated_closing hbody behind)
    rw [isMatch, hpattern, Expansion.accepts_pattern_append
      (fun pattern hmem => hpatterns pattern (List.mem_append_left _ hmem))
      (Word.closed_of_not_mem hfirst) fun hmem => absurd hmem hfirst, hsymbols]
    simp only [accepts_cons_iff (a := .member _) (by simp), Symbol.admits]
    constructor
    · rintro ⟨part, _, hname, hpart, c, rest, rfl, hc, hrest⟩
      exact ⟨part, c, rest, hname, hpart, hc, hrest⟩
    · rintro ⟨part, c, rest, hname, hpart, hc, hrest⟩
      exact ⟨part, c :: rest, hname, hpart, c, rest, rfl, hc, hrest⟩

/-- Texts with brackets and wildcards in them stay literal, also between wildcards.  The class that
is left open takes the bracket of the text behind it. -/
theorem quoted_pattern_covers_brackets :
    let lookup : Lookup := fun name => if name = "X" then some "]?" else none
    let closed : Word := [.fixed "[a", .glob "[!b]", .reference "X", .glob "*"]
    let left : Word := [.fixed "a", .glob "[!]", .fixed "]"]
    isMatch (Expansion.pattern true lookup closed) "[ac]?z" = true ∧
      isMatch (Expansion.pattern true lookup left) "ax" = true := by
  intro lookup closed left
  have hclass : Parser.glob "[!b]".toList = .ok ([.glob "[!b]"], []) := by decide +kernel
  have hstar : Parser.glob "*".toList = .ok ([.glob "*"], []) := by decide +kernel
  have hopen : Parser.glob "[!]".toList = .ok ([.glob "[!]"], []) := by decide +kernel
  constructor
  · have hglobs : ∀ pattern, .glob pattern ∈ closed →
        ∃ s r, Parser.glob s = .ok ([.glob pattern], r) := by
      intro pattern hmem
      simp only [closed, List.mem_cons, List.not_mem_nil, or_false, reduceCtorEq, false_or,
        Piece.glob.injEq] at hmem
      rcases hmem with rfl | rfl
      · exact ⟨_, _, hclass⟩
      · exact ⟨_, _, hstar⟩
    have hclosed : closed.Closed lookup := Word.closed_of_not_mem (by decide)
    have hparts : List.Forall₂ (Piece.Covers lookup) closed
        [['[', 'a'], ['c'], [']', '?'], ['z']] := by decide +kernel
    exact ((quoted_pattern_covers lookup closed hglobs).1 hclosed _).mpr ⟨_, hparts, by decide⟩
  · have hglobs : ∀ pattern, .glob pattern ∈ left →
        ∃ s r, Parser.glob s = .ok ([.glob pattern], r) := by
      intro pattern hmem
      simp only [left, List.mem_cons, List.not_mem_nil, or_false, reduceCtorEq, false_or,
        Piece.glob.injEq] at hmem
      subst hmem
      exact ⟨_, _, hopen⟩
    have hcloses : Piece.Closes lookup (.fixed "]") := ⟨']', by decide, by decide⟩
    obtain ⟨body, behind, hback, hbody, hmatch⟩ :=
      (quoted_pattern_covers lookup left hglobs).2 [.fixed "a"] [.fixed "]"] rfl (by decide)
        ⟨_, List.mem_cons_self, hcloses⟩
    have hbracket : (Expansion.pattern true lookup [.fixed "]"]).toList = [']'] := by decide +kernel
    obtain ⟨rfl, rfl⟩ : body = [] ∧ behind = [] := by
      rw [hbracket] at hback
      cases body <;> simp_all
    have hparts : List.Forall₂ (Piece.Covers lookup) [.fixed "a"] [['a']] := by decide +kernel
    exact (hmatch "ax").mpr ⟨['a'], 'x', [], by decide, ⟨_, hparts, rfl⟩, by decide +kernel,
      by decide +kernel⟩

/-- A quoted text can change what a wildcard before it matches. -/
theorem quoted_pattern_not_always_covers :
    ¬ ∀ (lookup : Lookup) (w : Word),
      (∀ pattern, .glob pattern ∈ w → ∃ s r, Parser.glob s = .ok ([.glob pattern], r)) →
      (∀ p ∈ w, '/' ∉ (p.render lookup).toList) → ∀ name,
        (isMatch (Expansion.pattern true lookup w) name = true ↔ w.Covers lookup name.toList) := by
  intro h
  have hopen : Parser.glob "[!]".toList = .ok ([.glob "[!]"], []) := by decide +kernel
  have hmatch : isMatch (Expansion.pattern true (fun _ => none) [.glob "[!]", .fixed "]"]) "x" =
      true := by decide +kernel
  have hglobs : ∀ pattern, .glob pattern ∈ ([.glob "[!]", .fixed "]"] : Word) →
      ∃ s r, Parser.glob s = .ok ([.glob pattern], r) := by
    intro pattern hmem
    simp only [List.mem_cons, List.not_mem_nil, or_false, reduceCtorEq, Piece.glob.injEq] at hmem
    subst hmem
    exact ⟨_, _, hopen⟩
  have hcovers := (h (fun _ => none) _ hglobs (by decide) "x").mp hmatch
  obtain ⟨front, back, hname, -, hback⟩ := Word.covers_cons.mp hcovers
  obtain ⟨part, rest, rfl, htext, hrest⟩ := Word.covers_cons.mp hback
  obtain rfl : part = [']'] := htext
  obtain rfl := Word.covers_nil.mp hrest
  have hlast := congrArg List.getLast? hname
  simp at hlast

end LineShell
