import LineShell.Proofs.Parser.Position
import LineShell.Proofs.Word.Rejection
import Mathlib.Data.List.Chain

/-!
# Texts in double quotes

A text in double quotes is a sequence of items, which are characters, escaped or not, and
references.  Its word has a piece for every reference and one for every longest run of
characters, and that determines the word.  The text ends at the first double quote that is not
part of an item; a line feed that ends the input is no item, since no quote can follow it.
-/

namespace LineShell

open LineShell.Parser

/-! ## Runs of characters -/

def Piece.isFixed : Piece → Bool
  | .fixed _ => true
  | _ => false

/-- The items that a piece of a quoted text is made of. -/
def Piece.items : Piece → List QuotedItem
  | .fixed text => text.toList.map .char
  | .reference name => [.reference name]
  | .glob _ => []

/-- The word is made of the items, with one fixed text for each longest run of characters. -/
structure Word.MadeOf (w : Word) (items : List QuotedItem) : Prop where
  items : w.flatMap Piece.items = items
  no_glob : w.hasGlob = false
  no_empty : .fixed "" ∉ w
  apart : w.IsChain fun p q => ¬ (p.isFixed = true ∧ q.isFixed = true)

namespace Parser

theorem fuse_chars {cs : List Char} (hcs : cs ≠ []) {items : List QuotedItem}
    (hitems : ∀ p ∈ (fuse items).head?, p.isFixed = false) :
    fuse (cs.map .char ++ items) = .fixed (String.ofList cs) :: fuse items := by
  induction cs with
  | nil => exact absurd rfl hcs
  | cons c cs ih =>
    rw [List.map_cons, List.cons_append, fuse]
    cases cs with
    | nil =>
      rw [List.map_nil, List.nil_append]
      cases hw : fuse items with
      | nil => rfl
      | cons p w =>
        have hp : p.isFixed = false := hitems p (by rw [hw]; rfl)
        cases p with
        | fixed text => simp [Piece.isFixed] at hp
        | reference name => rfl
        | glob pattern => rfl
    | cons d cs =>
      rw [ih (by simp), consChar, String.toList_ofList]

end Parser

namespace Word.MadeOf

variable {w : Word} {items : List QuotedItem}

theorem eq_fuse (h : w.MadeOf items) : w = fuse items := by
  induction w generalizing items with
  | nil => rw [← h.items]; rfl
  | cons p w ih =>
    have hrest : Word.MadeOf w (w.flatMap Piece.items) := by
      have hglob := h.no_glob
      have hempty := h.no_empty
      simp only [Word.hasGlob, List.any_cons, Bool.or_eq_false_iff] at hglob
      simp only [List.mem_cons, not_or] at hempty
      exact ⟨rfl, hglob.2, hempty.2, h.apart.tail⟩
    have hw := ih hrest
    have hitems := h.items
    rw [List.flatMap_cons] at hitems
    rw [← hitems]
    cases p with
    | fixed text =>
      have htext : text.toList ≠ [] := by
        intro hnil
        apply h.no_empty
        rw [← String.toList_eq_nil_iff.mp hnil]
        exact List.mem_cons_self
      have hhead : ∀ q ∈ (fuse (w.flatMap Piece.items)).head?, q.isFixed = false := by
        rw [← hw]
        intro q hq
        obtain ⟨v, rfl⟩ := List.head?_eq_some_iff.mp hq
        have hapart := (List.isChain_cons_cons.mp h.apart).1
        simpa [Piece.isFixed] using hapart
      rw [Piece.items, fuse_chars htext hhead, String.ofList_toList, ← hw]
    | reference name =>
      rw [Piece.items, List.singleton_append, fuse, ← hw]
    | glob pattern =>
      have hglob := h.no_glob
      simp [Word.hasGlob, Piece.isGlob] at hglob

theorem consChar (h : w.MadeOf items) (c : Char) :
    (Parser.consChar c w).MadeOf (.char c :: items) := by
  cases w with
  | nil =>
    refine ⟨?_, rfl, by simp [Parser.consChar], List.isChain_singleton _⟩
    rw [← h.items]
    simp [Parser.consChar, Piece.items]
  | cons p w =>
    have hglob := h.no_glob
    have hempty := h.no_empty
    have hitems := h.items
    have hapart := h.apart
    cases p with
    | fixed text =>
      refine ⟨?_, hglob, ?_, ?_⟩
      · simp [Parser.consChar, ← hitems, Piece.items]
      · have hbehind : .fixed "" ∉ w := fun hmem => hempty (List.mem_cons_of_mem _ hmem)
        simpa [Parser.consChar] using hbehind
      · cases w with
        | nil => exact List.isChain_singleton _
        | cons q w => exact List.isChain_cons_cons.mpr (List.isChain_cons_cons.mp hapart)
    | reference name =>
      refine ⟨?_, hglob, ?_, ?_⟩
      · simp [Parser.consChar, ← hitems, Piece.items]
      · simpa [Parser.consChar] using hempty
      · exact List.isChain_cons_cons.mpr ⟨by simp [Piece.isFixed], hapart⟩
    | glob pattern => simp [Word.hasGlob, Piece.isGlob] at hglob

theorem reference (h : w.MadeOf items) (name : String) :
    Word.MadeOf (.reference name :: w) (.reference name :: items) := by
  refine ⟨?_, h.no_glob, by simpa using h.no_empty, ?_⟩
  · rw [List.flatMap_cons, h.items]
    rfl
  · cases w with
    | nil => exact List.isChain_singleton _
    | cons p w => exact List.isChain_cons_cons.mpr ⟨by simp [Piece.isFixed], h.apart⟩

end Word.MadeOf

theorem Word.madeOf_iff {w : Word} {items : List QuotedItem} :
    w.MadeOf items ↔ w = fuse items := by
  refine ⟨Word.MadeOf.eq_fuse, ?_⟩
  rintro rfl
  induction items with
  | nil => exact ⟨rfl, rfl, by simp [fuse], List.isChain_nil⟩
  | cons item items ih =>
    cases item with
    | char c => exact ih.consChar c
    | reference name => exact ih.reference name

/-! ## Readings -/

namespace Parser

theorem unescape?_eq_some_iff {e d : Char} :
    unescape? e = some d ↔ (e, d) ∈ [('n', '\n'), ('r', '\r'), ('t', '\t'), ('\\', '\\'),
      ('"', '"'), ('\'', '\'')] := by
  constructor
  · intro h
    unfold unescape? at h
    split at h <;> simp_all [eq_comm]
  · intro h
    simp only [List.mem_cons, Prod.mk.injEq, List.not_mem_nil, or_false] at h
    rcases h with ⟨rfl, rfl⟩ | ⟨rfl, rfl⟩ | ⟨rfl, rfl⟩ | ⟨rfl, rfl⟩ | ⟨rfl, rfl⟩ | ⟨rfl, rfl⟩ <;>
      rfl

end Parser

/-- From the one position to the other there are the items between two double quotes. -/
def Interpolates (text : List Char) (start stop : Nat) (items : List QuotedItem) : Prop :=
  stop ≤ text.length ∧
    ∃ w, ItemsText w items ∧ text.extract start stop = '"' :: (w ++ ['"'])

theorem interpolates_iff {text : List Char} {start stop : Nat} {items : List QuotedItem} :
    Interpolates text start stop items ↔
      start < stop ∧ stop ≤ text.length ∧
        ∃ t, text.drop start = '"' :: t ∧ quotedItems t = .ok (items, text.drop stop) := by
  have hextract : ∀ w, stop ≤ text.length ∧ text.extract start stop = '"' :: (w ++ ['"']) ↔
      start < stop ∧ stop ≤ text.length ∧
        text.drop start = '"' :: (w ++ '"' :: text.drop stop) := by
    intro w
    simpa using extract_eq_iff (List.cons_ne_nil '"' (w ++ ['"']))
  constructor
  · rintro ⟨hstop, w, hw, htext⟩
    obtain ⟨hlt, -, hdrop⟩ := (hextract w).mp ⟨hstop, htext⟩
    exact ⟨hlt, hstop, _, hdrop, quotedItems_eq_ok_iff.mpr ⟨w, hw, rfl⟩⟩
  · rintro ⟨hlt, hstop, t, hdrop, hread⟩
    obtain ⟨w, hw, rfl⟩ := quotedItems_eq_ok_iff.mp hread
    obtain ⟨-, htext⟩ := (hextract w).mpr ⟨hlt, hstop, hdrop⟩
    exact ⟨hstop, w, hw, htext⟩

theorem Interpolates.unique {text : List Char} {start stop stop' : Nat}
    {items items' : List QuotedItem} (h : Interpolates text start stop items)
    (h' : Interpolates text start stop' items') : items = items' ∧ stop = stop' := by
  obtain ⟨-, hstop, t, htext, hread⟩ := interpolates_iff.mp h
  obtain ⟨-, hstop', t', htext', hread'⟩ := interpolates_iff.mp h'
  obtain rfl : t = t' := (List.cons.inj (htext.symm.trans htext')).2
  obtain ⟨hitems, hrest⟩ := Prod.mk.inj (Except.ok.inj (hread.symm.trans hread'))
  exact ⟨hitems, drop_injective hstop hstop' hrest⟩

theorem doubleQuoted_readAt_ok_iff {text : List Char} {start stop : Nat} {w : Word} :
    doubleQuoted.readAt text start = .ok (w, stop) ↔
      ∃ items, Interpolates text start stop items ∧ w.MadeOf items := by
  rw [Production.readAt_eq_ok_iff doubleQuoted_consumes]
  simp only [interpolates_iff, Word.madeOf_iff]
  constructor
  · rintro ⟨hlt, hstop, hread⟩
    obtain ⟨front, items, hfront, rfl, htext⟩ := doubleQuoted_eq_ok_iff.mp hread
    exact ⟨items, ⟨hlt, hstop, _, htext, quotedItems_eq_ok_iff.mpr ⟨front, hfront, rfl⟩⟩, rfl⟩
  · rintro ⟨items, ⟨hlt, hstop, t, htext, hread⟩, rfl⟩
    obtain ⟨front, hfront, rfl⟩ := quotedItems_eq_ok_iff.mp hread
    exact ⟨hlt, hstop, doubleQuoted_eq_ok_iff.mpr ⟨front, items, hfront, rfl, htext⟩⟩

theorem doubleQuoted_readAt_of_ne {text : List Char} {start : Nat} (h : text[start]? ≠ some '"') :
    doubleQuoted.readAt text start = .error (.mismatch .doubleQuote start) := by
  apply Production.readAt_of_mismatch
  apply doubleQuoted_of_head?_ne
  rwa [List.head?_drop]

theorem doubleQuoted_readAt_rejects {text : List Char} {start : Nat} (h : text[start]? = some '"')
    (hnone : ¬ ∃ items stop, Interpolates text start stop items) :
    ∃ expected offset, doubleQuoted.readAt text start = .error (.rejection expected offset) := by
  apply Production.readAt_rejects
  · rw [drop_of_getElem? h]
    exact fun failure => doubleQuoted_rejects
  · intro w stop hok
    obtain ⟨items, hitems, -⟩ := doubleQuoted_readAt_ok_iff.mp hok
    exact hnone ⟨items, stop, hitems⟩

/-- A reading in double quotes is told exactly by the text.  It succeeds with the items between two
quotes, and with the word that is made of them; items and end are determined by the beginning.  It
mismatches where there is no quote, and it is rejected where no items lead to another one. -/
theorem doubleQuoted_exact (text : List Char) (start : Nat) :
    (∀ e d, unescape? e = some d ↔ (e, d) ∈ [('n', '\n'), ('r', '\r'), ('t', '\t'),
      ('\\', '\\'), ('"', '"'), ('\'', '\'')]) ∧
    (∀ w stop, doubleQuoted.readAt text start = .ok (w, stop) ↔
      ∃ items, Interpolates text start stop items ∧ w.MadeOf items) ∧
    (∀ items items' stop stop', Interpolates text start stop items →
      Interpolates text start stop' items' → items = items' ∧ stop = stop') ∧
    ((∃ expected offset, doubleQuoted.readAt text start = .error (.mismatch expected offset)) ↔
      text[start]? ≠ some '"') ∧
    ((∃ expected offset, doubleQuoted.readAt text start = .error (.rejection expected offset)) ↔
      text[start]? = some '"' ∧ ¬ ∃ items stop, Interpolates text start stop items) := by
  have hitems : ∀ items stop, Interpolates text start stop items →
      doubleQuoted.readAt text start = .ok (fuse items, stop) := by
    intro items stop h
    exact doubleQuoted_readAt_ok_iff.mpr ⟨items, h, Word.madeOf_iff.mpr rfl⟩
  refine ⟨fun e d => unescape?_eq_some_iff, fun w stop => doubleQuoted_readAt_ok_iff,
    fun _ _ _ _ h h' => h.unique h', ?_, ?_⟩
  · constructor
    · rintro ⟨expected, offset, hmismatch⟩ hquote
      by_cases hsome : ∃ items stop, Interpolates text start stop items
      · obtain ⟨items, stop, h⟩ := hsome
        rw [hitems items stop h] at hmismatch
        cases hmismatch
      · obtain ⟨expected', offset', hrejection⟩ := doubleQuoted_readAt_rejects hquote hsome
        rw [hrejection] at hmismatch
        cases hmismatch
    · intro hne
      exact ⟨_, _, doubleQuoted_readAt_of_ne hne⟩
  · constructor
    · rintro ⟨expected, offset, hrejection⟩
      constructor
      · by_contra hne
        rw [doubleQuoted_readAt_of_ne hne] at hrejection
        cases hrejection
      · rintro ⟨items, stop, h⟩
        rw [hitems items stop h] at hrejection
        cases hrejection
    · rintro ⟨hquote, hnone⟩
      exact doubleQuoted_readAt_rejects hquote hnone

/-- The quoted text of a line is read with its reference.  From its last quote on it is not
closed. -/
theorem doubleQuoted_exact_reference :
    let text := ['a', '"', 'b', '$', '\x7b', 'X', '\x7d', '\\', 'n', '"', '\n']
    let word : Word := [.fixed "b", .reference "X", .fixed "\n"]
    doubleQuoted.readAt text 1 = .ok (word, 10) ∧
      (∀ items stop, Interpolates text 1 stop items →
        items = [.char 'b', .reference "X", .char '\n'] ∧ stop = 10) ∧
      (∃ expected offset, doubleQuoted.readAt text 0 = .error (.mismatch expected offset)) ∧
      ¬ ∃ items stop, Interpolates text 9 stop items := by
  intro text word
  have hitems : Interpolates text 1 10 [.char 'b', .reference "X", .char '\n'] := by
    have hb : ItemText ['b'] (.char 'b') := .plain (by decide) (by decide) (by decide)
    have hx : ItemText (referenceText "X") (.reference "X") := .reference (by decide)
    have hn : ItemText ['\\', 'n'] (.char '\n') := .escape rfl
    exact ⟨by decide, _, .cons hb (.cons hx (.cons hn .nil)), by decide⟩
  obtain ⟨-, hok, hunique, -, -⟩ := doubleQuoted_exact text 1
  obtain ⟨-, -, -, hmismatch, -⟩ := doubleQuoted_exact text 0
  obtain ⟨-, -, -, -, hrejection⟩ := doubleQuoted_exact text 9
  refine ⟨(hok word 10).mpr ⟨_, hitems, Word.madeOf_iff.mpr (by decide)⟩, ?_, ?_, ?_⟩
  · intro items stop h
    exact hunique _ _ _ _ h hitems
  · exact hmismatch.mpr (by decide)
  · have hrejected : doubleQuoted.readAt text 9 = .error (.rejection .closingDoubleQuote 10) := by
      decide +kernel
    exact (hrejection.mp ⟨_, _, hrejected⟩).2

end LineShell
