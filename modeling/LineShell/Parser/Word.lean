import LineShell.Parser.Basic
import LineShell.Word

/-!
# Reading words

A word is written as one or more *fragments* next to each other: a run of path characters, a
wildcard, a text in double quotes, or a text in single quotes.  The first character of a
fragment tells which of the four it is, so the order in which they are tried does not matter.

The input is a text with a line feed behind it.  That last character ends the line: a quoted
text may hold line feeds, but not this one.
-/

namespace LineShell

/-! ## Variables -/

def isNameStart (c : Char) : Bool :=
  c.isAlpha || c == '_'

def isNameChar (c : Char) : Bool :=
  c.isAlphanum || c == '_'

namespace Parser

/-- A letter or underscore, then letters, digits and underscores, all of them ASCII. -/
def variableName : Production String
  | [] => mismatch .variableName []
  | c :: t =>
      if isNameStart c then
        .ok (String.ofList (c :: t.takeWhile isNameChar), t.dropWhile isNameChar)
      else mismatch .variableName (c :: t)

/-- `${NAME}`.  Behind the dollar sign the rest has to be there. -/
def variableReference : Production String
  | '$' :: '\x7b' :: t =>
      match variableName t with
      | .ok (name, '\x7d' :: r) => .ok (name, r)
      | .ok (_, r) => rejection .closeBrace r
      | .error _ => rejection .variableName t
  | '$' :: t => rejection .openBrace t
  | s => mismatch .dollar s

theorem variableName_ok {s r : List Char} {name : String} (h : variableName s = .ok (name, r)) :
    ∃ c t, isNameStart c = true ∧ s = c :: t ∧
      name = String.ofList (c :: t.takeWhile isNameChar) ∧ r = t.dropWhile isNameChar := by
  cases s with
  | nil => simp [variableName, mismatch] at h
  | cons c t =>
    by_cases hc : isNameStart c = true
    · simp only [variableName, hc, ↓reduceIte, Except.ok.injEq, Prod.mk.injEq] at h
      exact ⟨c, t, hc, rfl, h.1.symm, h.2.symm⟩
    · simp [variableName, mismatch, hc] at h

theorem variableName_consumes : Production.Consumes variableName := by
  intro s name r h
  obtain ⟨c, t, -, rfl, -, rfl⟩ := variableName_ok h
  exact ⟨c :: t.takeWhile isNameChar, by simp, by simp⟩

theorem variableReference_consumes : Production.Consumes variableReference := by
  intro s name r h
  unfold variableReference at h
  split at h
  · next t =>
    split at h
    · next name' r' hname =>
      simp only [Except.ok.injEq, Prod.mk.injEq] at h
      obtain ⟨w, -, rfl⟩ := variableName_consumes _ _ _ hname
      exact ⟨'$' :: '\x7b' :: (w ++ ['\x7d']), by simp, by simp [h.2]⟩
    · simp [rejection] at h
    · simp [rejection] at h
  · simp [rejection] at h
  · simp [mismatch] at h

/-! ## Bare text and wildcards -/

def isPathChar (c : Char) : Bool :=
  c.isAlphanum || "/~-_.=".toList.contains c

/-- A bare run of path characters.  A tilde that stands alone or before a slash is the home
directory. -/
def pathWord : List Char → Word
  | ['~'] => [.reference "HOME"]
  | '~' :: '/' :: t => [.reference "HOME", .fixed (String.ofList ('/' :: t))]
  | text => [.fixed (String.ofList text)]

def path (s : List Char) : Reading Word :=
  let text := s.takeWhile isPathChar
  if text.isEmpty then mismatch .path s
  else .ok (pathWord text, s.dropWhile isPathChar)

def isClassChar (c : Char) : Bool :=
  c != ']' && c != '\n'

/-- A character class behind its opening bracket.  A closing bracket is the only member of a class
if it stands at the beginning, behind the exclamation mark if there is one, and another closing
bracket follows. -/
def classBody (t : List Char) : Option (List Char × List Char) :=
  match t with
  | ']' :: ']' :: r => some ([']'], r)
  | '!' :: ']' :: ']' :: r => some (['!', ']'], r)
  | _ =>
      let body := t.takeWhile isClassChar
      match t.dropWhile isClassChar with
      | ']' :: r => if body.isEmpty then none else some (body, r)
      | _ => none

/-- A wildcard.  Two stars are one wildcard. -/
def glob (s : List Char) : Reading Word :=
  match s with
  | '?' :: r => .ok ([.glob "?"], r)
  | '*' :: '*' :: r => .ok ([.glob "**"], r)
  | '*' :: r => .ok ([.glob "*"], r)
  | '[' :: t =>
      match classBody t with
      | some (body, r) => .ok ([.glob (String.ofList ('[' :: body ++ [']']))], r)
      | none => mismatch .glob s
  | _ => mismatch .glob s

theorem path_consumes : Production.Consumes path := by
  intro s v r h
  simp only [path] at h
  split at h
  · simp [mismatch] at h
  · next hne =>
    simp only [Except.ok.injEq, Prod.mk.injEq] at h
    exact ⟨s.takeWhile isPathChar, by simpa using hne, by simp [← h.2]⟩

theorem classBody_append {t body r : List Char} (h : classBody t = some (body, r)) :
    t = body ++ ']' :: r := by
  unfold classBody at h
  split at h
  · simp only [Option.some.injEq, Prod.mk.injEq] at h
    simp [← h.1, ← h.2]
  · simp only [Option.some.injEq, Prod.mk.injEq] at h
    simp [← h.1, ← h.2]
  · simp only at h
    split at h
    · next hdrop =>
      split at h
      · simp at h
      · simp only [Option.some.injEq, Prod.mk.injEq] at h
        conv => lhs; rw [← List.takeWhile_append_dropWhile (p := isClassChar) (l := t)]
        rw [hdrop, h.1, h.2]
    · simp at h

theorem glob_consumes : Production.Consumes glob := by
  intro s v r h
  unfold glob at h
  split at h
  · next t =>
    simp only [Except.ok.injEq, Prod.mk.injEq] at h
    exact ⟨['?'], by simp, by simp [h.2]⟩
  · next t =>
    simp only [Except.ok.injEq, Prod.mk.injEq] at h
    exact ⟨['*', '*'], by simp, by simp [h.2]⟩
  · next t _ =>
    simp only [Except.ok.injEq, Prod.mk.injEq] at h
    exact ⟨['*'], by simp, by simp [h.2]⟩
  · next t =>
    split at h
    · next body r' hbody =>
      simp only [Except.ok.injEq, Prod.mk.injEq] at h
      exact ⟨'[' :: body ++ [']'], by simp, by simp [classBody_append hbody, h.2]⟩
    · simp [mismatch] at h
  · simp [mismatch] at h

/-! ## Double quotes -/

inductive QuotedItem where
  | char (c : Char)
  | reference (name : String)
  deriving DecidableEq

/-- Puts a character in front of a word, into the fixed text there if there is one. -/
def consChar (c : Char) : Word → Word
  | .fixed text :: w => .fixed (String.ofList (c :: text.toList)) :: w
  | w => .fixed (String.ofList [c]) :: w

/-- The word of a list of items: each longest run of characters is one fixed text. -/
def fuse : List QuotedItem → Word
  | [] => []
  | .char c :: items => consChar c (fuse items)
  | .reference name :: items => .reference name :: fuse items

/-- The character that a backslash and this character stand for between double quotes. -/
def unescape? : Char → Option Char
  | 'n' => some '\n'
  | 'r' => some '\r'
  | 't' => some '\t'
  | '\\' => some '\\'
  | '"' => some '"'
  | '\'' => some '\''
  | _ => none

def quotedItems (s : List Char) : Reading (List QuotedItem) :=
  match s with
  | [] => rejection .closingDoubleQuote []
  | c :: t =>
      if c = '"' then .ok ([], t)
      else if c = '$' then
        match variableReference (c :: t) with
        | .error failure => .error failure
        | .ok (name, r) =>
            if r.length < t.length + 1 then
              match quotedItems r with
              | .error failure => .error failure
              | .ok (items, u) => .ok (.reference name :: items, u)
            else .ok ([.reference name], r)
      else if c = '\\' then
        match t with
        | [] => rejection .escapeSequence (c :: t)
        | e :: r =>
            match unescape? e with
            | none => rejection .escapeSequence (c :: t)
            | some d =>
                match quotedItems r with
                | .error failure => .error failure
                | .ok (items, u) => .ok (.char d :: items, u)
      else if c = '\n' ∧ t = [] then rejection .closingDoubleQuote (c :: t)
      else
        match quotedItems t with
        | .error failure => .error failure
        | .ok (items, u) => .ok (.char c :: items, u)
termination_by s.length

theorem quotedItems_append {s r : List Char} {items : List QuotedItem}
    (h : quotedItems s = .ok (items, r)) : ∃ w, w ≠ [] ∧ s = w ++ r := by
  fun_induction quotedItems s generalizing items r with
  | case1 => simp [rejection] at h
  | case2 t =>
    simp only [Except.ok.injEq, Prod.mk.injEq] at h
    exact ⟨['"'], by simp, by simp [h.2]⟩
  | case3 => simp at h
  | case4 => simp at h
  | case5 =>
    rename_i hitems _ hname ih
    simp only [Except.ok.injEq, Prod.mk.injEq] at h
    obtain ⟨front, hfront, hs⟩ := variableReference_consumes _ _ _ hname
    obtain ⟨back, -, hu⟩ := ih hitems
    exact ⟨front ++ back, by simp [hfront], by rw [hs, hu, h.2, List.append_assoc]⟩
  | case6 =>
    rename_i hname
    simp only [Except.ok.injEq, Prod.mk.injEq] at h
    obtain ⟨front, hfront, hs⟩ := variableReference_consumes _ _ _ hname
    exact ⟨front, hfront, by rw [hs, h.2]⟩
  | case7 => simp [rejection] at h
  | case8 => simp [rejection] at h
  | case9 => simp at h
  | case10 e =>
    rename_i hitems _ _ ih
    simp only [Except.ok.injEq, Prod.mk.injEq] at h
    obtain ⟨back, -, hu⟩ := ih hitems
    exact ⟨'\\' :: e :: back, by simp, by simp [hu, h.2]⟩
  | case11 => simp [rejection] at h
  | case12 => simp at h
  | case13 c =>
    rename_i hitems ih
    simp only [Except.ok.injEq, Prod.mk.injEq] at h
    obtain ⟨back, -, hu⟩ := ih hitems
    exact ⟨c :: back, by simp, by simp [hu, h.2]⟩

def doubleQuoted : Production Word
  | '"' :: t =>
      match quotedItems t with
      | .error failure => .error failure
      | .ok (items, r) => .ok (fuse items, r)
  | s => mismatch .doubleQuote s

theorem doubleQuoted_consumes : Production.Consumes doubleQuoted := by
  intro s v r h
  unfold doubleQuoted at h
  split at h
  · next t =>
    split at h
    · simp at h
    · next items u hitems =>
      simp only [Except.ok.injEq, Prod.mk.injEq] at h
      obtain ⟨w, -, rfl⟩ := quotedItems_append hitems
      exact ⟨'"' :: w, by simp, by simp [h.2]⟩
  · simp [mismatch] at h

/-! ## Single quotes -/

/-- The text up to the closing single quote.  A backslash before a backslash or a single quote
makes that character part of the text; any other backslash stands for itself. -/
def literalText : List Char → Reading (List Char)
  | [] => rejection .closingSingleQuote []
  | '\'' :: t => .ok ([], t)
  | '\\' :: '\\' :: t =>
      match literalText t with
      | .error failure => .error failure
      | .ok (cs, r) => .ok ('\\' :: cs, r)
  | '\\' :: '\'' :: t =>
      match literalText t with
      | .error failure => .error failure
      | .ok (cs, r) => .ok ('\'' :: cs, r)
  | c :: t =>
      if c = '\n' ∧ t = [] then rejection .closingSingleQuote (c :: t)
      else
        match literalText t with
        | .error failure => .error failure
        | .ok (cs, r) => .ok (c :: cs, r)

theorem literalText_append {s r cs : List Char} (h : literalText s = .ok (cs, r)) :
    ∃ w, w ≠ [] ∧ s = w ++ r := by
  fun_induction literalText s generalizing cs r with
  | case1 => simp [rejection] at h
  | case2 t =>
    simp only [Except.ok.injEq, Prod.mk.injEq] at h
    exact ⟨['\''], by simp, by simp [h.2]⟩
  | case3 => simp at h
  | case4 t _ _ htext ih =>
    simp only [Except.ok.injEq, Prod.mk.injEq] at h
    obtain ⟨w, -, rfl⟩ := ih htext
    exact ⟨'\\' :: '\\' :: w, by simp, by simp [h.2]⟩
  | case5 => simp at h
  | case6 t _ _ htext ih =>
    simp only [Except.ok.injEq, Prod.mk.injEq] at h
    obtain ⟨w, -, rfl⟩ := ih htext
    exact ⟨'\\' :: '\'' :: w, by simp, by simp [h.2]⟩
  | case7 => simp [rejection] at h
  | case8 => simp at h
  | case9 c t _ _ _ _ _ _ htext ih =>
    simp only [Except.ok.injEq, Prod.mk.injEq] at h
    obtain ⟨w, -, rfl⟩ := ih htext
    exact ⟨c :: w, by simp, by simp [h.2]⟩

def literalWord (cs : List Char) : Word :=
  if cs.isEmpty then [] else [.fixed (String.ofList cs)]

/-- A text in single quotes, in which nothing but the quote has a meaning. -/
def singleQuoted : Production Word
  | '\'' :: t =>
      match literalText t with
      | .error failure => .error failure
      | .ok (cs, r) => .ok (literalWord cs, r)
  | s => mismatch .singleQuote s

theorem singleQuoted_consumes : Production.Consumes singleQuoted := by
  intro s v r h
  unfold singleQuoted at h
  split at h
  · next t =>
    split at h
    · simp at h
    · next cs u htext =>
      simp only [Except.ok.injEq, Prod.mk.injEq] at h
      obtain ⟨w, -, rfl⟩ := literalText_append htext
      exact ⟨'\'' :: w, by simp, by simp [h.2]⟩
  · simp [mismatch] at h

/-! ## Fragments and words -/

def fragments : List (Production Word) :=
  [path, glob, doubleQuoted, singleQuoted]

def fragment : Production Word :=
  Production.firstOf .argument fragments

/-- One or more fragments without anything between them. -/
def word (s : List Char) : Reading Word :=
  match Production.repeated fragment s with
  | .error failure => .error failure
  | .ok ([], _) => mismatch .argument s
  | .ok (w :: ws, r) => .ok ((w :: ws).flatten, r)

theorem fragment_consumes : Production.Consumes fragment := by
  apply Production.firstOf_consumes
  intro p hp
  simp only [fragments, List.mem_cons, List.not_mem_nil, or_false] at hp
  rcases hp with rfl | rfl | rfl | rfl
  · exact path_consumes
  · exact glob_consumes
  · exact doubleQuoted_consumes
  · exact singleQuoted_consumes

theorem word_consumes : Production.Consumes word := by
  intro s v r h
  unfold word at h
  split at h
  · simp at h
  · simp [mismatch] at h
  · next w ws u hws =>
    simp only [Except.ok.injEq, Prod.mk.injEq] at h
    obtain ⟨front, rfl, hfront⟩ := Production.repeated_append fragment_consumes hws
    exact ⟨front, hfront (by simp), by rw [h.2]⟩

end Parser

end LineShell
