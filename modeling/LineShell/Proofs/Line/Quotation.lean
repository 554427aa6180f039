import LineShell.Execution
import LineShell.Proofs.Expansion.Order
import LineShell.Proofs.Line.Joined
import LineShell.Proofs.Word.Written

/-!
# Quoted arguments

A program that puts texts and references to variables on a line quotes them, the texts in single
quotes and the references in double quotes.  The command that such a line runs gets one argument
for each of the quoted ones: neither a text nor the value of a variable is ever split, matched
against file names, or taken for another part of the line.
-/

namespace LineShell

open LineShell.Parser
open Production (Steps Mismatches)

/-- A part of an argument: a text, or the value of a variable. -/
inductive ArgumentItem where
  | text (content : String)
  | reference (name : String) (valid : IsName name.toList)

abbrev QuotedArgument := List ArgumentItem

namespace ArgumentItem

def written : ArgumentItem → List Char
  | .text content => quoteLiteral content.toList
  | .reference name _ => quoteReference name

def word : ArgumentItem → Word
  | .text content => literalWord content.toList
  | .reference name _ => [.reference name]

def value (lookup : Lookup) : ArgumentItem → String
  | .text content => content
  | .reference name _ => (lookup name).getD ""

/-- The item does not refer to an unset variable. -/
def IsSet (lookup : Lookup) : ArgumentItem → Prop
  | .text _ => True
  | .reference name _ => (lookup name).isSome = true

end ArgumentItem

namespace QuotedArgument

def written (a : QuotedArgument) : List Char :=
  if a = [] then quoteLiteral [] else a.flatMap ArgumentItem.written

def word (a : QuotedArgument) : Word :=
  a.flatMap ArgumentItem.word

def value (lookup : Lookup) (a : QuotedArgument) : String :=
  a.foldr (fun item rest => item.value lookup ++ rest) ""

def IsSet (lookup : Lookup) (a : QuotedArgument) : Prop :=
  ∀ item ∈ a, item.IsSet lookup

end QuotedArgument

def quotedLine (name : QuotedArgument) (arguments : List QuotedArgument) : String :=
  String.ofList ([' '].intercalate ((name :: arguments).map QuotedArgument.written))

/-! ## Reading quoted arguments -/

theorem ArgumentItem.fragment_written (item : ArgumentItem) (r : List Char) :
    fragment (item.written ++ r) = .ok (item.word, r) := by
  cases item with
  | text content => exact fragment_quoteLiteral content.toList r
  | reference name valid => exact fragment_quoteReference valid r

theorem ArgumentItem.steps_written (items : List ArgumentItem) (r : List Char) :
    Steps fragment (items.flatMap ArgumentItem.written ++ r) (items.map ArgumentItem.word) r := by
  induction items with
  | nil => exact .nil r
  | cons item items ih =>
    rw [List.flatMap_cons, List.append_assoc, List.map_cons]
    exact .cons (item.fragment_written _) ih

theorem QuotedArgument.word_written (a : QuotedArgument) {r : List Char}
    (hr : Stops isFragmentStart r) : Parser.word (a.written ++ r) = .ok (a.word, r) := by
  rw [word_eq_ok_iff, written]
  split
  · next hnil =>
    subst hnil
    exact ⟨[[]], by simp, .cons (fragment_quoteLiteral [] r) (.nil r), fragment_mismatches hr, rfl⟩
  · next hne =>
    exact ⟨_, by simpa using hne, ArgumentItem.steps_written a r, fragment_mismatches hr,
      List.flatMap_def⟩

theorem QuotedArgument.stops_written (a : QuotedArgument) : Stops isPathChar a.written := by
  have hitem : ∀ (item : ArgumentItem) (s : List Char), Stops isPathChar (item.written ++ s) := by
    intro item s
    cases item with
    | text content => exact stops_cons.mpr (by decide)
    | reference name valid => exact stops_cons.mpr (by decide)
  cases a with
  | nil => exact stops_cons.mpr (by decide)
  | cons item a =>
    have hhead := hitem item (a.flatMap ArgumentItem.written)
    simpa [written] using hhead

def QuotedArgument.source (a : QuotedArgument) : Source Parser.word :=
  ⟨a.written, a.word, a.word_written (stops_cons.mpr (by decide))⟩

theorem parse_quotedLine (name : QuotedArgument) (arguments : List QuotedArgument) :
    parse (quotedLine name arguments) =
      .ok (.command ⟨[], (name :: arguments).map QuotedArgument.word, []⟩) := by
  have htexts : ((name :: arguments).map QuotedArgument.source).map Source.text =
      (name :: arguments).map QuotedArgument.written := by
    rw [List.map_map]
    rfl
  have hvalues : ((name :: arguments).map QuotedArgument.source).map Source.value =
      (name :: arguments).map QuotedArgument.word := by
    rw [List.map_map]
    rfl
  have hname : ∀ t ∈ ((name :: arguments).map QuotedArgument.source).head?,
      ¬ BeginsAssignment t.text := by
    intro t ht
    cases ht
    exact not_beginsAssignment_of_stops name.stops_written
  have hjoined := @parse_joined [] ((name :: arguments).map QuotedArgument.source) []
    (by simp) hname List.isChain_nil
  rw [htexts, hvalues] at hjoined
  simpa [quotedLine, lineOf] using hjoined

example : quotedLine [.text "rm"] [[.text "it's *", .reference "HOME" (by decide)], []] =
    "'rm' 'it\\'s *'\"$\x7bHOME\x7d\" ''" := by cbv

/-! ## Expanding quoted arguments -/

theorem render_literalWord (lookup : Lookup) (cs : List Char) :
    Word.render lookup (literalWord cs) = String.ofList cs := by
  cases cs with
  | nil => rfl
  | cons c cs => simp [literalWord, Piece.render]

theorem ArgumentItem.render_word (lookup : Lookup) (item : ArgumentItem) :
    Word.render lookup item.word = item.value lookup := by
  cases item with
  | text content => rw [word, render_literalWord, String.ofList_toList, value]
  | reference name valid => simp [word, value, Piece.render]

theorem QuotedArgument.render_word (lookup : Lookup) (a : QuotedArgument) :
    Word.render lookup a.word = a.value lookup := by
  induction a with
  | nil => rfl
  | cons item a ih =>
    have hword : QuotedArgument.word (item :: a) = item.word ++ QuotedArgument.word a := rfl
    rw [hword, Word.render_append, item.render_word, ih]
    rfl

theorem QuotedArgument.mem_word {a : QuotedArgument} {p : Piece} (h : p ∈ a.word) :
    (∃ content, p = .fixed content) ∨
      ∃ name valid, p = .reference name ∧ ArgumentItem.reference name valid ∈ a := by
  rcases List.mem_flatMap.mp h with ⟨item, hitem, hp⟩
  cases item with
  | text content =>
    simp only [ArgumentItem.word, literalWord] at hp
    split at hp
    · simp at hp
    · exact Or.inl ⟨_, List.mem_singleton.mp hp⟩
  | reference name valid => exact Or.inr ⟨name, valid, List.mem_singleton.mp hp, hitem⟩

theorem QuotedArgument.hasGlob_word (a : QuotedArgument) : Word.hasGlob a.word = false := by
  rw [Word.hasGlob, List.any_eq_false]
  intro p hp
  rcases QuotedArgument.mem_word hp with ⟨content, rfl⟩ | ⟨name, valid, rfl, -⟩ <;>
    simp [Piece.isGlob]

theorem QuotedArgument.unset?_word {lookup : Lookup} {a : QuotedArgument} (h : a.IsSet lookup) :
    Word.unset? lookup a.word = none := by
  apply Word.unset?_eq_none_iff.mpr
  intro name hname
  rcases QuotedArgument.mem_word hname with ⟨content, hp⟩ | ⟨other, valid, hp, hmem⟩
  · simp at hp
  · cases hp
    exact Option.isSome_iff_ne_none.mp (h _ hmem)

theorem expand_quoted {setting : Expansion.Setting} {lookup : Lookup}
    {arguments : List QuotedArgument}
    (hset : setting.strict = true → ∀ a ∈ arguments, a.IsSet lookup) :
    Expansion.words setting lookup (arguments.map QuotedArgument.word) =
      .ok (arguments.map (QuotedArgument.value lookup)) := by
  induction arguments with
  | nil => rfl
  | cons a arguments ih =>
    have hrest := ih fun hstrict b hb => hset hstrict b (List.mem_cons_of_mem a hb)
    have hunset : (if setting.strict then Word.unset? lookup a.word else none) = none := by
      cases hstrict : setting.strict with
      | false => rfl
      | true => exact QuotedArgument.unset?_word (hset hstrict a List.mem_cons_self)
    have hword : Expansion.word setting lookup a.word = .ok [a.value lookup] := by
      rw [Expansion.word_of_not_hasGlob _ _ a.hasGlob_word, Expansion.one, hunset, a.render_word]
      rfl
    rw [List.map_cons, Expansion.words, hword, hrest]
    rfl

/-! ## Running quoted arguments -/

theorem executeLine_of_parse (registry : Registry) {text : String} {v : Line}
    (h : parse text = .ok v) :
    executeLine registry text = Execution.reporting (Execution.runParsed registry v) := by
  rw [executeLine, h]

theorem runCommand_of_expand (registry : Registry) {ws : List Word} {ds : List Redirect}
    {name : String} {arguments : List String} {m : Machine}
    (h : m.expand ws = .ok (name :: arguments)) :
    Execution.runCommand registry ⟨[], ws, ds⟩ m = registry.execute name arguments ds m := by
  have hexpand : Execution.expandArguments ws m = .ok (name :: arguments) m := by
    rw [Execution.expandArguments_eq, h]
  simp only [Execution.runCommand, bind, EStateM.bind, hexpand]
  rfl

theorem reporting_congr {work work' : Action Int} {m m' : Machine} (h : work m = work' m') :
    Execution.reporting work m = Execution.reporting work' m' := by
  simp only [Execution.reporting, tryCatch, tryCatchThe, MonadExceptOf.tryCatch,
    EStateM.tryCatch, h]

/-- Quoted data is never syntax: the line of quoted arguments is a command without assignments and
redirects, its words become one text each, whatever the texts and the values of the variables
are, and running the line runs the command with these texts. -/
theorem quotedLine_arguments (name : QuotedArgument) (arguments : List QuotedArgument) :
    ∃ c : Command, parse (quotedLine name arguments) = .ok (.command c) ∧
      c.assignments = [] ∧ c.redirects = [] ∧
      (∀ (setting : Expansion.Setting) (lookup : Lookup),
        (setting.strict = true → ∀ a ∈ name :: arguments, a.IsSet lookup) →
          Expansion.words setting lookup c.arguments =
            .ok ((name :: arguments).map (QuotedArgument.value lookup))) ∧
      ∀ (registry : Registry) (m : Machine),
        (m.session.strict = true → ∀ a ∈ name :: arguments, a.IsSet m.session.get?) →
          executeLine registry (quotedLine name arguments) m =
            Execution.reporting (registry.execute (name.value m.session.get?)
              (arguments.map (QuotedArgument.value m.session.get?)) []) m := by
  have hparse := parse_quotedLine name arguments
  refine ⟨_, hparse, rfl, rfl, ?_, ?_⟩
  · intro setting lookup hset
    exact expand_quoted hset
  · intro registry m hset
    rw [executeLine_of_parse registry hparse]
    apply reporting_congr
    exact runCommand_of_expand registry (expand_quoted hset)

end LineShell
