import LineShell.Proofs.Line.Layout
import LineShell.Proofs.Redirect.Beginning

/-!
# Words in front of an operator

No blank is needed between a word and the operator of a redirect.  If the word can be the operand
before this operator, then it belongs to the redirect: a number in front of any operator, a bare
word in front of `<`.  Otherwise it is an argument, and the redirect has no operand before its
operator.  The first word of a command is always an argument.
-/

namespace LineShell

open LineShell.Parser
open Production (Mismatches)

/-! ## Digits of words -/

theorem toNat_lt_of_isPathChar {c : Char} (h : isPathChar c = true) : c.toNat < 128 := by
  simp only [isPathChar, Bool.or_eq_true, List.contains_iff_mem] at h
  rcases h with halphanum | hsymbol
  · simp only [Char.isAlphanum, Char.isAlpha, Char.isUpper, Char.isLower, Char.isDigit,
      Bool.or_eq_true, Bool.and_eq_true, decide_eq_true_eq, ge_iff_le, UInt32.le_iff_toNat_le,
      Char.toNat_val, Char.reduceToNat] at halphanum
    omega
  · have hsymbols : c ∈ ['/', '~', '-', '_', '.', '='] := hsymbol
    simp only [List.mem_cons, List.not_mem_nil, or_false] at hsymbols
    rcases hsymbols with rfl | rfl | rfl | rfl | rfl | rfl <;> decide

/-- The only digits among the path characters are those of ASCII. -/
theorem isDigit_of_isDigitChar {c : Char} (hdigit : isDigitChar c = true)
    (hpath : isPathChar c = true) : c.isDigit = true := by
  have hascii : ∀ n < 128, isDigitChar (Char.ofNat n) = true → (Char.ofNat n).isDigit = true := by
    decide +kernel
  have hc := hascii c.toNat (toNat_lt_of_isPathChar hpath)
  rw [Char.ofNat_toNat] at hc
  exact hc hdigit

theorem decimalValue?_of_isDigit {c : Char} (h : c.isDigit = true) :
    decimalValue? c = some (c.toNat - '0'.toNat) := by
  have hascii : ∀ n < 128, (Char.ofNat n).isDigit = true →
      decimalValue? (Char.ofNat n) = some (n - '0'.toNat) := by
    decide +kernel
  have hpath : isPathChar c = true := by simp [isPathChar, Char.isAlphanum, h]
  have hc := hascii c.toNat (toNat_lt_of_isPathChar hpath)
  rw [Char.ofNat_toNat] at hc
  exact hc h

namespace Source

variable (w : Source word)

/-- The bare text with which a word begins is all of it, or leads to another fragment. -/
theorem word_bare :
    (∀ c ∈ w.text, isPathChar c = true) ∨
      ∃ c t, w.text.dropWhile isPathChar = c :: t ∧ isFragmentStart c = true ∧
        isPathChar c = false := by
  rcases forall_or_exists isPathChar w.text with hall | hsome
  · exact Or.inl hall
  · have hne : (w.text.dropWhile isPathChar).isEmpty = false := by
      simpa [List.dropWhile_eq_nil_iff] using hsome
    have hbare := dropWhile_isPathChar_of_word w.reads
    rw [List.dropWhile_append, hne] at hbare
    obtain ⟨c, t, hrest⟩ := List.exists_cons_of_ne_nil (List.isEmpty_eq_false_iff.mp hne)
    rcases hbare with hend | ⟨d, u, hdrop, hd⟩
    · simp [hrest] at hend
    · rw [hrest] at hdrop
      obtain ⟨rfl, -⟩ := List.cons.inj hdrop
      exact Or.inr ⟨c, t, hrest, hd⟩

/-- A word can not begin with other digits than those of ASCII. -/
theorem isPathChar_of_digits {front behind : List Char} (htext : w.text = front ++ behind)
    (hfront : ∀ c ∈ front, isDigitChar c = true) : ∀ c ∈ front, isPathChar c = true := by
  rcases w.word_bare with hall | ⟨c, t, hrest, hstart, hpath⟩
  · intro c hc
    exact hall c (by simp [htext, hc])
  · rcases forall_or_exists isPathChar front with hbare | hsome
    · exact hbare
    · have hne : (front.dropWhile isPathChar).isEmpty = false := by
        simpa [List.dropWhile_eq_nil_iff] using hsome
      obtain ⟨d, u, hd⟩ := List.exists_cons_of_ne_nil (List.isEmpty_eq_false_iff.mp hne)
      rw [htext, List.dropWhile_append, hne, hd] at hrest
      obtain ⟨rfl, -⟩ := List.cons.inj hrest
      have hmem : d ∈ front := (List.dropWhile_suffix isPathChar).subset (hd ▸ List.mem_cons_self)
      have hdigit := isDigitChar_of_isFragmentStart hstart hpath
      rw [hfront d hmem] at hdigit
      exact absurd hdigit (by decide)

theorem digits_iff : (∀ c ∈ w.text, isDigitChar c = true) ↔ ∀ c ∈ w.text, c.isDigit = true := by
  constructor
  · intro h c hc
    exact isDigit_of_isDigitChar (h c hc) (w.isPathChar_of_digits (List.append_nil _).symm h c hc)
  · intro h c hc
    exact isDigitChar_of_decimalValue? (decimalValue?_of_isDigit (h c hc))

theorem text_ne_operator {front behind : List Char} {o : Char} (ho : o = '<' ∨ o = '>')
    (hfront : ∀ c ∈ front, isPathChar c = true) : w.text ≠ front ++ o :: behind := by
  intro htext
  have hpath : isPathChar o = false := by
    rcases ho with rfl | rfl <;> decide
  rcases w.word_bare with hall | ⟨c, t, hrest, hstart, -⟩
  · rw [hall o (by simp [htext])] at hpath
    exact absurd hpath (by decide)
  · rw [htext, dropWhile_append_of_stops hfront (stops_cons.mpr hpath)] at hrest
    obtain ⟨rfl, -⟩ := List.cons.inj hrest
    rcases ho with rfl | rfl <;> exact absurd hstart (by decide)

/-- A word leads into an operator only as the operand before it. -/
theorem operand_of_beginsRedirect {o : Char} {u : List Char} (ho : o = '<' ∨ o = '>')
    (h : BeginsRedirect (w.text ++ o :: u)) :
    (∀ c ∈ w.text, c.isDigit = true) ∨ (∀ c ∈ w.text, isPathChar c = true) ∧ o = '<' := by
  obtain ⟨front, o', u', heq, hfront⟩ := h
  have ho' : o' = '<' ∨ o' = '>' := by
    rcases hfront with ⟨-, ho'⟩ | ⟨-, rfl⟩
    · exact ho'
    · exact Or.inl rfl
  -- the operator behind the operand is the one behind the word
  have hsame : front = w.text ∧ o' = o := by
    rcases List.append_eq_append_iff.mp heq with ⟨z, hz, hbehind⟩ | ⟨z, hz, hbehind⟩
    · cases z with
      | nil =>
        rw [List.append_nil] at hz
        exact ⟨hz, (List.cons.inj hbehind).1.symm⟩
      | cons d z =>
        obtain ⟨rfl, -⟩ := List.cons.inj hbehind
        have hmem : o ∈ front := by simp [hz]
        rcases hfront with ⟨hdigits, -⟩ | ⟨hpath, -⟩
        · have hdigit := hdigits o hmem
          rcases ho with rfl | rfl <;> exact absurd hdigit (by decide)
        · have hchar := hpath o hmem
          rcases ho with rfl | rfl <;> exact absurd hchar (by decide)
    · cases z with
      | nil =>
        rw [List.append_nil] at hz
        exact ⟨hz.symm, (List.cons.inj hbehind).1⟩
      | cons d z =>
        obtain ⟨rfl, -⟩ := List.cons.inj hbehind
        have hpath : ∀ c ∈ front, isPathChar c = true := by
          rcases hfront with ⟨hdigits, -⟩ | ⟨hpath, -⟩
          · exact w.isPathChar_of_digits hz hdigits
          · exact hpath
        exact absurd hz (w.text_ne_operator ho' hpath)
  obtain ⟨rfl, rfl⟩ := hsame
  rw [w.digits_iff] at hfront
  exact hfront.imp_left And.left

/-- Bare text means what it means as the operand of a redirect. -/
theorem value_of_bare (h : ∀ c ∈ w.text, isPathChar c = true) : w.value = pathWord w.text := by
  have hword := word_of_path w.word_reads.1.ne_nil h
  have hreads := w.reads
  rw [hword] at hreads
  exact (Prod.mk.inj (Except.ok.inj hreads)).1.symm

end Source

/-! ## Sources of redirects -/

theorem redirect_of_file {left : List Char} {operand : Option Operand} {kind : RedirectKind}
    (hleft : LeftText left operand) (hfits : LeftFits kind operand) (f : Source word) :
    redirect (left ++ (kind.symbol.toList ++ f.text) ++ ['\n']) =
      .ok (makeRedirect kind operand (some (.file f.value)), ['\n']) := by
  obtain ⟨c, t, htext, hc⟩ := f.word_head
  have hsingle : kind = .truncate → (f.text ++ ['\n']).head? ≠ some '>' := by
    rintro - hhead
    rw [htext] at hhead
    obtain rfl : c = '>' := Option.some.inj hhead
    exact absurd hc (by decide)
  have hskip : skipBlanks (f.text ++ ['\n']) = f.text ++ ['\n'] := by
    rw [htext]
    exact (stops_cons.mpr (isBlank_of_isFragmentStart hc)).dropWhile_eq
  have hread := redirect_of_left hleft hfits hsingle
  rw [hskip, rightOperand_of_word f.reads] at hread
  rw [List.append_assoc, List.append_assoc]
  exact hread

/-- A redirect of a file, with the text of its operator and its operands. -/
def fileRedirect {left : List Char} {operand : Option Operand} (kind : RedirectKind)
    (hleft : LeftText left operand) (hfits : LeftFits kind operand) (f : Source word) :
    Source redirect where
  text := left ++ (kind.symbol.toList ++ f.text)
  value := makeRedirect kind operand (some (.file f.value))
  reads := redirect_of_file hleft hfits f

theorem leftFits_none (kind : RedirectKind) : LeftFits kind none := by
  intro hfile
  exact absurd hfile (by decide)

theorem leftFits_descriptor (kind : RedirectKind) (n : Nat) :
    LeftFits kind (some (.descriptor n)) := by
  intro hfile
  exact absurd hfile (by simp [Operand.isFile])

theorem blank_nil : ∀ c ∈ ([] : List Char), isBlank c = true := by
  simp

/-- The same without an operand before the operator, right behind what stands there. -/
def operandless (kind : RedirectKind) (f : Source word) : Placed redirect :=
  ⟨fileRedirect kind .none (leftFits_none kind) f, [], blank_nil⟩

theorem text_operandless (kind : RedirectKind) (f : Source word) (s : List Char) :
    (operandless kind f).text ++ s = kind.symbol.toList ++ (f.text ++ s) := by
  simp [operandless, fileRedirect]

/-- The operator is no part of the word before it. -/
theorem endsWord_operandless (kind : RedirectKind) (f : Source word) (s : List Char) :
    EndsWord ((operandless kind f).text ++ s) := by
  obtain ⟨o, u, hu, ho⟩ := exists_operator (startsOperator_symbol kind (f.text ++ s))
  rw [text_operandless, hu]
  rcases ho with rfl | rfl <;> exact endsWord_of_head (by decide) (by decide) u

theorem mismatches_operandless {w : Source word} {kind : RedirectKind} (f : Source word)
    (hdigits : ¬ ∀ x ∈ w.text, x.isDigit = true)
    (hbare : kind = .input → ¬ ∀ x ∈ w.text, isPathChar x = true) (s : List Char) :
    Mismatches redirect (w.text ++ ((operandless kind f).text ++ s)) := by
  rw [redirect_mismatches_iff]
  intro hbegins
  obtain ⟨o, u, hu, ho⟩ := exists_operator (startsOperator_symbol kind (f.text ++ s))
  rw [text_operandless, hu] at hbegins
  rcases w.operand_of_beginsRedirect ho hbegins with hall | ⟨hall, rfl⟩
  · exact hdigits hall
  · refine hbare ?_ hall
    cases kind with
    | input => rfl
    | truncate => exact absurd (List.cons.inj hu).1 (by decide)
    | append => exact absurd (List.cons.inj hu).1 (by decide)

/-! ## Numbers in front of an operator -/

/-- The number that a run of the digits of ASCII stands for. -/
def digitsValue (run : List Char) : Nat :=
  Numeral.value (run.map fun x => x.toNat - '0'.toNat)

theorem filterMap_decimalValue? {run : List Char} (h : ∀ x ∈ run, x.isDigit = true) :
    run.filterMap decimalValue? = run.map fun x => x.toNat - '0'.toNat := by
  induction run with
  | nil => rfl
  | cons x run ih =>
    have hx := decimalValue?_of_isDigit (h x List.mem_cons_self)
    rw [List.filterMap_cons_some hx, List.map_cons, ih fun y hy => h y (List.mem_cons_of_mem x hy)]

theorem leftText_digits {w : Source word} (hdigits : ∀ x ∈ w.text, x.isDigit = true)
    (hlength : w.text.length ≤ Numeral.maxDigits) :
    LeftText w.text (some (.descriptor (digitsValue w.text))) := by
  have hrun : IsDigitRun w.text := ⟨w.word_reads.1.ne_nil, w.digits_iff.mpr hdigits⟩
  have hfits : Numeral.Fits w.text := by
    refine ⟨fun x hx => ?_, hlength⟩
    rw [decimalValue?_of_isDigit (hdigits x hx)]
    rfl
  refine .descriptor hrun ((descriptorNumber_eq_ok_iff hrun).mpr ⟨hfits, ?_⟩)
  rw [filterMap_decimalValue? hdigits, digitsValue]

theorem leftText_bare {w : Source word} (hbare : ∀ x ∈ w.text, isPathChar x = true)
    (hdigits : ¬ ∀ x ∈ w.text, x.isDigit = true) : LeftText w.text (some (.file w.value)) := by
  have hmixed : ∃ x ∈ w.text, isDigitChar x = false := by
    rw [← w.digits_iff] at hdigits
    exact (forall_or_exists isDigitChar w.text).resolve_left hdigits
  rw [w.value_of_bare hbare]
  exact .file w.word_reads.1.ne_nil hbare hmixed

/-! ## Lines with one redirect -/

/-- Words and one redirect behind them are a command if they end where the next one begins. -/
theorem parse_of_words (name : Source word) (args : List (Placed word)) (d : Placed redirect)
    (hname : ¬ BeginsAssignment name.text)
    (hends : EndsWord (Placed.join args ++ (d.gap ++ (d.text ++ ['\n']))))
    (hargs : ArgumentsFit args (d.gap ++ (d.text ++ ['\n']))) :
    parse (String.ofList (name.text ++ (Placed.join args ++ (d.gap ++ d.text)))) =
      .ok (.command ⟨[], name.value :: Placed.values args, [d.value]⟩) := by
  let L : Layout :=
    ⟨[], ⟨name, [], by simp⟩ :: args, [d], by simp, by simpa using hname⟩
  have hfits : L.Fits ([] ++ ['\n']) := by
    refine ⟨trivial, by simpa [L] using hends, by simpa [L] using hargs, ?_, trivial⟩
    exact endsBefore_newline d.value
  have htext : name.text ++ (Placed.join args ++ (d.gap ++ d.text)) = L.text ++ [] := by
    simp [L, Layout.text]
  apply parse_of_terminated (by simp) hfits
  rw [String.toList_ofList, htext]
  exact L.terminated_text (by simp)

/-- A word in front of an operator, behind the first word of the line. -/
def argumentLine (c w : Source word) (kind : RedirectKind) (f : Source word) : String :=
  String.ofList (c.text ++ ' ' :: (w.text ++ (kind.symbol.toList ++ f.text)))

/-- The first word of a line in front of an operator. -/
def nameLine (w : Source word) (kind : RedirectKind) (f : Source word) : String :=
  String.ofList (w.text ++ (kind.symbol.toList ++ f.text))

variable {c w : Source word} (f : Source word)

theorem parse_operand (hc : ¬ BeginsAssignment c.text) {operand : Option Operand}
    {kind : RedirectKind} (hleft : LeftText w.text operand) (hfits : LeftFits kind operand) :
    parse (argumentLine c w kind f) =
      .ok (.command ⟨[], [c.value], [makeRedirect kind operand (some (.file f.value))]⟩) := by
  have hblank : ∀ b ∈ [' '], isBlank b = true := by simp [isBlank]
  let d : Placed redirect := ⟨fileRedirect kind hleft hfits f, [' '], hblank⟩
  exact parse_of_words c [] d hc (breaks_append (by simp) hblank _).endsWord trivial

theorem parse_argument (hc : ¬ BeginsAssignment c.text) {kind : RedirectKind}
    (hdigits : ¬ ∀ x ∈ w.text, x.isDigit = true)
    (hbare : kind = .input → ¬ ∀ x ∈ w.text, isPathChar x = true) :
    parse (argumentLine c w kind f) =
      .ok (.command ⟨[], [c.value, w.value], [makeRedirect kind none (some (.file f.value))]⟩) := by
  have hblank : ∀ b ∈ [' '], isBlank b = true := by simp [isBlank]
  have hargs : ArgumentsFit [⟨w, [' '], hblank⟩] ((operandless kind f).text ++ ['\n']) :=
    ⟨by simp, endsWord_operandless kind f _, mismatches_operandless f hdigits hbare _, trivial⟩
  have hline := parse_of_words c [⟨w, [' '], hblank⟩] (operandless kind f) hc
    (breaks_append (by simp) hblank _).endsWord hargs
  simpa [argumentLine, operandless, fileRedirect] using hline

theorem parse_name (hw : ¬ BeginsAssignment w.text) (kind : RedirectKind) :
    parse (nameLine w kind f) =
      .ok (.command ⟨[], [w.value], [makeRedirect kind none (some (.file f.value))]⟩) :=
  parse_of_words w [] (operandless kind f) hw (endsWord_operandless kind f _) trivial

theorem makeRedirect_output {kind : RedirectKind} (h : kind ≠ .input)
    (left right : Option Operand) : makeRedirect kind left right = ⟨kind, left, right⟩ := by
  cases kind with
  | input => exact absurd rfl h
  | truncate => rfl
  | append => rfl

/-- A word in front of an operator belongs to the redirect if it is a number, or if it is bare and
the operator is `<`.  Otherwise it is an argument, as the first word always is. -/
theorem word_before_operator (c w f : Source word) :
    (¬ BeginsAssignment c.text →
      (∀ kind, kind ≠ .input →
        ((∀ x ∈ w.text, x.isDigit = true) → w.text.length ≤ Numeral.maxDigits →
          parse (argumentLine c w kind f) = .ok (.command ⟨[], [c.value],
            [⟨kind, some (.descriptor (digitsValue w.text)), some (.file f.value)⟩]⟩)) ∧
        (¬ (∀ x ∈ w.text, x.isDigit = true) →
          parse (argumentLine c w kind f) = .ok (.command ⟨[], [c.value, w.value],
            [⟨kind, none, some (.file f.value)⟩]⟩))) ∧
      ((∀ x ∈ w.text, x.isDigit = true) → w.text.length ≤ Numeral.maxDigits →
        parse (argumentLine c w .input f) = .ok (.command ⟨[], [c.value],
          [⟨.input, some (.file f.value), some (.descriptor (digitsValue w.text))⟩]⟩)) ∧
      ((∀ x ∈ w.text, isPathChar x = true) → ¬ (∀ x ∈ w.text, x.isDigit = true) →
        parse (argumentLine c w .input f) = .ok (.command ⟨[], [c.value],
          [⟨.input, some (.file f.value), some (.file w.value)⟩]⟩)) ∧
      (¬ (∀ x ∈ w.text, isPathChar x = true) →
        parse (argumentLine c w .input f) = .ok (.command ⟨[], [c.value, w.value],
          [⟨.input, some (.file f.value), none⟩]⟩))) ∧
    (¬ BeginsAssignment w.text →
      (∀ kind, kind ≠ .input → parse (nameLine w kind f) = .ok (.command ⟨[], [w.value],
        [⟨kind, none, some (.file f.value)⟩]⟩)) ∧
      parse (nameLine w .input f) = .ok (.command ⟨[], [w.value],
        [⟨.input, some (.file f.value), none⟩]⟩)) := by
  refine ⟨fun hc => ⟨fun kind hkind => ⟨fun hdigits hlength => ?_, fun hdigits => ?_⟩,
    fun hdigits hlength => ?_, fun hbare hdigits => ?_, fun hbare => ?_⟩,
    fun hw => ⟨fun kind hkind => ?_, ?_⟩⟩
  · rw [← makeRedirect_output hkind]
    exact parse_operand f hc (leftText_digits hdigits hlength) (leftFits_descriptor kind _)
  · rw [← makeRedirect_output hkind]
    exact parse_argument f hc hdigits fun hinput => absurd hinput hkind
  · exact parse_operand f hc (leftText_digits hdigits hlength) (leftFits_descriptor .input _)
  · exact parse_operand f hc (leftText_bare hbare hdigits) fun _ => rfl
  · have hdigits : ¬ ∀ x ∈ w.text, x.isDigit = true := by
      intro hall
      exact hbare (w.isPathChar_of_digits (List.append_nil _).symm (w.digits_iff.mpr hall))
    exact parse_argument f hc hdigits fun _ => hbare
  · rw [← makeRedirect_output hkind]
    exact parse_name f hw kind
  · exact parse_name f hw .input

/-- The same digits with a letter before them, or with a quotation, are on the other side. -/
theorem word_before_operator_echo :
    let echo : Piece := .fixed "echo"
    let file : Operand := .file [.fixed "f"]
    parse "echo 10>>f" =
        .ok (.command ⟨[], [[echo]], [⟨.append, some (.descriptor 10), some file⟩]⟩) ∧
      parse "echo a2>f" =
        .ok (.command ⟨[], [[echo], [.fixed "a2"]], [⟨.truncate, none, some file⟩]⟩) ∧
      parse "echo 10<f" =
        .ok (.command ⟨[], [[echo]], [⟨.input, some file, some (.descriptor 10)⟩]⟩) ∧
      parse "echo a2<f" =
        .ok (.command ⟨[], [[echo]], [⟨.input, some file, some (.file [.fixed "a2"])⟩]⟩) ∧
      parse "echo 'a'2<f" =
        .ok (.command ⟨[], [[echo], [.fixed "a", .fixed "2"]], [⟨.input, some file, none⟩]⟩) ∧
      parse "10>f" = .ok (.command ⟨[], [[.fixed "10"]], [⟨.truncate, none, some file⟩]⟩) ∧
      parse "10<f" = .ok (.command ⟨[], [[.fixed "10"]], [⟨.input, some file, none⟩]⟩) := by
  let echo : Source word := ⟨['e', 'c', 'h', 'o'], [.fixed "echo"], by decide +kernel⟩
  let f : Source word := ⟨['f'], [.fixed "f"], by decide +kernel⟩
  let number : Source word := ⟨['1', '0'], [.fixed "10"], by decide +kernel⟩
  let bare : Source word := ⟨['a', '2'], [.fixed "a2"], by decide +kernel⟩
  let quoted : Source word :=
    ⟨['\'', 'a', '\'', '2'], [.fixed "a", .fixed "2"], by decide +kernel⟩
  have hecho : ¬ BeginsAssignment echo.text := by
    rintro ⟨name, t, -, htext⟩
    have hmem : '=' ∈ echo.text := by simp [htext]
    exact absurd hmem (by decide)
  have hnumber : ¬ BeginsAssignment number.text := by
    rintro ⟨name, t, -, htext⟩
    have hmem : '=' ∈ number.text := by simp [htext]
    exact absurd hmem (by decide)
  have hdigits : ∀ x ∈ number.text, x.isDigit = true := by simp [number]
  have hmixed : ¬ ∀ x ∈ bare.text, x.isDigit = true := by simp [bare]
  have hbare : ∀ x ∈ bare.text, isPathChar x = true := by simp [bare, isPathChar]
  have hquotation : ¬ ∀ x ∈ quoted.text, isPathChar x = true := by simp [quoted, isPathChar]
  have hten := word_before_operator echo number f
  have htwo := word_before_operator echo bare f
  have hquoted := word_before_operator echo quoted f
  exact ⟨((hten.1 hecho).1 .append (by decide)).1 hdigits (by decide),
    ((htwo.1 hecho).1 .truncate (by decide)).2 hmixed,
    (hten.1 hecho).2.1 hdigits (by decide),
    (htwo.1 hecho).2.2.1 hbare hmixed,
    (hquoted.1 hecho).2.2.2 hquotation,
    (hten.2 hnumber).1 .truncate (by decide),
    (hten.2 hnumber).2⟩

end LineShell
