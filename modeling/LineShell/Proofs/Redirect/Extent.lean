import LineShell.Proofs.Text.Numeral
import LineShell.Proofs.Word.Extent

/-!
# Where redirects end

A redirect is written as an operand that may be missing, an operator, and another operand that
may be missing.  Here the forms of operands are described by their texts, as those of fragments
are, and it is shown up to where a redirect is read.  That depends on the operand behind the
operator: a file ends where its word ends, a descriptor behind its digits, and a missing operand
is only missing if nothing that could be one follows the blanks.
-/

namespace LineShell

/-! ## Operands by their side -/

def Redirect.left (d : Redirect) : Option Operand :=
  match d.kind with
  | .input => d.target
  | .truncate | .append => d.source

def Redirect.right (d : Redirect) : Option Operand :=
  match d.kind with
  | .input => d.source
  | .truncate | .append => d.target

namespace Parser

@[simp] theorem kind_makeRedirect (kind : RedirectKind) (left right : Option Operand) :
    (makeRedirect kind left right).kind = kind := by
  cases kind <;> rfl

@[simp] theorem left_makeRedirect (kind : RedirectKind) (left right : Option Operand) :
    (makeRedirect kind left right).left = left := by
  cases kind <;> rfl

@[simp] theorem right_makeRedirect (kind : RedirectKind) (left right : Option Operand) :
    (makeRedirect kind left right).right = right := by
  cases kind <;> rfl

theorem makeRedirect_left_right (d : Redirect) : makeRedirect d.kind d.left d.right = d := by
  obtain ⟨kind, source, target⟩ := d
  cases kind <;> rfl

/-! ## Operators -/

theorem redirectKind_eq_ok_iff {s u : List Char} {kind : RedirectKind} :
    redirectKind s = .ok (kind, u) ↔
      s = kind.symbol.toList ++ u ∧ (kind = .truncate → u.head? ≠ some '>') := by
  constructor
  · intro h
    unfold redirectKind at h
    split at h
    · simp only [Except.ok.injEq, Prod.mk.injEq] at h
      obtain ⟨rfl, rfl⟩ := h
      exact ⟨rfl, by simp⟩
    · next t hsingle =>
      simp only [Except.ok.injEq, Prod.mk.injEq] at h
      obtain ⟨rfl, rfl⟩ := h
      refine ⟨rfl, fun _ hhead => ?_⟩
      obtain ⟨v, hv⟩ := List.head?_eq_some_iff.mp hhead
      exact hsingle v hv
    · simp only [Except.ok.injEq, Prod.mk.injEq] at h
      obtain ⟨rfl, rfl⟩ := h
      exact ⟨rfl, by simp⟩
    · simp [mismatch] at h
  · rintro ⟨rfl, hsingle⟩
    cases kind with
    | input => rfl
    | append => rfl
    | truncate =>
      have hu : ∀ v, u ≠ '>' :: v := by
        rintro v rfl
        exact hsingle rfl rfl
      rw [show RedirectKind.truncate.symbol.toList ++ u = '>' :: u from rfl, redirectKind]
      exact hu

theorem redirectKind_mismatches {s : List Char} (h : startsOperator s = false) :
    Production.Mismatches redirectKind s := by
  refine ⟨⟨.redirectOperator, s⟩, ?_⟩
  cases s with
  | nil => rfl
  | cons c t =>
    have hc : c ≠ '<' ∧ c ≠ '>' := by simpa [startsOperator] using h
    simp [redirectKind, hc, mismatch]

theorem startsOperator_symbol (kind : RedirectKind) (u : List Char) :
    startsOperator (kind.symbol.toList ++ u) = true := by
  cases kind <;> rfl

theorem exists_operator {s : List Char} (h : startsOperator s = true) :
    ∃ c t, s = c :: t ∧ (c = '<' ∨ c = '>') := by
  cases s with
  | nil => simp [startsOperator] at h
  | cons c t => exact ⟨c, t, rfl, by simpa [startsOperator] using h⟩

theorem stops_of_startsOperator {p : Char → Bool} (hin : p '<' = false) (hout : p '>' = false)
    {s : List Char} (h : startsOperator s = true) : Stops p s := by
  obtain ⟨c, t, rfl, rfl | rfl⟩ := exists_operator h
  · exact stops_cons.mpr hin
  · exact stops_cons.mpr hout

/-! ## Operands before an operator -/

inductive LeftText : List Char → Option Operand → Prop where
  | none : LeftText [] none
  | descriptor {run : List Char} {n : Nat} (hrun : IsDigitRun run)
      (hn : descriptorNumber run = .ok n) : LeftText run (some (.descriptor n))
  | file {p : List Char} (hne : p ≠ []) (hp : ∀ c ∈ p, isPathChar c = true)
      (hdigit : ∃ c ∈ p, isDigitChar c = false) : LeftText p (some (.file (pathWord p)))

theorem leftOperand_of_digitRun {run t : List Char} (hrun : IsDigitRun run)
    (ht : startsOperator t = true) :
    leftOperand (run ++ t) =
      match descriptorNumber run with
      | .error failure => .error failure
      | .ok n => .ok (some (.descriptor n), t) := by
  have hstop : Stops isDigitChar t := stops_of_startsOperator (by decide) (by decide) ht
  have htake : (run ++ t).takeWhile isDigitChar = run := takeWhile_append_of_stops hrun.2 hstop
  have hdrop : (run ++ t).dropWhile isDigitChar = t := dropWhile_append_of_stops hrun.2 hstop
  have hne : run.isEmpty = false := by simpa using hrun.1
  cases hnumber : descriptorNumber run with
  | error failure => simp [leftOperand, htake, hdrop, hne, ht, hnumber]
  | ok n => simp [leftOperand, htake, hdrop, hne, ht, hnumber]

theorem leftOperand_of_not_descriptor {s : List Char}
    (h : s.takeWhile isDigitChar = [] ∨ startsOperator (s.dropWhile isDigitChar) = false) :
    leftOperand s = Production.optional (Production.map Operand.file path) s := by
  have hcond : (!(s.takeWhile isDigitChar).isEmpty && startsOperator (s.dropWhile isDigitChar)) =
      false := by
    rcases h with h | h <;> simp [h]
  simp only [leftOperand, hcond, Bool.false_eq_true, ↓reduceIte]

theorem startsOperator_dropWhile_append {p : Char → Bool} {w t : List Char}
    (hw : ∃ c ∈ w, p c = false) (hop : ∀ c ∈ w, c ≠ '<' ∧ c ≠ '>') :
    startsOperator ((w ++ t).dropWhile p) = false := by
  induction w with
  | nil => simp at hw
  | cons c w ih =>
    cases hc : p c with
    | true =>
      have hrest : ∃ d ∈ w, p d = false := by
        obtain ⟨d, hd, hpd⟩ := hw
        rcases List.mem_cons.mp hd with rfl | hd
        · rw [hc] at hpd
          exact absurd hpd (by decide)
        · exact ⟨d, hd, hpd⟩
      simpa [hc] using ih hrest fun d hd => hop d (List.mem_cons_of_mem c hd)
    | false =>
      have hne := hop c List.mem_cons_self
      simp [hc, startsOperator, hne]

theorem ne_operator_of_isPathChar {c : Char} (h : isPathChar c = true) : c ≠ '<' ∧ c ≠ '>' := by
  constructor <;> rintro rfl <;> exact absurd h (by decide)

theorem optional_path_eq_ok_iff {s t : List Char} {left : Option Operand} :
    Production.optional (Production.map Operand.file path) s = .ok (left, t) ↔
      (left = none ∧ s = t ∧ Stops isPathChar s) ∨
        ∃ p, p ≠ [] ∧ (∀ c ∈ p, isPathChar c = true) ∧ left = some (.file (pathWord p)) ∧
          s = p ++ t ∧ Stops isPathChar t := by
  constructor
  · intro h
    cases hpath : path s with
    | error failure =>
      have hstop : Stops isPathChar s := by
        cases s with
        | nil => exact stops_nil _
        | cons c r =>
          cases hc : isPathChar c with
          | true => simp [path, hc] at hpath
          | false => exact stops_cons.mpr hc
      have hnone : left = none ∧ s = t := by
        simpa [Production.optional, Production.map, path_of_stops hstop, mismatch, eq_comm] using h
      exact Or.inl ⟨hnone.1, hnone.2, hstop⟩
    | ok reading =>
      obtain ⟨v, r⟩ := reading
      obtain ⟨p, hne, hp, rfl, rfl, hr⟩ := path_eq_ok_iff.mp hpath
      have hsome : some (Operand.file (pathWord p)) = left ∧ r = t := by
        simpa [Production.optional, Production.map, hpath] using h
      obtain ⟨rfl, rfl⟩ := hsome
      exact Or.inr ⟨p, hne, hp, rfl, rfl, hr⟩
  · rintro (⟨rfl, rfl, hstop⟩ | ⟨p, hne, hp, rfl, rfl, ht⟩)
    · simp [Production.optional, Production.map, path_of_stops hstop, mismatch]
    · have hpath : path (p ++ t) = .ok (pathWord p, t) :=
        path_eq_ok_iff.mpr ⟨p, hne, hp, rfl, rfl, ht⟩
      simp [Production.optional, Production.map, hpath]

theorem digitRun_or_not_descriptor (s : List Char) :
    (∃ run t, s = run ++ t ∧ IsDigitRun run ∧ Stops isDigitChar t ∧ startsOperator t = true) ∨
      s.takeWhile isDigitChar = [] ∨ startsOperator (s.dropWhile isDigitChar) = false := by
  by_cases hnil : s.takeWhile isDigitChar = []
  · exact Or.inr (Or.inl hnil)
  · cases hop : startsOperator (s.dropWhile isDigitChar) with
    | false => exact Or.inr (Or.inr rfl)
    | true =>
      exact Or.inl ⟨_, _, List.takeWhile_append_dropWhile.symm,
        ⟨hnil, fun _ => List.mem_takeWhile_imp⟩, stops_dropWhile isDigitChar s, hop⟩

theorem leftOperand_eq_ok_iff {s t : List Char} {left : Option Operand}
    (ht : startsOperator t = true) :
    leftOperand s = .ok (left, t) ↔ ∃ w, LeftText w left ∧ s = w ++ t := by
  have hdigit : Stops isDigitChar t := stops_of_startsOperator (by decide) (by decide) ht
  have hpath : Stops isPathChar t := stops_of_startsOperator (by decide) (by decide) ht
  constructor
  · intro h
    rcases digitRun_or_not_descriptor s with ⟨run, u, rfl, hrun, -, hu⟩ | hnot
    · rw [leftOperand_of_digitRun hrun hu] at h
      split at h
      · simp at h
      · next n hn =>
        simp only [Except.ok.injEq, Prod.mk.injEq] at h
        rcases h with ⟨rfl, rfl⟩
        exact ⟨run, .descriptor hrun hn, rfl⟩
    · rw [leftOperand_of_not_descriptor hnot] at h
      rcases optional_path_eq_ok_iff.mp h with ⟨rfl, rfl, -⟩ | ⟨p, hne, hp, rfl, rfl, -⟩
      · exact ⟨[], .none, rfl⟩
      · rcases forall_or_exists isDigitChar p with hdigits | hmixed
        · -- a run of digits alone would have been a descriptor
          rw [takeWhile_append_of_stops hdigits hdigit,
            dropWhile_append_of_stops hdigits hdigit, ht] at hnot
          rcases hnot with hnil | hop
          · exact absurd hnil hne
          · exact absurd hop (by decide)
        · exact ⟨p, .file hne hp hmixed, rfl⟩
  · rintro ⟨w, hw, rfl⟩
    cases hw with
    | none =>
      have hnot : t.takeWhile isDigitChar = [] := hdigit.takeWhile_eq_nil
      rw [List.nil_append, leftOperand_of_not_descriptor (Or.inl hnot)]
      exact optional_path_eq_ok_iff.mpr (Or.inl ⟨rfl, rfl, hpath⟩)
    | descriptor hrun hn => rw [leftOperand_of_digitRun hrun ht, hn]
    | file hne hp hmixed =>
      have hop : startsOperator ((w ++ t).dropWhile isDigitChar) = false :=
        startsOperator_dropWhile_append hmixed fun c hc => ne_operator_of_isPathChar (hp c hc)
      rw [leftOperand_of_not_descriptor (Or.inr hop)]
      exact optional_path_eq_ok_iff.mpr (Or.inr ⟨w, hne, hp, rfl, rfl, hpath⟩)

/-! ## Operands behind an operator -/

/-- Nothing that could be an operand behind an operator. -/
def NoOperand (s : List Char) : Prop :=
  s.head? ≠ some '&' ∧ Stops isFragmentStart s

def EndsOperand : Operand → List Char → Prop
  | .file _, r => EndsWord r
  | .descriptor _, r => Stops isDigitChar r

theorem rightOperand_of_noOperand {s : List Char} (h : NoOperand s) :
    rightOperand s = .ok (none, s) := by
  obtain ⟨fault, hfault⟩ := word_mismatches h.2
  have hoptional : Production.optional (Production.map Operand.file word) s = .ok (none, s) := by
    simp [Production.optional, Production.map, hfault]
  cases s with
  | nil => exact hoptional
  | cons c t =>
    have hc : c ≠ '&' := by simpa using h.1
    simp [rightOperand, hc, hoptional]

theorem rightOperand_ampersand {run r : List Char} (hrun : IsDigitRun run)
    (hr : Stops isDigitChar r) :
    rightOperand ('&' :: (run ++ r)) =
      match descriptorNumber run with
      | .error failure => .error failure
      | .ok n => .ok (some (.descriptor n), r) := by
  have htake : (run ++ r).takeWhile isDigitChar = run := takeWhile_append_of_stops hrun.2 hr
  have hdrop : (run ++ r).dropWhile isDigitChar = r := dropWhile_append_of_stops hrun.2 hr
  have hne : run.isEmpty = false := by simpa using hrun.1
  cases hnumber : descriptorNumber run with
  | error failure => simp [rightOperand, htake, hne, hnumber]
  | ok n => simp [rightOperand, htake, hdrop, hne, hnumber]

theorem rightOperand_of_word {s r : List Char} {v : Word} (h : word s = .ok (v, r)) :
    rightOperand s = .ok (some (.file v), r) := by
  obtain ⟨c, t, rfl, hc⟩ := word_head h
  have hamp : c ≠ '&' := by
    rintro rfl
    exact absurd hc (by decide)
  simp [rightOperand, hamp, Production.optional, Production.map, h]

theorem rightOperand_ok {s r : List Char} {right : Option Operand}
    (h : rightOperand s = .ok (right, r)) :
    (right = none ∧ s = r ∧ s.head? ≠ some '&' ∧ Production.Mismatches word s) ∨
      (∃ run n, IsDigitRun run ∧ descriptorNumber run = .ok n ∧
        right = some (.descriptor n) ∧ s = '&' :: (run ++ r) ∧ Stops isDigitChar r) ∨
      ∃ v, right = some (.file v) ∧ word s = .ok (v, r) := by
  unfold rightOperand at h
  split at h
  · next t =>
    simp only at h
    split at h
    · simp [rejection] at h
    · next hne =>
      split at h
      · simp at h
      · next n hn =>
        simp only [Except.ok.injEq, Prod.mk.injEq] at h
        obtain ⟨rfl, rfl⟩ := h
        have hrun : IsDigitRun (t.takeWhile isDigitChar) :=
          ⟨by simpa using hne, fun _ => List.mem_takeWhile_imp⟩
        refine Or.inr (Or.inl ⟨_, n, hrun, hn, rfl, ?_, stops_dropWhile isDigitChar t⟩)
        rw [List.takeWhile_append_dropWhile]
  · next hamp =>
    cases hword : word s with
    | error failure =>
      cases failure with
      | mismatch fault =>
        have hnone : right = none ∧ s = r := by
          simpa [Production.optional, Production.map, hword, eq_comm] using h
        refine Or.inl ⟨hnone.1, hnone.2, ?_, fault, hword⟩
        intro hhead
        obtain ⟨t, ht⟩ := List.head?_eq_some_iff.mp hhead
        exact hamp t ht
      | rejection fault => simp [Production.optional, Production.map, hword] at h
      | numeral error => simp [Production.optional, Production.map, hword] at h
    | ok reading =>
      obtain ⟨v, u⟩ := reading
      have hsome : some (Operand.file v) = right ∧ u = r := by
        simpa [Production.optional, Production.map, hword] using h
      obtain ⟨rfl, rfl⟩ := hsome
      exact Or.inr (Or.inr ⟨v, rfl, rfl⟩)

/-! ## Redirects -/

/-- Bare words before an operator other than `<` are no operands. -/
def LeftFits (kind : RedirectKind) (left : Option Operand) : Prop :=
  left.any Operand.isFile = true → kind = .input

/-- The operand behind an operator, where `u` is behind the operator and `r` behind the
redirect. -/
def ReadsRight (u : List Char) (right : Option Operand) (r : List Char) : Prop :=
  (right = none ∧ rightOperand (skipBlanks u) = .ok (none, skipBlanks u) ∧ r = u) ∨
    ∃ operand, right = some operand ∧ rightOperand (skipBlanks u) = .ok (some operand, r)

theorem redirect_of_left {w u : List Char} {left : Option Operand} {kind : RedirectKind}
    (hw : LeftText w left) (hfits : LeftFits kind left)
    (hu : kind = .truncate → u.head? ≠ some '>') :
    redirect (w ++ (kind.symbol.toList ++ u)) =
      match rightOperand (skipBlanks u) with
      | .error failure => .error failure
      | .ok (none, _) => .ok (makeRedirect kind left none, u)
      | .ok (some right, r) => .ok (makeRedirect kind left (some right), r) := by
  have hop : startsOperator (kind.symbol.toList ++ u) = true := startsOperator_symbol kind u
  have hleft : leftOperand (w ++ (kind.symbol.toList ++ u)) =
      .ok (left, kind.symbol.toList ++ u) := (leftOperand_eq_ok_iff hop).mpr ⟨w, hw, rfl⟩
  have hkind : redirectKind (kind.symbol.toList ++ u) = .ok (kind, u) :=
    redirectKind_eq_ok_iff.mpr ⟨rfl, hu⟩
  have hcond : (left.any Operand.isFile && kind != .input) = false := by
    cases hany : left.any Operand.isFile with
    | false => rfl
    | true => simp [hfits hany]
  cases hright : rightOperand (skipBlanks u) with
  | error failure => simp [redirect, hleft, hkind, hcond, hright]
  | ok reading =>
    rcases reading with ⟨_ | right, r⟩
    · simp [redirect, hleft, hkind, hcond, hright]
    · simp [redirect, hleft, hkind, hcond, hright]

theorem redirect_eq_ok_iff {s r : List Char} {d : Redirect} :
    redirect s = .ok (d, r) ↔
      ∃ w u, LeftText w d.left ∧ LeftFits d.kind d.left ∧
        s = w ++ (d.kind.symbol.toList ++ u) ∧ (d.kind = .truncate → u.head? ≠ some '>') ∧
        ReadsRight u d.right r := by
  constructor
  · intro h
    cases hleft : leftOperand s with
    | error failure => simp [redirect, hleft] at h
    | ok reading =>
      obtain ⟨left, t⟩ := reading
      cases hkind : redirectKind t with
      | error failure => simp [redirect, hleft, hkind] at h
      | ok reading =>
        obtain ⟨kind, u⟩ := reading
        obtain ⟨rfl, hu⟩ := redirectKind_eq_ok_iff.mp hkind
        obtain ⟨w, hw, rfl⟩ := (leftOperand_eq_ok_iff (startsOperator_symbol kind u)).mp hleft
        have hfits : LeftFits kind left := by
          intro hany
          cases kind <;> simp [redirect, hleft, hkind, hany, mismatch] at h ⊢
        rw [redirect_of_left hw hfits hu] at h
        split at h
        · simp at h
        · next v hnone =>
          simp only [Except.ok.injEq, Prod.mk.injEq] at h
          obtain ⟨rfl, rfl⟩ := h
          have hv : skipBlanks u = v := by
            rcases rightOperand_ok hnone with ⟨-, hv, -⟩ | ⟨_, _, _, _, h, _⟩ | ⟨_, h, _⟩
            · exact hv
            · simp at h
            · simp at h
          rw [← hv] at hnone
          refine ⟨w, u, ?_⟩
          simpa [hw, hfits, ReadsRight, hnone] using hu
        · next right v hsome =>
          simp only [Except.ok.injEq, Prod.mk.injEq] at h
          obtain ⟨rfl, rfl⟩ := h
          refine ⟨w, u, ?_⟩
          simpa [hw, hfits, ReadsRight, hsome] using hu
  · rintro ⟨w, u, hw, hfits, rfl, hu, ⟨hright, hread, rfl⟩ | ⟨operand, hright, hread⟩⟩
    · rw [redirect_of_left hw hfits hu, hread]
      simp only [← hright, makeRedirect_left_right]
    · rw [redirect_of_left hw hfits hu, hread]
      simp only [← hright, makeRedirect_left_right]

end Parser

open LineShell.Parser in
/-- What follows the redirect on its line does not become a part of it. -/
def Redirect.EndsBefore (d : Redirect) (r : List Char) : Prop :=
  match d.right with
  | some operand => EndsOperand operand r
  | none => (d.kind = .truncate → r.head? ≠ some '>') ∧ NoOperand (skipBlanks r)

namespace Parser

theorem isBlank_of_isFragmentStart {c : Char} (h : isFragmentStart c = true) :
    isBlank c = false := by
  cases hc : isBlank c with
  | false => rfl
  | true =>
    simp only [isBlank, Bool.or_eq_true, beq_iff_eq] at hc
    rcases hc with rfl | rfl <;> exact absurd h (by decide)

theorem skipBlanks_append_of_stops {gap s : List Char} (hgap : ∀ c ∈ gap, isBlank c = true)
    (hs : Stops isBlank s) : skipBlanks (gap ++ s) = s :=
  dropWhile_append_of_stops hgap hs

theorem rightOperand_extent {s r : List Char} {operand : Operand}
    (h : rightOperand s = .ok (some operand, r)) :
    ∃ w, s = w ++ r ∧ Solid w ∧ Stops isBlank w ∧
      ∀ r', EndsOperand operand r' → rightOperand (w ++ r') = .ok (some operand, r') := by
  rcases rightOperand_ok h with ⟨h, -⟩ | ⟨run, n, hrun, hn, hright, rfl, -⟩ | ⟨v, hright, hword⟩
  · simp at h
  · obtain rfl : operand = .descriptor n := by simpa using hright
    have hsolid : Solid run := solid_of_forall (by decide) hrun.1 hrun.2
    refine ⟨'&' :: run, rfl, hsolid.append_left ['&'], stops_cons.mpr (by decide), ?_⟩
    intro r' hr'
    rw [List.cons_append, rightOperand_ampersand hrun hr', hn]
  · obtain rfl : operand = .file v := by simpa using hright
    obtain ⟨c, t, hs, hc⟩ := word_head hword
    obtain ⟨w, rfl, hsolid, hread⟩ := word_extent hword
    refine ⟨w, rfl, hsolid, ?_, ?_⟩
    · cases w with
      | nil => exact absurd rfl hsolid.ne_nil
      | cons c' w =>
        obtain rfl : c' = c := (List.cons.inj hs).1
        exact stops_cons.mpr (isBlank_of_isFragmentStart hc)
    · intro r' hr'
      exact rightOperand_of_word (hread r' hr')

theorem symbol_solid (kind : RedirectKind) : Solid kind.symbol.toList := by
  cases kind
  · exact ⟨[], '<', rfl, by decide⟩
  · exact ⟨[], '>', rfl, by decide⟩
  · exact ⟨['>'], '>', rfl, by decide⟩

/-- What is read of a redirect does not depend on the text behind it. -/
theorem redirect_extent {s r : List Char} {d : Redirect} (h : redirect s = .ok (d, r)) :
    ∃ w, s = w ++ r ∧ Solid w ∧ ∀ r', d.EndsBefore r' → redirect (w ++ r') = .ok (d, r') := by
  obtain ⟨w, u, hw, hfits, rfl, hu, ⟨hright, -, rfl⟩ | ⟨operand, hright, hread⟩⟩ :=
    redirect_eq_ok_iff.mp h
  · refine ⟨w ++ d.kind.symbol.toList, (List.append_assoc _ _ _).symm,
      (symbol_solid d.kind).append_left w, ?_⟩
    intro r' hr'
    simp only [Redirect.EndsBefore, hright] at hr'
    rw [List.append_assoc]
    exact redirect_eq_ok_iff.mpr
      ⟨w, r', hw, hfits, rfl, hr'.1, Or.inl ⟨hright, rightOperand_of_noOperand hr'.2, rfl⟩⟩
  · obtain ⟨x, hx, hsolid, hblank, hextent⟩ := rightOperand_extent hread
    have hgap : ∀ c ∈ u.takeWhile isBlank, isBlank c = true := fun _ => List.mem_takeWhile_imp
    have hsplit : u = u.takeWhile isBlank ++ (x ++ r) := by
      rw [← hx]
      exact List.takeWhile_append_dropWhile.symm
    generalize u.takeWhile isBlank = gap at hgap hsplit
    subst hsplit
    refine ⟨w ++ (d.kind.symbol.toList ++ (gap ++ x)), by simp,
      ((hsolid.append_left gap).append_left _).append_left w, ?_⟩
    intro r' hr'
    simp only [Redirect.EndsBefore, hright] at hr'
    obtain ⟨c, x, rfl⟩ := List.exists_cons_of_ne_nil hsolid.ne_nil
    have hskip : skipBlanks (gap ++ (c :: x ++ r')) = c :: x ++ r' :=
      skipBlanks_append_of_stops hgap (stops_cons.mpr (stops_cons.mp hblank))
    have hhead : (gap ++ (c :: x ++ r')).head? = (gap ++ (c :: x ++ r)).head? := by
      cases gap <;> rfl
    have htext : w ++ (d.kind.symbol.toList ++ (gap ++ c :: x)) ++ r' =
        w ++ (d.kind.symbol.toList ++ (gap ++ (c :: x ++ r'))) := by simp
    rw [htext]
    refine redirect_eq_ok_iff.mpr ⟨w, _, hw, hfits, rfl, ?_, Or.inr ⟨operand, hright, ?_⟩⟩
    · rw [hhead]
      exact hu
    · rw [hskip]
      exact hextent r' hr'

/-- The characters with which a redirect can begin: those of its operator, and those of a
descriptor or a path before it. -/
def isRedirectStart (c : Char) : Bool :=
  c == '<' || c == '>' || isDigitChar c || isPathChar c

theorem isBlank_of_isRedirectStart {c : Char} (h : isRedirectStart c = true) :
    isBlank c = false := by
  cases hc : isBlank c with
  | false => rfl
  | true =>
    simp only [isBlank, Bool.or_eq_true, beq_iff_eq] at hc
    rcases hc with rfl | rfl <;> exact absurd h (by decide)

theorem redirect_head {s r : List Char} {d : Redirect} (h : redirect s = .ok (d, r)) :
    ∃ c t, s = c :: t ∧ isRedirectStart c = true := by
  rcases redirect_eq_ok_iff.mp h with ⟨w, u, hw, -, rfl, -, -⟩
  rcases exists_operator (startsOperator_symbol d.kind u) with ⟨c, t, ht, hc⟩
  generalize d.left = left at hw
  cases hw with
  | none =>
    refine ⟨c, t, ht, ?_⟩
    rcases hc with rfl | rfl <;> decide
  | descriptor hrun _ =>
    rcases List.exists_cons_of_ne_nil hrun.1 with ⟨e, x, rfl⟩
    exact ⟨e, _, rfl, by simp [isRedirectStart, hrun.2 e List.mem_cons_self]⟩
  | file hne hp _ =>
    rcases List.exists_cons_of_ne_nil hne with ⟨e, x, rfl⟩
    exact ⟨e, _, rfl, by simp [isRedirectStart, hp e List.mem_cons_self]⟩

/-- No redirect begins where neither a run of digits nor one of path characters leads to an
operator. -/
theorem redirect_mismatches {s : List Char}
    (hdigits : startsOperator (s.dropWhile isDigitChar) = false)
    (hpath : startsOperator (s.dropWhile isPathChar) = false) :
    Production.Mismatches redirect s := by
  have hleft := leftOperand_of_not_descriptor (Or.inr hdigits)
  have hread : ∃ left, leftOperand s = .ok (left, s.dropWhile isPathChar) := by
    rw [hleft]
    by_cases hnil : s.takeWhile isPathChar = []
    · refine ⟨none, optional_path_eq_ok_iff.mpr (Or.inl ⟨rfl, ?_, ?_⟩)⟩
      · exact (List.takeWhile_append_dropWhile (p := isPathChar)).symm.trans (by rw [hnil]; rfl)
      · cases s with
        | nil => exact stops_nil _
        | cons c t =>
          cases hc : isPathChar c with
          | true => simp [hc] at hnil
          | false => exact stops_cons.mpr hc
    · exact ⟨_, optional_path_eq_ok_iff.mpr (Or.inr ⟨_, hnil, fun _ => List.mem_takeWhile_imp, rfl,
        List.takeWhile_append_dropWhile.symm, stops_dropWhile isPathChar s⟩)⟩
  obtain ⟨left, hread⟩ := hread
  obtain ⟨fault, hfault⟩ := redirectKind_mismatches hpath
  exact ⟨fault, by simp [redirect, hread, hfault]⟩

end Parser

end LineShell
