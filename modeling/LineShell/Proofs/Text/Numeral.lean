import LineShell.Parser.Line
import LineShell.Proofs.Text.Span
import Mathlib.Algebra.Group.Nat.Defs

/-!
# Runs of digits as numbers

A run of digit characters is a number if all of them are decimal digits and there are not too
many.  Every number with few enough digits is read from its decimal digits, in any of the
scripts that have them.
-/

namespace LineShell

/-! ## Digits of numbers -/

def decimalDigits (n : Nat) : List Nat :=
  if n < 10 then [n] else decimalDigits (n / 10) ++ [n % 10]
termination_by n
decreasing_by omega

theorem decimalDigits_ne_nil (n : Nat) : decimalDigits n ≠ [] := by
  rw [decimalDigits]
  split <;> simp

theorem lt_of_mem_decimalDigits {n d : Nat} (h : d ∈ decimalDigits n) : d < 10 := by
  fun_induction decimalDigits n with
  | case1 n hn =>
    rw [List.mem_singleton] at h
    omega
  | case2 n _ ih =>
    rcases List.mem_append.mp h with h | h
    · exact ih h
    · rw [List.mem_singleton] at h
      omega

theorem length_decimalDigits_le {n k : Nat} (h : n < 10 ^ (k + 1)) :
    (decimalDigits n).length ≤ k + 1 := by
  induction k generalizing n with
  | zero =>
    have hn : n < 10 := by simpa using h
    rw [decimalDigits, if_pos hn]
    simp
  | succ k ih =>
    rw [decimalDigits]
    split
    · simp
    · have hdiv : n / 10 < 10 ^ (k + 1) := by
        rw [Nat.pow_succ] at h
        exact Nat.div_lt_of_lt_mul (by omega)
      have hlength := ih hdiv
      simp only [List.length_append, List.length_singleton]
      omega

namespace Numeral

theorem value_concat (ds : List Nat) (d : Nat) : value (ds ++ [d]) = 10 * value ds + d := by
  simp [value, List.foldl_append]

theorem value_decimalDigits (n : Nat) : value (decimalDigits n) = n := by
  fun_induction decimalDigits n with
  | case1 n => simp [value]
  | case2 n _ ih =>
    rw [value_concat, ih]
    omega

theorem value_lt_from {ds : List Nat} (h : ∀ d ∈ ds, d < 10) (n : Nat) :
    ds.foldl (fun n d => 10 * n + d) n < (n + 1) * 10 ^ ds.length := by
  induction ds generalizing n with
  | nil => simp
  | cons d ds ih =>
    have hd : d < 10 := h d List.mem_cons_self
    have hrest := ih (fun e he => h e (List.mem_cons_of_mem d he)) (10 * n + d)
    have hscale : (10 * n + d + 1) * 10 ^ ds.length ≤ ((n + 1) * 10) * 10 ^ ds.length :=
      Nat.mul_le_mul_right _ (by omega)
    rw [List.foldl_cons, List.length_cons, Nat.pow_succ', ← Nat.mul_assoc]
    omega

theorem value_lt {ds : List Nat} (h : ∀ d ∈ ds, d < 10) : value ds < 10 ^ ds.length := by
  have := value_lt_from h 0
  simpa [value] using this

/-! ## Runs of digits -/

theorem not_isBlank_of_isDigitChar {c : Char} (h : isDigitChar c = true) : isBlank c = false := by
  have hblanks : ∀ b ∈ blanks, isDigitChar (Char.ofNat b) = false := by decide +kernel
  cases hc : isBlank c with
  | false => rfl
  | true =>
    have hmem : c.toNat ∈ blanks := by simpa [isBlank] using hc
    have hdigit := hblanks c.toNat hmem
    rw [Char.ofNat_toNat, h] at hdigit
    exact absurd hdigit (by decide)

theorem splitSign_of_digit {c : Char} (h : isDigitChar c = true) (t : List Char) :
    splitSign (c :: t) = (false, c :: t) := by
  unfold splitSign
  split
  · next heq =>
    obtain ⟨rfl, -⟩ := List.cons.inj heq
    exact absurd h (by decide)
  · next heq =>
    obtain ⟨rfl, -⟩ := List.cons.inj heq
    exact absurd h (by decide)
  · rfl

theorem isBodyChar_of_isDigitChar {c : Char} (h : isDigitChar c = true) :
    isBodyChar c = (decimalValue? c).isSome := by
  have hc : c ≠ '_' := by
    rintro rfl
    exact absurd h (by decide)
  simp [isBodyChar, hc]

theorem wellGrouped_of_digits {body : List Char} (h : ∀ c ∈ body, isDigitChar c = true) :
    wellGrouped body = !body.isEmpty := by
  have hmem : '_' ∉ body := fun hmem => absurd (h '_' hmem) (by decide)
  simp [wellGrouped, List.splitOn_eq_singleton hmem]

/-- All the digits are digits of positional numbers, and there are not too many of them. -/
def Fits (run : List Char) : Prop :=
  (∀ c ∈ run, (decimalValue? c).isSome = true) ∧ run.length ≤ maxDigits

theorem length_filterMap_decimalValue? {run : List Char}
    (h : ∀ c ∈ run, (decimalValue? c).isSome = true) :
    (run.filterMap decimalValue?).length = run.length :=
  List.filterMap_length_eq_length.mpr h

theorem read_of_fits {run : List Char} (hne : run ≠ [])
    (hrun : ∀ c ∈ run, isDigitChar c = true) (h : Fits run) :
    read (String.ofList run) = .ok (value (run.filterMap decimalValue?)) := by
  obtain ⟨c, t, rfl⟩ := List.exists_cons_of_ne_nil hne
  have hc := hrun c List.mem_cons_self
  have hbody : ∀ d ∈ c :: t, isBodyChar d = true := by
    intro d hd
    rw [isBodyChar_of_isDigitChar (hrun d hd)]
    exact h.1 d hd
  have hlength : ¬ maxDigits < ((c :: t).filterMap decimalValue?).length := by
    rw [length_filterMap_decimalValue? h.1]
    exact Nat.not_lt.mpr h.2
  have hskip : (c :: t).dropWhile isBlank = c :: t := by
    simp [not_isBlank_of_isDigitChar hc]
  have htake : (c :: t).takeWhile isBodyChar = c :: t := by
    simpa using takeWhile_append_of_stops hbody (stops_nil isBodyChar)
  have hdrop : (c :: t).dropWhile isBodyChar = [] := by
    simpa using dropWhile_append_of_stops hbody (stops_nil isBodyChar)
  simp only [read, String.toList_ofList, hskip, splitSign_of_digit hc, htake, hdrop,
    wellGrouped_of_digits hrun, hlength]
  simp

theorem read_of_not_fits {run : List Char} (hne : run ≠ [])
    (hrun : ∀ c ∈ run, isDigitChar c = true) (h : ¬ Fits run) :
    ∃ error, read (String.ofList run) = .error error := by
  obtain ⟨c, t, rfl⟩ := List.exists_cons_of_ne_nil hne
  have hc := hrun c List.mem_cons_self
  have hskip : (c :: t).dropWhile isBlank = c :: t := by
    simp [not_isBlank_of_isDigitChar hc]
  simp only [read, String.toList_ofList, hskip, splitSign_of_digit hc]
  split
  · exact ⟨_, rfl⟩
  · split
    · exact ⟨_, rfl⟩
    · next hlength =>
      split
      · exact ⟨_, rfl⟩
      · next hblank =>
        -- no digit is left behind the body, since it would have to be a blank
        have hdrop : (c :: t).dropWhile isBodyChar = [] := by
          cases hrest : (c :: t).dropWhile isBodyChar with
          | nil => rfl
          | cons d u =>
            have hd : d ∈ c :: t :=
              (List.dropWhile_suffix isBodyChar).subset (hrest ▸ List.mem_cons_self)
            have := not_isBlank_of_isDigitChar (hrun d hd)
            simp [hrest, this] at hblank
        have htake : (c :: t).takeWhile isBodyChar = c :: t := by
          have happend := List.takeWhile_append_dropWhile (p := isBodyChar) (l := c :: t)
          rwa [hdrop, List.append_nil] at happend
        have hdecimal : ∀ d ∈ c :: t, (decimalValue? d).isSome = true := by
          intro d hd
          rw [← isBodyChar_of_isDigitChar (hrun d hd)]
          rw [← htake] at hd
          exact List.mem_takeWhile_imp hd
        rw [htake, length_filterMap_decimalValue? hdecimal] at hlength
        exact absurd ⟨hdecimal, Nat.not_lt.mp hlength⟩ h

end Numeral

namespace Parser

/-- A run of digit characters, decimal or not. -/
def IsDigitRun (run : List Char) : Prop :=
  run ≠ [] ∧ ∀ c ∈ run, isDigitChar c = true

theorem descriptorNumber_eq_ok_iff {run : List Char} {n : Nat} (hrun : IsDigitRun run) :
    descriptorNumber run = .ok n ↔
      Numeral.Fits run ∧ n = Numeral.value (run.filterMap decimalValue?) := by
  by_cases hfits : Numeral.Fits run
  · have hread := Numeral.read_of_fits hrun.1 hrun.2 hfits
    simp [descriptorNumber, hread, hfits, eq_comm]
  · obtain ⟨error, hread⟩ := Numeral.read_of_not_fits hrun.1 hrun.2 hfits
    simp [descriptorNumber, hread, hfits]

/-- A run of digits that is not a number fails for good. -/
theorem descriptorNumber_fails_iff {run : List Char} (hrun : IsDigitRun run) :
    (∃ error, descriptorNumber run = .error (.numeral error)) ↔ ¬ Numeral.Fits run := by
  constructor
  · rintro ⟨error, h⟩ hfits
    rw [(descriptorNumber_eq_ok_iff hrun).mpr ⟨hfits, rfl⟩] at h
    simp at h
  · intro hfits
    obtain ⟨error, hread⟩ := Numeral.read_of_not_fits hrun.1 hrun.2 hfits
    exact ⟨error, by rw [descriptorNumber, hread]⟩

theorem length_decimalDigits_of_descriptorNumber {run : List Char} {n : Nat}
    (hrun : IsDigitRun run) (h : descriptorNumber run = .ok n) :
    (decimalDigits n).length ≤ Numeral.maxDigits := by
  obtain ⟨hfits, rfl⟩ := (descriptorNumber_eq_ok_iff hrun).mp h
  have hdigits : ∀ d ∈ run.filterMap decimalValue?, d < 10 := by
    intro d hd
    obtain ⟨c, -, hc⟩ := List.mem_filterMap.mp hd
    exact decimalValue?_lt hc
  have hvalue := Numeral.value_lt hdigits
  rw [Numeral.length_filterMap_decimalValue? hfits.1] at hvalue
  obtain ⟨k, hk⟩ : ∃ k, run.length = k + 1 :=
    Nat.exists_eq_succ_of_ne_zero (by simpa using hrun.1)
  rw [hk] at hvalue
  have hlength := length_decimalDigits_le hvalue
  have hmax := hfits.2
  omega

end Parser

/-! ## Written numbers -/

inductive Script where
  | ascii
  | arabicIndic
  deriving DecidableEq

def Script.zero : Script → Nat
  | .ascii => 0x30
  | .arabicIndic => 0x660

def Script.digit (script : Script) (d : Nat) : Char :=
  Char.ofNat (script.zero + d)

def Script.numeral (script : Script) (n : Nat) : List Char :=
  (decimalDigits n).map script.digit

theorem Script.decimalValue?_digit (script : Script) {d : Nat} (hd : d < 10) :
    decimalValue? (script.digit d) = some d := by
  have hdigits : ∀ e < 10, decimalValue? (script.digit e) = some e := by
    cases script <;> decide
  exact hdigits d hd

namespace Script

variable {script : Script}

theorem decimalValue?_of_mem_numeral {n : Nat} {c : Char} (h : c ∈ script.numeral n) :
    (decimalValue? c).isSome = true := by
  obtain ⟨d, hd, rfl⟩ := List.mem_map.mp h
  rw [script.decimalValue?_digit (lt_of_mem_decimalDigits hd)]
  rfl

theorem isDigitRun_numeral (script : Script) (n : Nat) : Parser.IsDigitRun (script.numeral n) := by
  constructor
  · simpa [numeral] using decimalDigits_ne_nil n
  · intro c hc
    obtain ⟨d, hd⟩ := Option.isSome_iff_exists.mp (decimalValue?_of_mem_numeral hc)
    exact isDigitChar_of_decimalValue? hd

theorem filterMap_numeral (script : Script) (n : Nat) :
    (script.numeral n).filterMap decimalValue? = decimalDigits n := by
  have hdigits : ∀ ds : List Nat, (∀ d ∈ ds, d < 10) →
      (ds.map script.digit).filterMap decimalValue? = ds := by
    intro ds hds
    induction ds with
    | nil => rfl
    | cons d ds ih =>
      have hd := script.decimalValue?_digit (hds d List.mem_cons_self)
      rw [List.map_cons, List.filterMap_cons_some hd,
        ih fun e he => hds e (List.mem_cons_of_mem d he)]
  exact hdigits _ fun d hd => lt_of_mem_decimalDigits hd

theorem descriptorNumber_numeral (script : Script) {n : Nat}
    (h : (decimalDigits n).length ≤ Numeral.maxDigits) :
    Parser.descriptorNumber (script.numeral n) = .ok n := by
  rw [Parser.descriptorNumber_eq_ok_iff (isDigitRun_numeral script n), filterMap_numeral,
    Numeral.value_decimalDigits]
  refine ⟨⟨fun c hc => decimalValue?_of_mem_numeral hc, ?_⟩, rfl⟩
  rw [numeral, List.length_map]
  exact h

end Script

end LineShell
