import LineShell.Proofs.Parser.Bounds
import Mathlib.Data.List.Forall2

/-!
# Scanners

A production has what is left of the text for its input, and sees nothing else.  A scanner has the
whole text and a position in it.  It looks at single characters by their positions, compares
positions with the length of the text, and cuts out what stands between two of them.  Nothing in
this form keeps it from looking back, or from reading something else at another position.

The relation `Scans` ties a scanner to the production that reads the same.  Where both succeed, the
values are the same, and what is left for the production is what stands behind the position of the
scanner; where both fail, they fail alike, with the fault at the same place.  A scanner that is tied
to a production depends only on what stands behind its position (`Scans.shifts`), and it tells the
positions at which the production reads a text (`Scans.eq_readAt`).

The loops of scanners test whether a turn has gone forward in the text, as those of productions
test whether it has shortened their input.  No turn fails the test.
-/

namespace LineShell

/-- Reads a value at a position of a text, and tells the position behind it. -/
abbrev Scanner (α : Type) := List Char → Nat → Except ParseFailure (α × Nat)

def mismatchAt {α : Type} (expected : Expected) (i : Nat) : Except ParseFailure α :=
  .error (.mismatch expected i)

def rejectionAt {α : Type} (expected : Expected) (i : Nat) : Except ParseFailure α :=
  .error (.rejection expected i)

namespace Scanner

variable {α β : Type}

/-! ## Looking at the text -/

/-- The position behind a run of characters of a class. -/
def runEnd (p : Char → Bool) (text : List Char) (i : Nat) : Nat :=
  if h : i < text.length then
    if p text[i] then runEnd p text (i + 1) else i
  else i
termination_by text.length - i

/-- The line feed that ends the text stands here. -/
def atEnd (text : List Char) (i : Nat) : Bool :=
  i + 1 == text.length && text[i]? == some '\n'

/-- The text `w` stands here. -/
def holdsAt (text w : List Char) (i : Nat) : Bool :=
  text.extract i (i + w.length) == w

/-! ## Putting scanners together -/

def withValue (f : α → β) : Except ParseFailure (α × Nat) → Except ParseFailure (β × Nat)
  | .error failure => .error failure
  | .ok (v, j) => .ok (f v, j)

def map (f : α → β) (q : Scanner α) : Scanner β := fun text i =>
  withValue f (q text i)

def optional (q : Scanner α) : Scanner (Option α) := fun text i =>
  match q text i with
  | .error (.mismatch _ _) => .ok (none, i)
  | .error failure => .error failure
  | .ok (v, j) => .ok (some v, j)

def firstOf (expected : Expected) : List (Scanner α) → Scanner α
  | [], _, i => mismatchAt expected i
  | q :: qs, text, i =>
      match q text i with
      | .error (.mismatch _ _) => firstOf expected qs text i
      | result => result

/-- As many values as there are. -/
def many (q : Scanner α) (text : List Char) (i : Nat) : Except ParseFailure (List α × Nat) :=
  match q text i with
  | .error (.mismatch _ _) => .ok ([], i)
  | .error failure => .error failure
  | .ok (v, j) =>
      if text.length - j < text.length - i then withValue (v :: ·) (many q text j)
      else .ok ([v], j)
termination_by text.length - i

end Scanner

/-! ## What is left at a position -/

/-- At position `i` of the text, `s` is left of it. -/
structure Remains (text : List Char) (i : Nat) (s : List Char) : Prop where
  le_length : i ≤ text.length
  drop_eq : text.drop i = s

namespace Remains

variable {text s r w : List Char} {i j : Nat} {c : Char} {p : Char → Bool}

theorem append_length (front s : List Char) : Remains (front ++ s) front.length s :=
  ⟨by simp, List.drop_left⟩

theorem add_length (h : Remains text i s) : i + s.length = text.length := by
  rw [← h.drop_eq, List.length_drop, Nat.add_sub_cancel' h.le_length]

theorem getElem?_eq (h : Remains text i s) : text[i]? = s.head? := by
  rw [← h.drop_eq, List.head?_drop]

theorem behind (h : Remains text i (w ++ r)) : Remains text (i + w.length) r := by
  have hlength := h.add_length
  rw [List.length_append] at hlength
  exact ⟨by omega, drop_of_drop_eq h.drop_eq⟩

theorem tail (h : Remains text i (c :: s)) : Remains text (i + 1) s :=
  behind (w := [c]) h

/-- Positions are the same if what is left there is. -/
theorem eq_iff (h : Remains text i s) (h' : Remains text j r) : j = i ↔ r = s := by
  constructor
  · rintro rfl
    rw [← h.drop_eq, ← h'.drop_eq]
  · rintro rfl
    have := h.add_length
    have := h'.add_length
    omega

theorem length_sub_lt_iff (h : Remains text i s) (h' : Remains text j r) :
    text.length - j < text.length - i ↔ r.length < s.length := by
  have := h.add_length
  have := h'.add_length
  omega

theorem position_eq (h : Remains text i (w ++ r)) (h' : Remains text j r) :
    j = i + w.length := by
  have hlength := h.add_length
  have hlength' := h'.add_length
  rw [List.length_append] at hlength
  omega

/-- What stands between two positions. -/
theorem extract_eq (h : Remains text i (w ++ r)) (h' : Remains text j r) :
    text.extract i j = w := by
  rw [h.position_eq h']
  exact extract_of_drop_eq h.drop_eq

theorem holdsAt_eq (h : Remains text i s) (w : List Char) :
    Scanner.holdsAt text w i = w.isPrefixOf s := by
  rw [Scanner.holdsAt, List.extract_eq_take_drop, Nat.add_sub_cancel_left, h.drop_eq,
    Bool.eq_iff_iff, beq_iff_eq, List.isPrefixOf_iff_prefix, List.prefix_iff_eq_take, eq_comm]

theorem atEnd_iff (h : Remains text i s) : Scanner.atEnd text i = true ↔ s = ['\n'] := by
  have hlength := h.add_length
  rw [Scanner.atEnd, h.getElem?_eq]
  cases s with
  | nil => simp
  | cons c t =>
    rw [List.length_cons] at hlength
    have hlast : i + 1 = text.length ↔ t = [] := by
      rw [← List.length_eq_zero_iff]
      omega
    simp [hlast, and_comm]

theorem not_lt_length (h : Remains text i []) : ¬ i < text.length := by
  rw [← h.add_length]
  exact Nat.lt_irrefl i

theorem exists_getElem (h : Remains text i (c :: s)) : ∃ hlt : i < text.length, text[i] = c := by
  have hchar := h.getElem?_eq
  rwa [List.head?_cons, List.getElem?_eq_some_iff] at hchar

/-- A run ends behind the characters that are taken of what is left. -/
theorem runEnd_eq (h : Remains text i s) :
    Scanner.runEnd p text i = i + (s.takeWhile p).length := by
  induction s generalizing i with
  | nil =>
    rw [Scanner.runEnd, dif_neg h.not_lt_length]
    rfl
  | cons c t ih =>
    obtain ⟨hlt, rfl⟩ := h.exists_getElem
    rw [Scanner.runEnd, dif_pos hlt]
    split
    · next hp =>
      rw [ih h.tail, List.takeWhile_cons_of_pos hp, List.length_cons]
      omega
    · next hp => rw [List.takeWhile_cons_of_neg hp, List.length_nil, Nat.add_zero]

theorem runEnd_eq_self_iff (h : Remains text i s) :
    Scanner.runEnd p text i = i ↔ s.takeWhile p = [] := by
  rw [h.runEnd_eq, Nat.add_eq_left, List.length_eq_zero_iff]

theorem runEnd (h : Remains text i s) (p : Char → Bool) :
    Remains text (Scanner.runEnd p text i) (s.dropWhile p) := by
  rw [h.runEnd_eq]
  apply behind
  rwa [List.takeWhile_append_dropWhile]

theorem extract_runEnd (h : Remains text i s) (p : Char → Bool) :
    text.extract i (Scanner.runEnd p text i) = s.takeWhile p := by
  refine extract_eq ?_ (h.runEnd p)
  rwa [List.takeWhile_append_dropWhile]

end Remains

/-! ## The same reading -/

/-- The failure at this place of the input is the failure at this offset of the text. -/
inductive SameFailure (text : List Char) : Failure → ParseFailure → Prop where
  | mismatch {expected : Expected} {i : Nat} {s : List Char} (place : Remains text i s) :
      SameFailure text (.mismatch ⟨expected, s⟩) (.mismatch expected i)
  | rejection {expected : Expected} {i : Nat} {s : List Char} (place : Remains text i s) :
      SameFailure text (.rejection ⟨expected, s⟩) (.rejection expected i)
  | numeral (error : NumeralError) : SameFailure text (.numeral error) (.numeral error)

/-- The value is the same, and what is left of the input is what stands behind the position. -/
inductive SameReading {α : Type} (text : List Char) :
    Reading α → Except ParseFailure (α × Nat) → Prop where
  | ok {v : α} {j : Nat} {r : List Char} (place : Remains text j r) :
      SameReading text (.ok (v, r)) (.ok (v, j))
  | error {failure : Failure} {located : ParseFailure} (same : SameFailure text failure located) :
      SameReading text (.error failure) (.error located)

/-- Wherever the scanner stands, it reads what the production reads of the text that is left. -/
def Scans {α : Type} (q : Scanner α) (p : Production α) : Prop :=
  ∀ ⦃text s : List Char⦄ ⦃i : Nat⦄, Remains text i s → SameReading text (p s) (q text i)

section SameReading

variable {α β : Type} {text s : List Char} {i : Nat}

theorem sameReading_mismatch (expected : Expected) (h : Remains text i s) :
    SameReading text (mismatch expected s : Reading α) (mismatchAt expected i) :=
  .error (.mismatch h)

theorem sameReading_rejection (expected : Expected) (h : Remains text i s) :
    SameReading text (rejection expected s : Reading α) (rejectionAt expected i) :=
  .error (.rejection h)

theorem SameReading.map {p : Production α} {result : Except ParseFailure (α × Nat)}
    (h : SameReading text (p s) result) (f : α → β) :
    SameReading text (Production.map f p s) (Scanner.withValue f result) := by
  unfold Production.map
  generalize p s = reading at h
  cases h with
  | ok hj => exact .ok hj
  | error hfailure => exact .error hfailure

end SameReading

namespace Scans

variable {α β : Type} {q : Scanner α} {p : Production α}

theorem map (hq : Scans q p) (f : α → β) : Scans (Scanner.map f q) (Production.map f p) :=
  fun _ _ _ h => (hq h).map f

theorem optional (hq : Scans q p) : Scans (Scanner.optional q) (Production.optional p) := by
  intro text s i h
  have hread := hq h
  unfold Scanner.optional Production.optional
  generalize p s = reading, q text i = result at hread
  cases hread with
  | ok hj => exact .ok hj
  | error hfailure =>
    cases hfailure with
    | mismatch => exact .ok h
    | rejection hj => exact sameReading_rejection _ hj
    | numeral error => exact .error (.numeral error)

theorem firstOf {expected : Expected} {qs : List (Scanner α)} {ps : List (Production α)}
    (h : List.Forall₂ Scans qs ps) :
    Scans (Scanner.firstOf expected qs) (Production.firstOf expected ps) := by
  intro text s i hi
  induction h with
  | nil => exact sameReading_mismatch expected hi
  | @cons q p qs ps hq _ ih =>
    have hread := hq hi
    unfold Scanner.firstOf Production.firstOf
    generalize p s = reading, q text i = result at hread
    cases hread with
    | ok hj => exact .ok hj
    | error hfailure =>
      cases hfailure with
      | mismatch => exact ih
      | rejection hj => exact sameReading_rejection _ hj
      | numeral error => exact .error (.numeral error)

theorem many (hq : Scans q p) (hp : p.Consumes) :
    Scans (Scanner.many q) (Production.repeated p) := by
  intro text s i h
  induction hn : s.length using Nat.strongRecOn generalizing s i with
  | ind n ih =>
    -- the induction is on what is left of the text
    subst hn
    have hread := hq h
    rw [(Production.repeated_loop hp).unrolls s, Production.repeatedTurn, Scanner.many]
    generalize hs : p s = reading, q text i = result at hread
    cases hread with
    | error hfailure =>
      cases hfailure with
      | mismatch => exact .ok h
      | rejection hj => exact sameReading_rejection _ hj
      | numeral error => exact .error (.numeral error)
    | @ok v j r hj =>
      have hlt : r.length < s.length := hp.length_lt hs
      simp only [if_pos ((h.length_sub_lt_iff hj).mpr hlt)]
      exact (ih _ hlt hj rfl).map (v :: ·)

end Scans

/-! ## More text in front -/

def ParseFailure.shift (n : Nat) : ParseFailure → ParseFailure
  | .mismatch expected offset => .mismatch expected (n + offset)
  | .rejection expected offset => .rejection expected (n + offset)
  | .numeral error => .numeral error

/-- The same reading `n` characters further on. -/
def shifted {α : Type} (n : Nat) :
    Except ParseFailure (α × Nat) → Except ParseFailure (α × Nat)
  | .ok (v, stop) => .ok (v, n + stop)
  | .error failure => .error (failure.shift n)

/-- The position of a rest moves by the length of what is put in front of the text. -/
theorem Remains.position_append {front text r : List Char} {j k : Nat}
    (hj : Remains (front ++ text) j r) (hk : Remains text k r) : j = front.length + k := by
  have hlength := hj.add_length
  rw [List.length_append, ← hk.add_length] at hlength
  omega

theorem SameFailure.shift {front text : List Char} {failure : Failure}
    {located moved : ParseFailure} (hmoved : SameFailure (front ++ text) failure moved)
    (hlocated : SameFailure text failure located) : moved = located.shift front.length := by
  cases hmoved with
  | mismatch hj =>
    cases hlocated with
    | mismatch hk => rw [hj.position_append hk, ParseFailure.shift]
  | rejection hj =>
    cases hlocated with
    | rejection hk => rw [hj.position_append hk, ParseFailure.shift]
  | numeral error =>
    cases hlocated
    rfl

/-- The offset of a rest is its position. -/
theorem Remains.offsetOf_eq {text s r : List Char} {i j : Nat} (hi : Remains text i s)
    (hj : Remains text j r) (h : r <:+ s) : offsetOf i s r = j := by
  have := hi.add_length
  have := hj.add_length
  have := h.length_le
  rw [offsetOf]
  omega

/-- At each position of a text the scanner reads what the production is said to read there, and
with more text in front it reads the same, that much further on. -/
structure Tracks {α : Type} (q : Scanner α) (p : Production α) : Prop where
  reads {text : List Char} {start : Nat} (hstart : start ≤ text.length) :
    q text start = p.readAt text start
  shifts (front text : List Char) :
    q (front ++ text) front.length = shifted front.length (q text 0)

namespace Scans

variable {α : Type} {q : Scanner α} {p : Production α}

/-- What is read depends only on the text behind the position, and its position is counted from
there. -/
theorem shifts (hq : Scans q p) (front text : List Char) :
    q (front ++ text) front.length = shifted front.length (q text 0) := by
  have hmoved := hq (Remains.append_length front text)
  have hread := hq (Remains.append_length [] text)
  rw [List.nil_append, List.length_nil] at hread
  generalize p text = reading, q (front ++ text) front.length = moved, q text 0 = result
    at hmoved hread ⊢
  cases hread with
  | ok hk =>
    cases hmoved with
    | ok hj => rw [hj.position_append hk, shifted]
  | error hlocated =>
    cases hmoved with
    | error hfailure => rw [hfailure.shift hlocated, shifted]

theorem eq_readAt (hq : Scans q p) (hp : p.Bounded) {text : List Char} {start : Nat}
    (hstart : start ≤ text.length) : q text start = p.readAt text start := by
  have hi : Remains text start (text.drop start) := ⟨hstart, rfl⟩
  have hread := hq hi
  have hwithin := hp (text.drop start)
  simp only [Production.readAt]
  generalize text.drop start = s at hi hread hwithin ⊢
  generalize p s = reading, q text start = result at hread hwithin ⊢
  cases hread with
  | ok hj => simp only [hi.offsetOf_eq hj hwithin.suffix]
  | error hfailure =>
    cases hfailure with
    | mismatch hj =>
      simp only [Failure.locate, hi.offsetOf_eq hj (Failure.foundIn_mismatch.mp hwithin)]
    | rejection hj =>
      simp only [Failure.locate, hi.offsetOf_eq hj (Failure.foundIn_rejection.mp hwithin)]
    | numeral error => rfl

theorem tracks (hq : Scans q p) (hp : p.Bounded) : Tracks q p where
  reads := hq.eq_readAt hp
  shifts := hq.shifts

end Scans

end LineShell
