import LineShell.Proofs.Parser.Position
import LineShell.Proofs.Parser.Repetition
import LineShell.Proofs.Text.Span
import Mathlib.Logic.Function.Iterate

/-!
# Readings that stay in the text

A reading ends in the text, and so does the search for a fault.  The line feed at the end of a text
is the mark by which the scanners know that the line ends, so none of them may step over it.  Told
by the input alone: the text that was read does not end with a line feed.  In this form the bound is
kept by the ways to put productions together, and the offsets follow from it.

The definitions of the loops test whether a turn has shortened the input before they go on.  No turn
fails this test.  So the turns are stated here without it, and unrolled once more often than the
input has characters, a loop has come to its end.
-/

namespace LineShell

/-! ## What a reading leaves -/

/-- The rest of an input behind a text that does not end with a line feed. -/
def Leaves (s r : List Char) : Prop :=
  ∃ w, s = w ++ r ∧ w.getLast? ≠ some '\n'

theorem Leaves.refl (s : List Char) : Leaves s s :=
  ⟨[], rfl, by simp⟩

theorem Leaves.trans {s t r : List Char} (hst : Leaves s t) (htr : Leaves t r) : Leaves s r := by
  obtain ⟨w₁, rfl, hw₁⟩ := hst
  obtain ⟨w₂, rfl, hw₂⟩ := htr
  exact ⟨w₁ ++ w₂, (List.append_assoc w₁ w₂ r).symm, getLast?_append_ne hw₁ hw₂⟩

theorem Leaves.suffix {s r : List Char} (h : Leaves s r) : r <:+ s := by
  obtain ⟨w, rfl, -⟩ := h
  exact List.suffix_append w r

theorem leaves_cons {c : Char} (hc : c ≠ '\n') (s : List Char) : Leaves (c :: s) s :=
  ⟨[c], rfl, by simpa using hc⟩

theorem leaves_dropWhile {p : Char → Bool} (hp : p '\n' = false) (s : List Char) :
    Leaves s (s.dropWhile p) := by
  refine ⟨s.takeWhile p, List.takeWhile_append_dropWhile.symm, mt List.mem_of_getLast? ?_⟩
  intro hmem
  rw [List.mem_takeWhile_imp hmem] at hp
  exact absurd hp (by decide)

/-- The line feed at the end of an input is left. -/
theorem Leaves.ne_nil {s r : List Char} (h : Leaves s r) (hs : s.getLast? = some '\n') :
    r ≠ [] := by
  obtain ⟨w, rfl, hw⟩ := h
  rintro rfl
  rw [List.append_nil] at hs
  exact hw hs

namespace Failure

/-- The place at which the failure was found, if it has one. -/
def fault? : Failure → Option Fault
  | .mismatch fault | .rejection fault => some fault
  | .numeral _ => none

/-- The fault was found in the input `s`. -/
def FoundIn (s : List Char) (failure : Failure) : Prop :=
  ∀ fault ∈ failure.fault?, fault.rest <:+ s

variable {s t : List Char} {fault : Fault}

@[simp] theorem foundIn_mismatch : (mismatch fault).FoundIn s ↔ fault.rest <:+ s := by
  simp [FoundIn, fault?]

@[simp] theorem foundIn_rejection : (rejection fault).FoundIn s ↔ fault.rest <:+ s := by
  simp [FoundIn, fault?]

@[simp] theorem foundIn_numeral (error : NumeralError) : (numeral error).FoundIn s := by
  simp [FoundIn, fault?]

theorem FoundIn.trans {failure : Failure} (h : failure.FoundIn t) (hts : t <:+ s) :
    failure.FoundIn s :=
  fun fault hfault => (h fault hfault).trans hts

end Failure

/-- The reading ends in the input `s`, or has found its fault there. -/
def Within {α : Type} (s : List Char) : Reading α → Prop
  | .ok (_, r) => Leaves s r
  | .error failure => failure.FoundIn s

section Within

variable {α : Type} {s t : List Char}

theorem Within.trans {reading : Reading α} (h : Within t reading) (hst : Leaves s t) :
    Within s reading := by
  match reading, h with
  | .ok (_, _), h => exact hst.trans h
  | .error _, h => exact Failure.FoundIn.trans h hst.suffix

theorem within_mismatch (expected : Expected) (h : t <:+ s) :
    Within s (mismatch expected t : Reading α) :=
  Failure.foundIn_mismatch.mpr h

theorem within_rejection (expected : Expected) (h : t <:+ s) :
    Within s (rejection expected t : Reading α) :=
  Failure.foundIn_rejection.mpr h

end Within

namespace Production

variable {α β : Type} {p : Production α}

/-- On every input the production ends in it, or finds its fault there. -/
def Bounded (p : Production α) : Prop :=
  ∀ s, Within s (p s)

theorem Bounded.leaves (hp : Bounded p) {s r : List Char} {v : α} (h : p s = .ok (v, r)) :
    Leaves s r := by
  have hs := hp s
  rwa [h] at hs

theorem Bounded.foundIn (hp : Bounded p) {s : List Char} {failure : Failure}
    (h : p s = .error failure) : failure.FoundIn s := by
  have hs := hp s
  rwa [h] at hs

theorem bounded_of (hok : ∀ {s r v}, p s = .ok (v, r) → Leaves s r)
    (herror : ∀ {s failure}, p s = .error failure → failure.FoundIn s) : Bounded p := by
  intro s
  cases hread : p s with
  | error failure => exact herror hread
  | ok reading => exact hok hread

theorem firstOf_bounded {expected : Expected} {ps : List (Production α)}
    (hps : ∀ p ∈ ps, Bounded p) : Bounded (firstOf expected ps) := by
  intro s
  induction ps with
  | nil => exact within_mismatch expected List.suffix_rfl
  | cons p ps ih =>
    rw [firstOf]
    split
    · exact ih fun q hq => hps q (List.mem_cons_of_mem p hq)
    · exact hps p List.mem_cons_self s

theorem Bounded.map (hp : Bounded p) (f : α → β) : Bounded (map f p) := by
  intro s
  rw [Production.map]
  split
  · next failure h => exact hp.foundIn h
  · next v r h => exact hp.leaves h

theorem Bounded.optional (hp : Bounded p) : Bounded (optional p) := by
  intro s
  rw [Production.optional]
  split
  · exact Leaves.refl s
  · next failure _ h => exact hp.foundIn h
  · next v r h => exact hp.leaves h

theorem Bounded.repeated (hp : Bounded p) : Bounded (repeated p) := by
  intro s
  fun_induction Production.repeated p s with
  | case1 s => exact Leaves.refl s
  | case2 s failure _ h => exact hp.foundIn h
  | case3 s v r hv _ failure hfailure ih =>
    rw [hfailure] at ih
    exact Failure.FoundIn.trans ih (hp.leaves hv).suffix
  | case4 s v r hv _ vs t hvs ih =>
    rw [hvs] at ih
    exact (hp.leaves hv).trans ih
  | case5 s v r hv _ => exact hp.leaves hv

theorem Bounded.consumes (hp : Bounded p)
    (hlength : ∀ {s r v}, p s = .ok (v, r) → r.length < s.length) : Consumes p := by
  intro s v r h
  obtain ⟨w, hw, -⟩ := hp.leaves h
  refine ⟨w, ?_, hw⟩
  rintro rfl
  have hlt := hlength h
  rw [hw, List.nil_append] at hlt
  exact absurd hlt (Nat.lt_irrefl _)

/-! ## Offsets -/

/-- Reading at a position in a text, the production ends and fails at positions that are not before
it and in the text, and what is left of the text is what is left of the input.  If a line feed ends
the text, the production does not step over it. -/
structure StaysInText (p : Production α) : Prop where
  stop {text : List Char} {start stop : Nat} {v : α} (hstart : start ≤ text.length)
    (h : p.readAt text start = .ok (v, stop)) :
      start ≤ stop ∧ stop ≤ text.length ∧ p (text.drop start) = .ok (v, text.drop stop)
  lineFeed {text : List Char} {start stop : Nat} {v : α} (hlast : text.getLast? = some '\n')
    (hstart : start < text.length) (h : p.readAt text start = .ok (v, stop)) :
      stop < text.length
  mismatch {text : List Char} {start offset : Nat} {expected : Expected}
    (hstart : start ≤ text.length)
    (h : p.readAt text start = .error (.mismatch expected offset)) :
      start ≤ offset ∧ offset ≤ text.length ∧
        p (text.drop start) = .error (.mismatch ⟨expected, text.drop offset⟩)
  rejection {text : List Char} {start offset : Nat} {expected : Expected}
    (hstart : start ≤ text.length)
    (h : p.readAt text start = .error (.rejection expected offset)) :
      start ≤ offset ∧ offset ≤ text.length ∧
        p (text.drop start) = .error (.rejection ⟨expected, text.drop offset⟩)

/-- A production that stays in the text, and that reads something if it succeeds. -/
structure Advances (p : Production α) : Prop extends StaysInText p where
  progress {text : List Char} {start stop : Nat} {v : α}
    (h : p.readAt text start = .ok (v, stop)) : start < stop

/-- The offset of a rest of the text is the position where this rest begins. -/
theorem offsetOf_spec {text rest : List Char} {start : Nat} (hstart : start ≤ text.length)
    (h : rest <:+ text.drop start) :
    start ≤ offsetOf start (text.drop start) rest ∧
      offsetOf start (text.drop start) rest ≤ text.length ∧
      text.drop (offsetOf start (text.drop start) rest) = rest := by
  obtain ⟨w, hw⟩ := h
  have hlength := congrArg List.length hw
  rw [List.length_append, List.length_drop] at hlength
  have hoffset : offsetOf start (text.drop start) rest = start + w.length := by
    rw [offsetOf, List.length_drop]
    omega
  rw [hoffset]
  exact ⟨by omega, by omega, drop_of_drop_eq hw.symm⟩

theorem exists_of_readAt_ok {text : List Char} {start stop : Nat} {v : α}
    (h : p.readAt text start = .ok (v, stop)) :
    ∃ r, p (text.drop start) = .ok (v, r) ∧ stop = offsetOf start (text.drop start) r := by
  cases hread : p (text.drop start) with
  | error failure => simp [readAt, hread] at h
  | ok reading =>
    simp only [readAt, hread, Except.ok.injEq, Prod.mk.injEq] at h
    exact ⟨reading.2, by rw [← h.1], h.2.symm⟩

theorem exists_of_readAt_error {text : List Char} {start : Nat} {failure : ParseFailure}
    (h : p.readAt text start = .error failure) :
    ∃ failure', p (text.drop start) = .error failure' ∧
      failure'.locate start (text.drop start) = failure := by
  cases hread : p (text.drop start) with
  | error failure' => exact ⟨failure', rfl, by simpa [readAt, hread] using h⟩
  | ok reading => simp [readAt, hread] at h

theorem Bounded.staysInText (hp : Bounded p) : StaysInText p where
  stop hstart h := by
    obtain ⟨r, hread, rfl⟩ := exists_of_readAt_ok h
    obtain ⟨hle, hstop, hrest⟩ := offsetOf_spec hstart (hp.leaves hread).suffix
    exact ⟨hle, hstop, by rw [hrest, hread]⟩
  lineFeed {text start _ _} hlast hstart h := by
    obtain ⟨r, hread, rfl⟩ := exists_of_readAt_ok h
    have hend : (text.drop start).getLast? = some '\n' := by
      rw [List.getLast?_drop, if_neg (Nat.not_le.mpr hstart), hlast]
    obtain ⟨-, -, hrest⟩ := offsetOf_spec (Nat.le_of_lt hstart) (hp.leaves hread).suffix
    apply Nat.lt_of_not_le
    intro hge
    rw [List.drop_eq_nil_of_le hge] at hrest
    exact (hp.leaves hread).ne_nil hend hrest.symm
  mismatch hstart h := by
    obtain ⟨failure, hread, hlocate⟩ := exists_of_readAt_error h
    cases failure with
    | mismatch fault =>
      obtain ⟨rfl, rfl⟩ := ParseFailure.mismatch.inj hlocate
      obtain ⟨hle, hoffset, hrest⟩ := offsetOf_spec hstart (hp.foundIn hread fault rfl)
      exact ⟨hle, hoffset, by rw [hrest, hread]⟩
    | rejection fault => simp [Failure.locate] at hlocate
    | numeral error => simp [Failure.locate] at hlocate
  rejection hstart h := by
    obtain ⟨failure, hread, hlocate⟩ := exists_of_readAt_error h
    cases failure with
    | mismatch fault => simp [Failure.locate] at hlocate
    | rejection fault =>
      obtain ⟨rfl, rfl⟩ := ParseFailure.rejection.inj hlocate
      obtain ⟨hle, hoffset, hrest⟩ := offsetOf_spec hstart (hp.foundIn hread fault rfl)
      exact ⟨hle, hoffset, by rw [hrest, hread]⟩
    | numeral error => simp [Failure.locate] at hlocate

theorem Bounded.advances (hp : Bounded p) (hconsumes : Consumes p) : Advances p where
  toStaysInText := hp.staysInText
  progress h := ((readAt_eq_ok_iff hconsumes).mp h).1

/-! ## Loops -/

/-- The production is a loop with this turn, which is given the loop to go on with.  As many turns
as the input has characters, and one more, are enough whatever stands behind them. -/
structure Loop (turn : Production α → Production α) (p : Production α) : Prop where
  unrolls (s : List Char) : p s = turn p s
  ends (q : Production α) (s : List Char) : turn^[s.length + 1] q s = p s

/-- A turn that goes on with shorter inputs only makes a loop. -/
theorem loop_of_shortens {turn : Production α → Production α} (hunrolls : ∀ s, p s = turn p s)
    (hshortens : ∀ {q q' : Production α} {s}, (∀ t, t.length < s.length → q t = q' t) →
      turn q s = turn q' s) : Loop turn p where
  unrolls := hunrolls
  ends q s := by
    have hturns : ∀ n (s : List Char), s.length < n → turn^[n] q s = p s := by
      intro n
      induction n with
      | zero => intro s hs; exact absurd hs (Nat.not_lt_zero _)
      | succ n ih =>
        intro s hs
        rw [Function.iterate_succ_apply', hunrolls s]
        exact hshortens fun t ht => ih t (by omega)
    exact hturns _ s (Nat.lt_succ_self _)

theorem map_congr {q q' : Production α} {s : List Char} (h : q s = q' s) (f : α → β) :
    Production.map f q s = Production.map f q' s := by
  rw [Production.map, Production.map, h]

/-- One turn of a repetition. -/
def repeatedTurn (p : Production α) (again : Production (List α)) : Production (List α) := fun s =>
  match p s with
  | .error (.mismatch _) => .ok ([], s)
  | .error failure => .error failure
  | .ok (v, r) => Production.map (v :: ·) again r

theorem repeated_loop (hp : Consumes p) : Loop (repeatedTurn p) (repeated p) := by
  refine loop_of_shortens (fun s => ?_) (fun {q q' s} h => ?_)
  · cases hread : p s with
    | error failure => cases failure <;> simp only [repeatedTurn, Production.repeated, hread]
    | ok reading =>
      rw [repeated_of_ok hp hread, repeatedTurn, hread]
      cases hrest : repeated p reading.2 <;> simp only [Production.map, hrest]
  · cases hread : p s with
    | error failure => cases failure <;> simp only [repeatedTurn, hread]
    | ok reading =>
      simp only [repeatedTurn, hread]
      exact map_congr (h _ (hp.length_lt hread)) _

end Production

end LineShell
