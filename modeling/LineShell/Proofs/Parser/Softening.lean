import Mathlib.Data.List.Forall2
import LineShell.Proofs.Parser.Repetition

/-!
# Softened productions

A softened production fails to match where the production rejects its input.  What a production
reads is then read by its softened form as well, and this is kept by the ways to put productions
together.  The converse does not hold for a repetition, which goes on behind a softened rejection
with what it has.  It holds for a run of which every reading is the same, and whether the next one
is the same may depend on how the run goes on from there.
-/

namespace LineShell

namespace Production

variable {α β : Type}

def Rejects (p : Production α) (s : List Char) : Prop :=
  ∃ fault, p s = .error (.rejection fault)

/-- Fails to match where `p` rejects its input. -/
def soften (p : Production α) : Production α := fun s =>
  match p s with
  | .error (.rejection fault) => .error (.mismatch fault)
  | reading => reading

@[simp] theorem soften_eq_ok_iff {p : Production α} {s r : List Char} {v : α} :
    soften p s = .ok (v, r) ↔ p s = .ok (v, r) := by
  unfold soften
  split
  · next h => simp [h]
  · rfl

theorem soften_mismatches_iff {p : Production α} {s : List Char} :
    Mismatches (soften p) s ↔ Mismatches p s ∨ Rejects p s := by
  constructor
  · rintro ⟨fault, h⟩
    unfold soften at h
    split at h
    · next fault' hp => exact Or.inr ⟨fault', hp⟩
    · exact Or.inl ⟨fault, h⟩
  · rintro (⟨fault, h⟩ | ⟨fault, h⟩)
    · exact ⟨fault, by simp [soften, h]⟩
    · exact ⟨fault, by simp [soften, h]⟩

theorem not_rejects_soften (p : Production α) (s : List Char) : ¬ Rejects (soften p) s := by
  rintro ⟨fault, h⟩
  unfold soften at h
  split at h
  · simp at h
  · next hne => exact hne fault h

theorem exists_of_firstOf_error {expected : Expected} {ps : List (Production α)} {s : List Char}
    {failure : Failure} (h : firstOf expected ps s = .error failure)
    (hfailure : ∀ fault, failure ≠ .mismatch fault) : ∃ p ∈ ps, p s = .error failure := by
  induction ps with
  | nil => exact absurd (Except.error.inj h).symm (hfailure _)
  | cons p ps ih =>
    simp only [firstOf] at h
    split at h
    · obtain ⟨q, hq, hqs⟩ := ih h
      exact ⟨q, List.mem_cons_of_mem p hq, hqs⟩
    · exact ⟨p, List.mem_cons_self, h⟩

/-- The production fails in no other way than by not matching. -/
def Gentle (p : Production α) : Prop :=
  ∀ s failure, p s = .error failure → Mismatches p s

theorem Gentle.eq_mismatch {p : Production α} (hp : Gentle p) {s : List Char} {failure : Failure}
    (h : p s = .error failure) : ∃ fault, failure = .mismatch fault := by
  obtain ⟨fault, hfault⟩ := hp s failure h
  rw [h] at hfault
  exact ⟨fault, Except.error.inj hfault⟩

theorem Gentle.not_rejects {p : Production α} (hp : Gentle p) (s : List Char) : ¬ Rejects p s := by
  rintro ⟨fault, h⟩
  obtain ⟨fault', hfault⟩ := hp.eq_mismatch h
  simp at hfault

theorem firstOf_gentle {expected : Expected} {ps : List (Production α)}
    (hps : ∀ p ∈ ps, Gentle p) : Gentle (firstOf expected ps) := by
  intro s failure h
  by_cases hfailure : ∀ fault, failure ≠ .mismatch fault
  · obtain ⟨p, hp, hread⟩ := exists_of_firstOf_error h hfailure
    obtain ⟨fault, hfault⟩ := (hps p hp).eq_mismatch hread
    exact absurd hfault (hfailure fault)
  · simp only [ne_eq, not_forall, not_not] at hfailure
    obtain ⟨fault, rfl⟩ := hfailure
    exact ⟨fault, h⟩

theorem Gentle.repeated_ne_error {p : Production α} (h : Gentle p) (hp : Consumes p)
    (s : List Char) (failure : Failure) : repeated p s ≠ .error failure := by
  intro hs
  obtain ⟨vs, r, -, hr, hfailure⟩ := (repeated_eq_error_iff hp).mp hs
  obtain ⟨fault, hfault⟩ := h.eq_mismatch hr
  exact hfailure fault hfault

theorem optional_eq_ok_iff {p : Production α} {s r : List Char} {v : Option α} :
    optional p s = .ok (v, r) ↔
      (∃ x, v = some x ∧ p s = .ok (x, r)) ∨ (v = none ∧ Mismatches p s ∧ s = r) := by
  unfold optional
  split
  · next fault h => simp [Mismatches, h, eq_comm]
  · next failure hne h =>
    have hno : ¬ Mismatches p s := by
      rintro ⟨fault, hfault⟩
      rw [h] at hfault
      exact hne fault (Except.error.inj hfault)
    simp [h, hno]
  · next x t h =>
    have hno : ¬ Mismatches p s := by
      rintro ⟨fault, hfault⟩
      rw [h] at hfault
      simp at hfault
    constructor
    · intro hv
      simp only [Except.ok.injEq, Prod.mk.injEq] at hv
      exact Or.inl ⟨x, hv.1.symm, by rw [h, hv.2]⟩
    · rintro (⟨y, rfl, hy⟩ | ⟨-, hmismatch, -⟩)
      · rw [h] at hy
        simp only [Except.ok.injEq, Prod.mk.injEq] at hy
        rw [hy.1, hy.2]
      · exact absurd hmismatch hno

theorem optional_not_mismatches (p : Production α) (s : List Char) :
    ¬ Mismatches (optional p) s := by
  rintro ⟨fault, h⟩
  unfold optional at h
  split at h
  · simp at h
  · next hne hp =>
    rw [Except.error.inj h] at hne
    exact hne fault rfl
  · simp at h

theorem Gentle.map {p : Production α} (h : Gentle p) (f : α → β) : Gentle (map f p) := by
  intro s failure hs
  unfold Production.map at hs
  split at hs
  · next failure' hp =>
    obtain ⟨fault, hfault⟩ := h s failure' hp
    exact ⟨fault, by rw [Production.map, hfault]⟩
  · simp at hs

theorem Gentle.optional_ne_error {p : Production α} (h : Gentle p) (s : List Char)
    (failure : Failure) : optional p s ≠ .error failure := by
  intro hs
  unfold optional at hs
  split at hs
  · simp at hs
  · next failure' hne hp =>
    obtain ⟨fault, hfault⟩ := h.eq_mismatch hp
    exact hne fault hfault
  · simp at hs

/-! ## Readings that are kept -/

/-- What `p` reads, `q` reads as well, and where `p` does not match, `q` does not match. -/
structure Keeps (p q : Production α) : Prop where
  ok : ∀ {s r v}, p s = .ok (v, r) → q s = .ok (v, r)
  mismatches : ∀ {s}, Mismatches p s → Mismatches q s

theorem Keeps.refl (p : Production α) : Keeps p p := ⟨id, id⟩

theorem Keeps.soften {p q : Production α} (h : Keeps p q) : Keeps p (soften q) where
  ok hp := soften_eq_ok_iff.mpr (h.ok hp)
  mismatches hp := soften_mismatches_iff.mpr (Or.inl (h.mismatches hp))

theorem Keeps.firstOf {ps qs : List (Production α)} (h : List.Forall₂ Keeps ps qs)
    (expected : Expected) : Keeps (firstOf expected ps) (firstOf expected qs) := by
  induction h with
  | nil => exact .refl _
  | @cons p q ps qs hpq _ ih =>
    constructor
    · intro s r v hs
      simp only [Production.firstOf] at hs
      split at hs
      · next fault hp =>
        obtain ⟨fault', hq⟩ := hpq.mismatches ⟨fault, hp⟩
        simp only [Production.firstOf, hq]
        exact ih.ok hs
      · simp only [Production.firstOf, hpq.ok hs]
    · rintro s ⟨fault, hs⟩
      simp only [Production.firstOf] at hs
      split at hs
      · next fault' hp =>
        obtain ⟨fault'', hq⟩ := hpq.mismatches ⟨fault', hp⟩
        obtain ⟨fault₀, hqs⟩ := ih.mismatches ⟨fault, hs⟩
        exact ⟨fault₀, by simp only [Production.firstOf, hq, hqs]⟩
      · next hne => exact absurd hs (hne fault)

theorem Keeps.map {p q : Production α} (h : Keeps p q) (f : α → β) : Keeps (map f p) (map f q) := by
  constructor
  · intro s r v hs
    unfold Production.map at hs ⊢
    split at hs
    · simp at hs
    · next x t hp => simpa [h.ok hp] using hs
  · rintro s ⟨fault, hs⟩
    unfold Production.map at hs
    split at hs
    · next failure hp =>
      rw [Except.error.inj hs] at hp
      obtain ⟨fault', hq⟩ := h.mismatches ⟨fault, hp⟩
      exact ⟨fault', by simp [Production.map, hq]⟩
    · simp at hs

theorem Keeps.optional {p q : Production α} (h : Keeps p q) :
    Keeps (optional p) (optional q) := by
  constructor
  · intro s r v hs
    rw [optional_eq_ok_iff] at hs ⊢
    rcases hs with ⟨x, hv, hp⟩ | ⟨hv, hp, hr⟩
    · exact Or.inl ⟨x, hv, h.ok hp⟩
    · exact Or.inr ⟨hv, h.mismatches hp, hr⟩
  · intro s hs
    exact absurd hs (optional_not_mismatches p s)

theorem Steps.mono {p q : Production α} (h : ∀ {s r v}, p s = .ok (v, r) → q s = .ok (v, r))
    {s r : List Char} {vs : List α} (hs : Steps p s vs r) : Steps q s vs r := by
  induction hs with
  | nil s => exact .nil s
  | cons head _ ih => exact .cons (h head) ih

theorem repeated_not_mismatches {p : Production α} (hp : Consumes p) (s : List Char) :
    ¬ Mismatches (repeated p) s := by
  rintro ⟨fault, h⟩
  obtain ⟨vs, r, -, -, hfailure⟩ := (repeated_eq_error_iff hp).mp h
  exact hfailure fault rfl

theorem Keeps.repeated {p q : Production α} (h : Keeps p q) (hp : Consumes p) (hq : Consumes q) :
    Keeps (repeated p) (repeated q) := by
  constructor
  · intro s r vs hs
    obtain ⟨hsteps, hmismatch⟩ := (repeated_eq_ok_iff hp).mp hs
    exact (repeated_eq_ok_iff hq).mpr ⟨hsteps.mono h.ok, h.mismatches hmismatch⟩
  · intro s hs
    exact absurd hs (repeated_not_mismatches hp s)

/-! ## Runs of which every reading is the same -/

/-- Here a repetition of the production does not fail: it ends, or it goes on. -/
def Passes (p : Production α) (s : List Char) : Prop :=
  Mismatches p s ∨ ∃ v r, p s = .ok (v, r)

theorem Steps.passes {p : Production α} {s r : List Char} {vs : List α} (h : Steps p s vs r)
    (hr : Passes p r) : Passes p s := by
  cases h with
  | nil => exact hr
  | cons head _ => exact Or.inr ⟨_, _, head⟩

theorem Steps.transfer {p q : Production α} {s r : List Char} {vs : List α} (h : Steps q s vs r)
    (hr : Passes q r) (hstep : ∀ {s t v}, q s = .ok (v, t) → Passes q t → p s = .ok (v, t)) :
    Steps p s vs r := by
  induction h with
  | nil s => exact .nil s
  | cons head tail ih => exact .cons (hstep head (tail.passes hr)) (ih hr)

end Production

end LineShell
