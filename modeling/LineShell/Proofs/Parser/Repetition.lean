import LineShell.Parser.Basic

/-!
# Runs of a production

A repetition is a run of single readings, each from where the one before it ended.  The run is
the object on which facts about repetitions are proved by induction.  A repetition succeeds if
its run ends at a mismatch, and it fails if its run ends at any other failure, with that
failure.
-/

namespace LineShell

namespace Production

variable {α : Type}

/-- Read one after the other from `s`, these values leave `r`. -/
inductive Steps (p : Production α) : List Char → List α → List Char → Prop where
  | nil (s : List Char) : Steps p s [] s
  | cons {s t r : List Char} {v : α} {vs : List α} (head : p s = .ok (v, t))
      (tail : Steps p t vs r) : Steps p s (v :: vs) r

def Mismatches (p : Production α) (s : List Char) : Prop :=
  ∃ fault, p s = .error (.mismatch fault)

theorem Steps.eq_of_nil {p : Production α} {s r : List Char} (h : Steps p s [] r) : s = r := by
  cases h
  rfl

theorem Steps.append {p : Production α} {s t r : List Char} {vs ws : List α}
    (hvs : Steps p s vs t) (hws : Steps p t ws r) : Steps p s (vs ++ ws) r := by
  induction hvs with
  | nil => exact hws
  | cons head _ ih => exact .cons head (ih hws)

theorem repeated_of_mismatches {p : Production α} {s : List Char} (h : Mismatches p s) :
    repeated p s = .ok ([], s) := by
  obtain ⟨fault, hfault⟩ := h
  rw [repeated, hfault]

theorem repeated_of_ok {p : Production α} (hp : Consumes p) {s t : List Char} {v : α}
    (h : p s = .ok (v, t)) :
    repeated p s =
      match repeated p t with
      | .error failure => .error failure
      | .ok (vs, r) => .ok (v :: vs, r) := by
  have hlt : t.length < s.length := hp.length_lt h
  rw [repeated, h]
  cases hrest : repeated p t with
  | error failure => simp [hlt, hrest]
  | ok reading => simp [hlt, hrest]

theorem Steps.repeated_eq_ok {p : Production α} (hp : Consumes p) {s r : List Char}
    {vs : List α} (h : Steps p s vs r) (hr : Mismatches p r) : repeated p s = .ok (vs, r) := by
  induction h with
  | nil => exact repeated_of_mismatches hr
  | cons head _ ih => rw [repeated_of_ok hp head, ih hr]

theorem Steps.repeated_eq_error {p : Production α} (hp : Consumes p) {s r : List Char}
    {vs : List α} {failure : Failure} (h : Steps p s vs r) (hr : p r = .error failure)
    (hfailure : ∀ fault, failure ≠ .mismatch fault) : repeated p s = .error failure := by
  induction h with
  | nil s =>
    rw [repeated, hr]
    cases failure with
    | mismatch fault => exact absurd rfl (hfailure fault)
    | rejection => rfl
    | numeral => rfl
  | cons head _ ih => rw [repeated_of_ok hp head, ih hr]

theorem repeated_eq_ok_iff {p : Production α} (hp : Consumes p) {s r : List Char}
    {vs : List α} : repeated p s = .ok (vs, r) ↔ Steps p s vs r ∧ Mismatches p r := by
  constructor
  · intro h
    fun_induction repeated p s generalizing vs r with
    | case1 s fault hfault =>
      simp only [Except.ok.injEq, Prod.mk.injEq] at h
      obtain ⟨rfl, rfl⟩ := h
      exact ⟨.nil s, fault, hfault⟩
    | case2 => simp at h
    | case3 => simp at h
    | case4 s v t hv _ us u hus ih =>
      simp only [Except.ok.injEq, Prod.mk.injEq] at h
      obtain ⟨rfl, rfl⟩ := h
      obtain ⟨hsteps, hmismatch⟩ := ih hus
      exact ⟨.cons hv hsteps, hmismatch⟩
    | case5 s v t hv hlt => exact absurd (hp.length_lt hv) hlt
  · rintro ⟨hsteps, hmismatch⟩
    exact hsteps.repeated_eq_ok hp hmismatch

theorem repeated_eq_error_iff {p : Production α} (hp : Consumes p) {s : List Char}
    {failure : Failure} :
    repeated p s = .error failure ↔
      ∃ vs r, Steps p s vs r ∧ p r = .error failure ∧
        ∀ fault, failure ≠ .mismatch fault := by
  constructor
  · intro h
    fun_induction repeated p s with
    | case1 => simp at h
    | case2 s other hne hother =>
      simp only [Except.error.injEq] at h
      subst h
      refine ⟨[], s, .nil s, hother, ?_⟩
      rintro fault rfl
      exact hne fault rfl
    | case3 s v t hv _ other hother ih =>
      simp only [Except.error.injEq] at h
      subst h
      obtain ⟨vs, r, hsteps, hr, hfailure⟩ := ih hother
      exact ⟨v :: vs, r, .cons hv hsteps, hr, hfailure⟩
    | case4 => simp at h
    | case5 => simp at h
  · rintro ⟨vs, r, hsteps, hr, hfailure⟩
    exact hsteps.repeated_eq_error hp hr hfailure

end Production

end LineShell
