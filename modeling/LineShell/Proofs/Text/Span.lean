import Mathlib.Data.List.TakeWhile

/-!
# Runs of characters of a class

A scanner that takes characters as long as they belong to a class takes exactly a given run of
them if the text behind the run does not go on with the class.
-/

namespace LineShell

def Stops (p : Char → Bool) (r : List Char) : Prop :=
  ∀ c ∈ r.head?, p c = false

theorem stops_nil (p : Char → Bool) : Stops p [] := by
  simp [Stops]

@[simp] theorem stops_cons {p : Char → Bool} {c : Char} {r : List Char} :
    Stops p (c :: r) ↔ p c = false := by
  simp [Stops]

theorem stops_dropWhile (p : Char → Bool) (s : List Char) : Stops p (s.dropWhile p) := by
  intro c hc
  have hhead := List.head?_dropWhile_not p s
  rwa [Option.mem_def.mp hc] at hhead

theorem Stops.takeWhile_eq_nil {p : Char → Bool} {r : List Char} (h : Stops p r) :
    r.takeWhile p = [] := by
  cases r with
  | nil => rfl
  | cons c t =>
    rw [stops_cons] at h
    simp [h]

theorem Stops.dropWhile_eq {p : Char → Bool} {r : List Char} (h : Stops p r) :
    r.dropWhile p = r := by
  cases r with
  | nil => rfl
  | cons c t =>
    rw [stops_cons] at h
    simp [h]

theorem Stops.of_head?_eq {p : Char → Bool} {r r' : List Char} (h : Stops p r)
    (hhead : r'.head? = r.head?) : Stops p r' := by
  intro c hc
  rw [hhead] at hc
  exact h c hc

theorem takeWhile_append_of_stops {p : Char → Bool} {w r : List Char} (hw : ∀ c ∈ w, p c = true)
    (hr : Stops p r) : (w ++ r).takeWhile p = w := by
  rw [List.takeWhile_append_of_pos hw, hr.takeWhile_eq_nil, List.append_nil]

theorem dropWhile_append_of_stops {p : Char → Bool} {w r : List Char} (hw : ∀ c ∈ w, p c = true)
    (hr : Stops p r) : (w ++ r).dropWhile p = r := by
  rw [List.dropWhile_append_of_pos hw, hr.dropWhile_eq]

theorem forall_or_exists (p : Char → Bool) (w : List Char) :
    (∀ c ∈ w, p c = true) ∨ ∃ c ∈ w, p c = false := by
  cases h : w.all p with
  | true => exact Or.inl (List.all_eq_true.mp h)
  | false => exact Or.inr (by simpa using h)

/-! ## Last characters -/

theorem getLast?_append_ne {a b : List Char} {c : Char} (ha : a.getLast? ≠ some c)
    (hb : b.getLast? ≠ some c) : (a ++ b).getLast? ≠ some c := by
  rw [List.getLast?_append]
  cases hlast : b.getLast? with
  | none => simpa using ha
  | some d =>
    rw [hlast] at hb
    simpa using hb

end LineShell
