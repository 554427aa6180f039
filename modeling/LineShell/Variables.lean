/-!
# Variables

A table from names to values.  A name keeps its place when its value changes, so the table is in
the order in which the names were first set.
-/

namespace LineShell

structure Variables where
  entries : List (String × String)
  deriving DecidableEq

namespace Variables

def empty : Variables := ⟨[]⟩

def get? (vars : Variables) (name : String) : Option String :=
  vars.entries.lookup name

/-- The value behind a name is changed, or added at the end. -/
def setIn (name value : String) : List (String × String) → List (String × String)
  | [] => [(name, value)]
  | (n, v) :: rest => if n = name then (name, value) :: rest else (n, v) :: setIn name value rest

def set (vars : Variables) (name value : String) : Variables :=
  ⟨setIn name value vars.entries⟩

def names (vars : Variables) : List String :=
  vars.entries.map Prod.fst

def restrict (vars : Variables) (names : List String) : Variables :=
  ⟨vars.entries.filter fun e => names.contains e.1⟩

theorem lookup_cons (other n v : String) (rest : List (String × String)) :
    ((n, v) :: rest).lookup other = if other = n then some v else rest.lookup other := by
  by_cases h : other = n
  · simp [h]
  · have hne : (other == n) = false := by simpa using h
    simp [List.lookup_cons, hne, h]

theorem lookup_setIn (name value other : String) (entries : List (String × String)) :
    (setIn name value entries).lookup other =
      if other = name then some value else entries.lookup other := by
  induction entries with
  | nil => simp [setIn]
  | cons e rest ih =>
    obtain ⟨n, v⟩ := e
    by_cases hn : n = name
    · by_cases h : other = name <;> simp [setIn, lookup_cons, hn, h]
    · by_cases h : other = n
      · simp [setIn, hn, h]
      · simp [setIn, lookup_cons, hn, h, ih]

theorem lookup_filter (names : List String) (name : String) (entries : List (String × String)) :
    (entries.filter fun e => names.contains e.1).lookup name =
      if name ∈ names then entries.lookup name else none := by
  induction entries with
  | nil => simp
  | cons e rest ih =>
    obtain ⟨n, v⟩ := e
    by_cases hn : n ∈ names
    · by_cases h : name = n
      · simp [hn, h]
      · simp only [List.contains_eq_mem] at ih
        simp [lookup_cons, hn, h, ih]
    · by_cases h : name = n
      · subst h
        simp only [List.contains_eq_mem] at ih
        simp [hn, ih]
      · simp only [List.contains_eq_mem] at ih
        simp [lookup_cons, hn, h, ih]

/-- After a variable is set it has the new value, and every other one has the value it had. -/
theorem get?_set (vars : Variables) (name value other : String) :
    (vars.set name value).get? other = if other = name then some value else vars.get? other :=
  lookup_setIn name value other vars.entries

theorem get?_restrict (vars : Variables) (names : List String) (name : String) :
    (vars.restrict names).get? name = if name ∈ names then vars.get? name else none :=
  lookup_filter names name vars.entries

end Variables

end LineShell
