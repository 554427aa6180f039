import LineShell.Proofs.Expansion.Order
import LineShell.Proofs.Session.Change

/-!
# Sessions that agree

Sessions agree on some names if the variables with these names are the same in both of them, be it
that they have the same value or that they are both unset, and all but the variables is the same
anyway.  What is read of a session only depends on some names: the ones that words refer to, the
exported ones, and a few that the shell itself asks for.
-/

namespace LineShell

/-! ## Names that are referred to -/

def Operand.references : Operand → List String
  | .file w => w.references
  | .descriptor _ => []

def Redirect.references (r : Redirect) : List String :=
  (r.source.elim [] Operand.references) ++ (r.target.elim [] Operand.references)

/-- The names that a line refers to, in its assignments, arguments and redirects. -/
def Line.references : Line → List String
  | .blank => []
  | .assignments as => as.flatMap fun a => a.value.references
  | .command c =>
      (c.assignments.flatMap fun a => a.value.references) ++ c.arguments.flatMap Word.references ++
        c.redirects.flatMap Redirect.references

/-! ## Agreement -/

namespace Session

structure AgreesOn (names : List String) (s s' : Session) : Prop where
  directory : s.directory = s'.directory
  stack : s.stack = s'.stack
  strict : s.strict = s'.strict
  /-- The same names are exported.  Their order does not matter. -/
  exported : s.exported.Perm s'.exported
  get?_eq : ∀ name ∈ names, s.get? name = s'.get? name

namespace AgreesOn

variable {names : List String} {s s' : Session}

theorem mono (h : s.AgreesOn names s') {names' : List String} (hsub : names' ⊆ names) :
    s.AgreesOn names' s' :=
  ⟨h.directory, h.stack, h.strict, h.exported, fun name hname => h.get?_eq name (hsub hname)⟩

/-! ### Changes -/

theorem set (h : s.AgreesOn names s') (name value : String) :
    (s.set name value).AgreesOn (name :: names) (s'.set name value) where
  directory := h.directory
  stack := h.stack
  strict := h.strict
  exported := h.exported
  get?_eq := by
    intro other hother
    rw [get?_set, get?_set]
    split
    · rfl
    · next hne => exact h.get?_eq other (List.mem_of_ne_of_mem hne hother)

theorem markExported (h : s.AgreesOn names s') (name : String) :
    (s.markExported name).AgreesOn names (s'.markExported name) where
  directory := h.directory
  stack := h.stack
  strict := h.strict
  exported := by
    simp only [Session.markExported, h.exported.contains_eq]
    split
    · exact h.exported
    · exact h.exported.append_right [name]
  get?_eq := h.get?_eq

theorem enter (h : s.AgreesOn names s') (dir : String) :
    (s.enter dir).AgreesOn names (s'.enter dir) :=
  have hset := (h.set "PWD" dir).mono (List.subset_cons_self "PWD" names)
  ⟨rfl, hset.stack, hset.strict, hset.exported, hset.get?_eq⟩

theorem restack (h : s.AgreesOn names s') {stack stack' : List String} (hstack : stack = stack') :
    AgreesOn names { s with stack := stack } { s' with stack := stack' } :=
  ⟨h.directory, hstack, h.strict, h.exported, h.get?_eq⟩

theorem storeOne (h : s.AgreesOn names s') (exporting : Bool) (name value : String) :
    (s.storeOne exporting name value).AgreesOn (name :: names)
      (s'.storeOne exporting name value) := by
  cases exporting with
  | false => exact h.set name value
  | true => exact (h.set name value).markExported name

theorem store (h : s.AgreesOn names s') (exporting : Bool) (stores : List (String × String)) :
    (s.store exporting stores).AgreesOn (stores.map Prod.fst ++ names)
      (s'.store exporting stores) := by
  induction stores generalizing names s s' with
  | nil => exact h
  | cons e stores ih =>
    have hrest := ih (h.storeOne exporting e.1 e.2)
    refine hrest.mono ?_
    intro name hname
    simpa [or_left_comm] using hname

theorem exportName (h : s.AgreesOn names s') (name : String) (value : Option String) :
    (Builtin.exportName s name value).AgreesOn names (Builtin.exportName s' name value) := by
  cases value with
  | none => exact h.markExported name
  | some value =>
    exact ((h.set name value).mono (List.subset_cons_self name names)).markExported name

/-- The exported names are listed in the same order. -/
theorem listing (h : s.AgreesOn names s') :
    s.exported.mergeSort (fun a b => a ≤ b) = s'.exported.mergeSort fun a b => a ≤ b := by
  refine List.Perm.eq_of_pairwise ?_ (pairwise_mergeSort_le s.exported)
    (pairwise_mergeSort_le s'.exported) ?_
  · intro a b _ _ hab hba
    exact String.le_antisymm hab hba
  · exact (List.mergeSort_perm _ _).trans (h.exported.trans (List.mergeSort_perm _ _).symm)

end AgreesOn

/-- Sessions that a command which refers to some names can not tell apart.  They also agree on the
names that are exported, and on those that the shell itself asks for. -/
structure Interchangeable (names : List String) (s s' : Session) : Prop extends
    AgreesOn names s s' where
  exported_subset : s.exported ⊆ names
  path_mem : "PATH" ∈ names
  home_mem : "HOME" ∈ names

theorem AgreesOn.interchangeable {names : List String} {s s' : Session}
    (h : s.AgreesOn (s.exported ++ ["PATH", "HOME"] ++ names) s') :
    s.Interchangeable (s.exported ++ ["PATH", "HOME"] ++ names) s' where
  toAgreesOn := h
  exported_subset := fun name hname => by simp [hname]
  path_mem := by simp
  home_mem := by simp

namespace Interchangeable

variable {names : List String} {s s' : Session}

theorem exportedVariables (h : s.Interchangeable names s') (name : String) :
    s.exportedVariables.get? name = s'.exportedVariables.get? name := by
  rw [get?_exportedVariables, get?_exportedVariables]
  by_cases hname : name ∈ s.exported
  · rw [if_pos hname, if_pos (h.exported.mem_iff.mp hname),
      h.get?_eq name (h.exported_subset hname)]
  · rw [if_neg hname, if_neg (mt h.exported.mem_iff.mpr hname)]

theorem searchPath (h : s.Interchangeable names s') : s.searchPath = s'.searchPath := by
  rw [Session.searchPath, Session.searchPath, h.get?_eq "PATH" h.path_mem]

/-- Behind values that are stored and exported, the sessions also agree on their names. -/
theorem store (h : s.Interchangeable names s') (stores : List (String × String)) :
    (s.store true stores).Interchangeable (stores.map Prod.fst ++ names)
      (s'.store true stores) where
  toAgreesOn := h.toAgreesOn.store true stores
  exported_subset := by
    intro name hname
    rcases ((s.describes_store true stores).mem_exported name).mp hname with hold | hnew
    · exact List.mem_append_right _ (h.exported_subset hold)
    · exact List.mem_append_left names hnew
  path_mem := List.mem_append_right _ h.path_mem
  home_mem := List.mem_append_right _ h.home_mem

end Interchangeable

end Session

namespace Assignment

/-- Assignments that refer to the same values make the same assignments. -/
theorem stores_congr (strict : Bool) {lookup lookup' : Lookup} {as : List Assignment}
    (h : ∀ a ∈ as, ∀ name ∈ a.value.references, lookup name = lookup' name) :
    stores strict lookup as = stores strict lookup' as ∧
      unset? strict lookup as = unset? strict lookup' as := by
  induction as generalizing lookup lookup' with
  | nil => exact ⟨rfl, rfl⟩
  | cons a as ih =>
    have hvalue := Expansion.one_congr (h a List.mem_cons_self) strict
    rw [stores, stores, unset?, unset?, hvalue]
    cases Expansion.one strict lookup' a.value with
    | error name => exact ⟨rfl, rfl⟩
    | ok value =>
      have hlater : ∀ b ∈ as, ∀ name ∈ b.value.references,
          (if name = a.name then some value else lookup name) =
            if name = a.name then some value else lookup' name := by
        intro b hb name hname
        rw [h b (List.mem_cons_of_mem a hb) name hname]
      obtain ⟨hstores, hunset⟩ := ih hlater
      exact ⟨congrArg _ hstores, hunset⟩

end Assignment

end LineShell
