import LineShell.Proofs.FileSystem.Tree
import LineShell.FileSystem.Canonical

/-!
# Where names lead

A walk that succeeds is a derivation: each name stays, goes up, goes down, or follows a link.
The derivation counts the links, those inside links included.  It is unique, so a link that
leads anywhere is never met again while its own target is walked: the count would have to be
smaller than itself.
-/

namespace LineShell

/-- A name that stands for an entry of a directory. -/
structure IsEntryName (name : String) : Prop where
  ne_empty : name ≠ ""
  ne_dot : name ≠ "."
  ne_dots : name ≠ ".."

theorem not_isEntryName {name : String} (h : name = "" ∨ name = ".") : ¬ IsEntryName name := by
  intro hname
  cases h with
  | inl h => exact hname.ne_empty h
  | inr h => exact hname.ne_dot h

namespace FileSystem

/-- Names lead from one location to another one, over so many links. -/
inductive Leads (fs : FileSystem) : Nat → Location → List String → Location → Prop
  | done (here : Location) : Leads fs 0 here [] here
  | stay {n : Nat} {here loc : Location} {name : String} {rest : List String}
      (hhere : fs.node? here = some .directory) (hname : name = "" ∨ name = ".")
      (hrest : Leads fs n here rest loc) : Leads fs n here (name :: rest) loc
  | up {n : Nat} {here loc : Location} {rest : List String}
      (hhere : fs.node? here = some .directory) (hrest : Leads fs n here.dropLast rest loc) :
      Leads fs n here (".." :: rest) loc
  | down {n : Nat} {here loc : Location} {name : String} {rest : List String}
      (hhere : fs.node? here = some .directory) (hname : IsEntryName name)
      (hsize : name.utf8ByteSize ≤ maxNameBytes) (hlink : fs.linkTarget? (here ++ [name]) = none)
      (hrest : Leads fs n (here ++ [name]) rest loc) : Leads fs n here (name :: rest) loc
  | follow {k n : Nat} {here middle loc : Location} {name target : String} {rest : List String}
      (hhere : fs.node? here = some .directory) (hname : IsEntryName name)
      (hsize : name.utf8ByteSize ≤ maxNameBytes)
      (hlink : fs.linkTarget? (here ++ [name]) = some target)
      (htarget : Leads fs k (linkStart here target) (Path.names target) middle)
      (hrest : Leads fs n middle rest loc) : Leads fs (k + n + 1) here (name :: rest) loc

/-- Where names lead, and over how many links, is determined. -/
theorem Leads.unique {fs : FileSystem} {n n' : Nat} {here loc loc' : Location}
    {names : List String} (h : fs.Leads n here names loc) (h' : fs.Leads n' here names loc') :
    n = n' ∧ loc = loc' := by
  induction h generalizing n' loc' with
  | done here =>
    cases h'
    exact ⟨rfl, rfl⟩
  | stay hhere hname hrest ih =>
    cases h' with
    | stay hhere' hname' hrest' => exact ih hrest'
    | up hhere' hrest' => simp at hname
    | down hhere' hname' hsize' hlink' hrest' => exact absurd hname' (not_isEntryName hname)
    | follow hhere' hname' hsize' hlink' htarget' hrest' =>
      exact absurd hname' (not_isEntryName hname)
  | up hhere hrest ih =>
    cases h' with
    | stay hhere' hname' hrest' => simp at hname'
    | up hhere' hrest' => exact ih hrest'
    | down hhere' hname' hsize' hlink' hrest' => exact absurd rfl hname'.ne_dots
    | follow hhere' hname' hsize' hlink' htarget' hrest' => exact absurd rfl hname'.ne_dots
  | down hhere hname hsize hlink hrest ih =>
    cases h' with
    | stay hhere' hname' hrest' => exact absurd hname (not_isEntryName hname')
    | up hhere' hrest' => exact absurd rfl hname.ne_dots
    | down hhere' hname' hsize' hlink' hrest' => exact ih hrest'
    | follow hhere' hname' hsize' hlink' htarget' hrest' =>
      rw [hlink] at hlink'
      simp at hlink'
  | follow hhere hname hsize hlink htarget hrest ihtarget ihrest =>
    cases h' with
    | stay hhere' hname' hrest' => exact absurd hname (not_isEntryName hname')
    | up hhere' hrest' => exact absurd rfl hname.ne_dots
    | down hhere' hname' hsize' hlink' hrest' =>
      rw [hlink] at hlink'
      simp at hlink'
    | follow hhere' hname' hsize' hlink' htarget' hrest' =>
      rw [hlink] at hlink'
      cases hlink'
      obtain ⟨rfl, rfl⟩ := ihtarget htarget'
      obtain ⟨rfl, rfl⟩ := ihrest hrest'
      exact ⟨rfl, rfl⟩

theorem Leads.split {fs : FileSystem} {n : Nat} {here loc : Location} {front back : List String}
    (h : fs.Leads n here (front ++ back) loc) :
    ∃ i j middle, fs.Leads i here front middle ∧ fs.Leads j middle back loc ∧ n = i + j := by
  induction front generalizing n here with
  | nil => exact ⟨0, n, here, .done here, h, (Nat.zero_add n).symm⟩
  | cons name front ih =>
    cases h with
    | stay hhere hname hrest =>
      obtain ⟨i, j, middle, hfront, hback, hn⟩ := ih hrest
      exact ⟨i, j, middle, .stay hhere hname hfront, hback, hn⟩
    | up hhere hrest =>
      obtain ⟨i, j, middle, hfront, hback, hn⟩ := ih hrest
      exact ⟨i, j, middle, .up hhere hfront, hback, hn⟩
    | down hhere hname hsize hlink hrest =>
      obtain ⟨i, j, middle, hfront, hback, hn⟩ := ih hrest
      exact ⟨i, j, middle, .down hhere hname hsize hlink hfront, hback, hn⟩
    | @follow k _ _ _ _ _ _ _ hhere hname hsize hlink htarget hrest =>
      obtain ⟨i, j, middle, hfront, hback, rfl⟩ := ih hrest
      exact ⟨k + i + 1, j, middle, .follow hhere hname hsize hlink htarget hfront, hback, by omega⟩

theorem Leads.append {fs : FileSystem} {i j : Nat} {here middle loc : Location}
    {front back : List String} (hfront : fs.Leads i here front middle)
    (hback : fs.Leads j middle back loc) : fs.Leads (i + j) here (front ++ back) loc := by
  induction hfront with
  | done here =>
    rw [Nat.zero_add]
    exact hback
  | stay hhere hname _ ih => exact .stay hhere hname (ih hback)
  | up hhere _ ih => exact .up hhere (ih hback)
  | down hhere hname hsize hlink _ ih => exact .down hhere hname hsize hlink (ih hback)
  | @follow k n _ _ _ _ _ _ hhere hname hsize hlink htarget _ _ ih =>
    have hcount : k + n + 1 + j = k + (n + j) + 1 := by omega
    rw [hcount]
    exact .follow hhere hname hsize hlink htarget (ih hback)

/-! ## Walks and derivations -/

theorem linkTarget?_eq_some_iff {fs : FileSystem} {loc : Location} {target : String} :
    fs.linkTarget? loc = some target ↔ fs.node? loc = some (.link target) := by
  unfold linkTarget?
  split
  · next other h => simp [h]
  · next h =>
    simp only [reduceCtorEq, false_iff]
    exact h target

/-- One step of a walk that follows the links it meets. -/
theorem walkNames_cons_eq_ok_iff {fs : FileSystem} {jump : Walk} {here : Location} {name : String}
    {rest : List String} {result : Location × Option Node} :
    fs.walkNames true jump here (name :: rest) = .ok result ↔
      fs.node? here = some .directory ∧
        if name = "" ∨ name = "." then fs.walkNames true jump here rest = .ok result
        else if name = ".." then fs.walkNames true jump here.dropLast rest = .ok result
        else name.utf8ByteSize ≤ maxNameBytes ∧
          match fs.linkTarget? (here ++ [name]) with
          | some target => jump (linkStart here target) (Path.names target ++ rest) = .ok result
          | none => fs.walkNames true jump (here ++ [name]) rest = .ok result := by
  rw [walkNames]
  cases hhere : fs.node? here with
  | none => simp
  | some node =>
    cases node with
    | directory =>
      simp only [true_and]
      split
      · rfl
      · split
        · rfl
        · split
          · next hsize => simp [Nat.not_le.mpr hsize]
          · next hsize =>
            simp only [Nat.not_lt.mp hsize, true_and]
            split
            · next target htarget =>
              rw [linkTarget?_eq_some_iff.mpr htarget]
              simp
            · next hno =>
              have hnone : fs.linkTarget? (here ++ [name]) = none := by
                rw [Option.eq_none_iff_forall_ne_some]
                intro target htarget
                exact hno target (linkTarget?_eq_some_iff.mp htarget)
              rw [hnone]
    | file content program => simp
    | link target => simp

theorem leads_of_walkNames {fs : FileSystem} {jump : Walk}
    (hjump : ∀ here names loc node, jump here names = .ok (loc, node) →
      ∃ n, fs.Leads n here names loc)
    {names : List String} {here loc : Location} {node : Option Node}
    (h : fs.walkNames true jump here names = .ok (loc, node)) : ∃ n, fs.Leads n here names loc := by
  induction names generalizing here with
  | nil =>
    simp only [walkNames, Except.ok.injEq, Prod.mk.injEq] at h
    rw [← h.1]
    exact ⟨0, .done here⟩
  | cons name rest ih =>
    obtain ⟨hhere, h⟩ := walkNames_cons_eq_ok_iff.mp h
    by_cases hstay : name = "" ∨ name = "."
    · rw [if_pos hstay] at h
      obtain ⟨n, hrest⟩ := ih h
      exact ⟨n, .stay hhere hstay hrest⟩
    · rw [if_neg hstay] at h
      by_cases hup : name = ".."
      · subst hup
        rw [if_pos rfl] at h
        obtain ⟨n, hrest⟩ := ih h
        exact ⟨n, .up hhere hrest⟩
      · rw [if_neg hup] at h
        obtain ⟨hsize, h⟩ := h
        have hname : IsEntryName name := by
          rw [not_or] at hstay
          exact ⟨hstay.1, hstay.2, hup⟩
        cases hlink : fs.linkTarget? (here ++ [name]) with
        | none =>
          rw [hlink] at h
          obtain ⟨n, hrest⟩ := ih h
          exact ⟨n, .down hhere hname hsize hlink hrest⟩
        | some target =>
          rw [hlink] at h
          obtain ⟨n, hjumped⟩ := hjump _ _ _ _ h
          obtain ⟨k, j, middle, htarget, hrest, -⟩ := hjumped.split
          exact ⟨k + j + 1, .follow hhere hname hsize hlink htarget hrest⟩

theorem leads_of_walk {fs : FileSystem} {links : Nat} {names : List String} {here loc : Location}
    {node : Option Node} (h : fs.walk true links here names = .ok (loc, node)) :
    ∃ n, fs.Leads n here names loc := by
  induction links generalizing names here loc node with
  | zero => exact leads_of_walkNames (by simp) h
  | succ links ih => exact leads_of_walkNames (fun _ _ _ _ => ih) h

/-- Names that lead over no link are walked without a jump. -/
theorem Leads.walkNames_eq {fs : FileSystem} {here loc : Location} {names : List String}
    (h : fs.Leads 0 here names loc) (jump : Walk) :
    fs.walkNames true jump here names = .ok (loc, fs.node? loc) := by
  generalize hn : 0 = n at h
  induction h with
  | done here => rfl
  | stay hhere hname _ ih =>
    apply walkNames_cons_eq_ok_iff.mpr
    rw [if_pos hname]
    exact ⟨hhere, ih hn⟩
  | up hhere _ ih =>
    apply walkNames_cons_eq_ok_iff.mpr
    rw [if_neg (by simp), if_pos rfl]
    exact ⟨hhere, ih hn⟩
  | down hhere hname hsize hlink _ ih =>
    apply walkNames_cons_eq_ok_iff.mpr
    rw [if_neg fun hstay => not_isEntryName hstay hname, if_neg hname.ne_dots, hlink]
    exact ⟨hhere, hsize, ih hn⟩
  | follow => simp at hn

theorem Leads.walk_eq {fs : FileSystem} {here loc : Location} {names : List String}
    (h : fs.Leads 0 here names loc) (links : Nat) :
    fs.walk true links here names = .ok (loc, fs.node? loc) := by
  cases links with
  | zero => exact h.walkNames_eq _
  | succ links => exact h.walkNames_eq _

/-! ## Directories stay where they are -/

theorem SameTree.linkTarget?_eq {fs fs' : FileSystem} (h : fs.SameTree fs') (loc : Location) :
    fs'.linkTarget? loc = fs.linkTarget? loc := by
  apply Option.ext
  intro target
  rw [linkTarget?_eq_some_iff, linkTarget?_eq_some_iff, h.link_iff]

theorem SameTree.walkNames_directory {fs fs' : FileSystem} (hsame : fs.SameTree fs')
    {jump jump' : Walk}
    (hjump : ∀ here names loc, jump here names = .ok (loc, some .directory) →
      jump' here names = .ok (loc, some .directory))
    {names : List String} {here loc : Location}
    (h : fs.walkNames true jump here names = .ok (loc, some .directory)) :
    fs'.walkNames true jump' here names = .ok (loc, some .directory) := by
  induction names generalizing here with
  | nil =>
    simp only [walkNames, Except.ok.injEq, Prod.mk.injEq] at h ⊢
    exact ⟨h.1, (hsame.directory_iff here).mp h.2⟩
  | cons name rest ih =>
    obtain ⟨hhere, h⟩ := walkNames_cons_eq_ok_iff.mp h
    apply walkNames_cons_eq_ok_iff.mpr
    refine ⟨(hsame.directory_iff here).mp hhere, ?_⟩
    rw [hsame.linkTarget?_eq]
    split at h
    · next hstay =>
      rw [if_pos hstay]
      exact ih h
    · next hstay =>
      rw [if_neg hstay]
      split at h
      · next hup =>
        rw [if_pos hup]
        exact ih h
      · next hup =>
        rw [if_neg hup]
        refine ⟨h.1, ?_⟩
        cases hlink : fs.linkTarget? (here ++ [name]) with
        | none =>
          rw [hlink] at h
          exact ih h.2
        | some target =>
          rw [hlink] at h
          exact hjump _ _ _ h.2

theorem SameTree.walk_directory {fs fs' : FileSystem} (hsame : fs.SameTree fs') {links : Nat}
    {names : List String} {here loc : Location}
    (h : fs.walk true links here names = .ok (loc, some .directory)) :
    fs'.walk true links here names = .ok (loc, some .directory) := by
  induction links generalizing names here loc with
  | zero => exact hsame.walkNames_directory (by simp) h
  | succ links ih => exact hsame.walkNames_directory (fun _ _ _ => ih) h

theorem isDirectory_iff {fs : FileSystem} {cwd path : String} :
    fs.isDirectory cwd path = true ↔
      ∃ loc, fs.resolve true cwd path = .ok (loc, some .directory) := by
  unfold isDirectory stat?
  constructor
  · intro h
    split at h
    · next loc node hresolve =>
      have hnode : node = some .directory := by simpa using h
      exact ⟨loc, by rw [hresolve, hnode]⟩
    · simp at h
  · rintro ⟨loc, hresolve⟩
    simp [hresolve]

theorem SameTree.isDirectory {fs fs' : FileSystem} (hsame : fs.SameTree fs') {cwd path : String}
    (h : fs.isDirectory cwd path = true) : fs'.isDirectory cwd path = true := by
  obtain ⟨loc, hresolve⟩ := isDirectory_iff.mp h
  apply isDirectory_iff.mpr
  refine ⟨loc, ?_⟩
  unfold resolve at hresolve ⊢
  split at hresolve
  · simp at hresolve
  · next hnull =>
    rw [if_neg hnull]
    split at hresolve
    · simp at hresolve
    · next hempty =>
      rw [if_neg hempty]
      exact hsame.walk_directory hresolve

end FileSystem

end LineShell
