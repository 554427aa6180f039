import LineShell.Proofs.FileSystem.Canonical

/-!
# Canonical paths are permanent

A canonical path depends on the links of a file system, and on how many of them may be resolved one
inside the other.  That bound is the number of entries, so it changes when a file is made.  But the
path of a directory is resolved without ever coming to the bound; its canonical path is the same
as long as no directory or link is removed or replaced.
-/

namespace LineShell

namespace FileSystem

/-- The bound on links inside each other has played no part. -/
def Settled : Except PathError Resolution → Prop
  | .error _ => True
  | .ok r => r.complete = true

/-! ## More links inside each other -/

/-- What is settled does not change if the targets of links are resolved better. -/
theorem resolveNames_settled {fs : FileSystem} {enter enter' : Resolver}
    (henter : ∀ seen here names, Settled (enter seen here names) →
      enter' seen here names = enter seen here names)
    {names : List String} {seen : SeenLinks} {here : Location}
    (h : Settled (fs.resolveNames enter seen here names)) :
    fs.resolveNames enter' seen here names = fs.resolveNames enter seen here names := by
  induction names generalizing seen here with
  | nil => rfl
  | cons name rest ih =>
    rw [resolveNames] at h ⊢
    rw [resolveNames]
    by_cases hstay : name = "" ∨ name = "."
    · simp only [if_pos hstay] at h ⊢
      exact ih h
    · by_cases hup : name = ".."
      · simp only [if_neg hstay, if_pos hup] at h ⊢
        exact ih h
      · by_cases hnull : name.toList.contains '\x00' = true
        · simp only [if_neg hstay, if_neg hup, if_pos hnull]
        · simp only [if_neg hstay, if_neg hup, if_neg hnull] at h ⊢
          cases hlink : fs.linkTarget? (here ++ [name]) with
          | none =>
            simp only [hlink] at h
            exact ih h
          | some target =>
            simp only [hlink] at h ⊢
            cases hseen : seen.lookup (here ++ [name]) with
            | some known =>
              cases known with
              | none => rfl
              | some loc =>
                simp only [hseen] at h
                exact ih h
            | none =>
              simp only [hseen] at h ⊢
              have hsame := henter ((here ++ [name], none) :: seen) (linkStart here target)
                (Path.names target)
              cases hinner : enter ((here ++ [name], none) :: seen) (linkStart here target)
                  (Path.names target) with
              | error e =>
                rw [hinner] at hsame
                rw [hsame trivial]
              | ok inner =>
                rw [hinner] at hsame
                simp only [hinner] at h
                by_cases hcomplete : inner.complete = true
                · simp only [if_pos hcomplete] at h
                  rw [hsame hcomplete]
                  simp only [if_pos hcomplete]
                  exact ih h
                · simp only [if_neg hcomplete] at h
                  exact absurd h (by simp [Settled])

theorem linkResolver_settled {fs : FileSystem} {depth depth' : Nat} (hle : depth ≤ depth')
    {seen : SeenLinks} {here : Location} {names : List String}
    (h : Settled (fs.linkResolver depth seen here names)) :
    fs.linkResolver depth' seen here names = fs.linkResolver depth seen here names := by
  induction depth generalizing depth' seen here names with
  | zero => exact absurd h (by simp [linkResolver, Settled])
  | succ depth ih =>
    cases depth' with
    | zero => omega
    | succ depth' =>
      have hle' : depth ≤ depth' := by omega
      rw [linkResolver, resolver_eq] at h
      rw [linkResolver, linkResolver, resolver_eq, resolver_eq]
      exact resolveNames_settled (fun seen here names hinner => ih hle' hinner) h

theorem resolver_settled {fs : FileSystem} {depth depth' : Nat} (hle : depth ≤ depth')
    {seen : SeenLinks} {here : Location} {names : List String}
    (h : Settled (fs.resolver depth seen here names)) :
    fs.resolver depth' seen here names = fs.resolver depth seen here names :=
  linkResolver_settled (Nat.succ_le_succ hle) h

/-- If names lead somewhere, then with as many links inside each other as there are entries it is
settled what they resolve to. -/
theorem Leads.settled {fs : FileSystem} {n : Nat} {names : List String} {loc : Location}
    (h : fs.Leads n [] names loc) : Settled (fs.resolver fs.entries.length [] [] names) := by
  have hlinks : fs.Pending n fs.entries.length [] := ⟨List.nodup_nil, by simp, by simp⟩
  have hseen : SeenLinks.Agrees fs [] [] := ⟨by simp, by simp⟩
  have hnull : NullFree ([] : Location) := by simp [NullFree]
  cases hr : fs.resolver fs.entries.length [] [] names with
  | error e => trivial
  | ok r =>
    have hresolved := h.resolver_ok hlinks hseen hnull hr
    exact hresolved.2.1

/-! ## Other files -/

theorem SameTree.resolveNames_eq {fs fs' : FileSystem} (h : fs.SameTree fs') (enter : Resolver) :
    fs'.resolveNames enter = fs.resolveNames enter := by
  funext seen here names
  induction names generalizing seen here with
  | nil => rfl
  | cons name rest ih => simp only [resolveNames, h.linkTarget?_eq, ih]

theorem SameTree.resolver_eq {fs fs' : FileSystem} (h : fs.SameTree fs') (depth : Nat) :
    fs'.resolver depth = fs.resolver depth := by
  induction depth with
  | zero =>
    rw [resolver, resolver]
    exact h.resolveNames_eq _
  | succ depth ih =>
    rw [resolver, resolver, ih]
    exact h.resolveNames_eq _

/-- The path of a directory has the same canonical path when other files have been made. -/
theorem SameTree.canonicalPath_eq {fs fs' : FileSystem} (h : fs.SameTree fs') {cwd path : String}
    (habsolute : Path.isAbsolute path = true) (hdir : fs.isDirectory cwd path = true) :
    fs'.canonicalPath cwd path = fs.canonicalPath cwd path := by
  have hsettled : ∀ fs : FileSystem, fs.isDirectory cwd path = true →
      Settled (fs.resolver fs.entries.length [] [] (Path.names path)) := by
    intro fs hdir
    obtain ⟨loc, hresolve⟩ := isDirectory_iff.mp hdir
    obtain ⟨n, hleads⟩ := leads_of_resolve hresolve
    rw [Path.join_of_isAbsolute habsolute] at hleads
    exact hleads.settled
  have hresolver : fs'.resolver fs'.entries.length [] [] (Path.names path) =
      fs.resolver fs.entries.length [] [] (Path.names path) := by
    calc fs'.resolver fs'.entries.length [] [] (Path.names path)
        = fs'.resolver (max fs.entries.length fs'.entries.length) [] [] (Path.names path) :=
          (resolver_settled (Nat.le_max_right _ _) (hsettled fs' (h.isDirectory hdir))).symm
      _ = fs.resolver (max fs.entries.length fs'.entries.length) [] [] (Path.names path) := by
          rw [h.resolver_eq]
      _ = fs.resolver fs.entries.length [] [] (Path.names path) :=
          resolver_settled (Nat.le_max_left _ _) (hsettled fs hdir)
  simp only [canonicalPath, habsolute, if_true, hresolver]

end FileSystem

end LineShell
