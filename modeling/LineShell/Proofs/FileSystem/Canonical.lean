import LineShell.Proofs.FileSystem.Place
import Mathlib.Data.List.Nodup

/-!
# Canonical paths of directories

Resolving a path and walking it are different functions: the one takes a missing name at its
word, keeps what it knows of a link, and gives up on a link inside itself.  On a path that leads
somewhere they agree.  The links that are being resolved are counted by how many links their
targets lead over; each one inside another has a smaller count, so none is met twice, and there
are never more of them than there are entries.
-/

namespace LineShell

namespace FileSystem

/-- The target of a link leads to a location, over so many further links. -/
def LinkLeads (fs : FileSystem) (n : Nat) (link loc : Location) : Prop :=
  ∃ target, fs.linkTarget? link = some target ∧
    fs.Leads n (linkStart link.dropLast target) (Path.names target) loc

theorem LinkLeads.unique {fs : FileSystem} {n n' : Nat} {link loc loc' : Location}
    (h : fs.LinkLeads n link loc) (h' : fs.LinkLeads n' link loc') : n = n' ∧ loc = loc' := by
  obtain ⟨target, htarget, hleads⟩ := h
  obtain ⟨target', htarget', hleads'⟩ := h'
  rw [htarget] at htarget'
  cases htarget'
  exact hleads.unique hleads'

theorem mem_entries_of_linkTarget? {fs : FileSystem} {link : Location} {target : String}
    (h : fs.linkTarget? link = some target) : (link, .link target) ∈ fs.entries := by
  have hnode := linkTarget?_eq_some_iff.mp h
  unfold node? at hnode
  split at hnode
  · simp at hnode
  · obtain ⟨before, after, hentries, -⟩ := List.lookup_eq_some_iff.mp hnode
    rw [hentries]
    simp

theorem LinkLeads.mem_entries {fs : FileSystem} {n : Nat} {link loc : Location}
    (h : fs.LinkLeads n link loc) : link ∈ fs.entries.map Prod.fst := by
  obtain ⟨target, htarget, -⟩ := h
  exact List.mem_map_of_mem (mem_entries_of_linkTarget? htarget)

/-! ## The links that are being resolved -/

/-- The links that are being resolved, before names that lead over `n` links: each leads over at
least as many, and so many more links can be entered one inside the other. -/
structure Pending (fs : FileSystem) (n depth : Nat) (links : List Location) : Prop where
  nodup : links.Nodup
  deeper : ∀ link ∈ links, ∃ k loc, n ≤ k ∧ fs.LinkLeads k link loc
  depth_bound : fs.entries.length ≤ links.length + depth

namespace Pending

theorem mono {fs : FileSystem} {m n depth : Nat} {links : List Location}
    (h : fs.Pending n depth links) (hle : m ≤ n) : fs.Pending m depth links := by
  refine ⟨h.nodup, ?_, h.depth_bound⟩
  intro link hlink
  obtain ⟨k, loc, hk, hleads⟩ := h.deeper link hlink
  exact ⟨k, loc, Nat.le_trans hle hk, hleads⟩

theorem length_le {fs : FileSystem} {links : List Location} (hnodup : links.Nodup)
    (hleads : ∀ link ∈ links, ∃ k loc, fs.LinkLeads k link loc) :
    links.length ≤ fs.entries.length := by
  have hsubset : links ⊆ fs.entries.map Prod.fst := by
    intro link hlink
    obtain ⟨k, loc, hlink⟩ := hleads link hlink
    exact hlink.mem_entries
  simpa using hnodup.length_le_of_subset hsubset

/-- A link that leads over fewer links than there are to go is not being resolved. -/
theorem notMem {fs : FileSystem} {k n depth : Nat} {links : List Location} {link loc : Location}
    (h : fs.Pending n depth links) (hleads : fs.LinkLeads k link loc) (hlt : k < n) :
    link ∉ links := by
  intro hmem
  obtain ⟨k', loc', hle, hleads'⟩ := h.deeper link hmem
  have hcount := (hleads.unique hleads').1
  omega

/-- There is room to enter such a link. -/
theorem enter {fs : FileSystem} {k n depth : Nat} {links : List Location} {link loc : Location}
    (h : fs.Pending n depth links) (hleads : fs.LinkLeads k link loc) (hlt : k < n) :
    ∃ rest, depth = rest + 1 ∧ fs.Pending k rest (link :: links) := by
  have hnodup : (link :: links).Nodup := List.nodup_cons.mpr ⟨h.notMem hleads hlt, h.nodup⟩
  have hdeeper : ∀ other ∈ link :: links, ∃ j loc, k ≤ j ∧ fs.LinkLeads j other loc := by
    intro other hother
    rcases List.mem_cons.mp hother with rfl | hold
    · exact ⟨k, loc, Nat.le_refl k, hleads⟩
    · exact (h.mono (Nat.le_of_lt hlt)).deeper other hold
  have hlength : (link :: links).length ≤ fs.entries.length := by
    apply length_le hnodup
    intro other hother
    obtain ⟨j, loc, -, hother⟩ := hdeeper other hother
    exact ⟨j, loc, hother⟩
  have hbound := h.depth_bound
  rw [List.length_cons] at hlength
  refine ⟨depth - 1, by omega, hnodup, hdeeper, ?_⟩
  rw [List.length_cons]
  omega

end Pending

/-- The table of the links that were seen tells the truth. -/
structure SeenLinks.Agrees (fs : FileSystem) (links : List Location) (seen : SeenLinks) : Prop where
  unresolved_iff : ∀ link, seen.lookup link = some none ↔ link ∈ links
  resolved : ∀ link loc, seen.lookup link = some (some loc) →
    NullFree loc ∧ ∃ n, fs.LinkLeads n link loc

theorem lookup_seen_cons (seen : SeenLinks) (link other : Location) (found : Option Location) :
    ((link, found) :: seen).lookup other =
      if other = link then some found else seen.lookup other := by
  by_cases h : other = link
  · simp [h]
  · have hne : (other == link) = false := by simpa using h
    simp [List.lookup_cons, hne, h]

theorem SeenLinks.Agrees.enter {fs : FileSystem} {links : List Location} {seen : SeenLinks}
    (h : SeenLinks.Agrees fs links seen) (link : Location) :
    SeenLinks.Agrees fs (link :: links) ((link, none) :: seen) := by
  constructor
  · intro other
    rw [lookup_seen_cons, List.mem_cons]
    by_cases hother : other = link
    · simp [hother]
    · simp [hother, h.unresolved_iff]
  · intro other loc hlookup
    rw [lookup_seen_cons] at hlookup
    split at hlookup
    · simp at hlookup
    · exact h.resolved other loc hlookup

theorem SeenLinks.Agrees.leave {fs : FileSystem} {links : List Location} {seen : SeenLinks}
    {n : Nat} {link loc : Location} (h : SeenLinks.Agrees fs (link :: links) seen)
    (hlink : link ∉ links) (hnull : NullFree loc) (hleads : fs.LinkLeads n link loc) :
    SeenLinks.Agrees fs links ((link, some loc) :: seen) := by
  constructor
  · intro other
    rw [lookup_seen_cons]
    by_cases hother : other = link
    · subst hother
      simp [hlink]
    · rw [if_neg hother, h.unresolved_iff, List.mem_cons]
      simp [hother]
  · intro other found hlookup
    rw [lookup_seen_cons] at hlookup
    split at hlookup
    · next hother =>
      subst hother
      cases hlookup
      exact ⟨hnull, n, hleads⟩
    · exact h.resolved other found hlookup

/-! ## Resolving what leads somewhere -/

/-- How the target of a link is resolved, with so many links one inside the other. -/
def linkResolver (fs : FileSystem) : Nat → Resolver
  | 0 => fun seen here names => .ok ⟨appendNames here names, false, seen⟩
  | depth + 1 => fs.resolver depth

theorem resolver_eq (fs : FileSystem) (depth : Nat) :
    fs.resolver depth = fs.resolveNames (fs.linkResolver depth) := by
  cases depth <;> rfl

theorem NullFree.concat {here : Location} {name : String} (h : NullFree here)
    (hname : name.toList.contains '\x00' = false) : NullFree (here ++ [name]) := by
  intro other hother
  rcases List.mem_append.mp hother with hold | hnew
  · exact h other hold
  · rw [List.mem_singleton.mp hnew]
    simpa using hname

theorem NullFree.linkStart {here : Location} (h : NullFree here) (target : String) :
    NullFree (linkStart here target) := by
  unfold FileSystem.linkStart
  split
  · simp [NullFree]
  · exact h

/-- If names lead somewhere, then resolving them finds the same location, unless it meets a null
character. -/
theorem Leads.resolver_ok {fs : FileSystem} {n depth : Nat} {here loc : Location}
    {names : List String} {links : List Location} {seen : SeenLinks} {r : Resolution}
    (h : fs.Leads n here names loc) (hlinks : fs.Pending n depth links)
    (hseen : SeenLinks.Agrees fs links seen) (hnull : NullFree here)
    (hr : fs.resolver depth seen here names = .ok r) :
    r.names = loc ∧ r.complete = true ∧ NullFree loc ∧ SeenLinks.Agrees fs links r.seen := by
  induction h generalizing depth links seen r with
  | done here =>
    rw [resolver_eq, resolveNames, Except.ok.injEq] at hr
    subst hr
    exact ⟨rfl, rfl, hnull, hseen⟩
  | stay hhere hname hrest ih =>
    rw [resolver_eq, resolveNames, if_pos hname, ← resolver_eq] at hr
    exact ih hlinks hseen hnull hr
  | up hhere hrest ih =>
    rw [resolver_eq, resolveNames, if_neg (by simp), if_pos rfl, ← resolver_eq] at hr
    exact ih hlinks hseen (fun name hname => hnull name (List.dropLast_subset _ hname)) hr
  | down hhere hname hsize hlink hrest ih =>
    rw [resolver_eq, resolveNames, if_neg fun hstay => not_isEntryName hstay hname,
      if_neg hname.ne_dots] at hr
    split at hr
    · simp at hr
    · next hfree =>
      simp only [hlink] at hr
      rw [← resolver_eq] at hr
      exact ih hlinks hseen (hnull.concat (by simpa using hfree)) hr
  | @follow k j here middle loc name target rest hhere hname hsize hlink htarget hrest ihtarget
      ihrest =>
    have hleads : fs.LinkLeads k (here ++ [name]) middle :=
      ⟨target, hlink, by rw [List.dropLast_concat]; exact htarget⟩
    have hlt : k < k + j + 1 := by omega
    have hlater : fs.Pending j depth links := hlinks.mono (by omega)
    rw [resolver_eq, resolveNames, if_neg fun hstay => not_isEntryName hstay hname,
      if_neg hname.ne_dots] at hr
    split at hr
    · simp at hr
    · simp only [hlink] at hr
      split at hr
      · next found hlookup =>
        -- the link was resolved before
        obtain ⟨hfound, m, hknown⟩ := hseen.resolved _ _ hlookup
        obtain ⟨-, rfl⟩ := hknown.unique hleads
        rw [← resolver_eq] at hr
        exact ihrest hlater hseen hfound hr
      · next hlookup =>
        exact absurd ((hseen.unresolved_iff _).mp hlookup) (hlinks.notMem hleads hlt)
      · obtain ⟨inside, rfl, hentered⟩ := hlinks.enter hleads hlt
        split at hr
        · simp at hr
        · next inner hinner =>
          obtain ⟨hnames, hcomplete, hmiddle, hagrees⟩ :=
            ihtarget hentered (hseen.enter _) (hnull.linkStart target) hinner
          rw [if_pos hcomplete, hnames, ← resolver_eq] at hr
          exact ihrest hlater (hagrees.leave (hlinks.notMem hleads hlt) hmiddle hleads) hmiddle hr

/-- The same for a table without links, and links nowhere inside others. -/
theorem Leads.resolver_empty_ok {fs : FileSystem} {n : Nat} {here loc : Location}
    {names : List String} {r : Resolution} (h : fs.Leads n here names loc)
    (hnull : NullFree here) (hr : fs.resolver fs.entries.length [] here names = .ok r) :
    r.names = loc ∧ NullFree loc := by
  have hlinks : fs.Pending n fs.entries.length [] := ⟨List.nodup_nil, by simp, by simp⟩
  have hseen : SeenLinks.Agrees fs [] [] := ⟨by simp, by simp⟩
  obtain ⟨hnames, -, hfree, -⟩ := h.resolver_ok hlinks hseen hnull hr
  exact ⟨hnames, hfree⟩

/-! ## Null characters -/

/-- No link of the file system holds a null character, as no path can. -/
def NullFreeLinks (fs : FileSystem) : Prop :=
  ∀ link target, fs.linkTarget? link = some target → '\x00' ∉ target.toList

theorem SameTree.nullFreeLinks {fs fs' : FileSystem} (hsame : fs.SameTree fs')
    (h : fs.NullFreeLinks) : fs'.NullFreeLinks := by
  intro link target htarget
  rw [hsame.linkTarget?_eq] at htarget
  exact h link target htarget

theorem resolveNames_succeeds {fs : FileSystem} (hfs : fs.NullFreeLinks) {enter : Resolver}
    (henter : ∀ seen here names, NullFree names → ∃ r, enter seen here names = .ok r)
    {names : List String} (hnames : NullFree names) (seen : SeenLinks) (here : Location) :
    ∃ r, fs.resolveNames enter seen here names = .ok r := by
  induction names generalizing seen here with
  | nil => exact ⟨_, rfl⟩
  | cons name rest ih =>
    have hrest : NullFree rest := fun other hother => hnames other (List.mem_cons_of_mem _ hother)
    have hname : ¬ name.toList.contains '\x00' = true := by
      simpa using hnames name List.mem_cons_self
    rw [resolveNames]
    split
    · exact ih hrest seen here
    · split
      · exact ih hrest seen here.dropLast
      · simp only
        split
        · exact ih hrest seen _
        · next target htarget =>
          split
          · exact ih hrest seen _
          · exact ⟨_, rfl⟩
          · obtain ⟨inner, hinner⟩ := henter ((here ++ [name], none) :: seen)
              (linkStart here target) (Path.names target) (nullFree_names (hfs _ _ htarget))
            rw [hinner]
            simp only
            split
            · exact ih hrest _ _
            · exact ⟨_, rfl⟩

theorem resolver_succeeds {fs : FileSystem} (hfs : fs.NullFreeLinks) (depth : Nat)
    {names : List String} (hnames : NullFree names) (seen : SeenLinks) (here : Location) :
    ∃ r, fs.resolver depth seen here names = .ok r := by
  induction depth generalizing names seen here with
  | zero => exact resolveNames_succeeds hfs (fun _ _ _ _ => ⟨_, rfl⟩) hnames seen here
  | succ depth ih =>
    exact resolveNames_succeeds hfs (fun seen here _ hnames => ih hnames seen here) hnames seen here

/-- Where no link holds a null character, every path without one has a canonical path. -/
theorem canonicalPath_succeeds {fs : FileSystem} (hfs : fs.NullFreeLinks) (cwd : String)
    {path : String} (hpath : '\x00' ∉ path.toList) : ∃ p, fs.canonicalPath cwd path = .ok p := by
  obtain ⟨r, hr⟩ := resolver_succeeds hfs fs.entries.length (nullFree_names hpath) []
    (if Path.isAbsolute path then [] else Path.normalize (Path.names cwd))
  rw [canonicalPath]
  simp only [hr]
  exact ⟨_, rfl⟩

/-! ## Directories -/

theorem null_notMem_of_resolve {fs : FileSystem} {follow : Bool} {cwd path : String}
    {result : Location × Option Node} (h : fs.resolve follow cwd path = .ok result) :
    '\x00' ∉ path.toList := by
  unfold resolve at h
  split at h
  · simp at h
  · next hnull => simpa using hnull

theorem leads_of_resolve {fs : FileSystem} {cwd path : String} {loc : Location}
    {node : Option Node} (h : fs.resolve true cwd path = .ok (loc, node)) :
    ∃ n, fs.Leads n [] (Path.names (Path.join cwd path)) loc := by
  unfold resolve at h
  split at h
  · simp at h
  · split at h
    · simp at h
    · exact leads_of_walk h

/-- The canonical path of a place is the path of its names. -/
theorem Leads.canonical {fs : FileSystem} {n : Nat} {here loc : Location} {names : List String}
    {r : Resolution} (h : fs.Leads n here names loc) (hhere : fs.Place here)
    (hnull : NullFree here) (hslash : ∀ name ∈ names, '/' ∉ name.toList)
    (hr : fs.resolver fs.entries.length [] here names = .ok r) :
    Path.ofLocation (Path.normalize r.names) = Path.ofLocation loc ∧ fs.Place loc ∧
      NullFree loc := by
  obtain ⟨rfl, hfree⟩ := h.resolver_empty_ok hnull hr
  have hplace := h.place hhere hslash
  exact ⟨by rw [hplace.normalize_eq], hplace, hfree⟩

/-- An absolute path that leads somewhere has the canonical path of the place it leads to. -/
theorem canonicalPath_of_leads {fs : FileSystem} {n : Nat} {cwd path p : String} {loc : Location}
    (habsolute : Path.isAbsolute path = true) (h : fs.Leads n [] (Path.names path) loc)
    (hp : fs.canonicalPath cwd path = .ok p) :
    p = Path.ofLocation loc ∧ fs.Place loc ∧ NullFree loc := by
  unfold canonicalPath at hp
  simp only [habsolute, if_true] at hp
  split at hp
  · simp at hp
  · next r hr =>
    have hplace := h.canonical .root (by simp [NullFree])
      (fun _ hname => Path.slash_notMem_of_mem_names hname) hr
    rw [hplace.1] at hp
    exact ⟨(Except.ok.inj hp).symm, hplace.2⟩

/-- So does a relative one, if the working directory is told by its canonical path. -/
theorem canonicalPath_of_resolve {fs : FileSystem} {cwd path p : String} {loc : Location}
    {node : Option Node}
    (hstart : Path.isAbsolute path = true ∨ fs.canonicalPath cwd cwd = .ok cwd)
    (h : fs.resolve true cwd path = .ok (loc, node)) (hp : fs.canonicalPath cwd path = .ok p) :
    p = Path.ofLocation loc ∧ fs.Place loc ∧ NullFree loc := by
  obtain ⟨n, hleads⟩ := leads_of_resolve h
  cases habsolute : Path.isAbsolute path with
  | true =>
    rw [Path.join_of_isAbsolute habsolute] at hleads
    exact canonicalPath_of_leads habsolute hleads hp
  | false =>
    have hcwd : fs.canonicalPath cwd cwd = .ok cwd := by simpa [habsolute] using hstart
    have hcwdAbsolute := isAbsolute_of_canonicalPath hcwd
    obtain ⟨i, j, middle, hfront, hback⟩ := hleads.split_join hcwdAbsolute habsolute
    obtain ⟨hmiddle, hplace, hnull⟩ := canonicalPath_of_leads hcwdAbsolute hfront hcwd
    unfold canonicalPath at hp
    simp only [habsolute, Bool.false_eq_true, if_false] at hp
    rw [hmiddle, hplace.normalize_names] at hp
    split at hp
    · simp at hp
    · next r hr =>
      have hcanonical := hback.canonical hplace hnull
        (fun _ hname => Path.slash_notMem_of_mem_names hname) hr
      rw [hcanonical.1] at hp
      exact ⟨(Except.ok.inj hp).symm, hcanonical.2⟩

/-- The canonical path of a directory is a path of that directory. -/
theorem isDirectory_canonicalPath {fs : FileSystem} {cwd path p : String}
    (hstart : Path.isAbsolute path = true ∨ fs.canonicalPath cwd cwd = .ok cwd)
    (h : fs.isDirectory cwd path = true) (hp : fs.canonicalPath cwd path = .ok p) :
    fs.isDirectory cwd p = true := by
  obtain ⟨loc, hresolve⟩ := isDirectory_iff.mp h
  obtain ⟨rfl, hplace, hnull⟩ := canonicalPath_of_resolve hstart hresolve hp
  apply isDirectory_iff.mpr
  refine ⟨loc, ?_⟩
  rw [hplace.resolve_eq hnull, resolve_node hresolve]

end FileSystem

end LineShell
