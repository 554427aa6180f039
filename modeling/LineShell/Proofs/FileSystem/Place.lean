import LineShell.Proofs.FileSystem.Walk
import Mathlib.Data.List.Basic

/-!
# Places

A place is a location that its own names lead to, through directories only.  Wherever names lead
from a place is a place again, so the path of its names can be given to anyone: it leads there
from every working directory.
-/

namespace LineShell

/-! ## Texts between separators -/

theorem notMem_and_subset_of_mem_splitOn {sep : Char} {cs part : List Char}
    (h : part ∈ cs.splitOn sep) : sep ∉ part ∧ part ⊆ cs := by
  induction cs generalizing part with
  | nil =>
    simp only [List.splitOn_nil, List.mem_singleton] at h
    simp [h]
  | cons c cs ih =>
    rw [List.splitOn_cons_eq_if_modifyHead] at h
    split at h
    · rcases List.mem_cons.mp h with hnil | hrest
      · simp [hnil]
      · exact ⟨(ih hrest).1, List.subset_cons_of_subset c (ih hrest).2⟩
    · next hc =>
      obtain ⟨first, others, hsplit⟩ := List.exists_cons_of_ne_nil (List.splitOn_ne_nil sep cs)
      rw [hsplit, List.modifyHead_cons] at h
      rw [hsplit] at ih
      rcases List.mem_cons.mp h with hfirst | hothers
      · obtain ⟨hsep, hsubset⟩ := @ih first List.mem_cons_self
        have hne : sep ≠ c := fun heq => hc (by simp [← heq])
        rw [hfirst]
        exact ⟨by simp [hsep, hne], List.cons_subset_cons c hsubset⟩
      · have hrest := ih (List.mem_cons_of_mem first hothers)
        exact ⟨hrest.1, List.subset_cons_of_subset c hrest.2⟩

/-- Texts that are joined by a separator none of them contains can be cut apart again. -/
theorem splitOn_toList_intercalate (sep : Char) {parts : List String} (hne : parts ≠ [])
    (h : ∀ part ∈ parts, sep ∉ part.toList) :
    (((String.ofList [sep]).intercalate parts).toList.splitOn sep).map String.ofList = parts := by
  have hsplit : ([sep].intercalate (parts.map String.toList)).splitOn sep =
      parts.map String.toList := by
    apply List.splitOn_intercalate
    · intro cs hcs
      obtain ⟨part, hpart, rfl⟩ := List.mem_map.mp hcs
      exact h part hpart
    · simpa using hne
  rw [String.toList_intercalate, String.toList_ofList, hsplit]
  simp [Function.comp_def]

/-! ## Names in paths -/

namespace Path

theorem slash_notMem_of_mem_names {path name : String} (h : name ∈ names path) :
    '/' ∉ name.toList := by
  obtain ⟨part, hpart, rfl⟩ := List.mem_map.mp h
  rw [String.toList_ofList]
  exact (notMem_and_subset_of_mem_splitOn hpart).1

theorem subset_of_mem_names {path name : String} (h : name ∈ names path) :
    name.toList ⊆ path.toList := by
  obtain ⟨part, hpart, rfl⟩ := List.mem_map.mp h
  rw [String.toList_ofList]
  exact (notMem_and_subset_of_mem_splitOn hpart).2

theorem names_ne_nil (path : String) : names path ≠ [] := by
  simp [names]

theorem names_append_slash (dir path : String) :
    names (dir ++ "/" ++ path) = names dir ++ names path := by
  have hlist : (dir ++ "/" ++ path).toList = dir.toList ++ '/' :: path.toList := by simp
  rw [names, hlist, List.splitOn_append_cons_self, List.map_append]
  rfl

theorem names_slash_append (path : String) : names ("/" ++ path) = "" :: names path := by
  have hsplit := names_append_slash "" path
  rw [String.empty_append] at hsplit
  exact hsplit

/-- The names of a joined path are those of the directory, up to a slash at its end, and then those
of the path. -/
theorem names_join {dir path : String} (hdir : isAbsolute dir = true)
    (hpath : isAbsolute path = false) :
    ∃ front tail, names dir = front ++ tail ∧ (tail = [] ∨ tail = [""]) ∧
      names (join dir path) = front ++ names path := by
  unfold join
  rw [hpath, if_neg (by simp)]
  split
  · next hend =>
    have hslash : endsWithSlash dir = true := by
      rcases Bool.or_eq_true_iff.mp hend with hempty | hslash
      · have hnil : dir = "" := String.isEmpty_iff.mp hempty
        subst hnil
        exact absurd hdir (by decide)
      · exact hslash
    obtain ⟨front, hfront⟩ := List.getLast?_eq_some_iff.mp (by simpa [endsWithSlash] using hslash)
    have htext : dir = String.ofList front ++ "/" := String.toList_inj.mp (by simpa using hfront)
    have hnames := names_append_slash (String.ofList front) ""
    rw [String.append_empty, ← htext] at hnames
    refine ⟨names (String.ofList front), [""], hnames, Or.inr rfl, ?_⟩
    rw [htext]
    exact names_append_slash (String.ofList front) path
  · exact ⟨names dir, [], (List.append_nil _).symm, Or.inl rfl, names_append_slash dir path⟩

theorem names_ofLocation {loc : Location} (hne : loc ≠ [])
    (hslash : ∀ name ∈ loc, '/' ∉ name.toList) : names (ofLocation loc) = "" :: loc := by
  rw [ofLocation, names_slash_append, names]
  exact congrArg ("" :: ·) (splitOn_toList_intercalate '/' hne hslash)

theorem mem_ofLocation {loc : Location} {c : Char} (h : c ∈ (ofLocation loc).toList) :
    c = '/' ∨ ∃ name ∈ loc, c ∈ name.toList := by
  have hlist : (ofLocation loc).toList = '/' :: ['/'].intercalate (loc.map String.toList) := by
    have htext : ("/".intercalate loc).toList = ['/'].intercalate (loc.map String.toList) :=
      String.toList_intercalate
    simp [ofLocation, htext]
  rw [hlist] at h
  rcases List.mem_cons.mp h with hc | hc
  · exact Or.inl hc
  · clear h hlist
    induction loc with
    | nil => simp at hc
    | cons name loc ih =>
      cases loc with
      | nil => exact Or.inr ⟨name, List.mem_cons_self, by simpa using hc⟩
      | cons other loc =>
        simp only [List.map_cons, List.intercalate_cons_cons, List.append_assoc, List.mem_append,
          List.mem_singleton] at hc
        rcases hc with hname | hslash | hrest
        · exact Or.inr ⟨name, List.mem_cons_self, hname⟩
        · exact Or.inl hslash
        · rcases ih hrest with hslash | ⟨found, hfound, hmem⟩
          · exact Or.inl hslash
          · exact Or.inr ⟨found, List.mem_cons_of_mem name hfound, hmem⟩

theorem normalize_of_isEntryName {loc : Location} (h : ∀ name ∈ loc, IsEntryName name) :
    normalize loc = loc := by
  have hfold : ∀ done : Location, loc.foldl (fun loc name =>
      if name = "" ∨ name = "." then loc else if name = ".." then loc.dropLast else loc ++ [name])
      done = done ++ loc := by
    induction loc with
    | nil => simp
    | cons name loc ih =>
      intro done
      have hname := h name List.mem_cons_self
      have hrest := ih fun other hother => h other (List.mem_cons_of_mem name hother)
      rw [List.foldl_cons, if_neg fun hstay => not_isEntryName hstay hname,
        if_neg hname.ne_dots, hrest]
      simp
  exact hfold []

end Path

/-! ## Places -/

namespace FileSystem

/-- A location that is reached by its own names. -/
inductive Place (fs : FileSystem) : Location → Prop
  | root : Place fs []
  | entry {here : Location} {name : String} (hplace : Place fs here)
      (hhere : fs.node? here = some .directory) (hname : IsEntryName name)
      (hsize : name.utf8ByteSize ≤ maxNameBytes) (hslash : '/' ∉ name.toList)
      (hlink : fs.linkTarget? (here ++ [name]) = none) : Place fs (here ++ [name])

namespace Place

theorem dropLast {fs : FileSystem} {loc : Location} (h : fs.Place loc) : fs.Place loc.dropLast := by
  cases h with
  | root => exact .root
  | entry hplace hhere hname hsize hslash hlink =>
    rw [List.dropLast_concat]
    exact hplace

theorem names {fs : FileSystem} {loc : Location} (h : fs.Place loc) :
    ∀ name ∈ loc, IsEntryName name ∧ '/' ∉ name.toList := by
  induction h with
  | root => simp
  | entry hplace hhere hname hsize hslash hlink ih =>
    intro other hother
    rcases List.mem_append.mp hother with hold | hnew
    · exact ih other hold
    · rw [List.mem_singleton.mp hnew]
      exact ⟨hname, hslash⟩

theorem normalize_eq {fs : FileSystem} {loc : Location} (h : fs.Place loc) :
    Path.normalize loc = loc :=
  Path.normalize_of_isEntryName fun name hname => (h.names name hname).1

theorem leads {fs : FileSystem} {loc : Location} (h : fs.Place loc) : fs.Leads 0 [] loc loc := by
  induction h with
  | root => exact .done []
  | entry hplace hhere hname hsize hslash hlink ih =>
    exact ih.append (.down hhere hname hsize hlink (.done _))

end Place

/-- Wherever names lead from a place is a place. -/
theorem Leads.place {fs : FileSystem} {n : Nat} {here loc : Location} {names : List String}
    (h : fs.Leads n here names loc) (hhere : fs.Place here)
    (hslash : ∀ name ∈ names, '/' ∉ name.toList) : fs.Place loc := by
  induction h with
  | done here => exact hhere
  | stay _ _ _ ih => exact ih hhere fun name hname => hslash name (List.mem_cons_of_mem _ hname)
  | up _ _ ih =>
    exact ih hhere.dropLast fun name hname => hslash name (List.mem_cons_of_mem _ hname)
  | down hdir hname hsize hlink _ ih =>
    apply ih
    · exact .entry hhere hdir hname hsize (hslash _ List.mem_cons_self) hlink
    · exact fun name hname => hslash name (List.mem_cons_of_mem _ hname)
  | follow hdir hname hsize hlink _ _ ihtarget ihrest =>
    apply ihrest
    · apply ihtarget
      · unfold linkStart
        split
        · exact .root
        · exact hhere
      · exact fun name hname => Path.slash_notMem_of_mem_names hname
    · exact fun name hname => hslash name (List.mem_cons_of_mem _ hname)

theorem Leads.isDirectory {fs : FileSystem} {n : Nat} {here loc : Location} {names : List String}
    (h : fs.Leads n here names loc) (hnames : names ≠ []) : fs.node? here = some .directory := by
  cases h with
  | done here => exact absurd rfl hnames
  | stay hhere _ _ => exact hhere
  | up hhere _ => exact hhere
  | down hhere _ _ _ _ => exact hhere
  | follow hhere _ _ _ _ _ => exact hhere

theorem Leads.split_join {fs : FileSystem} {n : Nat} {dir path : String} {loc : Location}
    (hdir : Path.isAbsolute dir = true) (hpath : Path.isAbsolute path = false)
    (h : fs.Leads n [] (Path.names (Path.join dir path)) loc) :
    ∃ i j middle, fs.Leads i [] (Path.names dir) middle ∧
      fs.Leads j middle (Path.names path) loc := by
  obtain ⟨front, tail, hnames, htail, hjoin⟩ := Path.names_join hdir hpath
  rw [hjoin] at h
  obtain ⟨i, j, middle, hfront, hback, -⟩ := h.split
  refine ⟨i, j, middle, ?_, hback⟩
  rw [hnames]
  rcases htail with rfl | rfl
  · rw [List.append_nil]
    exact hfront
  · -- the empty name behind a trailing slash needs a directory
    have hmiddle := hback.isDirectory (Path.names_ne_nil path)
    exact hfront.append (.stay hmiddle (Or.inl rfl) (.done middle))

/-- No name holds a null character. -/
def NullFree (names : List String) : Prop :=
  ∀ name ∈ names, '\x00' ∉ name.toList

theorem nullFree_names {path : String} (h : '\x00' ∉ path.toList) :
    NullFree (Path.names path) :=
  fun _ hname hnull => h (Path.subset_of_mem_names hname hnull)

theorem Place.normalize_names {fs : FileSystem} {loc : Location} (h : fs.Place loc) :
    Path.normalize (Path.names (Path.ofLocation loc)) = loc := by
  by_cases hloc : loc = []
  · subst hloc
    rfl
  · rw [Path.names_ofLocation hloc fun name hname => (h.names name hname).2]
    exact h.normalize_eq

/-- The path of a place leads to it, from every working directory. -/
theorem Place.resolve_eq {fs : FileSystem} {loc : Location} (h : fs.Place loc)
    (hnull : NullFree loc) (cwd : String) :
    fs.resolve true cwd (Path.ofLocation loc) = .ok (loc, fs.node? loc) := by
  have hfree : (Path.ofLocation loc).toList.contains '\x00' = false := by
    rw [Bool.eq_false_iff, ne_eq, List.contains_iff_mem]
    intro hmem
    rcases Path.mem_ofLocation hmem with hslash | ⟨name, hname, hc⟩
    · exact absurd hslash (by decide)
    · exact hnull name hname hc
  have hempty : (Path.ofLocation loc).isEmpty = false := by
    simp [Path.ofLocation]
  have hleads : fs.Leads 0 [] (Path.names (Path.ofLocation loc)) loc := by
    have hroot := fs.node?_nil
    by_cases hloc : loc = []
    · subst hloc
      exact .stay hroot (Or.inl rfl) (.stay hroot (Or.inl rfl) (.done []))
    · rw [Path.names_ofLocation hloc fun name hname => (h.names name hname).2]
      exact .stay hroot (Or.inl rfl) h.leads
  unfold resolve
  rw [hfree, hempty, Path.join_of_isAbsolute (Path.isAbsolute_ofLocation loc)]
  exact hleads.walk_eq maxLinks

end FileSystem

end LineShell
