import LineShell.FileSystem.Basic

/-!
# What writing leaves in place

Files are made and overwritten, but nothing ever removes or replaces a directory or a link.  So
the file systems of one run differ at most in their regular files.
-/

namespace LineShell

def Node.isFile : Node → Bool
  | .file _ _ => true
  | _ => false

namespace FileSystem

/-- Every directory and every link of one file system is in the other. -/
def SameTree (fs fs' : FileSystem) : Prop :=
  ∀ loc node, node.isFile = false → (fs.node? loc = some node ↔ fs'.node? loc = some node)

theorem SameTree.refl (fs : FileSystem) : fs.SameTree fs :=
  fun _ _ _ => Iff.rfl

theorem SameTree.symm {fs fs' : FileSystem} (h : fs.SameTree fs') : fs'.SameTree fs :=
  fun loc node hnode => (h loc node hnode).symm

theorem SameTree.trans {fs fs' fs'' : FileSystem} (h : fs.SameTree fs')
    (h' : fs'.SameTree fs'') : fs.SameTree fs'' :=
  fun loc node hnode => (h loc node hnode).trans (h' loc node hnode)

theorem SameTree.directory_iff {fs fs' : FileSystem} (h : fs.SameTree fs') (loc : Location) :
    fs.node? loc = some .directory ↔ fs'.node? loc = some .directory :=
  h loc .directory rfl

theorem SameTree.link_iff {fs fs' : FileSystem} (h : fs.SameTree fs') (loc : Location)
    (target : String) :
    fs.node? loc = some (.link target) ↔ fs'.node? loc = some (.link target) :=
  h loc (.link target) rfl

/-! ## Adding and changing files -/

theorem lookup_replace (entries : List (Location × Node)) (loc l : Location) (node : Node) :
    (entries.map fun e => if e.1 = loc then (loc, node) else e).lookup l =
      if l = loc then (entries.lookup loc).map fun _ => node else entries.lookup l := by
  induction entries with
  | nil => simp
  | cons e entries ih =>
    obtain ⟨key, old⟩ := e
    rw [List.map_cons]
    by_cases hkey : key = loc
    · subst hkey
      by_cases hl : l = key
      · simp [hl]
      · have hne : (l == key) = false := by simpa using hl
        simp [List.lookup_cons, hne, hl, ih]
    · by_cases hl : l = key
      · subst hl
        simp [hkey]
      · have hne : (l == key) = false := by simpa using hl
        have hne' : (loc == key) = false := by simpa using fun h : loc = key => hkey h.symm
        simp only [List.lookup_cons, hkey, if_false, hne, hne', ih]

theorem node?_insert (fs : FileSystem) {loc : Location} (hloc : loc ≠ []) (node : Node)
    (l : Location) :
    (fs.insert loc node).node? l = if l = loc then some node else fs.node? l := by
  by_cases hnil : l = []
  · have hne : l ≠ loc := fun h => hloc (h.symm.trans hnil)
    simp [node?, hnil, hnil ▸ hne]
  · simp only [node?, hnil, if_false, insert]
    cases hold : fs.entries.lookup loc with
    | some old => simp [lookup_replace, hold]
    | none =>
      by_cases hl : l = loc
      · subst hl
        simp [List.lookup_append, hold]
      · have hne : (l == loc) = false := by simpa using hl
        simp [List.lookup_append, List.lookup_cons, hne, hl]

/-- A file in the place of a file, or where nothing was. -/
theorem sameTree_insert (fs : FileSystem) {loc : Location} {node : Node}
    (hnode : node.isFile = true) (hold : ∀ old, fs.node? loc = some old → old.isFile = true) :
    fs.SameTree (fs.insert loc node) := by
  have hloc : loc ≠ [] := by
    intro hnil
    have hroot := hold .directory (by rw [hnil, node?_nil])
    exact Bool.noConfusion hroot
  intro l other hother
  rw [node?_insert fs hloc]
  by_cases hl : l = loc
  · subst hl
    constructor
    · intro h
      rw [hold other h] at hother
      exact Bool.noConfusion hother
    · intro h
      rw [if_pos rfl] at h
      rw [← Option.some.inj h, hnode] at hother
      exact Bool.noConfusion hother
  · rw [if_neg hl]

/-! ## Walks that end somewhere -/

theorem walkNames_node {fs : FileSystem} {follow : Bool} {jump : Walk}
    (hjump : ∀ here names loc node, jump here names = .ok (loc, node) → fs.node? loc = node)
    {names : List String} {here loc : Location} {node : Option Node}
    (h : fs.walkNames follow jump here names = .ok (loc, node)) : fs.node? loc = node := by
  induction names generalizing here with
  | nil =>
    simp only [walkNames, Except.ok.injEq, Prod.mk.injEq] at h
    rw [← h.1, h.2]
  | cons name rest ih =>
    simp only [walkNames] at h
    split at h
    · simp at h
    · split at h
      · exact ih h
      · split at h
        · exact ih h
        · split at h
          · simp at h
          · split at h
            · next hlink =>
              split at h
              · simp only [Except.ok.injEq, Prod.mk.injEq] at h
                rw [← h.1, ← h.2, hlink]
              · exact hjump _ _ _ _ h
            · exact ih h
    · simp at h

/-- A walk tells what is at the location it leads to. -/
theorem walk_node {fs : FileSystem} {follow : Bool} {links : Nat} {names : List String}
    {here loc : Location} {node : Option Node}
    (h : fs.walk follow links here names = .ok (loc, node)) : fs.node? loc = node := by
  induction links generalizing here names loc node with
  | zero => exact walkNames_node (by simp) h
  | succ links ih => exact walkNames_node (fun _ _ _ _ => ih) h

theorem resolve_node {fs : FileSystem} {follow : Bool} {cwd path : String} {loc : Location}
    {node : Option Node} (h : fs.resolve follow cwd path = .ok (loc, node)) :
    fs.node? loc = node := by
  unfold resolve at h
  split at h
  · simp at h
  · split at h
    · simp at h
    · exact walk_node h

theorem openForWriting_sameTree {fs fs' : FileSystem} {cwd path : String} {emptied : Bool}
    {loc : Location} (h : fs.openForWriting cwd path emptied = .ok (loc, fs')) :
    fs.SameTree fs' := by
  unfold openForWriting at h
  split at h
  · next place content program hresolve =>
    have hnode := resolve_node hresolve
    simp only [Except.ok.injEq, Prod.mk.injEq] at h
    rw [← h.2]
    apply sameTree_insert fs rfl
    intro old hold
    rw [hnode] at hold
    rw [← Option.some.inj hold]
    rfl
  · simp at h
  · next place hresolve =>
    have hnode := resolve_node hresolve
    simp only [Except.ok.injEq, Prod.mk.injEq] at h
    rw [← h.2]
    apply sameTree_insert fs rfl
    intro old hold
    rw [hnode] at hold
    simp at hold
  · split at h <;> simp at h
  · simp at h

theorem setContent_sameTree (fs : FileSystem) (loc : Location) (content : Content) :
    fs.SameTree (fs.setContent loc content) := by
  unfold setContent
  split
  · next old program hnode =>
    apply sameTree_insert fs rfl
    intro node hold
    rw [hnode] at hold
    rw [← Option.some.inj hold]
    rfl
  · exact .refl fs

end FileSystem

end LineShell
