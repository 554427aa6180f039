import LineShell.Proofs.Line.Layout

/-!
# Sources joined with blanks

The usual way to write a line is to put its sources behind each other with one blank between
them.  Such a line has an evident layout, so it is accepted and means the values of its sources.
-/

namespace LineShell

open LineShell.Parser

namespace Placed

variable {α : Type} {p : Production α}

def spaced (ts : List (Source p)) : List (Placed p) :=
  ts.map fun t => ⟨t, [' '], by simp [isBlank]⟩

/-- Every source but the first stands behind a blank. -/
def leading : List (Source p) → List (Placed p)
  | [] => []
  | t :: ts => ⟨t, [], by simp⟩ :: spaced ts

theorem values_spaced (ts : List (Source p)) : values (spaced ts) = ts.map Source.value := by
  simp [values, spaced]

theorem join_spaced (ts : List (Source p)) :
    join (spaced ts) = (ts.map Source.text).flatMap fun text => ' ' :: text := by
  induction ts with
  | nil => rfl
  | cons t ts ih =>
    have hjoin : join (spaced (t :: ts)) = ' ' :: (t.text ++ join (spaced ts)) := by
      simp [spaced]
    rw [hjoin, ih, List.map_cons, List.flatMap_cons, List.cons_append]

end Placed

theorem intercalate_cons (text : List Char) (texts : List (List Char)) :
    [' '].intercalate (text :: texts) = text ++ texts.flatMap fun text => ' ' :: text := by
  induction texts generalizing text with
  | nil => simp
  | cons next texts ih =>
    rw [List.intercalate_cons_cons, ih, List.flatMap_cons]
    simp

def lineOf (as : List Assignment) (ws : List Word) (ds : List Redirect) : Line :=
  if ws = [] then if as = [] then .blank else .assignments as else .command ⟨as, ws, ds⟩

theorem Placed.gap_ne_nil_of_spaced {α : Type} {p : Production α} {ts : List (Source p)}
    {gap : List Char} (h : gap ∈ (Placed.spaced ts).map Placed.gap) : gap ≠ [] := by
  rcases List.mem_map.mp h with ⟨t, ht, rfl⟩
  rcases List.mem_map.mp ht with ⟨source, -, rfl⟩
  simp

section Joined

variable {as : List (Source assignment)} {ws : List (Source word)} {ds : List (Source redirect)}

theorem isChain_spaced
    (hchain : ds.IsChain fun t t' => t.value.right = none → Stops isFragmentStart t'.text) :
    (Placed.spaced ds).IsChain fun t t' =>
      t.value.right = none → Stops isFragmentStart t'.text := by
  rw [Placed.spaced, List.isChain_map]
  exact hchain

/-- Without assignments the first word stands at the beginning. -/
theorem exists_joined_words (hwords : ds ≠ [] → ws ≠ [])
    (hname : ∀ t ∈ ws.head?, ¬ BeginsAssignment t.text)
    (hchain : ds.IsChain fun t t' => t.value.right = none → Stops isFragmentStart t'.text) :
    ∃ L : Layout, L.Spaced ∧ L.Unambiguous ∧
      L.text = [' '].intercalate (ws.map Source.text ++ ds.map Source.text) ∧
      L.line = lineOf [] (ws.map Source.value) (ds.map Source.value) := by
  cases ws with
  | nil =>
    have hds : ds = [] := by
      cases ds with
      | nil => rfl
      | cons d ds => exact absurd rfl (hwords (by simp))
    subst hds
    exact ⟨⟨[], [], [], by simp, by simp⟩, by simp [Layout.Spaced, Layout.gaps],
      by simp [Layout.Unambiguous], by simp [Layout.text], rfl⟩
  | cons w ws =>
    have hfirst : ∀ t ∈ (Placed.leading (w :: ws)).head?, ¬ BeginsAssignment t.text := by
      intro t ht
      cases ht
      exact hname w rfl
    refine ⟨⟨[], Placed.leading (w :: ws), Placed.spaced ds, fun _ => by simp [Placed.leading],
      hfirst⟩, ?_, isChain_spaced hchain, ?_, ?_⟩
    · intro gap hgap
      rcases List.mem_append.mp hgap with hgap | hgap
      · exact Placed.gap_ne_nil_of_spaced hgap
      · exact Placed.gap_ne_nil_of_spaced hgap
    · simp [Layout.text, Placed.leading, Placed.join_spaced, intercalate_cons]
    · simp [Layout.line, Layout.command, lineOf, Placed.leading, Placed.values_spaced]

theorem exists_joined (hwords : ds ≠ [] → ws ≠ [])
    (hname : ∀ t ∈ ws.head?, ¬ BeginsAssignment t.text)
    (hchain : ds.IsChain fun t t' => t.value.right = none → Stops isFragmentStart t'.text) :
    ∃ L : Layout, L.Spaced ∧ L.Unambiguous ∧
      L.text = [' '].intercalate
        (as.map Source.text ++ (ws.map Source.text ++ ds.map Source.text)) ∧
      L.line = lineOf (as.map Source.value) (ws.map Source.value) (ds.map Source.value) := by
  cases as with
  | nil => exact exists_joined_words hwords hname hchain
  | cons a as =>
    have hfirst : ∀ t ∈ (Placed.spaced ws).head?, ¬ BeginsAssignment t.text := by
      intro t ht
      cases ws with
      | nil => cases ht
      | cons w ws =>
        cases ht
        exact hname w rfl
    refine ⟨⟨Placed.leading (a :: as), Placed.spaced ws, Placed.spaced ds, ?_, hfirst⟩, ?_,
      isChain_spaced hchain, ?_, ?_⟩
    · simpa [Placed.spaced] using hwords
    · intro gap hgap
      rcases List.mem_append.mp hgap with hgap | hgap
      · exact Placed.gap_ne_nil_of_spaced hgap
      · rcases List.mem_append.mp hgap with hgap | hgap
        · exact Placed.gap_ne_nil_of_spaced hgap
        · exact Placed.gap_ne_nil_of_spaced hgap
    · simp [Layout.text, Placed.leading, Placed.join_spaced, intercalate_cons]
    · simp [Layout.line, Layout.command, lineOf, Placed.leading, Placed.values_spaced]
      simp [Placed.spaced]

/-- Sources joined with blanks are accepted as the line of their values. -/
theorem parse_joined (hwords : ds ≠ [] → ws ≠ [])
    (hname : ∀ t ∈ ws.head?, ¬ BeginsAssignment t.text)
    (hchain : ds.IsChain fun t t' => t.value.right = none → Stops isFragmentStart t'.text) :
    parse (String.ofList ([' '].intercalate
        (as.map Source.text ++ (ws.map Source.text ++ ds.map Source.text)))) =
      .ok (lineOf (as.map Source.value) (ws.map Source.value) (ds.map Source.value)) := by
  rcases @exists_joined as ws ds hwords hname hchain with
    ⟨L, hspaced, hunambiguous, htext, hline⟩
  have hblank : ∀ c ∈ ([] : List Char), isBlank c = true := by simp
  have hterminated := L.terminated_text hblank
  rw [List.append_nil] at hterminated
  rw [← hline, ← htext]
  apply parse_of_terminated hblank (hspaced.fits hunambiguous hblank)
  rw [String.toList_ofList]
  exact hterminated

end Joined

end LineShell
