import LineShell.Proofs.Parser.Position
import LineShell.Proofs.Word.Extent

/-!
# Fragments next to each other

The fragments of a word stand next to each other without anything between them.  No character
begins two kinds of fragment, so there is never a choice between them, and the order in which they
are tried is of no importance.  Where a fragment ends is not always decided by itself: bare text
goes on with bare text, and some wildcards are the beginning of others.  A quote on either side of
the place where two words meet rules this out, and then the word of both texts is the one word with
the other behind it.
-/

namespace LineShell

/-! ## Choices -/

namespace Production

variable {α : Type} {p q : Production α} {ps qs : List (Production α)} {expected : Expected}
  {s : List Char}

/-- No input is read or rejected by both. -/
def Exclusive (p q : Production α) : Prop :=
  ∀ s, Mismatches p s ∨ Mismatches q s

theorem Exclusive.symm (h : Exclusive p q) : Exclusive q p :=
  fun s => (h s).symm

theorem firstOf_of_mismatches (h : Mismatches p s) :
    firstOf expected (p :: ps) s = firstOf expected ps s := by
  obtain ⟨fault, hfault⟩ := h
  simp only [firstOf, hfault]

theorem firstOf_of_not_mismatches (h : ¬ Mismatches p s) :
    firstOf expected (p :: ps) s = p s := by
  rw [firstOf]
  split
  · next fault hfault => exact absurd ⟨fault, hfault⟩ h
  · rfl

theorem firstOf_cons_congr (h : firstOf expected ps s = firstOf expected qs s) :
    firstOf expected (p :: ps) s = firstOf expected (p :: qs) s := by
  by_cases hp : Mismatches p s
  · rw [firstOf_of_mismatches hp, firstOf_of_mismatches hp, h]
  · rw [firstOf_of_not_mismatches hp, firstOf_of_not_mismatches hp]

theorem firstOf_swap (h : Exclusive p q) :
    firstOf expected (p :: q :: ps) s = firstOf expected (q :: p :: ps) s := by
  rcases h s with hp | hq
  · rw [firstOf_of_mismatches hp]
    exact firstOf_cons_congr (firstOf_of_mismatches hp).symm
  · rw [firstOf_of_mismatches hq]
    exact firstOf_cons_congr (firstOf_of_mismatches hq)

/-- Where at most one production does not mismatch, the order of a choice is of no importance. -/
theorem firstOf_perm (hperm : ps.Perm qs) (h : ps.Pairwise Exclusive) :
    firstOf expected ps s = firstOf expected qs s := by
  induction hperm with
  | nil => rfl
  | cons p _ ih => exact firstOf_cons_congr (ih (List.pairwise_cons.mp h).2)
  | swap p q ps => exact firstOf_swap ((List.pairwise_cons.mp h).1 p List.mem_cons_self)
  | trans hfirst _ ih ih' => exact (ih h).trans (ih' (hfirst.pairwise h Exclusive.symm))

theorem mismatches_of_firstOf (h : Mismatches (firstOf expected ps) s) :
    ∀ p ∈ ps, Mismatches p s := by
  induction ps with
  | nil => simp
  | cons p ps ih =>
    by_cases hp : Mismatches p s
    · obtain ⟨fault, hfault⟩ := h
      rw [firstOf_of_mismatches hp] at hfault
      exact List.forall_mem_cons.mpr ⟨hp, ih ⟨fault, hfault⟩⟩
    · obtain ⟨fault, hfault⟩ := h
      rw [firstOf_of_not_mismatches hp] at hfault
      exact absurd ⟨fault, hfault⟩ hp

theorem Mismatches.readAt {text : List Char} {start : Nat} (h : Mismatches p (text.drop start)) :
    ∃ expected offset, p.readAt text start = .error (.mismatch expected offset) := by
  obtain ⟨fault, hfault⟩ := h
  exact ⟨_, _, readAt_eq_error hfault⟩

/-- The characters with which a production can begin. -/
def Begins (p : Production α) (start : Char → Bool) : Prop :=
  ∀ s, Stops start s → Mismatches p s

theorem Begins.exclusive {start start' : Char → Bool} (hp : Begins p start)
    (hq : Begins q start') (hdisjoint : ∀ c, start' c = true → start c = false) :
    Exclusive p q := by
  intro s
  cases s with
  | nil => exact Or.inl (hp [] (stops_nil start))
  | cons c t =>
    cases hc : start' c with
    | false => exact Or.inr (hq _ (stops_cons.mpr hc))
    | true => exact Or.inl (hp _ (stops_cons.mpr (hdisjoint c hc)))

end Production

namespace Parser

open Production (Begins Exclusive Mismatches)

/-! ## The order of the fragments -/

theorem path_begins : Begins path isPathChar :=
  fun s h => ⟨⟨.path, s⟩, path_of_stops h⟩

theorem glob_begins : Begins glob isGlobStart :=
  fun s h => ⟨⟨.glob, s⟩, glob_of_stops h⟩

theorem doubleQuoted_begins : Begins doubleQuoted (· == '"') :=
  fun s h => ⟨⟨.doubleQuote, s⟩, doubleQuoted_of_head?_ne fun hc => by simpa using h '"' hc⟩

theorem singleQuoted_begins : Begins singleQuoted (· == '\'') :=
  fun s h => ⟨⟨.singleQuote, s⟩, singleQuoted_of_head?_ne fun hc => by simpa using h '\'' hc⟩

theorem eq_false_of_beq {start : Char → Bool} {quote : Char} (h : start quote = false) (c : Char)
    (hc : (c == quote) = true) : start c = false := by
  rw [eq_of_beq hc, h]

theorem fragments_exclusive : fragments.Pairwise Exclusive := by
  simp only [fragments, List.pairwise_cons, List.mem_cons, List.not_mem_nil, or_false,
    forall_eq_or_imp, forall_eq]
  refine ⟨⟨?_, ?_, ?_⟩, ⟨?_, ?_⟩, ?_, by simp, .nil⟩
  · exact path_begins.exclusive glob_begins fun _ => isPathChar_of_isGlobStart
  · exact path_begins.exclusive doubleQuoted_begins (eq_false_of_beq (by decide))
  · exact path_begins.exclusive singleQuoted_begins (eq_false_of_beq (by decide))
  · exact glob_begins.exclusive doubleQuoted_begins (eq_false_of_beq (by decide))
  · exact glob_begins.exclusive singleQuoted_begins (eq_false_of_beq (by decide))
  · exact doubleQuoted_begins.exclusive singleQuoted_begins (eq_false_of_beq (by decide))

/-- A word whose fragments are tried in another order. -/
def wordIn (order : List (Production Word)) (s : List Char) : Reading Word :=
  match Production.repeated (Production.firstOf .argument order) s with
  | .error failure => .error failure
  | .ok ([], _) => mismatch .argument s
  | .ok (w :: ws, r) => .ok ((w :: ws).flatten, r)

theorem wordIn_of_perm {order : List (Production Word)} (h : order.Perm fragments) :
    wordIn order = word := by
  have hfirst : Production.firstOf .argument order = Production.firstOf .argument fragments := by
    funext s
    exact (Production.firstOf_perm h.symm fragments_exclusive).symm
  funext s
  calc wordIn order s = wordIn fragments s := by rw [wordIn, wordIn, hfirst]
    _ = word s := rfl

/-! ## Two words in a row -/

theorem separate_of_beginsQuoted {r : List Char} (h : BeginsQuoted r) (w : List Char) :
    Separate w r := by
  obtain ⟨c, hc, hquote⟩ := h
  obtain ⟨t, rfl⟩ := List.head?_eq_some_iff.mp hc
  refine Or.inr ⟨stops_cons.mpr (isPathChar_of_isQuote hquote), fun p => ?_⟩
  constructor <;> rintro - hhead <;> cases hhead <;> exact absurd hquote (by decide)

/-- Words that meet at a quote are read one after the other. -/
theorem word_append {u v r : List Char} {x y : Word} (hu : word u = .ok (x, []))
    (hv : word (v ++ r) = .ok (y, r)) (hquote : EndsQuoted u ∨ BeginsQuoted (v ++ r)) :
    word (u ++ (v ++ r)) = .ok (x ++ y, r) := by
  obtain ⟨us, hne, husteps, -, rfl⟩ := word_eq_ok_iff.mp hu
  obtain ⟨vs, -, hvsteps, hmismatch, rfl⟩ := word_eq_ok_iff.mp hv
  obtain ⟨w, hw, -, hread⟩ := fragments_extent husteps
  rw [List.append_nil] at hw
  subst hw
  have hseparate : Separate u (v ++ r) := by
    rcases hquote with hends | hbegins
    · exact Or.inl hends
    · exact separate_of_beginsQuoted hbegins u
  refine word_eq_ok_iff.mpr ⟨us ++ vs, by simp [hne], ?_, hmismatch, ?_⟩
  · exact (hread _ (Or.inr hseparate)).append hvsteps
  · rw [List.flatten_append]

theorem word_readAt_whole_iff {u : List Char} {x : Word} :
    Production.readAt word u 0 = .ok (x, u.length) ↔ word u = .ok (x, []) := by
  rw [Production.readAt_eq_ok_iff word_consumes, List.drop_zero, List.drop_length]
  constructor
  · rintro ⟨-, -, h⟩
    exact h
  · intro h
    have hlt := word_consumes.length_lt h
    exact ⟨hlt, Nat.le_refl _, h⟩

theorem word_readAt_line_iff {u : List Char} {x : Word} :
    Production.readAt word (u ++ ['\n']) 0 = .ok (x, u.length) ↔ word u = .ok (x, []) := by
  rw [Production.readAt_eq_ok_iff word_consumes, List.drop_zero, List.drop_left]
  constructor
  · rintro ⟨-, -, h⟩
    obtain ⟨w, hw, -, hread⟩ := word_extent h
    rw [List.append_cancel_right hw]
    have hends : EndsWord [] := ⟨stops_nil _, by simp⟩
    simpa using hread [] hends
  · intro h
    obtain ⟨w, hw, hsolid, hread⟩ := word_extent h
    rw [List.append_nil] at hw
    subst hw
    refine ⟨List.length_pos_iff.mpr hsolid.ne_nil, by simp, ?_⟩
    exact hread _ (endsWord_of_head (by decide) (by decide) [])

end Parser

open LineShell.Parser

/-- Words that meet at a quote fuse to the word of both texts.  A text is read as a word to its end
whether a line feed stands behind it or nothing.  The order of the fragments is of no importance
for what is read or told anywhere, and no fragment matches where a word ends. -/
theorem words_fuse_at_quotes :
    (∀ u v x y, Production.readAt word u 0 = .ok (x, u.length) →
      Production.readAt word v 0 = .ok (y, v.length) → EndsQuoted u ∨ BeginsQuoted v →
        Production.readAt word (u ++ v) 0 = .ok (x ++ y, (u ++ v).length)) ∧
    (∀ u x, Production.readAt word (u ++ ['\n']) 0 = .ok (x, u.length) ↔
      Production.readAt word u 0 = .ok (x, u.length)) ∧
    (∀ order : List (Production Word), order.Perm fragments → ∀ text start,
      Production.readAt (wordIn order) text start = Production.readAt word text start) ∧
    ∀ text start w stop, Production.readAt word text start = .ok (w, stop) →
      ∀ p ∈ fragments, ∃ expected offset,
        p.readAt text stop = .error (.mismatch expected offset) := by
  refine ⟨?_, ?_, ?_, ?_⟩
  · intro u v x y hu hv hquote
    rw [word_readAt_whole_iff] at hu hv ⊢
    have happend := word_append (r := []) hu (by rwa [List.append_nil])
      (by rwa [List.append_nil])
    rwa [List.append_nil] at happend
  · intro u x
    rw [word_readAt_whole_iff, word_readAt_line_iff]
  · intro order horder text start
    rw [wordIn_of_perm horder]
  · intro text start w stop hread p hp
    obtain ⟨-, -, hword⟩ := (Production.readAt_eq_ok_iff word_consumes).mp hread
    obtain ⟨vs, -, -, hmismatch, -⟩ := word_eq_ok_iff.mp hword
    exact (Production.mismatches_of_firstOf hmismatch p hp).readAt

/-- The closing bracket in the quotes would have made another wildcard of the one before it. -/
theorem words_fuse_at_quotes_class :
    let bracket := ['[', '!', ']']
    let quoted := ['\'', ']', '\'']
    Production.readAt word (bracket ++ quoted) 0 = .ok ([.glob "[!]", .fixed "]"], 6) ∧
      Production.readAt word (bracket ++ quoted ++ ['\n']) 0 = .ok ([.glob "[!]", .fixed "]"], 6) ∧
      Production.readAt (wordIn fragments.reverse) (bracket ++ quoted) 0 =
        .ok ([.glob "[!]", .fixed "]"], 6) ∧
      ∀ p ∈ fragments, ∃ expected offset,
        p.readAt (bracket ++ quoted) 6 = .error (.mismatch expected offset) := by
  intro bracket quoted
  obtain ⟨happend, hline, horder, hend⟩ := words_fuse_at_quotes
  have hread := happend bracket quoted [.glob "[!]"] [.fixed "]"] (by decide +kernel)
    (by decide +kernel) (Or.inr ⟨'\'', rfl, rfl⟩)
  exact ⟨hread, (hline _ _).mpr hread,
    (horder _ (List.reverse_perm fragments) _ 0).trans hread, hend _ 0 _ 6 hread⟩

end LineShell
