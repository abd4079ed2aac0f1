import Inlay.Text.Distance
import Mathlib.Order.Bounds.Basic
import Mathlib.Order.MinMax

/-!
# Edits of words

The distance of two names is the least number of edits that lead from one to the other, case
apart: `editDistance_isLeast`.  `Edits` says what leads where, without an order in which a word is
gone through, so that it is plainly symmetric and can be composed.

Between the two stands `distance`, which takes two words apart from their first characters on.  The
rows of the computation grow at the end of the words, so a row is described with both words in
reverse: `nextRow_distances`.  That `distance` counts the fewest edits is shown once for scripts
that are built along it, and once for single edits, none of which changes it by more than one.
-/

namespace Inlay

/-- One character is inserted, deleted or substituted. -/
inductive Edit : List Char → List Char → Prop
  | insert (before behind : List Char) (c : Char) : Edit (before ++ behind) (before ++ c :: behind)
  | delete (before behind : List Char) (c : Char) : Edit (before ++ c :: behind) (before ++ behind)
  | substitute (before behind : List Char) (c d : Char) :
      Edit (before ++ c :: behind) (before ++ d :: behind)

/-- So many edits, one after the other, lead from a word to another. -/
inductive Edits : Nat → List Char → List Char → Prop
  | nothing (w : List Char) : Edits 0 w w
  | step {n : Nat} {u v w : List Char} (first : Edit u v) (rest : Edits n v w) : Edits (n + 1) u w

/-! ## Scripts of edits -/

namespace Edit

variable {u v : List Char}

theorem symm (h : Edit u v) : Edit v u := by
  cases h with
  | insert before behind c => exact .delete before behind c
  | delete before behind c => exact .insert before behind c
  | substitute before behind c d => exact .substitute before behind d c

theorem cons (h : Edit u v) (a : Char) : Edit (a :: u) (a :: v) := by
  cases h with
  | insert before behind c => exact .insert (a :: before) behind c
  | delete before behind c => exact .delete (a :: before) behind c
  | substitute before behind c d => exact .substitute (a :: before) behind c d

theorem reverse (h : Edit u v) : Edit u.reverse v.reverse := by
  cases h with
  | insert before behind c =>
    simpa using insert behind.reverse before.reverse c
  | delete before behind c =>
    simpa using delete behind.reverse before.reverse c
  | substitute before behind c d =>
    simpa using substitute behind.reverse before.reverse c d

theorem length_le (h : Edit u v) : u.length ≤ v.length + 1 := by
  cases h <;> simp only [List.length_append, List.length_cons] <;> omega

end Edit

namespace Edits

variable {n m : Nat} {u v w : List Char}

theorem one (h : Edit u v) : Edits 1 u v := .step h (.nothing v)

theorem trans (h : Edits n u v) (h' : Edits m v w) : Edits (n + m) u w := by
  induction h with
  | nothing v =>
    rw [Nat.zero_add]
    exact h'
  | step first _ ih =>
    rw [Nat.add_right_comm]
    exact .step first (ih h')

theorem symm (h : Edits n u v) : Edits n v u := by
  induction h with
  | nothing v => exact .nothing v
  | step first _ ih => exact ih.trans (one first.symm)

theorem cons (h : Edits n u v) (a : Char) : Edits n (a :: u) (a :: v) := by
  induction h with
  | nothing v => exact .nothing (a :: v)
  | step first _ ih => exact .step (first.cons a) ih

theorem reverse (h : Edits n u v) : Edits n u.reverse v.reverse := by
  induction h with
  | nothing v => exact .nothing v.reverse
  | step first _ ih => exact .step first.reverse ih

theorem reverse_iff : Edits n u.reverse v.reverse ↔ Edits n u v := by
  refine ⟨fun h => ?_, reverse⟩
  have hback := h.reverse
  rwa [List.reverse_reverse, List.reverse_reverse] at hback

theorem zero_iff : Edits 0 u v ↔ u = v := by
  constructor
  · intro h
    cases h
    rfl
  · rintro rfl
    exact .nothing u

theorem length_le (h : Edits n u v) : u.length ≤ v.length + n := by
  induction h with
  | nothing v => exact Nat.le_refl _
  | step first _ ih =>
    have := first.length_le
    omega

/-- A word is written, character by character. -/
theorem ofNil (v : List Char) : Edits v.length [] v := by
  induction v with
  | nil => exact .nothing []
  | cons d v ih => exact .step (.insert [] [] d) (ih.cons d)

end Edits

/-! ## The fewest edits -/

/-- The distance of two words, by what is done with their first characters. -/
def distance : List Char → List Char → Nat
  | [], v => v.length
  | u, [] => u.length
  | c :: u, d :: v =>
    let cost := if c = d then 0 else 1
    min (min (distance u (d :: v) + 1) (distance (c :: u) v + 1)) (distance u v + cost)
termination_by u v => u.length + v.length

section Distance

variable {u v : List Char}

@[simp] theorem distance_nil_left (v : List Char) : distance [] v = v.length := by
  rw [distance]

@[simp] theorem distance_nil_right (u : List Char) : distance u [] = u.length := by
  cases u <;> simp [distance]

theorem distance_cons_cons (c d : Char) (u v : List Char) :
    distance (c :: u) (d :: v) =
      min (min (distance u (d :: v) + 1) (distance (c :: u) v + 1))
        (distance u v + if c = d then 0 else 1) := by
  rw [distance]

/-- As many edits as the distance says are enough. -/
theorem edits_distance (u v : List Char) : Edits (distance u v) u v := by
  induction u, v using distance.induct with
  | case1 v =>
    rw [distance_nil_left]
    exact .ofNil v
  | case2 u =>
    rw [distance_nil_right]
    exact (Edits.ofNil u).symm
  | case3 c u d v ihdelete ihinsert ihkeep =>
    have hdelete : Edits (distance u (d :: v) + 1) (c :: u) (d :: v) :=
      .step (.delete [] u c) ihdelete
    have hinsert : Edits (distance (c :: u) v + 1) (c :: u) (d :: v) :=
      ihinsert.trans (.one (.insert [] v d))
    have hkeep : Edits (distance u v + if c = d then 0 else 1) (c :: u) (d :: v) := by
      split
      · next hcd => exact hcd ▸ ihkeep.cons c
      · exact (ihkeep.cons c).trans (.one (.substitute [] v c d))
    rw [distance_cons_cons]
    -- Whichever of the three numbers is the least has a script.
    rcases min_choice (min (distance u (d :: v) + 1) (distance (c :: u) v + 1))
      (distance u v + if c = d then 0 else 1) with h | h
    · rw [h]
      rcases min_choice (distance u (d :: v) + 1) (distance (c :: u) v + 1) with h | h
      · rw [h]
        exact hdelete
      · rw [h]
        exact hinsert
    · rw [h]
      exact hkeep

/-! No edit of the first word changes the distance by more than one. -/

theorem distance_cons_left_le (c : Char) (u v : List Char) :
    distance (c :: u) v ≤ distance u v + 1 := by
  cases v with
  | nil => simp
  | cons d v =>
    rw [distance_cons_cons]
    omega

theorem distance_cons_right_le (u : List Char) (d : Char) (v : List Char) :
    distance u (d :: v) ≤ distance u v + 1 := by
  cases u with
  | nil => simp
  | cons c u =>
    rw [distance_cons_cons]
    omega

theorem distance_le_cons_left (c : Char) (u v : List Char) :
    distance u v ≤ distance (c :: u) v + 1 := by
  induction v with
  | nil =>
    simp only [distance_nil_right, List.length_cons]
    omega
  | cons d v ih =>
    have hright := distance_cons_right_le u d v
    rw [distance_cons_cons]
    omega

theorem distance_substitute_le (c d : Char) (u v : List Char) :
    distance (c :: u) v ≤ distance (d :: u) v + 1 := by
  induction v with
  | nil => simp
  | cons e v ih =>
    rw [distance_cons_cons, distance_cons_cons]
    split <;> split <;> omega

theorem distance_cons_le (h : ∀ w, distance u w ≤ distance v w + 1) (c : Char) (w : List Char) :
    distance (c :: u) w ≤ distance (c :: v) w + 1 := by
  induction w with
  | nil =>
    have hlength := h []
    simp only [distance_nil_right, List.length_cons] at hlength ⊢
    omega
  | cons d w ih =>
    have habove := h (d :: w)
    have hdiagonal := h w
    rw [distance_cons_cons, distance_cons_cons]
    omega

theorem distance_append_le (h : ∀ w, distance u w ≤ distance v w + 1) (before w : List Char) :
    distance (before ++ u) w ≤ distance (before ++ v) w + 1 := by
  induction before generalizing w with
  | nil => exact h w
  | cons c before ih => exact distance_cons_le ih c w

theorem Edit.distance_le (h : Edit u v) (w : List Char) : distance u w ≤ distance v w + 1 := by
  cases h with
  | insert before behind c => exact distance_append_le (distance_le_cons_left c behind) before w
  | delete before behind c => exact distance_append_le (distance_cons_left_le c behind) before w
  | substitute before behind c d =>
    exact distance_append_le (distance_substitute_le c d behind) before w

theorem distance_self (w : List Char) : distance w w = 0 := by
  induction w with
  | nil => simp
  | cons c w ih =>
    rw [distance_cons_cons, if_pos rfl]
    omega

/-- Fewer edits than the distance says are not enough. -/
theorem Edits.distance_le {n : Nat} (h : Edits n u v) : distance u v ≤ n := by
  induction h with
  | nothing w => exact Nat.le_of_eq (distance_self w)
  | step first _ ih => exact Nat.le_trans (first.distance_le _) (Nat.succ_le_succ ih)

end Distance

/-! ## Rows of distances -/

section Rows

/-- The distances from a word to the start segments of another that are longer than the one that has
been passed.  The word and what has been passed are in reverse. -/
def distancesBehind (read passed : List Char) : List Char → List Nat
  | [] => []
  | d :: ds => distance read (d :: passed) :: distancesBehind read (d :: passed) ds

/-- The distances from a word, in reverse, to all start segments of another. -/
def distances (read target : List Char) : List Nat :=
  read.length :: distancesBehind read [] target

theorem extendRow_distancesBehind (c : Char) (read passed ds : List Char) :
    extendRow c (distance (c :: read) passed) (distance read passed) ds
      (distancesBehind read passed ds) = distancesBehind (c :: read) passed ds := by
  induction ds generalizing passed with
  | nil => rfl
  | cons d ds ih =>
    have hcell := distance_cons_cons c d read passed
    rw [distancesBehind, extendRow, distancesBehind, ← ih, hcell]

/-- One more character of the first word. -/
theorem nextRow_distances (c : Char) (read target : List Char) :
    nextRow c target (distances read target) = distances (c :: read) target := by
  have hrow := extendRow_distancesBehind c read [] target
  rw [distance_nil_right, distance_nil_right, List.length_cons] at hrow
  rw [distances, nextRow, hrow]
  rfl

theorem distancesBehind_nil (passed ds : List Char) :
    distancesBehind [] passed ds = List.range' (passed.length + 1) ds.length := by
  induction ds generalizing passed with
  | nil => rfl
  | cons d ds ih =>
    rw [distancesBehind, ih, distance_nil_left]
    rfl

theorem firstRow_eq (target : List Char) : firstRow target = distances [] target := by
  rw [firstRow, distances, distancesBehind_nil, List.range_eq_range']
  rfl

theorem foldl_nextRow (source read target : List Char) :
    source.foldl (fun row c => nextRow c target row) (distances read target) =
      distances (source.reverse ++ read) target := by
  induction source generalizing read with
  | nil => rfl
  | cons c source ih =>
    rw [List.foldl_cons, nextRow_distances, ih, List.reverse_cons, List.append_assoc]
    rfl

theorem getLast?_distancesBehind (read passed ds : List Char) :
    (distance read passed :: distancesBehind read passed ds).getLast? =
      some (distance read (ds.reverse ++ passed)) := by
  induction ds generalizing passed with
  | nil => rfl
  | cons d ds ih =>
    rw [distancesBehind, List.getLast?_cons_cons, ih, List.reverse_cons, List.append_assoc]
    rfl

/-- The last cell of the last row compares the whole words. -/
theorem wordDistance_eq (source target : List Char) :
    wordDistance source target = distance source.reverse target.reverse := by
  have hlast := getLast?_distancesBehind source.reverse [] target
  rw [distance_nil_right, List.append_nil] at hlast
  rw [wordDistance, firstRow_eq, foldl_nextRow, List.append_nil, distances, hlast, Option.getD_some]

theorem wordDistance_isLeast (source target : List Char) :
    IsLeast {n | Edits n source target} (wordDistance source target) := by
  rw [wordDistance_eq]
  constructor
  · exact Edits.reverse_iff.mp (edits_distance _ _)
  · intro n hn
    exact hn.reverse.distance_le

end Rows

/-! ## Distances of names -/

/-- Case apart, the edit distance of two names is the least number of edits that lead from one to the
other.  So the laws of distances are read off the scripts of edits, however the computation
goes. -/
theorem editDistance_isLeast (a b c : String) :
    IsLeast {n | Edits n (a.toList.map lowerChar) (b.toList.map lowerChar)} (editDistance a b) ∧
      editDistance a b = editDistance b a ∧
      (editDistance a b = 0 ↔ sameName a b = true) ∧
      editDistance a c ≤ editDistance a b + editDistance b c ∧
      ((a.length : Int) - b.length).natAbs ≤ editDistance a b := by
  have hleast : ∀ a b : String,
      IsLeast {n | Edits n (a.toList.map lowerChar) (b.toList.map lowerChar)} (editDistance a b) :=
    fun a b => wordDistance_isLeast _ _
  have hedits : ∀ a b : String,
      Edits (editDistance a b) (a.toList.map lowerChar) (b.toList.map lowerChar) :=
    fun a b => (hleast a b).1
  refine ⟨hleast a b, ?_, ?_, ?_, ?_⟩
  · exact Nat.le_antisymm ((hleast a b).2 (hedits b a).symm) ((hleast b a).2 (hedits a b).symm)
  · have hzero : editDistance a b = 0 ↔ a.toList.map lowerChar = b.toList.map lowerChar := by
      constructor
      · intro h
        have hscript := hedits a b
        rwa [h, Edits.zero_iff] at hscript
      · intro h
        exact Nat.le_zero.mp ((hleast a b).2 (Edits.zero_iff.mpr h))
    rw [hzero, sameName_iff, lowerName, lowerName]
    exact String.ofList_inj.symm
  · exact (hleast a c).2 ((hedits a b).trans (hedits b c))
  · have hlong := (hedits a b).length_le
    have hshort := (hedits a b).symm.length_le
    simp only [List.length_map, String.length_toList] at hlong hshort
    omega

end Inlay
