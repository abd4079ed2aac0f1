import Inlay.Proofs.Text.EditScripts
import Inlay.Text.RowBuffers

/-!
# Two buffers are enough

The buffers always hold as many cells as a row has, so no index is ever out of bounds, and a row
that has been filled is the one that `nextRow` gives, whatever its cells held before:
`RowBuffers.fillRow?_eq` and `RowBuffers.readChar?_eq`.  So the distance in buffers is the edit
distance: `RowBuffers.editDistance?_eq`.
-/

namespace Inlay

theorem length_extendRow (c : Char) (left diagonal : Nat) (ds : List Char) {row : List Nat}
    (h : row.length = ds.length) : (extendRow c left diagonal ds row).length = ds.length := by
  induction ds generalizing left diagonal row with
  | nil => rfl
  | cons d ds ih =>
    cases row with
    | nil => exact absurd h.symm (Nat.succ_ne_zero _)
    | cons above rest =>
      rw [extendRow, List.length_cons, List.length_cons, ih _ _ (Nat.succ.inj h)]

/-- A full row of the distances from a word with `read` characters. -/
structure IsRow (target : List Char) (read : Nat) (row : List Nat) : Prop where
  head : row.head? = some read
  length : row.length = target.length + 1

namespace IsRow

variable {target : List Char} {read : Nat} {row : List Nat}

theorem exists_cons (h : IsRow target read row) :
    ∃ rest, row = read :: rest ∧ rest.length = target.length := by
  cases row with
  | nil => exact absurd h.head.symm (Option.some_ne_none _)
  | cons cell rest => exact ⟨rest, congrArg (· :: rest) (Option.some.inj h.head),
      Nat.succ.inj h.length⟩

theorem firstRow (target : List Char) : IsRow target 0 (firstRow target) :=
  ⟨by rw [Inlay.firstRow, List.range_succ_eq_map]; rfl, List.length_range⟩

theorem nextRow (h : IsRow target read row) (c : Char) :
    IsRow target (read + 1) (nextRow c target row) := by
  obtain ⟨rest, rfl, hlength⟩ := h.exists_cons
  refine ⟨rfl, ?_⟩
  rw [Inlay.nextRow, List.length_cons, length_extendRow c _ _ target hlength]

end IsRow

namespace RowBuffers

theorem write?_of_append {b : RowBuffers} {front back : List Nat} {old : Nat}
    (h : b.current = front ++ old :: back) (value : Nat) :
    b.write? front.length value = some { b with current := front ++ value :: back } := by
  have hlt : front.length < b.current.length := by
    rw [h, List.length_append, List.length_cons]
    omega
  rw [write?, if_pos hlt, h, List.set_append_right _ _ (Nat.le_refl _), Nat.sub_self]
  rfl

theorem getElem?_behind (front back : List Nat) (value : Nat) :
    (front ++ value :: back)[front.length]? = some value := by
  rw [List.getElem?_append_right (Nat.le_refl _), Nat.sub_self]
  rfl

theorem getElem?_behind_succ (front back : List Nat) (value next : Nat) :
    (front ++ value :: next :: back)[front.length + 1]? = some next := by
  rw [List.getElem?_append_right (Nat.le_add_right _ 1), Nat.add_sub_cancel_left]
  rfl

/-- A cell is computed from the three around it.  `old` is what it held before. -/
theorem fillCell?_eq (c d : Char) {passed filled rest stale : List Nat}
    {left diagonal above old : Nat} (hindex : passed.length = filled.length) :
    fillCell? c d filled.length
        { previous := passed ++ diagonal :: above :: rest
          current := filled ++ left :: old :: stale } =
      some { previous := passed ++ diagonal :: above :: rest
             current := filled ++ left ::
              min (min (above + 1) (left + 1)) (diagonal + if c = d then 0 else 1) :: stale } := by
  have habove := getElem?_behind_succ passed rest diagonal above
  have hdiagonal := getElem?_behind passed (above :: rest) diagonal
  have hleft := getElem?_behind filled (old :: stale) left
  have hwrite := fun value => @write?_of_append
    { previous := passed ++ diagonal :: above :: rest
      current := filled ++ left :: old :: stale } (filled ++ [left]) stale old
    (List.append_cons _ _ _) value
  rw [hindex] at habove hdiagonal
  rw [List.length_append, List.length_singleton] at hwrite
  rw [fillCell?]
  dsimp only
  rw [habove, hleft, hdiagonal]
  dsimp only [bind, Option.bind]
  rw [hwrite, List.append_assoc]
  rfl

/-- A row is filled with the cells that extend the previous one.  `stale` is what the cells held
before. -/
theorem fillRow?_eq (c : Char) {ds : List Char} {passed filled rest stale : List Nat}
    {left diagonal : Nat} (hindex : passed.length = filled.length)
    (hrest : rest.length = ds.length) (hstale : stale.length = ds.length) :
    fillRow? c filled.length ds
        { previous := passed ++ diagonal :: rest, current := filled ++ left :: stale } =
      some { previous := passed ++ diagonal :: rest
             current := filled ++ left :: extendRow c left diagonal ds rest } := by
  induction ds generalizing passed filled rest stale left diagonal with
  | nil =>
    obtain rfl := List.eq_nil_of_length_eq_zero hstale
    rfl
  | cons d ds ih =>
    obtain ⟨above, rest, rfl⟩ := List.exists_cons_of_length_pos
      (hrest ▸ Nat.succ_pos ds.length : 0 < rest.length)
    obtain ⟨old, stale, rfl⟩ := List.exists_cons_of_length_pos
      (hstale ▸ Nat.succ_pos ds.length : 0 < stale.length)
    rw [fillRow?, fillCell?_eq c d hindex, extendRow]
    generalize min (min (above + 1) (left + 1)) (diagonal + if c = d then 0 else 1) = cell
    -- What has been passed and filled grows by a cell each.
    have hgrown : (passed ++ [diagonal]).length = (filled ++ [left]).length := by
      rw [List.length_append, List.length_append, hindex]
      rfl
    have hmore := @ih (passed ++ [diagonal]) (filled ++ [left]) rest stale cell above hgrown
      (Nat.succ.inj hrest) (Nat.succ.inj hstale)
    rw [List.length_append, List.length_singleton, List.append_assoc, List.append_assoc,
      List.append_assoc] at hmore
    exact hmore

theorem readChar?_eq {target : List Char} {read : Nat} {b : RowBuffers}
    (hrow : IsRow target read b.previous) (hcurrent : b.current.length = target.length + 1)
    (c : Char) :
    b.readChar? target read c =
      some { previous := nextRow c target b.previous, current := b.previous } := by
  obtain ⟨rest, hprevious, hrest⟩ := hrow.exists_cons
  obtain ⟨old, stale, hold⟩ := List.exists_cons_of_length_pos
    (hcurrent ▸ Nat.succ_pos target.length : 0 < b.current.length)
  have hstale : stale.length = target.length := by
    rw [hold] at hcurrent
    exact Nat.succ.inj hcurrent
  have hwrite := @write?_of_append b [] stale old hold (read + 1)
  have hfill := @fillRow?_eq c target [] [] rest stale (read + 1) read rfl hrest hstale
  rw [List.length_nil] at hwrite
  rw [readChar?, hwrite, hprevious]
  exact congrArg (· >>= fun b : RowBuffers => some b.swap) hfill

/-- Buffers that hold a row go through the rows that are to come. -/
theorem readAll?_eq {target : List Char} (source : List Char) {read : Nat} {b : RowBuffers}
    (hrow : IsRow target read b.previous) (hcurrent : b.current.length = target.length + 1) :
    ∃ b', readAll? target read source b = some b' ∧
      b'.previous = source.foldl (fun row c => nextRow c target row) b.previous ∧
      IsRow target (read + source.length) b'.previous := by
  induction source generalizing read b with
  | nil => exact ⟨b, rfl, rfl, hrow⟩
  | cons c cs ih =>
    obtain ⟨b', hread, hprevious, hlast⟩ :=
      @ih (read + 1) { previous := nextRow c target b.previous, current := b.previous }
        (hrow.nextRow c) hrow.length
    refine ⟨b', ?_, hprevious, ?_⟩
    · rw [readAll?, readChar?_eq hrow hcurrent]
      exact hread
    · rw [List.length_cons, Nat.add_comm cs.length, ← Nat.add_assoc]
      exact hlast

theorem wordDistance?_eq (source target : List Char) :
    wordDistance? source target = some (wordDistance source target) := by
  rw [wordDistance?]
  split
  · next hsource =>
    rw [List.isEmpty_iff.mp hsource, wordDistance_eq, List.reverse_nil, distance_nil_left,
      List.length_reverse]
  · split
    · next htarget =>
      rw [List.isEmpty_iff.mp htarget, wordDistance_eq, List.reverse_nil, distance_nil_right,
        List.length_reverse]
    · obtain ⟨b, hread, hprevious, hlast⟩ :=
        @readAll?_eq target source 0 (start target) (IsRow.firstRow target) List.length_replicate
      -- The last cell of a row stands behind as many cells as the second word has characters.
      have hcell : b.previous[target.length]? = b.previous.getLast? := by
        rw [List.getLast?_eq_getElem?, hlast.length, Nat.add_sub_cancel]
      have hne : b.previous ≠ [] := List.ne_nil_of_length_eq_add_one hlast.length
      have hfound : b.previous.getLast? = some (wordDistance source target) := by
        have hrow : wordDistance source target = b.previous.getLast?.getD 0 := by
          rw [hprevious]
          rfl
        rw [hrow, List.getLast?_eq_some_getLast hne]
        rfl
      exact (congrArg (· >>= fun b : RowBuffers => b.previous[target.length]?) hread).trans
        (hcell.trans hfound)

/-- The edit distance in two buffers is the edit distance, and is always found. -/
theorem editDistance?_eq (a b : String) : editDistance? a b = some (editDistance a b) :=
  wordDistance?_eq _ _

end RowBuffers
end Inlay
