import Inlay.Proofs.Document.Pieces
import Mathlib.Data.List.Forall2

/-!
# Documents with holes of other lengths

Two documents stretch each other if their parts agree one by one: a text stands against the same
text, and a hole against a hole, which may have another length and stand for anything.
`Counterpart` is the map between their offsets.  It keeps the order (`Counterpart.lt_iff`), so it is
one to one (`Counterpart.eq_iff`).

The pieces of such documents come in pairs, the cells, and what is read off one document at
the borders between cells can be read off the other: `Aligned`.  Between two
borders the texts are the same if there is no hole between them, and otherwise differ in the
lengths of runs of underscores alone, which `squeeze` forgets.
-/

namespace Inlay

/-! ## Documents that stretch each other -/

/-- Texts agree if they are the same and as long, and holes if each holds a byte. -/
inductive Part.Agrees : Part → Part → Prop
  | text {t u : TextPart} (htext : t.text = u.text) (hlength : t.span.length = u.span.length) :
      Agrees (.text t) (.text u)
  | hole {h k : Hole} (hleft : 0 < h.span.length) (hright : 0 < k.span.length) :
      Agrees (.hole h) (.hole k)

/-- The parts of each document fill its place, and agree with those of the other one by one. -/
structure Document.Stretches (d e : Document) : Prop where
  filled : d.Filled
  filled' : e.Filled
  parts : List.Forall₂ Part.Agrees d.parts e.parts

/-- An offset in the text of some parts, and the one that stands for it in the text of parts that
agree with them: both are at the same byte of a text, or at the same end of a hole. -/
inductive Counterpart : List Part → List Part → Nat → Nat → Prop
  | border {ps qs : List Part} : Counterpart ps qs 0 0
  | text {t u : TextPart} {ps qs : List Part} {offset : Nat} (h : offset ≤ t.span.length) :
      Counterpart (.text t :: ps) (.text u :: qs) offset offset
  | behind {p q : Part} {ps qs : List Part} {i j : Nat} (h : Counterpart ps qs i j) :
      Counterpart (p :: ps) (q :: qs) (p.span.length + i) (q.span.length + j)

namespace Counterpart

variable {ps qs : List Part} {i j i' j' : Nat}

/-- Only the start stands for the start. -/
theorem pos_iff (h : Counterpart ps qs i j) (hparts : List.Forall₂ Part.Agrees ps qs) :
    0 < i ↔ 0 < j := by
  induction h with
  | border => exact Iff.rfl
  | text _ => exact Iff.rfl
  | behind _ ih =>
    obtain ⟨hagrees, hrest⟩ := List.forall₂_cons.mp hparts
    have hinner := ih hrest
    cases hagrees with
    | text _ hlength =>
      show 0 < _ + _ ↔ 0 < _ + _
      simp only [Part.span]
      omega
    | hole hleft hright =>
      simp only [Part.span]
      omega

/-- Counterparts come in the same order. -/
theorem lt_iff (h : Counterpart ps qs i j) (h' : Counterpart ps qs i' j')
    (hparts : List.Forall₂ Part.Agrees ps qs) : i < i' ↔ j < j' := by
  induction h generalizing i' j' with
  | border => exact h'.pos_iff hparts
  | text hoffset =>
    obtain ⟨hagrees, hrest⟩ := List.forall₂_cons.mp hparts
    cases hagrees with
    | text _ hlength =>
      cases h' with
      | border => exact Iff.rfl
      | text _ => exact Iff.rfl
      | behind hbehind =>
        have hinner := hbehind.pos_iff hrest
        simp only [Part.span]
        omega
  | behind hbehind ih =>
    obtain ⟨hagrees, hrest⟩ := List.forall₂_cons.mp hparts
    cases h' with
    | border => simp only [Nat.not_lt_zero]
    | text hoffset =>
      have hinner := hbehind.pos_iff hrest
      cases hagrees with
      | text _ hlength =>
        simp only [Part.span]
        omega
    | behind hbehind' =>
      have hinner := ih hbehind' hrest
      omega

/-- An offset has one counterpart, and is that of one offset. -/
theorem eq_iff (h : Counterpart ps qs i j) (h' : Counterpart ps qs i' j')
    (hparts : List.Forall₂ Part.Agrees ps qs) : i = i' ↔ j = j' := by
  have hlt := h.lt_iff h' hparts
  have hgt := h'.lt_iff h hparts
  omega

end Counterpart

/-! ## Underscores -/

/-- Characters with each run of underscores cut down to one. -/
def squeeze : List Char → List Char
  | [] => []
  | c :: cs => if c = '_' ∧ (squeeze cs).head? = some '_' then squeeze cs else c :: squeeze cs

theorem squeeze_cons_congr {c : Char} {xs ys : List Char} (h : squeeze xs = squeeze ys) :
    squeeze (c :: xs) = squeeze (c :: ys) := by
  rw [squeeze, squeeze, h]

/-- A run of underscores counts as one. -/
theorem squeeze_placeholder_append {n : Nat} (hn : 0 < n) (cs : List Char) :
    squeeze (placeholder n ++ cs) = squeeze ('_' :: cs) := by
  induction n with
  | zero => exact absurd hn (Nat.lt_irrefl 0)
  | succ n ih =>
    rw [placeholder, List.replicate_succ, List.cons_append]
    cases n with
    | zero => rfl
    | succ n =>
      have hinner := squeeze_cons_congr (c := '_') (ih (Nat.succ_pos n))
      refine hinner.trans ?_
      rw [squeeze, if_pos]
      refine ⟨rfl, ?_⟩
      rw [squeeze]
      split
      · next h => exact h.2
      · rfl

/-! ## Cells -/

/-- A character that two documents share, or a hole of the one and one of the other. -/
inductive Cell where
  | char (c : Char)
  | hole (h k : Hole)

namespace Cell

def left : Cell → Piece
  | .char c => .char c
  | .hole h _ => .hole h

def right : Cell → Piece
  | .char c => .char c
  | .hole _ k => .hole k

def holes? : Cell → Option (Hole × Hole)
  | .char _ => none
  | .hole h k => some (h, k)

def lefts (cs : List Cell) : List Piece := cs.map left

def rights (cs : List Cell) : List Piece := cs.map right

/-- The pairs of holes among cells. -/
def holes (cs : List Cell) : List (Hole × Hole) := cs.filterMap holes?

/-- Both sides hold a byte. -/
def IsSolid : Cell → Prop
  | .char _ => True
  | .hole h k => 0 < h.span.length ∧ 0 < k.span.length

/-- The holes on one side of the cells. -/
theorem holes_map {side : Cell → Piece} {member : Hole × Hole → Hole}
    (h : ∀ c, (side c).hole? = c.holes?.map member) (cs : List Cell) :
    Piece.holes (cs.map side) = (holes cs).map member := by
  rw [Piece.holes, holes, List.filterMap_map, List.map_filterMap]
  exact List.filterMap_congr fun c _ => h c

theorem holes_lefts (cs : List Cell) : Piece.holes (lefts cs) = (holes cs).map Prod.fst :=
  holes_map (fun c => by cases c <;> rfl) cs

theorem holes_rights (cs : List Cell) : Piece.holes (rights cs) = (holes cs).map Prod.snd :=
  holes_map (fun c => by cases c <;> rfl) cs

theorem solid_of_mem_holes {cs : List Cell} (h : ∀ c ∈ cs, c.IsSolid) {p : Hole × Hole}
    (hp : p ∈ holes cs) : 0 < p.1.span.length ∧ 0 < p.2.span.length := by
  obtain ⟨c, hc, hholes⟩ := List.mem_filterMap.mp hp
  cases c with
  | char c => exact absurd hholes.symm (Option.some_ne_none p)
  | hole x y =>
    obtain rfl := Option.some.inj hholes
    exact h _ hc

/-- One hole on a side is one cell. -/
theorem map_eq_hole_iff {side : Cell → Piece}
    (h : ∀ c, (∃ z, side c = .hole z) ↔ ∃ x y, c = .hole x y) {cs : List Cell} :
    (∃ z, cs.map side = [.hole z]) ↔ ∃ x y, cs = [.hole x y] := by
  constructor
  · rintro ⟨z, hz⟩
    obtain ⟨c, rfl, hc⟩ := List.map_eq_singleton_iff.mp hz
    obtain ⟨x, y, rfl⟩ := (h c).mp ⟨z, hc⟩
    exact ⟨x, y, rfl⟩
  · rintro ⟨x, y, rfl⟩
    obtain ⟨z, hz⟩ := (h (.hole x y)).mpr ⟨x, y, rfl⟩
    exact ⟨z, congrArg (fun p => [p]) hz⟩

theorem lefts_eq_hole_iff {cs : List Cell} :
    (∃ x, lefts cs = [.hole x]) ↔ ∃ x y, cs = [.hole x y] :=
  map_eq_hole_iff fun c => by cases c <;> simp [left]

theorem rights_eq_hole_iff {cs : List Cell} :
    (∃ y, rights cs = [.hole y]) ↔ ∃ x y, cs = [.hole x y] :=
  map_eq_hole_iff fun c => by cases c <;> simp [right]

@[simp] theorem lefts_append (cs ds : List Cell) : lefts (cs ++ ds) = lefts cs ++ lefts ds :=
  List.map_append

@[simp] theorem rights_append (cs ds : List Cell) : rights (cs ++ ds) = rights cs ++ rights ds :=
  List.map_append

theorem lefts_take (n : Nat) (cs : List Cell) : lefts (cs.take n) = (lefts cs).take n :=
  List.map_take

theorem lefts_drop (n : Nat) (cs : List Cell) : lefts (cs.drop n) = (lefts cs).drop n :=
  List.map_drop

theorem rights_take (n : Nat) (cs : List Cell) : rights (cs.take n) = (rights cs).take n :=
  List.map_take

theorem rights_drop (n : Nat) (cs : List Cell) : rights (cs.drop n) = (rights cs).drop n :=
  List.map_drop

theorem holes_append (cs ds : List Cell) : holes (cs ++ ds) = holes cs ++ holes ds :=
  List.filterMap_append

theorem lefts_map_char (cs : List Char) : lefts (cs.map char) = cs.map Piece.char := List.map_map

theorem rights_map_char (cs : List Char) : rights (cs.map char) = cs.map Piece.char := List.map_map

section Solid

variable {cs : List Cell}

/-- Solid cells take room on both sides, unless there are none. -/
theorem size_pos_iff (h : ∀ c ∈ cs, c.IsSolid) :
    (0 < Piece.size (lefts cs) ↔ cs ≠ []) ∧ (0 < Piece.size (rights cs) ↔ cs ≠ []) := by
  cases cs with
  | nil => exact ⟨by decide, by decide⟩
  | cons c rest =>
    have hleft : Piece.size (lefts (c :: rest)) = _ := Piece.size_append [c.left] (lefts rest)
    have hright : Piece.size (rights (c :: rest)) = _ := Piece.size_append [c.right] (rights rest)
    have hroom : 0 < Piece.size [c.left] ∧ 0 < Piece.size [c.right] := by
      cases c with
      | char c => exact ⟨c.utf8Size_pos, c.utf8Size_pos⟩
      | hole x y =>
        rw [left, right, Piece.size_hole, Piece.size_hole]
        exact h _ List.mem_cons_self
    constructor
    · exact iff_of_true (by omega) (List.cons_ne_nil _ _)
    · exact iff_of_true (by omega) (List.cons_ne_nil _ _)

/-- Where no hole is, both sides are the same. -/
theorem text_eq_of_holes_eq_nil (h : holes cs = []) :
    Piece.text (lefts cs) = Piece.text (rights cs) := by
  induction cs with
  | nil => rfl
  | cons c rest ih =>
    cases c with
    | char c => exact congrArg (c :: ·) (ih h)
    | hole x y => cases h

/-- Holes show runs of underscores on both sides. -/
theorem squeeze_text (h : ∀ c ∈ cs, c.IsSolid) :
    squeeze (Piece.text (lefts cs)) = squeeze (Piece.text (rights cs)) := by
  induction cs with
  | nil => rfl
  | cons c rest ih =>
    obtain ⟨hsolid, hrest⟩ := List.forall_mem_cons.mp h
    have hinner := ih hrest
    cases c with
    | char c => exact squeeze_cons_congr hinner
    | hole x y =>
      show squeeze (placeholder x.span.length ++ Piece.text (lefts rest)) =
        squeeze (placeholder y.span.length ++ Piece.text (rights rest))
      rw [squeeze_placeholder_append hsolid.1, squeeze_placeholder_append hsolid.2]
      exact squeeze_cons_congr hinner

end Solid

/-! ## Cells of documents -/

/-- The cells of parts that agree. -/
def ofParts : List Part → List Part → List Cell
  | .text t :: ps, .text _ :: qs => (Document.shown (.text t) t.span).map char ++ ofParts ps qs
  | .hole h :: ps, .hole k :: qs => hole h k :: ofParts ps qs
  | _, _ => []

/-- The same text shows the same characters wherever it lies. -/
theorem shown_text_eq {t u : TextPart} (htext : t.text = u.text)
    (hlength : t.span.length = u.span.length) :
    Document.shown (.text t) t.span = Document.shown (.text u) u.span := by
  have hunshift (r : Span) : r.unshift r.start = { start := 0, stop := r.length } :=
    congrArg (Span.mk · _) (Nat.sub_self r.start)
  rw [Document.shown, Document.shown, hunshift, hunshift, htext, hlength]

section Parts

variable {ps qs : List Part}

theorem lefts_ofParts (h : List.Forall₂ Part.Agrees ps qs) :
    lefts (ofParts ps qs) = ps.flatMap Part.pieces := by
  induction h with
  | nil => rfl
  | cons hagrees _ ih =>
    cases hagrees with
    | text _ _ => rw [ofParts, lefts_append, lefts_map_char, ih, List.flatMap_cons, Part.pieces]
    | hole _ _ => exact congrArg (_ :: ·) ih

theorem rights_ofParts (h : List.Forall₂ Part.Agrees ps qs) :
    rights (ofParts ps qs) = qs.flatMap Part.pieces := by
  induction h with
  | nil => rfl
  | cons hagrees _ ih =>
    cases hagrees with
    | text htext hlength =>
      rw [ofParts, rights_append, rights_map_char, ih, List.flatMap_cons, Part.pieces,
        shown_text_eq htext hlength]
    | hole _ _ => exact congrArg (_ :: ·) ih

theorem isSolid_ofParts (h : List.Forall₂ Part.Agrees ps qs) : ∀ c ∈ ofParts ps qs, c.IsSolid := by
  induction h with
  | nil => exact List.forall_mem_nil _
  | cons hagrees _ ih =>
    cases hagrees with
    | text _ _ =>
      refine List.forall_mem_append.mpr ⟨?_, ih⟩
      exact List.forall_mem_map.mpr fun _ _ => trivial
    | hole hleft hright => exact List.forall_mem_cons.mpr ⟨⟨hleft, hright⟩, ih⟩

end Parts

/-! ## Borders between cells -/

/-- The same border between cells, as an offset on either side. -/
def Aligned (cs : List Cell) (i j : Nat) : Prop :=
  ∃ front back, cs = front ++ back ∧ i = Piece.size (lefts front) ∧ j = Piece.size (rights front)

/-- The range of the same cells, on either side. -/
def AlignedSpan (cs : List Cell) (r r' : Span) : Prop :=
  ∃ front mid back, cs = front ++ mid ++ back ∧
    r = Piece.range (lefts front) (lefts mid) ∧ r' = Piece.range (rights front) (rights mid)

namespace Aligned

variable {cs : List Cell} {i j i' j' : Nat}

theorem zero : Aligned cs 0 0 := ⟨[], cs, rfl, rfl, rfl⟩

theorem total : Aligned cs (Piece.size (lefts cs)) (Piece.size (rights cs)) :=
  ⟨cs, [], (List.append_nil cs).symm, rfl, rfl⟩

/-- Of two borders one is behind the other, by the cells between them. -/
theorem between (h : Aligned cs i j) (h' : Aligned cs i' j') :
    ∃ front mid back, cs = front ++ mid ++ back ∧
      ((i = Piece.size (lefts front) ∧ j = Piece.size (rights front) ∧
          i' = Piece.size (lefts (front ++ mid)) ∧ j' = Piece.size (rights (front ++ mid))) ∨
        (i' = Piece.size (lefts front) ∧ j' = Piece.size (rights front) ∧
          i = Piece.size (lefts (front ++ mid)) ∧ j = Piece.size (rights (front ++ mid)))) := by
  obtain ⟨front, back, rfl, rfl, rfl⟩ := h
  obtain ⟨front', back', hsplit, rfl, rfl⟩ := h'
  rcases List.append_eq_append_iff.mp hsplit with ⟨mid, rfl, rfl⟩ | ⟨mid, rfl, rfl⟩
  · exact ⟨front, mid, back', by rw [List.append_assoc], .inl ⟨rfl, rfl, rfl, rfl⟩⟩
  · exact ⟨front', mid, back, rfl, .inr ⟨rfl, rfl, rfl, rfl⟩⟩

/-- Borders come in the same order on both sides. -/
theorem lt_iff (hsolid : ∀ c ∈ cs, c.IsSolid) (h : Aligned cs i j) (h' : Aligned cs i' j') :
    i < i' ↔ j < j' := by
  obtain ⟨front, mid, back, rfl, hmid⟩ := h.between h'
  obtain ⟨hleft, hright⟩ := size_pos_iff fun c (hc : c ∈ mid) =>
    hsolid c (List.mem_append_left _ (List.mem_append_right _ hc))
  rcases hmid with ⟨rfl, rfl, rfl, rfl⟩ | ⟨rfl, rfl, rfl, rfl⟩
  · rw [lefts_append, rights_append, Piece.size_append, Piece.size_append,
      Nat.lt_add_right_iff_pos, Nat.lt_add_right_iff_pos, hleft, hright]
  · rw [lefts_append, rights_append, Piece.size_append, Piece.size_append]
    exact iff_of_false (by omega) (by omega)

/-- The range from a border to another one, or the empty range at the first if the other
one is before it. -/
theorem span (h : Aligned cs i j) (h' : Aligned cs i' j') :
    AlignedSpan cs (Span.of i i') (Span.of j j') := by
  obtain ⟨front, mid, back, rfl, ⟨rfl, rfl, rfl, rfl⟩ | ⟨rfl, rfl, rfl, rfl⟩⟩ := h.between h'
  · rw [lefts_append, rights_append, Piece.of_size_append, Piece.of_size_append]
    exact ⟨front, mid, back, rfl, rfl, rfl⟩
  · rw [lefts_append, rights_append, Piece.of_append_size, Piece.of_append_size]
    refine ⟨front ++ mid, [], back, by rw [List.append_nil], ?_, ?_⟩
    · rw [lefts_append]; rfl
    · rw [rights_append]; rfl

/-- A border between cells is at the same place of the parts on both sides. -/
theorem counterpart {ps qs : List Part} (hparts : List.Forall₂ Part.Agrees ps qs)
    (h : Aligned (ofParts ps qs) i j) : Counterpart ps qs i j := by
  obtain ⟨front, back, hsplit, rfl, rfl⟩ := h
  induction hparts generalizing front with
  | nil =>
    obtain ⟨rfl, -⟩ := List.append_eq_nil_iff.mp hsplit.symm
    exact .border
  | @cons p q ps qs hagrees hrest ih =>
    cases hagrees with
    | @text t u htext hlength =>
      let chars := Document.shown (.text t) t.span
      have hwhole : Piece.size (chars.map Piece.char) = t.span.length := Part.size_pieces (.text t)
      rw [ofParts] at hsplit
      rcases List.append_eq_append_iff.mp hsplit with ⟨inner, rfl, hback⟩ | ⟨inner, hchars, -⟩
      · have hbehind := (ih inner hback).behind (p := .text t) (q := .text u)
        rw [lefts_append, rights_append, lefts_map_char, rights_map_char, Piece.size_append,
          Piece.size_append, hwhole]
        simpa only [Part.span, ← hlength] using hbehind
      · obtain ⟨begun, rest, hbegun, rfl, rfl⟩ := List.map_eq_append_iff.mp hchars
        rw [lefts_map_char, rights_map_char]
        refine .text ?_
        rw [← hwhole]
        show _ ≤ Piece.size (List.map Piece.char (Document.shown (.text t) t.span))
        rw [hbegun, List.map_append, Piece.size_append]
        exact Nat.le_add_right _ _
    | @hole h k hleft hright =>
      cases front with
      | nil => exact .border
      | cons c front =>
        obtain ⟨rfl, hback⟩ := List.cons.inj hsplit
        have hbehind := (ih front hback).behind (p := .hole h) (q := .hole k)
        have hleftSize := Piece.size_append [.hole h] (lefts front)
        have hrightSize := Piece.size_append [.hole k] (rights front)
        rw [Piece.size_hole] at hleftSize hrightSize
        show Counterpart _ _ (Piece.size ([.hole h] ++ lefts front))
          (Piece.size ([.hole k] ++ rights front))
        rw [hleftSize, hrightSize]
        exact hbehind

end Aligned

namespace AlignedSpan

variable {cs : List Cell} {r r' : Span}

theorem start (h : AlignedSpan cs r r') : Aligned cs r.start r'.start := by
  obtain ⟨front, mid, back, rfl, rfl, rfl⟩ := h
  exact ⟨front, mid ++ back, List.append_assoc _ _ _, rfl, rfl⟩

theorem stop (h : AlignedSpan cs r r') : Aligned cs r.stop r'.stop := by
  obtain ⟨front, mid, back, rfl, rfl, rfl⟩ := h
  refine ⟨front ++ mid, back, rfl, ?_, ?_⟩
  · rw [lefts_append]; rfl
  · rw [rights_append]; rfl

theorem isEmpty_eq (hsolid : ∀ c ∈ cs, c.IsSolid) (h : AlignedSpan cs r r') :
    r.isEmpty = r'.isEmpty := by
  have hlt := h.start.lt_iff hsolid h.stop
  obtain ⟨front, mid, back, rfl, rfl, rfl⟩ := h
  have hstop := Piece.range_stop (lefts front) (lefts mid)
  have hstop' := Piece.range_stop (rights front) (rights mid)
  have hstart := Piece.range_start (lefts front) (lefts mid)
  have hstart' := Piece.range_start (rights front) (rights mid)
  rw [Bool.eq_iff_iff, Span.isEmpty, Span.isEmpty, beq_iff_eq, beq_iff_eq]
  omega

end AlignedSpan

end Cell

/-! ## The cells of two documents -/

namespace Document

/-- The characters that two documents share, and their holes. -/
def cells (d e : Document) : List Cell := Cell.ofParts d.parts e.parts

namespace Stretches

variable {d e : Document}

theorem pieces_left (h : d.Stretches e) : d.pieces = Cell.lefts (d.cells e) :=
  (Cell.lefts_ofParts h.parts).symm

theorem pieces_right (h : d.Stretches e) : e.pieces = Cell.rights (d.cells e) :=
  (Cell.rights_ofParts h.parts).symm

theorem isSolid (h : d.Stretches e) : ∀ c ∈ d.cells e, c.IsSolid := Cell.isSolid_ofParts h.parts

/-- Cells that lie one behind the other are pieces that do so, in each document. -/
theorem pieces_split (h : d.Stretches e) {front mid back : List Cell}
    (hcells : d.cells e = front ++ mid ++ back) :
    d.pieces = Cell.lefts front ++ Cell.lefts mid ++ Cell.lefts back ∧
      e.pieces = Cell.rights front ++ Cell.rights mid ++ Cell.rights back := by
  rw [h.pieces_left, h.pieces_right, hcells]
  simp only [Cell.lefts_append, Cell.rights_append, and_self]

theorem solid_left (h : d.Stretches e) : ∀ x ∈ d.holes, 0 < x.span.length := by
  intro x hx
  rw [holes_eq, h.pieces_left, Cell.holes_lefts] at hx
  obtain ⟨p, hp, rfl⟩ := List.mem_map.mp hx
  exact (Cell.solid_of_mem_holes h.isSolid hp).1

theorem solid_right (h : d.Stretches e) : ∀ x ∈ e.holes, 0 < x.span.length := by
  intro x hx
  rw [holes_eq, h.pieces_right, Cell.holes_rights] at hx
  obtain ⟨p, hp, rfl⟩ := List.mem_map.mp hx
  exact (Cell.solid_of_mem_holes h.isSolid hp).2

theorem holes_cells (h : d.Stretches e) : Cell.holes (d.cells e) = d.holes.zip e.holes := by
  refine List.zip_of_prod ?_ ?_
  · rw [holes_eq, h.pieces_left, Cell.holes_lefts]
  · rw [holes_eq, h.pieces_right, Cell.holes_rights]

/-- The documents end at the same place. -/
theorem aligned_size (h : d.Stretches e) :
    Cell.Aligned (d.cells e) d.text.utf8ByteSize e.text.utf8ByteSize := by
  rw [h.filled.utf8ByteSize_text, h.filled'.utf8ByteSize_text, h.pieces_left, h.pieces_right]
  exact .total

end Stretches
end Document
end Inlay
