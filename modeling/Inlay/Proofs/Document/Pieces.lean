import Inlay.Document.Basic
import Inlay.Proofs.Text.Bytes
import Inlay.Proofs.Text.Spans
import Mathlib.Data.List.Basic

/-!
# Pieces of a document

The text of a document is made of pieces: the characters of its text parts, and its holes.
`Document.pieces` lists them.  Where the parts fill the place of the document, the pieces are
all there is to it.  Any two boundaries between pieces are the ends of a range, and what the
range holds is what lies between them in the list: `sliceD_text` says so of the
characters, and `holesIn_eq` of the holes.
-/

namespace Inlay

/-! ## Parts that fill a place -/

/-- Spans that fill the room between two offsets.  Each begins where the one before it ends, and
they may be empty. -/
def Fills (start stop : Nat) : List Span → Prop
  | [] => start = stop
  | s :: rest => s.start = start ∧ s.start ≤ s.stop ∧ Fills s.stop stop rest

instance Fills.decidable : (start stop : Nat) → (spans : List Span) →
    Decidable (Fills start stop spans)
  | start, stop, [] => inferInstanceAs (Decidable (start = stop))
  | start, stop, s :: rest =>
    have := Fills.decidable s.stop stop rest
    inferInstanceAs (Decidable (s.start = start ∧ s.start ≤ s.stop ∧ Fills s.stop stop rest))

theorem Fills.le {start stop : Nat} {spans : List Span} (h : Fills start stop spans) :
    start ≤ stop := by
  induction spans generalizing start with
  | nil => exact Nat.le_of_eq h
  | cons s rest ih =>
    obtain ⟨hstart, hspan, hrest⟩ := h
    have hle := ih hrest
    omega

theorem Tiles.fills {start stop : Nat} {spans : List Span} (h : Tiles start stop spans) :
    Fills start stop spans := by
  induction spans generalizing start with
  | nil => exact h
  | cons s rest ih =>
    obtain ⟨hstart, hspan, hrest⟩ := h
    exact ⟨hstart, Nat.le_of_lt hspan, ih hrest⟩

theorem Fills.inOrder {start stop : Nat} {spans : List Span} (h : Fills start stop spans) :
    InOrder start stop spans := by
  induction spans generalizing start with
  | nil => exact Nat.le_of_eq h
  | cons s rest ih => exact ⟨Nat.le_of_eq h.1.symm, h.2.1, ih h.2.2⟩

/-- The parts fill the place of the document. -/
def Document.Filled (d : Document) : Prop :=
  Fills d.location.start d.location.stop (d.parts.map Part.span)

instance (d : Document) : Decidable d.Filled := Fills.decidable _ _ _

/-- The bytes that two spans share begin and end with one of them. -/
theorem Span.overlap?_eq_some {a b visible : Span} (h : a.overlap? b = some visible)
    (ha : a.start ≤ a.stop) (hb : b.start ≤ b.stop) :
    visible.start = max a.start b.start ∧ visible.stop = min a.stop b.stop ∧
      visible.start ≤ visible.stop := by
  rw [overlap?] at h
  split at h
  · next hoverlaps =>
    simp only [overlaps, Bool.and_eq_true, decide_eq_true_eq] at hoverlaps
    obtain rfl := Option.some.inj h
    refine ⟨rfl, ?_, Nat.le_max_left _ _⟩
    show max (max a.start b.start) (min a.stop b.stop) = min a.stop b.stop
    omega
  · cases h

theorem byteLength_placeholder (n : Nat) : byteLength (placeholder n) = n := by
  induction n with
  | zero => rfl
  | succ n ih =>
    rw [placeholder] at ih ⊢
    rw [List.replicate_succ, byteLength_cons, ih, Nat.add_comm]
    rfl

theorem byteLength_shown {p : Part} {visible : Span} (h : p.span.start ≤ visible.start) :
    byteLength (Document.shown p visible) = visible.length := by
  cases p with
  | hole _ => exact byteLength_placeholder _
  | text t =>
    have hstart : t.span.start ≤ visible.start := h
    rw [Document.shown]
    split
    · next piece hpiece =>
      obtain ⟨-, _, _, -, -, hlength⟩ := Span.slice?_eq_some_iff.mp hpiece
      have hunshift : (visible.unshift t.span.start).stop - (visible.unshift t.span.start).start =
          visible.stop - t.span.start - (visible.start - t.span.start) := rfl
      rw [hlength, hunshift, Span.length]
      omega
    · exact byteLength_placeholder _

/-! ## Pieces -/

/-- A character of the text of a document, or a hole in it. -/
inductive Piece where
  | char (c : Char)
  | hole (h : Hole)

namespace Piece

/-- What a piece shows: a character, or a run of underscores. -/
def chars : Piece → List Char
  | .char c => [c]
  | .hole h => placeholder h.span.length

def hole? : Piece → Option Hole
  | .char _ => none
  | .hole h => some h

def text (ps : List Piece) : List Char := ps.flatMap chars

def holes (ps : List Piece) : List Hole := ps.filterMap hole?

/-- How many bytes pieces take. -/
def size (ps : List Piece) : Nat := byteLength (text ps)

variable {ps qs : List Piece} {c : Char} {h : Hole} {cs : List Char}

@[simp] theorem text_nil : text [] = [] := rfl

@[simp] theorem text_cons (p : Piece) : text (p :: ps) = p.chars ++ text ps := rfl

@[simp] theorem text_append (ps qs : List Piece) : text (ps ++ qs) = text ps ++ text qs :=
  List.flatMap_append

theorem text_map_char : text (cs.map char) = cs := by
  induction cs with
  | nil => rfl
  | cons c rest ih => rw [List.map_cons, text_cons, ih]; rfl

@[simp] theorem holes_append (ps qs : List Piece) : holes (ps ++ qs) = holes ps ++ holes qs :=
  List.filterMap_append

theorem holes_map_char : holes (cs.map char) = [] := by
  rw [holes, List.filterMap_map]
  exact List.filterMap_eq_nil_iff.mpr fun _ _ => rfl

@[simp] theorem size_append (ps qs : List Piece) : size (ps ++ qs) = size ps + size qs := by
  rw [size, text_append, byteLength_append, size, size]

@[simp] theorem size_char : size [char c] = c.utf8Size := rfl

@[simp] theorem size_hole : size [hole h] = h.span.length := by
  rw [size, text_cons, text_nil, List.append_nil]
  exact byteLength_placeholder _

theorem size_map_char : size (cs.map char) = byteLength cs := congrArg byteLength text_map_char

/-- A hole that holds a byte begins with an underscore. -/
theorem text_hole_cons (hpos : 0 < h.span.length) (ps : List Piece) :
    text (hole h :: ps) = '_' :: (placeholder (h.span.length - 1) ++ text ps) := by
  obtain ⟨n, hn⟩ := Nat.exists_eq_add_of_le' hpos
  rw [text_cons, chars, hn]
  rfl

theorem eq_nil_of_size_eq_zero (hsolid : ∀ h ∈ holes ps, 0 < h.span.length) (hsize : size ps = 0) :
    ps = [] := by
  cases ps with
  | nil => rfl
  | cons p rest =>
    have happend : size (p :: rest) = size [p] + size rest := size_append [p] rest
    cases p with
    | char c =>
      have hpos := c.utf8Size_pos
      rw [size_char] at happend
      omega
    | hole h =>
      have hpos := hsolid h List.mem_cons_self
      rw [size_hole] at happend
      omega

/-- The range of the pieces in `mid`, with the pieces in `front` before them. -/
def range (front mid : List Piece) : Span :=
  { start := size front, stop := size (front ++ mid) }

theorem range_start (front mid : List Piece) : (range front mid).start = size front := rfl

theorem range_stop (front mid : List Piece) :
    (range front mid).stop = size front + size mid :=
  size_append front mid

theorem of_size_append (front mid : List Piece) :
    Span.of (size front) (size (front ++ mid)) = range front mid := by
  rw [Span.of, range, size_append, Nat.max_eq_right (Nat.le_add_right _ _)]

theorem of_append_size (front mid : List Piece) :
    Span.of (size (front ++ mid)) (size front) = range (front ++ mid) [] := by
  rw [Span.of, range, List.append_nil, size_append, Nat.max_eq_left (Nat.le_add_right _ _)]

/-- A hole that stands behind some characters and before others. -/
theorem split_of_map_char {front back : List Piece}
    (hsplit : cs.map char ++ ps = front ++ hole h :: back) :
    ∃ inner, front = cs.map char ++ inner ∧ ps = inner ++ hole h :: back := by
  induction cs generalizing front with
  | nil => exact ⟨front, rfl, hsplit⟩
  | cons c rest ih =>
    cases front with
    | nil => cases hsplit
    | cons p front =>
      obtain ⟨rfl, hrest⟩ := List.cons.inj hsplit
      obtain ⟨inner, rfl, hps⟩ := ih hrest
      exact ⟨inner, rfl, hps⟩

theorem mem_holes_iff : h ∈ holes ps ↔ ∃ front back, ps = front ++ hole h :: back := by
  constructor
  · intro hmem
    obtain ⟨p, hp, hhole⟩ := List.mem_filterMap.mp hmem
    obtain rfl : p = hole h := by
      cases p with
      | char c => exact absurd hhole.symm (Option.some_ne_none h)
      | hole h' => rw [Option.some.inj hhole]
    exact List.append_of_mem hp
  · rintro ⟨front, back, rfl⟩
    exact List.mem_filterMap.mpr ⟨hole h, by simp, rfl⟩

end Piece

namespace Part

/-- The pieces of a part that is shown whole. -/
def pieces : Part → List Piece
  | .text t => (Document.shown (.text t) t.span).map .char
  | .hole h => [.hole h]

theorem text_pieces (p : Part) : Piece.text p.pieces = Document.shown p p.span := by
  cases p with
  | text t => exact Piece.text_map_char
  | hole h => exact List.append_nil _

theorem size_pieces (p : Part) : Piece.size p.pieces = p.span.length := by
  rw [Piece.size, text_pieces]
  exact byteLength_shown (Nat.le_refl _)

end Part

namespace Document

/-- The characters and holes of a document, in their order. -/
def pieces (d : Document) : List Piece := d.parts.flatMap Part.pieces

theorem holesOf_eq (parts : List Part) :
    holesOf parts = Piece.holes (parts.flatMap Part.pieces) := by
  induction parts with
  | nil => rfl
  | cons p rest ih =>
    rw [List.flatMap_cons, Piece.holes_append, ← ih]
    cases p with
    | text t => rw [Part.pieces, Piece.holes_map_char]; rfl
    | hole h => rfl

theorem holes_eq (d : Document) : d.holes = Piece.holes d.pieces := holesOf_eq d.parts

theorem mem_holes_of_mem {d : Document} {front mid back : List Piece}
    (hpieces : d.pieces = front ++ mid ++ back) {x : Hole} (hx : x ∈ Piece.holes mid) :
    x ∈ d.holes := by
  rw [holes_eq, hpieces, Piece.holes_append, Piece.holes_append]
  exact List.mem_append_left _ (List.mem_append_right _ hx)

/-- A part that lies in the place is shown whole, and an empty one not at all. -/
theorem textFrom_of_fills {location : Span} {parts : List Part} {cursor : Nat}
    (h : Fills cursor location.stop (parts.map Part.span)) (hcursor : location.start ≤ cursor) :
    textFrom location cursor parts = Piece.text (parts.flatMap Part.pieces) := by
  induction parts generalizing cursor with
  | nil => rfl
  | cons p rest ih =>
    obtain ⟨hstart, hspan, hrest⟩ := h
    have hstop := hrest.le
    have hinner := ih hrest (by omega)
    rw [textFrom, List.flatMap_cons, Piece.text_append, Part.text_pieces, ← hinner]
    cases hvisible : p.span.overlap? location with
    | none =>
      have hempty : p.span.start = p.span.stop := by
        rw [Span.overlap?] at hvisible
        split at hvisible
        · cases hvisible
        · next hapart =>
          simp only [Span.overlaps, Bool.and_eq_true, decide_eq_true_eq] at hapart
          omega
      have hnothing : Document.shown p p.span = [] := by
        apply eq_nil_of_byteLength_eq_zero
        rw [byteLength_shown (Nat.le_refl _), Span.length]
        omega
      rw [hnothing, ← hempty, hstart]
      rfl
    | some visible =>
      obtain ⟨hvstart, hvstop, -⟩ := Span.overlap?_eq_some hvisible hspan (by omega)
      obtain rfl : visible = p.span := by
        have hvisibleStart : visible.start = p.span.start := by omega
        have hvisibleStop : visible.stop = p.span.stop := by omega
        cases visible
        cases hp : p.span
        rw [hp] at hvisibleStart hvisibleStop
        exact congr (congrArg Span.mk hvisibleStart) hvisibleStop
      dsimp only
      rw [← hstart, Nat.sub_self]
      rfl

variable {d : Document}

theorem Filled.text_eq (hd : d.Filled) : d.text = String.ofList (Piece.text d.pieces) :=
  congrArg String.ofList (textFrom_of_fills hd (Nat.le_refl _))

theorem Filled.utf8ByteSize_text (hd : d.Filled) : d.text.utf8ByteSize = Piece.size d.pieces := by
  rw [← byteLength_toList, hd.text_eq, String.toList_ofList, Piece.size]

/-! ## Places of pieces -/

theorem start_of_fills {parts : List Part} {lo hi : Nat} (h : Fills lo hi (parts.map Part.span))
    {front back : List Piece} {x : Hole}
    (hpieces : parts.flatMap Part.pieces = front ++ .hole x :: back) :
    x.span.start = lo + Piece.size front ∧ x.span.start ≤ x.span.stop := by
  induction parts generalizing lo front with
  | nil =>
    rw [List.flatMap_nil] at hpieces
    exact absurd hpieces (by simp)
  | cons p rest ih =>
    obtain ⟨hstart, hspan, hrest⟩ := h
    have hsize := p.size_pieces
    rw [Span.length] at hsize
    cases p with
    | text t =>
      obtain ⟨inner, rfl, hinner⟩ := Piece.split_of_map_char hpieces
      obtain ⟨hxstart, hxspan⟩ := ih hrest hinner
      have hfront : Piece.size ((shown (.text t) t.span).map Piece.char ++ inner) =
          Piece.size (Part.text t).pieces + Piece.size inner := Piece.size_append _ _
      rw [hfront]
      exact ⟨by omega, hxspan⟩
    | hole h =>
      cases front with
      | nil =>
        obtain ⟨hx, -⟩ := List.cons.inj hpieces
        cases hx
        exact ⟨hstart, hspan⟩
      | cons q front =>
        obtain ⟨rfl, hinner⟩ := List.cons.inj hpieces
        obtain ⟨hxstart, hxspan⟩ := ih hrest hinner
        have hfront : Piece.size ([.hole h] ++ front) =
            Piece.size (Part.hole h).pieces + Piece.size front := Piece.size_append _ _
        refine ⟨?_, hxspan⟩
        show x.span.start = lo + Piece.size ([.hole h] ++ front)
        omega

section Filled

variable {front mid back : List Piece} {x : Hole}

/-- A hole lies in the host file where it stands among the pieces. -/
theorem Filled.span_hole (hd : d.Filled) (hpieces : d.pieces = front ++ .hole x :: back) :
    x.span.start = Piece.size front + d.location.start ∧
      x.span.stop = Piece.size front + x.span.length + d.location.start := by
  obtain ⟨hstart, hspan⟩ := start_of_fills hd hpieces
  have hlength : x.span.length = x.span.stop - x.span.start := rfl
  omega

theorem Filled.holeSpan_eq (hd : d.Filled) (hpieces : d.pieces = front ++ .hole x :: back) :
    d.holeSpan x = { start := Piece.size front, stop := Piece.size front + x.span.length } := by
  obtain ⟨hstart, hstop⟩ := hd.span_hole hpieces
  have hshiftStart : x.span.start - d.location.start = Piece.size front := by omega
  have hshiftStop : x.span.stop - d.location.start = Piece.size front + x.span.length := by omega
  exact congr (congrArg Span.mk hshiftStart) hshiftStop

theorem Filled.overlaps_iff (hd : d.Filled) (hpieces : d.pieces = front ++ .hole x :: back)
    (r : Span) :
    x.span.overlaps (d.spanToHost r) = true ↔
      Piece.size front < r.stop ∧ r.start < Piece.size front + x.span.length := by
  obtain ⟨hstart, hstop⟩ := hd.span_hole hpieces
  have hrstart : (d.spanToHost r).start = r.start + d.location.start := rfl
  have hrstop : (d.spanToHost r).stop = r.stop + d.location.start := rfl
  rw [Span.overlaps, Bool.and_eq_true, decide_eq_true_eq, decide_eq_true_eq]
  omega

/-- The holes in a range are those among its pieces, if every hole holds a byte. -/
theorem Filled.holesIn_eq (hd : d.Filled) (hsolid : ∀ h ∈ d.holes, 0 < h.span.length)
    (hpieces : d.pieces = front ++ mid ++ back) :
    d.holesIn (Piece.range front mid) = Piece.holes mid := by
  let r := Piece.range front mid
  have hsize := Piece.size_append front mid
  have hbefore : (Piece.holes front).filter (fun h => h.span.overlaps (d.spanToHost r)) = [] := by
    refine List.filter_eq_nil_iff.mpr fun x hx => ?_
    obtain ⟨a, b, rfl⟩ := Piece.mem_holes_iff.mp hx
    have hx' : d.pieces = a ++ .hole x :: (b ++ (mid ++ back)) := by simp [hpieces]
    have hfront := Piece.size_append a ([.hole x] ++ b)
    have hhole := Piece.size_append [.hole x] b
    rw [Piece.size_hole] at hhole
    rw [hd.overlaps_iff hx']
    show ¬(_ ∧ Piece.size (a ++ ([.hole x] ++ b)) < _)
    omega
  have hinside : (Piece.holes mid).filter (fun h => h.span.overlaps (d.spanToHost r)) =
      Piece.holes mid := by
    refine List.filter_eq_self.mpr fun x hx => ?_
    have hpositive := hsolid x (mem_holes_of_mem hpieces hx)
    obtain ⟨a, b, rfl⟩ := Piece.mem_holes_iff.mp hx
    have hx' : d.pieces = (front ++ a) ++ .hole x :: (b ++ back) := by simp [hpieces]
    have hfront := Piece.size_append front a
    have hmid := Piece.size_append a ([.hole x] ++ b)
    have hhole := Piece.size_append [.hole x] b
    rw [Piece.size_hole] at hhole
    rw [hd.overlaps_iff hx']
    show Piece.size (front ++ a) < Piece.size (front ++ (a ++ ([.hole x] ++ b))) ∧ _
    have hall := Piece.size_append front (a ++ ([.hole x] ++ b))
    exact ⟨by omega, by show Piece.size front < _; omega⟩
  have hbehind : (Piece.holes back).filter (fun h => h.span.overlaps (d.spanToHost r)) = [] := by
    refine List.filter_eq_nil_iff.mpr fun x hx => ?_
    obtain ⟨a, b, rfl⟩ := Piece.mem_holes_iff.mp hx
    have hx' : d.pieces = (front ++ mid ++ a) ++ .hole x :: b := by simp [hpieces]
    have hfront := Piece.size_append (front ++ mid) a
    rw [hd.overlaps_iff hx']
    show ¬(_ < Piece.size (front ++ mid) ∧ _)
    omega
  rw [holesIn, holes_eq, hpieces, Piece.holes_append, Piece.holes_append, List.filter_append,
    List.filter_append, hbefore, hinside, hbehind, List.nil_append, List.append_nil]

theorem holesOf_sublist (parts : List Part) :
    ((holesOf parts).map (·.span)).Sublist (parts.map Part.span) := by
  induction parts with
  | nil => exact .slnil
  | cons p rest ih =>
    cases p with
    | text t => exact ih.cons _
    | hole h => exact ih.cons_cons _

/-- Holes that hold a byte are told apart by their places. -/
theorem Filled.nodup_holes (hd : d.Filled) (hsolid : ∀ h ∈ d.holes, 0 < h.span.length) :
    d.holes.Nodup := by
  have hspans := ((Fills.inOrder hd).sublist (holesOf_sublist d.parts)).pairwise
  refine (List.pairwise_map.mp hspans).imp_of_mem ?_
  rintro h k hh - hle rfl
  have hpositive := hsolid h hh
  rw [Span.length] at hpositive
  omega

/-- A range of the text holds the characters of its pieces. -/
theorem Filled.sliceD_text (hd : d.Filled)
    (hpieces : d.pieces = front ++ mid ++ back) :
    (Piece.range front mid).sliceD d.text = String.ofList (Piece.text mid) := by
  have hsize := Piece.size_append front mid
  have hslice : (Piece.range front mid).slice? d.text = some (String.ofList (Piece.text mid)) := by
    refine Span.slice?_eq_some_iff.mpr ⟨?_, Piece.text front, Piece.text back, ?_, rfl, ?_⟩
    · show Piece.size front ≤ Piece.size (front ++ mid)
      omega
    · rw [hd.text_eq, hpieces, String.toList_ofList, String.toList_ofList, Piece.text_append,
        Piece.text_append]
    · rw [String.toList_ofList]
      show Piece.size mid = Piece.size (front ++ mid) - Piece.size front
      omega
  rw [Span.sliceD, hslice, Option.getD_some]

end Filled

end Document
end Inlay
