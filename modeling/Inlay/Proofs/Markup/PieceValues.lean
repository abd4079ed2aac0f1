import Inlay.Markup.Tree
import Inlay.Proofs.Document.Pieces

/-!
# Values of pieces

The reader of attributes looks at the holes of a document by their places: which holes share a
byte with a range, and whether one of them is as long as the range.  Where a range begins
and ends between pieces this depends on the pieces in it alone.  A value is `valueOf` its pieces
(`valueAt_range`), a name is no name if it is a single hole (`isCoveredByHole_range`), and a
modifier is the first piece (`splitModifier_range`).
-/

namespace Inlay
namespace Markup

/-- The characters as a piece of a mixed value, if there are any. -/
def textSegment (cs : List Char) : List Segment :=
  if cs = [] then [] else [.text (String.ofList cs)]

/-- Pieces with the characters between holes taken together, when the characters in `before` have
been read since the last hole. -/
def segmentsOf (before : List Char) : List Piece → List Segment
  | [] => textSegment before
  | .char c :: rest => segmentsOf (before ++ [c]) rest
  | .hole h :: rest => textSegment before ++ .hole h :: segmentsOf [] rest

/-- What pieces are as a value: a single hole, a text, or a mixture. -/
def valueOf (mid : List Piece) : Value :=
  match mid with
  | [.hole h] => .expression h
  | _ =>
    if Piece.holes mid = [] then .text (String.ofList (Piece.text mid))
    else .mixed (segmentsOf [] mid)

theorem valueOf_text {mid : List Piece} (h : Piece.holes mid = []) :
    valueOf mid = .text (String.ofList (Piece.text mid)) := by
  rw [valueOf.eq_def]
  split
  · cases h
  · rw [if_pos h]

theorem valueOf_mixed {mid : List Piece} (h : Piece.holes mid ≠ [])
    (hmore : ∀ x, mid ≠ [.hole x]) : valueOf mid = .mixed (segmentsOf [] mid) := by
  rw [valueOf.eq_def]
  split
  · next x => exact absurd rfl (hmore x)
  · rw [if_neg h]

/-- The binding that the first piece of a name selects. -/
def modifierOf? : List Piece → Option Binding
  | .char c :: _ => Binding.ofModifier? c
  | _ => none

/-- Modifiers take one byte. -/
theorem utf8Size_of_ofModifier? {c : Char} {binding : Binding}
    (h : Binding.ofModifier? c = some binding) : c.utf8Size = 1 := by
  rw [Binding.ofModifier?.eq_def] at h
  split at h
  · rfl
  · rfl
  · rfl
  · cases h

section Range

variable {d : Document} {front mid back : List Piece}

/-- A hole covers the range that it lies in only if nothing else is in it. -/
theorem covers_range_iff (hd : d.Filled) (hsolid : ∀ h ∈ d.holes, 0 < h.span.length)
    (hpieces : d.pieces = front ++ mid ++ back) {x : Hole} (hx : x ∈ Piece.holes mid) :
    (d.holeSpan x).covers (Piece.range front mid) = true ↔ mid = [.hole x] := by
  have hinside : ∀ h ∈ Piece.holes mid, 0 < h.span.length := fun h hh =>
    hsolid h (Document.mem_holes_of_mem hpieces hh)
  obtain ⟨before, after, rfl⟩ := Piece.mem_holes_iff.mp hx
  have hsplit : d.pieces = (front ++ before) ++ .hole x :: (after ++ back) := by simp [hpieces]
  have hbefore := Piece.size_append front before
  have hmid := Piece.size_append before ([.hole x] ++ after)
  have hafter := Piece.size_append [.hole x] after
  have hall := Piece.size_append front (before ++ ([.hole x] ++ after))
  rw [Piece.size_hole] at hafter
  rw [hd.holeSpan_eq hsplit, Span.covers, Bool.and_eq_true, decide_eq_true_eq, decide_eq_true_eq]
  show Piece.size (front ++ before) ≤ Piece.size front ∧
    Piece.size (front ++ (before ++ ([.hole x] ++ after))) ≤
      Piece.size (front ++ before) + x.span.length ↔ _
  constructor
  · rintro ⟨hstart, hend⟩
    have hnoneBefore : before = [] := by
      refine Piece.eq_nil_of_size_eq_zero (fun h hh => hinside h ?_) (by omega)
      rw [Piece.holes_append]
      exact List.mem_append_left _ hh
    have hnoneAfter : after = [] := by
      refine Piece.eq_nil_of_size_eq_zero (fun h hh => hinside h ?_) (by omega)
      rw [Piece.holes_append]
      exact List.mem_append_right _ (List.mem_cons_of_mem _ hh)
    rw [hnoneBefore, hnoneAfter]
    rfl
  · intro hone
    rcases List.append_eq_singleton_iff.mp hone with ⟨rfl, hone⟩ | ⟨-, hone⟩
    · obtain ⟨-, rfl⟩ := List.cons.inj hone
      have hnil : Piece.size [] = 0 := rfl
      omega
    · cases hone

theorem holeSpan_eq_range_iff (hd : d.Filled) (hsolid : ∀ h ∈ d.holes, 0 < h.span.length)
    (hpieces : d.pieces = front ++ mid ++ back) {x : Hole} (hx : x ∈ Piece.holes mid) :
    d.holeSpan x = Piece.range front mid ↔ mid = [.hole x] := by
  constructor
  · intro hfills
    refine (covers_range_iff hd hsolid hpieces hx).mp ?_
    rw [hfills]
    simp [Span.covers]
  · rintro rfl
    have hsplit : d.pieces = front ++ .hole x :: back := by simp [hpieces]
    have hsize := Piece.size_append front [.hole x]
    rw [Piece.size_hole] at hsize
    rw [hd.holeSpan_eq hsplit, ← hsize]
    rfl

/-- A name is covered by a hole if it is one. -/
theorem isCoveredByHole_range (hd : d.Filled) (hsolid : ∀ h ∈ d.holes, 0 < h.span.length)
    (hpieces : d.pieces = front ++ mid ++ back) :
    isCoveredByHole d (Piece.range front mid) = true ↔ ∃ h, mid = [.hole h] := by
  rw [isCoveredByHole, hd.holesIn_eq hsolid hpieces, List.any_eq_true]
  constructor
  · rintro ⟨x, hx, hcovers⟩
    exact ⟨x, (covers_range_iff hd hsolid hpieces hx).mp hcovers⟩
  · rintro ⟨x, rfl⟩
    have hx : x ∈ Piece.holes [.hole x] := List.mem_singleton_self x
    exact ⟨x, hx, (covers_range_iff hd hsolid hpieces hx).mpr rfl⟩

/-- The text of a range, if the range holds a byte, is what its characters are as a
piece of a value. -/
theorem textSegment_range (hd : d.Filled) {cs : List Char}
    (hpieces : d.pieces = front ++ cs.map .char ++ back) :
    let stop := Piece.size (front ++ cs.map .char)
    (if Piece.size front < stop then
      [Segment.text ((Span.of (Piece.size front) stop).sliceD d.text)] else []) =
      textSegment cs := by
  intro stop
  have hsize : stop = Piece.size front + byteLength cs := by
    rw [← Piece.size_map_char]
    exact Piece.size_append _ _
  have hrange : Span.of (Piece.size front) stop = Piece.range front (cs.map .char) :=
    Piece.of_size_append _ _
  rw [textSegment, hrange, hd.sliceD_text hpieces, Piece.text_map_char]
  by_cases hcs : cs = []
  · rw [hcs, byteLength_nil] at hsize
    rw [if_neg (by omega), if_pos hcs]
  · have hroom : byteLength cs ≠ 0 := fun h => hcs (eq_nil_of_byteLength_eq_zero h)
    rw [if_pos (by omega), if_neg hcs]

theorem segmentsFrom_range (hd : d.Filled) (front : List Piece) (before : List Char)
    (hpieces : d.pieces = front ++ before.map .char ++ mid ++ back) :
    segmentsFrom d d.text (Piece.size front) (Piece.size (front ++ before.map .char ++ mid))
      (Piece.holes mid) = segmentsOf before mid := by
  induction mid generalizing front before with
  | nil =>
    rw [List.append_nil] at hpieces ⊢
    exact textSegment_range hd hpieces
  | cons p rest ih =>
    cases p with
    | char c =>
      have hmore : front ++ before.map Piece.char ++ .char c :: rest =
          front ++ (before ++ [c]).map Piece.char ++ rest := by simp
      rw [hmore] at hpieces ⊢
      exact ih front (before ++ [c]) hpieces
    | hole x =>
      have hx : d.pieces = (front ++ before.map Piece.char) ++ .hole x :: (rest ++ back) := by
        simp [hpieces]
      have hmore : front ++ before.map Piece.char ++ .hole x :: rest =
          (front ++ before.map Piece.char ++ [.hole x]) ++ ([] : List Char).map .char ++ rest := by
        simp
      have htext := textSegment_range hd hx
      have hrest := ih (front ++ before.map Piece.char ++ [.hole x]) [] (hmore ▸ hpieces)
      have hbefore := Piece.size_append front (before.map .char)
      have hhole := Piece.size_append (front ++ before.map .char) [.hole x]
      rw [Piece.size_hole] at hhole
      show segmentsFrom d d.text _ _ (x :: Piece.holes rest) = _
      rw [segmentsFrom, hd.holeSpan_eq hx, segmentsOf, ← htext, hmore]
      dsimp only
      rw [Nat.max_eq_right (by omega), ← hhole, hrest]

/-- A range is read as the value of its pieces. -/
theorem valueAt_range (hd : d.Filled) (hsolid : ∀ h ∈ d.holes, 0 < h.span.length)
    (hpieces : d.pieces = front ++ mid ++ back) :
    valueAt d d.text (Piece.range front mid) = valueOf mid := by
  have hsegments : segmentsFrom d d.text (Piece.size front) (Piece.range front mid).stop
      (Piece.holes mid) = segmentsOf [] mid := by
    have hplain : front ++ ([] : List Char).map .char ++ mid = front ++ mid := by simp
    have hrange := segmentsFrom_range hd front [] (hplain.symm ▸ hpieces)
    rw [hplain] at hrange
    exact hrange
  have hmixed (hne : Piece.holes mid ≠ []) (hmore : ∀ x, mid ≠ [.hole x]) :
      Value.mixed (segmentsFrom d d.text (Piece.range front mid).start (Piece.range front mid).stop
        (Piece.holes mid)) = valueOf mid := by
    rw [valueOf_mixed hne hmore, ← hsegments]
    rfl
  rw [valueAt, hd.holesIn_eq hsolid hpieces]
  split
  · next hnone => rw [valueOf_text hnone, hd.sliceD_text hpieces]
  · next x hone =>
    have hx : x ∈ Piece.holes mid := hone ▸ List.mem_singleton_self x
    have hfills := holeSpan_eq_range_iff hd hsolid hpieces hx
    by_cases hmid : mid = [.hole x]
    · rw [if_pos (hfills.mpr hmid), hmid]
      rfl
    · rw [if_neg fun h => hmid (hfills.mp h), ← hone]
      refine hmixed (List.ne_nil_of_mem hx) fun y hy => hmid ?_
      rw [hy] at hone
      rw [hy, (List.cons.inj hone).1]
  · next hnone hmany =>
    refine hmixed hnone fun x hx => ?_
    subst hx
    exact hmany x rfl

/-- The modifier of a name is its first piece. -/
theorem splitModifier_range (hd : d.Filled) (hsolid : ∀ h ∈ d.holes, 0 < h.span.length)
    (hpieces : d.pieces = front ++ mid ++ back) :
    splitModifier d.text (Piece.range front mid) =
      match modifierOf? mid with
      | some binding => (binding, Piece.range (front ++ mid.take 1) (mid.drop 1))
      | none => (.plain, Piece.range front mid) := by
  have hfirst : (Piece.text mid).head?.bind Binding.ofModifier? = modifierOf? mid := by
    cases mid with
    | nil => rfl
    | cons p rest =>
      cases p with
      | char c => rfl
      | hole x =>
        have hpos := hsolid x (Document.mem_holes_of_mem hpieces List.mem_cons_self)
        rw [Piece.text_hole_cons hpos]
        rfl
  rw [splitModifier, hd.sliceD_text hpieces, String.toList_ofList, hfirst]
  cases hmodifier : modifierOf? mid with
  | none => rfl
  | some binding =>
    cases mid with
    | nil => cases hmodifier
    | cons p rest =>
      cases p with
      | hole x => cases hmodifier
      | char c =>
        have hone : c.utf8Size = 1 := utf8Size_of_ofModifier? hmodifier
        have hstart := Piece.size_append front [.char c]
        rw [Piece.size_char, hone] at hstart
        have hrange := Piece.of_size_append (front ++ [.char c]) rest
        rw [hstart, List.append_assoc] at hrange
        exact congrArg (Prod.mk binding) hrange

end Range

end Markup
end Inlay
