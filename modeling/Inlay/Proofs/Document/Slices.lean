import Inlay.Document.Slice
import Inlay.Proofs.Document.Pieces
import Inlay.Proofs.Text.Cuts

/-!
# Slices of documents

A slice of a document is what the document is in a range of its text: its text is the text in the
range, and its positions and holes are those of the document (`slice_exact`).  The parts have to
fill the place of the document, and the range has to begin and end between characters.

A slice is cut twice.  `clip?` cuts the text parts to the range and leaves the holes whole, and
`textFrom` cuts both once more to the place of the slice.  Parts that are clipped show there what
they show anyway (`textFrom_clipped`), and to clip them again to a smaller range is the same as
to clip them to that at once (`Clipped.clip?_clip?`), though holes may reach out of the slice.
-/

namespace Inlay

/-! ## Parts in a range -/

theorem Span.overlaps_iff {a b : Span} :
    a.overlaps b = true ↔ a.start < b.stop ∧ b.start < a.stop := by
  rw [overlaps, Bool.and_eq_true, decide_eq_true_eq, decide_eq_true_eq]

theorem Span.overlap?_eq_none_iff {a b : Span} :
    a.overlap? b = none ↔ ¬ (a.start < b.stop ∧ b.start < a.stop) := by
  rw [← overlaps_iff, overlap?]
  split <;> simp_all

theorem Span.lt_of_overlap? {a b visible : Span} (h : a.overlap? b = some visible) :
    a.start < b.stop ∧ b.start < a.stop := by
  by_contra hapart
  rw [overlap?_eq_none_iff.mpr hapart] at h
  exact Option.some_ne_none _ h.symm

/-- A part is as long as its place. -/
def Part.Fits : Part → Prop
  | .text t => t.text.utf8ByteSize = t.span.length
  | .hole _ => True

instance : DecidablePred Part.Fits
  | .text t => inferInstanceAs (Decidable (t.text.utf8ByteSize = t.span.length))
  | .hole _ => inferInstanceAs (Decidable True)

/-- The text parts of the document are as long as their places. -/
def Document.Fitted (d : Document) : Prop := ∀ p ∈ d.parts, p.Fits

instance (d : Document) : Decidable d.Fitted := inferInstanceAs (Decidable (∀ p ∈ d.parts, p.Fits))

/-- The range does not cut a character of the part. -/
def Part.IsCutBy (p : Part) (v : Span) : Prop :=
  FallsBetween v.start p.span.start (Piece.text p.pieces) ∧
    FallsBetween v.stop p.span.start (Piece.text p.pieces)

namespace Document

variable {p : Part} {parts : List Part} {v host visible : Span} {cursor lo hi : Nat}

theorem shown_text_whole {t : TextPart} (h : (Part.text t).Fits) :
    shown (.text t) t.span = t.text.toList := by
  have hlength : t.text.utf8ByteSize = t.span.length := h
  have hunshift : t.span.unshift t.span.start = { start := 0, stop := t.text.utf8ByteSize } := by
    rw [hlength, Span.unshift, Nat.sub_self]
    rfl
  rw [shown, hunshift, slice?_whole]

/-- A part shows its characters in the range. -/
theorem shown_eq_charsIn (hfits : p.Fits) (hspan : p.span.start ≤ p.span.stop)
    (hv : v.start ≤ v.stop) (hcut : p.IsCutBy v) (h : p.span.overlap? v = some visible) :
    shown p visible = charsIn v p.span.start (Piece.text p.pieces) ∧
      ∀ t, p = .text t → ((visible.unshift t.span.start).slice? t.text).isSome = true := by
  obtain ⟨hstart, hstop, hle⟩ := Span.overlap?_eq_some h hspan hv
  have hsize : byteLength (Piece.text p.pieces) = p.span.length := p.size_pieces
  have hlength : p.span.length = p.span.stop - p.span.start := rfl
  obtain ⟨front, mid, back, hsplit, hfront, hmid, hchars⟩ :=
    exists_mid hcut hstart (by omega) hle
  rw [hchars]
  cases p with
  | hole x =>
    refine ⟨?_, fun t ht => Part.noConfusion ht⟩
    have hunderscores : ∀ c ∈ mid, c = '_' := by
      intro c hc
      have hmem : c ∈ Piece.text (Part.hole x).pieces := by
        rw [hsplit]
        exact List.mem_append_left _ (List.mem_append_right _ hc)
      rw [Part.text_pieces] at hmem
      exact List.eq_of_mem_replicate hmem
    obtain ⟨n, rfl⟩ : ∃ n, mid = placeholder n := ⟨_, List.eq_replicate_of_mem hunderscores⟩
    rw [byteLength_placeholder] at hmid
    rw [shown, hmid]
  | text t =>
    have hslice : (visible.unshift t.span.start).slice? t.text = some (String.ofList mid) := by
      rw [Part.text_pieces] at hsplit
      have htext : t.text.toList = front ++ mid ++ back :=
        (shown_text_whole hfits).symm.trans hsplit
      have hspanStart : (Part.text t).span.start = t.span.start := rfl
      refine Span.slice?_eq_some_iff.mpr ⟨Nat.sub_le_sub_right hle _, front, back, ?_, ?_, ?_⟩
      · rw [String.toList_ofList]
        exact htext
      · show _ = visible.start - t.span.start
        omega
      · show _ = visible.stop - t.span.start - (visible.start - t.span.start)
        rw [String.toList_ofList, hmid, Span.length]
        omega
    refine ⟨?_, ?_⟩
    · rw [shown, hslice]
      exact String.toList_ofList
    · rintro t' heq
      obtain rfl := Part.text.inj heq
      rw [hslice]
      rfl

/-- What the parts show in a range is what stands there in all they show. -/
theorem textFrom_eq_charsIn (h : Fills lo hi (parts.map Part.span))
    (hfits : ∀ p ∈ parts, p.Fits) (hv : v.start ≤ v.stop) (hcut : ∀ p ∈ parts, p.IsCutBy v)
    (hcursor : lo < v.stop → cursor = max lo v.start) :
    textFrom v cursor parts = charsIn v lo (Piece.text (parts.flatMap Part.pieces)) := by
  induction parts generalizing lo cursor with
  | nil => rfl
  | cons p rest ih =>
    obtain ⟨rfl, hspan, hrest⟩ := h
    obtain ⟨hpfits, hfits⟩ := List.forall_mem_cons.mp hfits
    obtain ⟨hpcut, hcut⟩ := List.forall_mem_cons.mp hcut
    have hsize : byteLength (Piece.text p.pieces) = p.span.length := p.size_pieces
    have hstop : p.span.start + byteLength (Piece.text p.pieces) = p.span.stop := by
      rw [hsize, Span.length]
      omega
    rw [List.flatMap_cons, Piece.text_append, charsIn_append, hstop, textFrom]
    cases hvisible : p.span.overlap? v with
    | none =>
      have hapart := Span.overlap?_eq_none_iff.mp hvisible
      have hnothing : charsIn v p.span.start (Piece.text p.pieces) = [] := by
        by_cases hbefore : p.span.stop ≤ v.start
        · exact charsIn_before (by omega)
        · exact charsIn_behind (by omega)
      rw [hnothing, List.nil_append]
      exact ih hrest hfits hcut (by omega)
    | some visible =>
      obtain ⟨hvstart, hvstop, hle⟩ := Span.overlap?_eq_some hvisible hspan hv
      have hoverlap := Span.lt_of_overlap? hvisible
      have hnogap : visible.start - cursor = 0 := by
        have hcur := hcursor hoverlap.1
        omega
      dsimp only
      rw [hnogap, (shown_eq_charsIn hpfits hspan hv hpcut hvisible).1,
        ih hrest hfits hcut (by omega)]
      rfl

theorem fallsBetween_of_mem {offset : Nat} (h : Fills lo hi (parts.map Part.span))
    (hoffset : FallsBetween offset lo (Piece.text (parts.flatMap Part.pieces))) (hp : p ∈ parts) :
    FallsBetween offset p.span.start (Piece.text p.pieces) := by
  induction parts generalizing lo with
  | nil => exact absurd hp List.not_mem_nil
  | cons q rest ih =>
    obtain ⟨rfl, hspan, hrest⟩ := h
    have hsize : byteLength (Piece.text q.pieces) = q.span.length := q.size_pieces
    have hstop : q.span.start + byteLength (Piece.text q.pieces) = q.span.stop := by
      rw [hsize, Span.length]
      omega
    rw [List.flatMap_cons, Piece.text_append, fallsBetween_append, hstop] at hoffset
    rcases List.mem_cons.mp hp with rfl | hp
    · exact hoffset.1
    · exact ih hrest hoffset.2 hp

/-! ## Clipped parts -/

/-- A part that shares a byte with the range is kept, with what it shows there. -/
inductive Clipped (v : Span) (p : Part) : Prop
  | outside : p.span.overlap? v = none → clip? v p = none → Clipped v p
  | hole {x : Hole} {visible : Span} : p = .hole x → p.span.overlap? v = some visible →
      clip? v p = some p → Clipped v p
  | text {t : TextPart} {visible : Span} {piece : String} : p = .text t →
      p.span.overlap? v = some visible →
      (visible.unshift t.span.start).slice? t.text = some piece →
      clip? v p = some (.text { text := piece, span := visible }) → Clipped v p

theorem clip?_hole (x : Hole) (v : Span) :
    clip? v (.hole x) = if x.span.overlaps v = true then some (.hole x) else none := rfl

theorem clip?_eq_none (h : p.span.overlap? v = none) : clip? v p = none := by
  cases p with
  | hole x =>
    rw [clip?_hole, if_neg]
    rw [Span.overlaps_iff]
    exact Span.overlap?_eq_none_iff.mp h
  | text t =>
    have hnone : t.span.overlap? v = none := h
    rw [clip?, hnone]
    rfl

theorem clipped (hfits : p.Fits) (hspan : p.span.start ≤ p.span.stop) (hv : v.start ≤ v.stop)
    (hcut : p.IsCutBy v) : Clipped v p := by
  cases hvisible : p.span.overlap? v with
  | none => exact .outside hvisible (clip?_eq_none hvisible)
  | some visible =>
    obtain ⟨-, hsome⟩ := shown_eq_charsIn hfits hspan hv hcut hvisible
    cases p with
    | hole x =>
      refine .hole rfl hvisible ?_
      have hoverlaps : x.span.overlaps v = true :=
        Span.overlaps_iff.mpr (Span.lt_of_overlap? hvisible)
      rw [clip?_hole, if_pos hoverlaps]
    | text t =>
      obtain ⟨piece, hpiece⟩ := Option.isSome_iff_exists.mp (hsome t rfl)
      have hclipped : t.span.overlap? v = some visible := hvisible
      refine .text rfl hvisible hpiece ?_
      rw [clip?, hclipped, Option.bind_some, hpiece]
      rfl

/-- A range that shares a byte with a part shares what it holds of the part with itself. -/
theorem overlap?_self (hspan : p.span.start ≤ p.span.stop) (hv : v.start < v.stop)
    (h : p.span.overlap? v = some visible) : visible.overlap? v = some visible := by
  obtain ⟨hstart, hstop, hle⟩ := Span.overlap?_eq_some h hspan (Nat.le_of_lt hv)
  have hoverlap := Span.lt_of_overlap? h
  have hoverlaps : visible.overlaps v = true := Span.overlaps_iff.mpr (by omega)
  have hmax : max visible.start v.start = visible.start := by omega
  have hmin : min visible.stop v.stop = visible.stop := by omega
  rw [Span.overlap?, if_pos hoverlaps, hmax, hmin, Span.of, Nat.max_eq_right hle]

/-- Clipped parts show in the range what the parts show. -/
theorem textFrom_clipped (hspans : ∀ p ∈ parts, p.span.start ≤ p.span.stop)
    (hv : v.start < v.stop) (hclipped : ∀ p ∈ parts, Clipped v p) (cursor : Nat) :
    textFrom v cursor (parts.filterMap (clip? v)) = textFrom v cursor parts := by
  induction parts generalizing cursor with
  | nil => rfl
  | cons p rest ih =>
    obtain ⟨hspan, hspans⟩ := List.forall_mem_cons.mp hspans
    obtain ⟨hp, hrest⟩ := List.forall_mem_cons.mp hclipped
    have hinner := ih hspans hrest
    cases hp with
    | outside hnone hclip =>
      rw [List.filterMap_cons_none hclip, hinner, textFrom, hnone]
    | hole _ hvisible hclip =>
      rw [List.filterMap_cons_some hclip, textFrom, textFrom, hvisible]
      dsimp only
      rw [hinner]
    | text hp hvisible hpiece hclip =>
      subst hp
      rename_i t visible piece
      have hself := overlap?_self hspan hv hvisible
      have hwhole : shown (.text { text := piece, span := visible }) visible =
          shown (.text t) visible := by
        have hfits : (Part.text { text := piece, span := visible }).Fits := by
          obtain ⟨hle, _, _, -, -, hlength⟩ := Span.slice?_eq_some_iff.mp hpiece
          obtain ⟨hstart, -, -⟩ := Span.overlap?_eq_some hvisible hspan (Nat.le_of_lt hv)
          have hspanStart : (Part.text t).span.start = t.span.start := rfl
          rw [byteLength_toList] at hlength
          show piece.utf8ByteSize = visible.stop - visible.start
          have hshift : (visible.unshift t.span.start).stop - (visible.unshift t.span.start).start =
              visible.stop - t.span.start - (visible.start - t.span.start) := rfl
          omega
        have hself := shown_text_whole hfits
        rw [hself, shown, hpiece]
      have hspan' : (Part.text { text := piece, span := visible }).span = visible := rfl
      rw [List.filterMap_cons_some hclip, textFrom, textFrom, hspan', hself, hvisible]
      dsimp only
      rw [hwhole, hinner]

/-- Inside the range `host`, a span holds of what it shares with `host` what it holds anyway. -/
theorem overlap?_overlap? {a shared : Span} (ha : a.start ≤ a.stop) (hv : v.start < v.stop)
    (hstart : host.start ≤ v.start) (hstop : v.stop ≤ host.stop)
    (h : a.overlap? host = some shared) : shared.overlap? v = a.overlap? v := by
  obtain ⟨hsharedStart, hsharedStop, -⟩ := Span.overlap?_eq_some h ha (by omega)
  have hoverlaps : shared.overlaps v = true ↔ a.overlaps v = true := by
    rw [Span.overlaps_iff, Span.overlaps_iff]
    omega
  have hmax : max shared.start v.start = max a.start v.start := by omega
  have hmin : min shared.stop v.stop = min a.stop v.stop := by omega
  rw [Span.overlap?, Span.overlap?, if_congr hoverlaps rfl rfl, hmax, hmin]

/-- A part that is clipped to a range and then to a smaller one is clipped to that. -/
theorem Clipped.clip?_clip? (h : Clipped host p) (hspan : p.span.start ≤ p.span.stop)
    (hv : v.start < v.stop) (hstart : host.start ≤ v.start) (hstop : v.stop ≤ host.stop) :
    (clip? host p).bind (clip? v) = clip? v p := by
  cases h with
  | outside hnone hclip =>
    have hapart : p.span.overlap? v = none := by
      rw [Span.overlap?_eq_none_iff] at hnone ⊢
      omega
    rw [hclip, clip?_eq_none hapart]
    rfl
  | hole _ _ hclip => rw [hclip, Option.bind_some]
  | text hp hshared hpiece hclip =>
    subst hp
    rename_i t shared piece
    obtain ⟨hsharedStart, hsharedStop, hsharedLe⟩ := Span.overlap?_eq_some hshared hspan (by omega)
    have htext : (Part.text t).span = t.span := rfl
    rw [htext] at hspan hshared hsharedStart hsharedStop
    rw [hclip, Option.bind_some, clip?, clip?, overlap?_overlap? hspan hv hstart hstop hshared]
    cases hvisible : t.span.overlap? v with
    | none => rfl
    | some visible =>
      obtain ⟨hvstart, hvstop, hle⟩ := Span.overlap?_eq_some hvisible hspan (Nat.le_of_lt hv)
      have hinside : (visible.unshift shared.start).stop ≤
          (shared.unshift t.span.start).length := by
        show visible.stop - shared.start ≤
          shared.stop - t.span.start - (shared.start - t.span.start)
        omega
      have hshift : (visible.unshift shared.start).shift (shared.unshift t.span.start).start =
          visible.unshift t.span.start := by
        have hshiftStart : visible.start - shared.start + (shared.start - t.span.start) =
            visible.start - t.span.start := by omega
        have hshiftStop : visible.stop - shared.start + (shared.start - t.span.start) =
            visible.stop - t.span.start := by omega
        simp only [Span.shift, Span.unshift, hshiftStart, hshiftStop]
      rw [Option.bind_some, Option.bind_some, Span.slice?_slice? hpiece hinside, hshift]

theorem holesOf_filterMap_clip? (parts : List Part) (v : Span) :
    holesOf (parts.filterMap (clip? v)) = (holesOf parts).filter fun h => h.span.overlaps v := by
  induction parts with
  | nil => rfl
  | cons p rest ih =>
    cases p with
    | hole x =>
      rw [holesOf, List.filter_cons, ← ih, List.filterMap_cons, clip?_hole]
      cases x.span.overlaps v <;> rfl
    | text t =>
      rw [holesOf, ← ih, List.filterMap_cons]
      cases hclip : clip? v (.text t) with
      | none => rfl
      | some q =>
        obtain ⟨clip, -, hq⟩ := Option.bind_eq_some_iff.mp hclip
        obtain ⟨piece, -, rfl⟩ := Option.map_eq_some_iff.mp hq
        rfl

/-- Nothing is shown of a range that holds no byte. -/
theorem textFrom_of_empty (hv : v.start = v.stop) (parts : List Part) :
    textFrom v v.start parts = [] := by
  induction parts with
  | nil => rfl
  | cons p rest ih =>
    rw [textFrom]
    cases hvisible : p.span.overlap? v with
    | none => exact ih
    | some visible =>
      rw [Span.overlap?] at hvisible
      split at hvisible
      · next hoverlaps =>
        rw [Span.overlaps_iff] at hoverlaps
        obtain rfl := Option.some.inj hvisible
        have hstart : max p.span.start v.start = v.start := by omega
        have hstop : max v.start (min p.span.stop v.stop) = v.start := by omega
        have hempty : shown p (Span.of v.start (min p.span.stop v.stop)) = [] := by
          apply eq_nil_of_byteLength_eq_zero
          rw [byteLength_shown (Nat.le_of_lt (by rw [hv]; exact hoverlaps.1))]
          show max v.start (min p.span.stop v.stop) - v.start = 0
          omega
        have hnext : (Span.of v.start (min p.span.stop v.stop)).stop = v.start := hstop
        dsimp only
        rw [hstart, hempty, hnext, ih, Span.of, Nat.sub_self]
        rfl
      · cases hvisible

/-! ## Slices -/

/-- `s` is what `d` is in a range of its text: the text there, with its place in the host file and
with the holes that share a byte with the range. -/
structure IsSlice (s d : Document) (r : Span) : Prop where
  text : r.slice? d.text = some s.text
  location : s.location = d.spanToHost r
  toHost : ∀ offset, s.toHost offset = d.toHost (r.start + offset)
  holes : s.holes = d.holes.filter fun h => (d.holeSpan h).overlaps r

section Slice

variable {d : Document} {r : Span}

/-- A range that begins and ends between characters of the text cuts no character of a part. -/
theorem Filled.isCutBy (hd : d.Filled) (hstart : IsBoundary d.text r.start)
    (hstop : IsBoundary d.text r.stop) : ∀ p ∈ d.parts, p.IsCutBy (d.spanToHost r) := by
  have htext : d.text.toList = Piece.text d.pieces := by
    rw [hd.text_eq, String.toList_ofList]
  have hbetween {offset : Nat} (h : IsBoundary d.text offset) :
      FallsBetween (offset + d.location.start) d.location.start (Piece.text d.pieces) := by
    rw [← htext, Nat.add_comm]
    exact h.fallsBetween _
  exact fun p hp =>
    ⟨fallsBetween_of_mem hd (hbetween hstart) hp, fallsBetween_of_mem hd (hbetween hstop) hp⟩

theorem Filled.span_le (hd : d.Filled) : ∀ p ∈ d.parts, p.span.start ≤ p.span.stop :=
  fun _ hp => (hd.inOrder.mem (List.mem_map_of_mem hp)).2.1

theorem Filled.clipped (hd : d.Filled) (hfitted : d.Fitted) (hr : r.start ≤ r.stop)
    (hstart : IsBoundary d.text r.start) (hstop : IsBoundary d.text r.stop) :
    ∀ p ∈ d.parts, Clipped (d.spanToHost r) p := fun p hp =>
  Document.clipped (hfitted p hp) (hd.span_le p hp) (Nat.add_le_add_right hr _)
    (hd.isCutBy hstart hstop p hp)

/-- The text of a slice is the text in the range. -/
theorem Filled.slice?_text (hd : d.Filled) (hfitted : d.Fitted) (hr : r.start < r.stop)
    (hstart : IsBoundary d.text r.start) (hstop : IsBoundary d.text r.stop) (dialect : Dialect) :
    r.slice? d.text = some (d.slice r dialect).text := by
  have hv : (d.spanToHost r).start < (d.spanToHost r).stop := Nat.add_lt_add_right hr _
  have hclipped := hd.clipped hfitted (Nat.le_of_lt hr) hstart hstop
  have hchars : (d.slice r dialect).chars =
      charsIn (d.spanToHost r) d.location.start (Piece.text d.pieces) := by
    have hcursor : d.location.start < (d.spanToHost r).stop →
        (d.spanToHost r).start = max d.location.start (d.spanToHost r).start :=
      fun _ => (Nat.max_eq_right (Nat.le_add_left _ _)).symm
    exact (textFrom_clipped hd.span_le hv hclipped _).trans
      (textFrom_eq_charsIn hd hfitted (Nat.le_of_lt hv) (hd.isCutBy hstart hstop) hcursor)
  obtain ⟨piece, hpiece⟩ := exists_slice? hstart hstop (Nat.le_of_lt hr)
  obtain ⟨-, front, back, hsplit, hfront, hsize⟩ := Span.slice?_eq_some_iff.mp hpiece
  have htext : d.text.toList = Piece.text d.pieces := by
    rw [hd.text_eq, String.toList_ofList]
  have hvstart : (d.spanToHost r).start = r.start + d.location.start := rfl
  have hvstop : (d.spanToHost r).stop = r.stop + d.location.start := rfl
  have hmid : charsIn (d.spanToHost r) d.location.start (Piece.text d.pieces) = piece.toList := by
    rw [← htext, hsplit]
    exact charsIn_mid (.inr (by omega)) (by omega) (by omega) (.inr (by omega))
  rw [hpiece, Document.text, hchars, hmid, String.ofList_toList]

theorem Filled.holes_slice (hd : d.Filled) (r : Span) (dialect : Dialect) :
    (d.slice r dialect).holes = d.holes.filter fun h => (d.holeSpan h).overlaps r := by
  refine (holesOf_filterMap_clip? d.parts (d.spanToHost r)).trans (List.filter_congr fun x hx => ?_)
  have hmem : x.span ∈ d.parts.map Part.span :=
    (holesOf_sublist d.parts).subset (List.mem_map_of_mem hx)
  obtain ⟨hstart, hspan, -⟩ := hd.inOrder.mem hmem
  rw [Bool.eq_iff_iff, Span.overlaps_iff, Span.overlaps_iff]
  show x.span.start < r.stop + d.location.start ∧ r.start + d.location.start < x.span.stop ↔
    x.span.start - d.location.start < r.stop ∧ r.start < x.span.stop - d.location.start
  omega

/-- A range of a slice has its place in the host file also as a range of the document. -/
theorem spanToHost_slice (d : Document) (r inner : Span) (dialect : Dialect) :
    (d.slice r dialect).spanToHost inner = d.spanToHost (inner.shift r.start) := by
  simp only [spanToHost, slice, Span.shift, Nat.add_assoc]

/-- A slice of a slice is a slice of the document, if it holds a byte. -/
theorem Filled.slice_slice (hd : d.Filled) (hfitted : d.Fitted) (hr : r.start ≤ r.stop)
    (hstart : IsBoundary d.text r.start) (hstop : IsBoundary d.text r.stop) {inner : Span}
    (hinner : inner.start < inner.stop) (hinside : inner.stop ≤ r.length)
    (dialect dialect' : Dialect) :
    (d.slice r dialect).slice inner dialect' = d.slice (inner.shift r.start) dialect' := by
  have hclipped := hd.clipped hfitted hr hstart hstop
  have hparts : (d.slice r dialect).partsAt inner = d.partsAt (inner.shift r.start) := by
    rw [partsAt, partsAt, spanToHost_slice]
    refine List.filterMap_filterMap.trans (List.filterMap_congr fun p hp => ?_)
    refine (hclipped p hp).clip?_clip? (hd.span_le p hp) ?_ ?_ ?_
    · show inner.start + r.start + d.location.start < inner.stop + r.start + d.location.start
      omega
    · show r.start + d.location.start ≤ inner.start + r.start + d.location.start
      omega
    · show inner.stop + r.start + d.location.start ≤ r.stop + d.location.start
      rw [Span.length] at hinside
      omega
  show Document.mk d.fileName dialect' ((d.slice r dialect).spanToHost inner)
    ((d.slice r dialect).partsAt inner) = _
  rw [spanToHost_slice, hparts]
  rfl

/-- Of an empty range a slice has no text. -/
theorem text_slice_of_empty (d : Document) (hr : r.start = r.stop) (dialect : Dialect) :
    (d.slice r dialect).text = "" := by
  have hv : (d.spanToHost r).start = (d.spanToHost r).stop := congrArg (· + _) hr
  have hchars : (d.slice r dialect).chars = [] := textFrom_of_empty hv _
  rw [Document.text, hchars]

end Slice

/-- A slice of a document is exactly what the document is in the range, and so is a slice of the
slice. -/
theorem slice_exact {d : Document} (hd : d.Filled) (hfitted : d.Fitted) {r : Span}
    (hr : r.start < r.stop) (hstart : IsBoundary d.text r.start)
    (hstop : IsBoundary d.text r.stop) (dialect : Dialect) :
    (d.slice r dialect).IsSlice d r ∧
      ∀ (inner : Span) (dialect' : Dialect), inner.start ≤ inner.stop →
        inner.stop ≤ (d.slice r dialect).text.utf8ByteSize →
        ((d.slice r dialect).slice inner dialect').text =
            (d.slice (inner.shift r.start) dialect').text ∧
          ((d.slice r dialect).slice inner dialect').location =
            (d.slice (inner.shift r.start) dialect').location := by
  have htext := hd.slice?_text hfitted hr hstart hstop dialect
  refine ⟨⟨htext, rfl, fun offset => ?_, hd.holes_slice r dialect⟩,
    fun inner dialect' hordered hinside => ?_⟩
  · show offset + (r.start + d.location.start) = r.start + offset + d.location.start
    omega
  · obtain ⟨-, _, _, -, -, hsize⟩ := Span.slice?_eq_some_iff.mp htext
    rw [byteLength_toList] at hsize
    rcases Nat.lt_or_eq_of_le hordered with hinner | hempty
    · rw [hd.slice_slice hfitted (Nat.le_of_lt hr) hstart hstop hinner
        (Nat.le_trans hinside (Nat.le_of_eq hsize))]
      exact ⟨rfl, rfl⟩
    · have hshifted : (inner.shift r.start).start = (inner.shift r.start).stop :=
        congrArg (· + _) hempty
      exact ⟨(text_slice_of_empty _ hempty _).trans (text_slice_of_empty _ hshifted _).symm,
        spanToHost_slice d r inner dialect⟩

/-- A range that cuts two holes, with a character of more than one byte between them. -/
def cutDocument : Document :=
  let hole (id start : Nat) (text : String) : Hole :=
    { id := id
      expression := { span := ⟨start + 2, start + 3⟩, text := text }
      span := ⟨start, start + 4⟩ }
  { fileName := "a.ts"
    dialect := .markup
    location := ⟨5, 23⟩
    parts :=
      [.text { text := "<p>", span := ⟨5, 8⟩ }, .hole (hole 0 8 "f"),
       .text { text := "é;", span := ⟨12, 15⟩ }, .hole (hole 1 15 "g"),
       .text { text := "</p>", span := ⟨19, 23⟩ }] }

theorem slice_exact_of_cut_holes :
    let d := cutDocument
    let s := d.slice ⟨5, 12⟩ .stylesheet
    (d.Filled ∧ d.Fitted ∧ IsBoundary d.text 5 ∧ IsBoundary d.text 12) ∧
      (s.IsSlice d ⟨5, 12⟩ ∧ s.text = "__é;__" ∧ s.holes = d.holes) ∧
      (s.slice ⟨1, 5⟩ .stylesheet).text = (d.slice ⟨6, 10⟩ .stylesheet).text := by
  intro d s
  have hd : d.Filled := by decide +kernel
  have hfitted : d.Fitted := by decide +kernel
  have hstart : IsBoundary d.text 5 := by decide +kernel
  have hstop : IsBoundary d.text 12 := by decide +kernel
  obtain ⟨hslice, hinner⟩ :=
    slice_exact (r := ⟨5, 12⟩) hd hfitted (by decide) hstart hstop .stylesheet
  exact ⟨⟨hd, hfitted, hstart, hstop⟩, ⟨hslice, by decide +kernel, by decide +kernel⟩,
    (hinner ⟨1, 5⟩ .stylesheet (by decide) (by decide +kernel)).1⟩

end Document
end Inlay
