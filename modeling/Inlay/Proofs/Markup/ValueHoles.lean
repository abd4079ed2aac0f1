import Inlay.Proofs.Markup.AttributeTokens
import Inlay.Proofs.Markup.PieceValues
import Inlay.Proofs.Markup.StretchedTokens

/-!
# Holes in values

A value shows what stands in its range and has the holes of the range, each once and in
order: `Assignment.Keeps`.  No hole is cut by the end of a value, and no hole is in two values:
`Tree.values_keep_holes`.  The parts of the document have to fill its place and the holes have to
hold a byte, since a hole without one shares no byte with any range.

That no hole is cut comes from `alike_tokens`, with the document on both sides: a run of underscores
is read as a hole of any other length would be, so no token begins or ends inside one.  The
range of a value is then a range of pieces, and its value is `valueOf` them.
-/

namespace Inlay
namespace Markup

/-! ## What a value shows -/

/-- What a piece of a mixed value stands for in the text of a document. -/
def Segment.chars : Segment → List Char
  | .text s => s.toList
  | .hole h => placeholder h.span.length

def Segment.hole? : Segment → Option Hole
  | .text _ => none
  | .hole h => some h

/-- The holes in a value, in their order. -/
def Value.holes : Value → List Hole
  | .presence | .text _ => []
  | .expression h => [h]
  | .mixed segments => segments.filterMap Segment.hole?

/-- Of two segments one is a hole. -/
def Segment.Apart (s t : Segment) : Prop := s.hole?.isSome ∨ t.hole?.isSome

section Segments

variable (before : List Char) (mid : List Piece)

theorem chars_textSegment : (textSegment before).flatMap Segment.chars = before := by
  rw [textSegment]
  split
  · next hnil => rw [hnil]; rfl
  · rw [List.flatMap_singleton, Segment.chars, String.toList_ofList]

theorem holes_textSegment : (textSegment before).filterMap Segment.hole? = [] := by
  rw [textSegment]
  split <;> rfl

/-- The segments of pieces show what the pieces show. -/
theorem chars_segmentsOf :
    (segmentsOf before mid).flatMap Segment.chars = before ++ Piece.text mid := by
  induction mid generalizing before with
  | nil => rw [segmentsOf, chars_textSegment, Piece.text_nil, List.append_nil]
  | cons p rest ih =>
    cases p with
    | char c =>
      rw [segmentsOf, ih, List.append_assoc]
      rfl
    | hole h =>
      rw [segmentsOf, List.flatMap_append, chars_textSegment, List.flatMap_cons, ih]
      rfl

theorem holes_segmentsOf :
    (segmentsOf before mid).filterMap Segment.hole? = Piece.holes mid := by
  induction mid generalizing before with
  | nil => exact holes_textSegment before
  | cons p rest ih =>
    cases p with
    | char c => exact ih _
    | hole h =>
      rw [segmentsOf, List.filterMap_append, holes_textSegment, List.filterMap_cons, ih]
      rfl

theorem ne_empty_of_mem_textSegment {s : String} (hs : .text s ∈ textSegment before) : s ≠ "" := by
  rw [textSegment] at hs
  split at hs
  · exact absurd hs List.not_mem_nil
  · next hne =>
    obtain rfl := Segment.text.inj (List.mem_singleton.mp hs)
    exact fun hempty => hne (String.ofList_inj.mp hempty)

theorem ne_empty_of_mem_segmentsOf {s : String} (hs : .text s ∈ segmentsOf before mid) :
    s ≠ "" := by
  induction mid generalizing before with
  | nil => exact ne_empty_of_mem_textSegment before hs
  | cons p rest ih =>
    cases p with
    | char c => exact ih _ hs
    | hole h =>
      rw [segmentsOf, List.mem_append, List.mem_cons] at hs
      rcases hs with hs | hs | hs
      · exact ne_empty_of_mem_textSegment before hs
      · exact Segment.noConfusion hs
      · exact ih [] hs

/-- All characters between two holes are one segment. -/
theorem isChain_segmentsOf : (segmentsOf before mid).IsChain Segment.Apart := by
  induction mid generalizing before with
  | nil =>
    rw [segmentsOf, textSegment]
    split
    · exact .nil
    · exact .singleton _
  | cons p rest ih =>
    cases p with
    | char c => exact ih _
    | hole h =>
      have hbehind : (Segment.hole h :: segmentsOf [] rest).IsChain Segment.Apart := by
        have hrest := ih []
        cases hsegments : segmentsOf [] rest with
        | nil => exact .singleton _
        | cons s ss =>
          rw [hsegments] at hrest
          exact List.isChain_cons_cons.mpr ⟨.inl rfl, hrest⟩
      rw [segmentsOf, textSegment]
      split
      · exact hbehind
      · exact List.isChain_cons_cons.mpr ⟨.inr rfl, hbehind⟩

end Segments

/-! ## Ranges of values -/

/-- A range of the text that begins and ends between pieces. -/
def IsPieceRange (d : Document) (r : Span) (mid : List Piece) : Prop :=
  ∃ front back, d.pieces = front ++ mid ++ back ∧ r = Piece.range front mid

section Ranges

variable {d : Document}

theorem stretches_self (hd : d.Filled) (hsolid : ∀ h ∈ d.holes, 0 < h.span.length) :
    d.Stretches d := by
  refine ⟨hd, hd, List.forall₂_same.mpr fun p hp => ?_⟩
  cases p with
  | text t => exact .text rfl rfl
  | hole h =>
    have hmem : h ∈ d.holes := by
      have hpiece : .hole h ∈ d.pieces :=
        List.mem_flatMap.mpr ⟨_, hp, List.mem_singleton_self _⟩
      rw [Document.holes_eq]
      exact List.mem_filterMap.mpr ⟨_, hpiece, rfl⟩
    exact .hole (hsolid h hmem) (hsolid h hmem)

/-- A value begins and ends between pieces. -/
theorem isPieceRange_of_mem_tokens (hd : d.Filled) (hsolid : ∀ h ∈ d.holes, 0 < h.span.length)
    {start stop : Nat} (ht : .attributeValue start stop ∈ tokens d.text) :
    ∃ mid, IsPieceRange d (Span.of start stop) mid := by
  have hstretches := stretches_self hd hsolid
  obtain ⟨i, hi, hget⟩ := List.getElem_of_mem ht
  have halike := (alike_tokens hstretches).get hi hi
  rw [List.get_eq_getElem, hget] at halike
  cases halike with
  | attributeValue hstart hstop =>
    obtain ⟨front, mid, back, hcells, hrange, -⟩ := hstart.span hstop
    exact ⟨_, _, _, (hstretches.pieces_split hcells).1, hrange⟩

/-- The value of a complete attribute has been read as one. -/
theorem value_of_mem_endedFrom {p : Option Pending} {ts : List Token} {e : Ended} {r : Span}
    (he : e ∈ endedFrom p ts) (hr : e.pending.value = some r) :
    (∃ start stop, .attributeValue start stop ∈ ts ∧ r = Span.of start stop) ∨
      ∃ q, p = some q ∧ q.value = some r := by
  induction ts generalizing p with
  | nil => exact absurd he List.not_mem_nil
  | cons t ts ih =>
    rw [endedFrom, List.mem_append, Option.mem_toList] at he
    rcases he with he | he
    · refine .inr ?_
      cases t with
      | attributeEnd quote stop =>
        obtain ⟨q, rfl, rfl⟩ := Option.map_eq_some_iff.mp he
        exact ⟨q, rfl, hr⟩
      | _ => exact absurd he (Option.some_ne_none e).symm
    · rcases ih he with ⟨start, stop, hmem, hspan⟩ | ⟨q, hq, hvalue⟩
      · exact .inl ⟨start, stop, List.mem_cons_of_mem _ hmem, hspan⟩
      · cases t with
        | attributeName start stop =>
          obtain rfl := Option.some.inj hq
          exact absurd hvalue (Option.some_ne_none r).symm
        | attributeValue start stop =>
          obtain ⟨q', rfl, rfl⟩ := Option.map_eq_some_iff.mp hq
          exact .inl ⟨start, stop, List.mem_cons_self, (Option.some.inj hvalue).symm⟩
        | attributeEnd quote stop => exact absurd hq (Option.some_ne_none q).symm
        | _ => exact .inr ⟨q, hq, hvalue⟩

/-- What is assigned with no range of its own, and what pieces are as a value. -/
theorem value_cases (hd : d.Filled) (hsolid : ∀ h ∈ d.holes, 0 < h.span.length) {a : Attribute}
    (ha : a ∈ (Tree.ofDocument d).attributes) {x : Assignment} (hx : a.assignment = some x) :
    (x.value.holes = [] ∧ x.span.isEmpty = true) ∨
      ∃ mid, IsPieceRange d x.span mid ∧ x.value = valueOf mid := by
  obtain ⟨e, he, hattribute⟩ := Tree.exists_ended ha
  have hassigned := (Ended.assigned?_eq hattribute).symm
  rw [hx, Option.map_some, assigned?.eq_def] at hassigned
  have hempty : ∀ stop, (Span.empty stop).isEmpty = true := fun stop => beq_self_eq_true stop
  split at hassigned
  · obtain ⟨hvalue, hspan⟩ := Prod.mk.inj (Option.some.inj hassigned)
    rw [← hvalue, ← hspan]
    exact .inl ⟨rfl, hempty _⟩
  · exact absurd hassigned (Option.some_ne_none _).symm
  · obtain ⟨hvalue, hspan⟩ := Prod.mk.inj (Option.some.inj hassigned)
    rw [← hvalue, ← hspan]
    exact .inl ⟨rfl, hempty _⟩
  · next r hr _ =>
    obtain ⟨hvalue, rfl⟩ := Prod.mk.inj (Option.some.inj hassigned)
    rcases value_of_mem_endedFrom he hr with ⟨start, stop, ht, hspan⟩ | ⟨q, hq, -⟩
    · obtain ⟨mid, front, back, hpieces, hrange⟩ := isPieceRange_of_mem_tokens hd hsolid ht
      refine .inr ⟨mid, ⟨front, back, hpieces, hspan.trans hrange⟩, ?_⟩
      rw [← hvalue, hspan, hrange]
      exact valueAt_range hd hsolid hpieces
    · exact absurd hq (Option.some_ne_none q).symm

/-- How pieces are classified as a value. -/
theorem valueOf_cases (mid : List Piece) :
    (∃ h, mid = [.hole h] ∧ valueOf mid = .expression h) ∨
      (Piece.holes mid = [] ∧ valueOf mid = .text (String.ofList (Piece.text mid))) ∨
      (Piece.holes mid ≠ [] ∧ (∀ h, mid ≠ [.hole h]) ∧
        valueOf mid = .mixed (segmentsOf [] mid)) := by
  by_cases hone : ∃ h, mid = [.hole h]
  · obtain ⟨h, rfl⟩ := hone
    exact .inl ⟨h, rfl, rfl⟩
  · have hmore : ∀ h, mid ≠ [.hole h] := fun h heq => hone ⟨h, heq⟩
    by_cases hnone : Piece.holes mid = []
    · exact .inr (.inl ⟨hnone, valueOf_text hnone⟩)
    · exact .inr (.inr ⟨hnone, hmore, valueOf_mixed hnone hmore⟩)

theorem valueOf_eq_text_iff {mid : List Piece} {s : String} :
    valueOf mid = .text s ↔ Piece.holes mid = [] ∧ s = String.ofList (Piece.text mid) := by
  rcases valueOf_cases mid with ⟨h, rfl, hvalue⟩ | ⟨hnone, hvalue⟩ | ⟨hsome, -, hvalue⟩
  · exact iff_of_false Value.noConfusion fun h => absurd h.1 (List.cons_ne_nil _ _)
  · rw [hvalue, Value.text.injEq, and_iff_right hnone]
    exact eq_comm
  · rw [hvalue]
    exact iff_of_false Value.noConfusion fun h => hsome h.1

theorem valueOf_eq_expression_iff {mid : List Piece} {h : Hole} :
    valueOf mid = .expression h ↔ mid = [.hole h] := by
  rcases valueOf_cases mid with ⟨k, rfl, hvalue⟩ | ⟨hnone, hvalue⟩ | ⟨-, hmore, hvalue⟩
  · rw [hvalue, Value.expression.injEq, List.singleton_inj, Piece.hole.injEq]
  · rw [hvalue]
    refine iff_of_false Value.noConfusion ?_
    rintro rfl
    exact absurd hnone (List.cons_ne_nil _ _)
  · rw [hvalue]
    exact iff_of_false Value.noConfusion (hmore h)

theorem valueOf_eq_mixed_iff {mid : List Piece} {segments : List Segment} :
    valueOf mid = .mixed segments ↔
      Piece.holes mid ≠ [] ∧ (∀ h, mid ≠ [.hole h]) ∧ segments = segmentsOf [] mid := by
  rcases valueOf_cases mid with ⟨h, rfl, hvalue⟩ | ⟨hnone, hvalue⟩ | ⟨hsome, hmore, hvalue⟩
  · rw [hvalue]
    exact iff_of_false Value.noConfusion fun hmixed => hmixed.2.1 h rfl
  · rw [hvalue]
    exact iff_of_false Value.noConfusion fun hmixed => hmixed.1 hnone
  · rw [hvalue, Value.mixed.injEq, and_iff_right hsome, and_iff_right hmore]
    exact eq_comm

theorem holes_valueOf (mid : List Piece) : (valueOf mid).holes = Piece.holes mid := by
  rcases valueOf_cases mid with ⟨h, rfl, -⟩ | ⟨hnone, hvalue⟩ | ⟨-, -, hvalue⟩
  · rfl
  · rw [hvalue, hnone]
    rfl
  · rw [hvalue]
    exact holes_segmentsOf [] mid

/-- A hole of the document shares a byte with a range of pieces only if it lies in it. -/
theorem mem_holesIn_iff (hd : d.Filled) (hsolid : ∀ h ∈ d.holes, 0 < h.span.length) {r : Span}
    {mid : List Piece} (hr : IsPieceRange d r mid) {h : Hole} (hh : h ∈ d.holes) :
    h ∈ d.holesIn r ↔ r.covers (d.holeSpan h) = true := by
  obtain ⟨front, back, hpieces, rfl⟩ := hr
  rw [Span.covers, Bool.and_eq_true, decide_eq_true_eq, decide_eq_true_eq, Piece.range_start,
    Piece.range_stop]
  constructor
  · intro hmem
    rw [hd.holesIn_eq hsolid hpieces] at hmem
    obtain ⟨before, behind, rfl⟩ := Piece.mem_holes_iff.mp hmem
    have hplace : d.pieces = (front ++ before) ++ .hole h :: (behind ++ back) := by simp [hpieces]
    have hfront := Piece.size_append front before
    have hmid := Piece.size_append before ([.hole h] ++ behind)
    have hhole := Piece.size_append [.hole h] behind
    rw [Piece.size_hole] at hhole
    rw [hd.holeSpan_eq hplace]
    dsimp only
    show _ ∧ _ ≤ _ + Piece.size (before ++ ([.hole h] ++ behind))
    omega
  · rintro ⟨hstart, hstop⟩
    have hpositive := hsolid h hh
    rw [Document.holes_eq] at hh
    obtain ⟨before, behind, hplace⟩ := Piece.mem_holes_iff.mp hh
    rw [hd.holeSpan_eq hplace] at hstart hstop
    dsimp only at hstart hstop
    refine List.mem_filter.mpr ⟨by rw [Document.holes_eq]; exact hh, ?_⟩
    rw [hd.overlaps_iff hplace, Piece.range_start, Piece.range_stop]
    omega

end Ranges

/-! ## Values in a tree -/

/-- The value of an assignment is what stands in its range.

It is a text where no hole shares a byte with the range, an expression where a single hole is as
long as the range, and mixed otherwise.  A mixed value shows the text of the range, with no empty
text and no two texts in a row.  The holes in the value are those of the range, and these are
the holes that lie in it: none reaches over an end. -/
structure Assignment.Keeps (x : Assignment) (d : Document) : Prop where
  text : ∀ s, x.value = .text s ↔ d.holesIn x.span = [] ∧ s = x.span.sliceD d.text
  expression : ∀ h, x.value = .expression h ↔ d.holesIn x.span = [h] ∧ d.holeSpan h = x.span
  mixed : (∃ segments, x.value = .mixed segments) ↔
    d.holesIn x.span ≠ [] ∧ ∀ h, d.holesIn x.span = [h] → d.holeSpan h ≠ x.span
  shown : ∀ segments, x.value = .mixed segments →
    String.ofList (segments.flatMap Segment.chars) = x.span.sliceD d.text
  solid : ∀ segments, x.value = .mixed segments → ∀ s, .text s ∈ segments → s ≠ ""
  apart : ∀ segments, x.value = .mixed segments → segments.IsChain Segment.Apart
  holes : x.value.holes = d.holesIn x.span
  inside : ∀ h ∈ d.holes, h ∈ d.holesIn x.span ↔ x.span.covers (d.holeSpan h) = true

section Values

variable {d : Document} {x : Assignment} {mid : List Piece}

theorem keeps_of_valueOf (hd : d.Filled) (hsolid : ∀ h ∈ d.holes, 0 < h.span.length)
    (hrange : IsPieceRange d x.span mid) (hvalue : x.value = valueOf mid) : x.Keeps d := by
  have hinside : ∀ h ∈ d.holes, h ∈ d.holesIn x.span ↔ x.span.covers (d.holeSpan h) = true :=
    fun h hh => mem_holesIn_iff hd hsolid hrange hh
  obtain ⟨front, back, hpieces, hspan⟩ := hrange
  have hholes : d.holesIn x.span = Piece.holes mid := by
    rw [hspan]
    exact hd.holesIn_eq hsolid hpieces
  have hslice : x.span.sliceD d.text = String.ofList (Piece.text mid) := by
    rw [hspan]
    exact hd.sliceD_text hpieces
  have hfills : ∀ h ∈ Piece.holes mid, d.holeSpan h = x.span ↔ mid = [.hole h] := by
    intro h hh
    rw [hspan]
    exact holeSpan_eq_range_iff hd hsolid hpieces hh
  have hsegments : ∀ segments, x.value = .mixed segments → segments = segmentsOf [] mid :=
    fun segments hmixed => (valueOf_eq_mixed_iff.mp (hvalue.symm.trans hmixed)).2.2
  refine ⟨?_, ?_, ?_, ?_, ?_, ?_, ?_, hinside⟩
  · intro s
    rw [hvalue, hholes, hslice]
    exact valueOf_eq_text_iff
  · intro h
    rw [hvalue, hholes, valueOf_eq_expression_iff]
    constructor
    · rintro rfl
      exact ⟨rfl, (hfills h (List.mem_singleton_self h)).mpr rfl⟩
    · rintro ⟨hone, hfilled⟩
      exact (hfills h (hone ▸ List.mem_singleton_self h)).mp hfilled
  · rw [hvalue, hholes]
    constructor
    · rintro ⟨segments, hmixed⟩
      obtain ⟨hsome, hmore, -⟩ := valueOf_eq_mixed_iff.mp hmixed
      refine ⟨hsome, fun h hone hfilled => hmore h ?_⟩
      exact (hfills h (hone ▸ List.mem_singleton_self h)).mp hfilled
    · rintro ⟨hsome, hmore⟩
      refine ⟨_, valueOf_eq_mixed_iff.mpr ⟨hsome, ?_, rfl⟩⟩
      rintro h rfl
      exact hmore h rfl ((hfills h (List.mem_singleton_self h)).mpr rfl)
  · intro segments hmixed
    rw [hsegments segments hmixed, chars_segmentsOf, List.nil_append, hslice]
  · intro segments hmixed s hs
    rw [hsegments segments hmixed] at hs
    exact ne_empty_of_mem_segmentsOf [] mid hs
  · intro segments hmixed
    rw [hsegments segments hmixed]
    exact isChain_segmentsOf [] mid
  · rw [hholes, hvalue]
    exact holes_valueOf mid

/-! ## Holes in one value only -/

/-- The holes of what is assigned. -/
def Attribute.holes (a : Attribute) : List Hole :=
  match a.assignment with
  | some x => x.value.holes
  | none => []

theorem holes_of_assignment {a : Attribute} (hx : a.assignment = some x) :
    a.holes = x.value.holes := by
  rw [Attribute.holes, hx]

/-- What is in the tree shows what is in its range, if that is not empty. -/
theorem keeps_of_mem (hd : d.Filled) (hsolid : ∀ h ∈ d.holes, 0 < h.span.length) {a : Attribute}
    (ha : a ∈ (Tree.ofDocument d).attributes) (hx : a.assignment = some x) :
    (a.holes = [] ∧ x.span.isEmpty = true) ∨ x.Keeps d := by
  rw [holes_of_assignment hx]
  rcases value_cases hd hsolid ha hx with hempty | ⟨mid, hrange, hvalue⟩
  · exact .inl hempty
  · exact .inr (keeps_of_valueOf hd hsolid hrange hvalue)

/-- The holes of an attribute are holes of the document in the range of its value. -/
theorem holes_cases (hd : d.Filled) (hsolid : ∀ h ∈ d.holes, 0 < h.span.length) {a : Attribute}
    (ha : a ∈ (Tree.ofDocument d).attributes) :
    a.holes = [] ∨ ∃ x, a.assignment = some x ∧ x.Keeps d ∧ a.holes = d.holesIn x.span := by
  cases hx : a.assignment with
  | none => exact .inl (by rw [Attribute.holes, hx])
  | some x =>
    rcases keeps_of_mem hd hsolid ha hx with ⟨hnone, -⟩ | hkeeps
    · exact .inl hnone
    · exact .inr ⟨x, rfl, hkeeps, (holes_of_assignment hx).trans hkeeps.holes⟩

/-- A hole of an attribute lies in the range of the whole. -/
theorem holeSpan_within_whole (hd : d.Filled) (hsolid : ∀ h ∈ d.holes, 0 < h.span.length)
    {a : Attribute} (ha : a ∈ (Tree.ofDocument d).attributes) {h : Hole} (hh : h ∈ a.holes) :
    a.whole.start ≤ (d.holeSpan h).start ∧ (d.holeSpan h).start < (d.holeSpan h).stop ∧
      (d.holeSpan h).stop ≤ a.whole.stop := by
  rcases holes_cases hd hsolid ha with hnone | ⟨x, hx, hkeeps, hholes⟩
  · rw [hnone] at hh
    exact absurd hh List.not_mem_nil
  · rw [hholes] at hh
    have hmem : h ∈ d.holes := (List.mem_filter.mp hh).1
    have hpositive := hsolid h hmem
    have hcovers := (hkeeps.inside h hmem).mp hh
    have hordered := (Tree.rootsNested_ofDocument d).ordered_of_mem ha
    have hvalue := hordered.value x hx
    have hname := hordered.name
    have hstart := hordered.name_start
    rw [Document.holes_eq] at hmem
    obtain ⟨before, behind, hplace⟩ := Piece.mem_holes_iff.mp hmem
    rw [Span.covers, Bool.and_eq_true, decide_eq_true_eq, decide_eq_true_eq] at hcovers
    rw [hd.holeSpan_eq hplace] at hcovers ⊢
    dsimp only at hcovers ⊢
    omega

theorem nodup_holes_attributes (hd : d.Filled) (hsolid : ∀ h ∈ d.holes, 0 < h.span.length) :
    ((Tree.ofDocument d).attributes.flatMap Attribute.holes).Nodup := by
  refine List.nodup_flatMap.mpr ⟨fun a ha => ?_, ?_⟩
  · rcases holes_cases hd hsolid ha with hnone | ⟨x, -, -, hholes⟩
    · rw [hnone]
      exact .nil
    · rw [hholes]
      exact (hd.nodup_holes hsolid).filter _
  · have hpairs := (Tree.rootsNested_ofDocument d).pairwise_attributes
    refine hpairs.imp_of_mem fun {a b} ha hb hle => ?_
    intro h hh hh'
    have hfirst := holeSpan_within_whole hd hsolid ha hh
    have hsecond := holeSpan_within_whole hd hsolid hb hh'
    omega

/-- In a document whose parts fill its place and whose holes hold a byte, every value that holds
a byte keeps its text and its holes, and no hole of the document is in the tree twice. -/
theorem Tree.values_keep_holes (hd : d.Filled) (hsolid : ∀ h ∈ d.holes, 0 < h.span.length) :
    (∀ a ∈ (Tree.ofDocument d).attributes, ∀ x, a.assignment = some x → x.span.isEmpty = false →
      x.Keeps d) ∧
    ((Tree.ofDocument d).attributes.flatMap Attribute.holes).Nodup := by
  refine ⟨fun a ha x hx hne => ?_, nodup_holes_attributes hd hsolid⟩
  rcases keeps_of_mem hd hsolid ha hx with ⟨-, hempty⟩ | hkeeps
  · exact absurd hempty (Bool.eq_false_iff.mp hne)
  · exact hkeeps

end Values

/-- A document with a hole between letters in quotes, and one that is a whole value. -/
def mixedDocument : Document :=
  let hole (id start : Nat) (text : String) : Hole :=
    { id := id
      expression := { span := ⟨start + 2, start + 3⟩, text := text }
      span := ⟨start, start + 4⟩ }
  { fileName := "a.ts"
    dialect := .markup
    location := ⟨5, 26⟩
    parts :=
      [.text { text := "<a x=\"p", span := ⟨5, 12⟩ }, .hole (hole 0 12 "f"),
       .text { text := "q\" y=", span := ⟨16, 21⟩ }, .hole (hole 1 21 "g"),
       .text { text := ">", span := ⟨25, 26⟩ }] }

theorem Tree.values_keep_holes_of_mixed :
    let d := mixedDocument
    (d.Filled ∧ (∀ h ∈ d.holes, 0 < h.span.length) ∧
      ∃ f g, d.holes = [f, g] ∧
        (Tree.ofDocument d).attributes.map (fun a => a.assignment.map (·.value)) =
          [some (.mixed [.text "p", .hole f, .text "q"]), some (.expression g)]) ∧
    (∀ a ∈ (Tree.ofDocument d).attributes, ∀ x, a.assignment = some x → x.span.isEmpty = false →
      x.Keeps d) ∧
    ((Tree.ofDocument d).attributes.flatMap Attribute.holes).Nodup := by
  intro d
  have hd : d.Filled := by decide +kernel
  have hsolid : ∀ h ∈ d.holes, 0 < h.span.length := by decide +kernel
  exact ⟨⟨hd, hsolid, _, _, rfl, by decide +kernel⟩, Tree.values_keep_holes hd hsolid⟩

end Markup
end Inlay
