import Inlay.Proofs.Document.Slices
import Inlay.Proofs.Host.Extraction
import Inlay.Proofs.Markup.AttributeTokens
import Inlay.Proofs.Markup.ByteAgreement
import Inlay.Proofs.Markup.PieceValues
import Inlay.Proofs.Markup.TokenRanges

/-!
# Reading with checked cuts

A tree holds texts that are cut out of the document: names of tags and attributes, and what
stands in values between holes.  A cut that fails gives the empty text and nobody is told.  So there
is a second reader below, `Builder.ofDocument?`, which gives up at the first cut that fails.  It
never gives up: `Builder.ofDocument?_eq`.

Most cuts are made at ranges of tokens, and these lie in any text.  A value with holes is cut at
the edges of the holes as well, and for those the parts of the document have to come in their
order, with or without room between them.  The documents of a host file are like that.
-/

namespace Inlay

/-! ## Edges of parts -/

section Edges

variable {location : Span} {parts : List Part} {lo hi cursor edge pos : Nat}

theorem fallsBetween_placeholder (n : Nat) : FallsBetween edge pos (placeholder n) := by
  induction n generalizing pos with
  | zero => trivial
  | succ n ih =>
    have hsize : '_'.utf8Size = 1 := rfl
    refine ⟨?_, ih⟩
    omega

/-- What is visible of a span lies in it and begins where both spans have begun. -/
theorem Span.overlap?_bounds {a b visible : Span} (h : a.overlap? b = some visible)
    (ha : a.start ≤ a.stop) :
    visible.start = max a.start b.start ∧ visible.start ≤ visible.stop ∧ visible.stop ≤ a.stop := by
  have hoverlap := Span.lt_of_overlap? h
  rw [overlap?, if_pos (overlaps_iff.mpr hoverlap)] at h
  obtain rfl := Option.some.inj h
  refine ⟨rfl, start_le_stop_of _ _, ?_⟩
  show max (max a.start b.start) (min a.stop b.stop) ≤ a.stop
  omega

/-- One of the parts begins or ends at the offset. -/
def IsEdge (parts : List Part) (edge : Nat) : Prop :=
  ∃ p ∈ parts, edge = p.span.start ∨ edge = p.span.stop

/-- Where a part begins or ends, no character of the text is cut. -/
theorem fallsBetween_textFrom (h : InOrder lo hi (parts.map Part.span))
    (hcursor : cursor ≤ max lo location.start)
    (hedge : edge ≤ lo ∨ IsEdge parts edge) :
    FallsBetween edge cursor (Document.textFrom location cursor parts) := by
  induction parts generalizing lo cursor with
  | nil => trivial
  | cons q rest ih =>
    obtain ⟨hstart, hspan, hrest⟩ := h
    have houtside : edge ≤ q.span.start ∨ q.span.stop ≤ edge := by
      rcases hedge with hle | ⟨p, hp, hp'⟩
      · exact .inl (Nat.le_trans hle hstart)
      · rcases List.mem_cons.mp hp with rfl | hp
        · rcases hp' with rfl | rfl
          · exact .inl (Nat.le_refl _)
          · exact .inr (Nat.le_refl _)
        · have hbounds := hrest.mem (List.mem_map_of_mem hp)
          rcases hp' with rfl | rfl <;> exact .inr (by omega)
    have hlater : edge ≤ q.span.stop ∨ IsEdge rest edge := by
      rcases hedge with hle | ⟨p, hp, hp'⟩
      · exact .inl (by omega)
      · rcases List.mem_cons.mp hp with rfl | hp
        · rcases hp' with rfl | rfl
          · exact .inl hspan
          · exact .inl (Nat.le_refl _)
        · exact .inr ⟨p, hp, hp'⟩
    rw [Document.textFrom]
    cases hvisible : q.span.overlap? location with
    | none => exact ih hrest (by omega) hlater
    | some visible =>
      obtain ⟨hvstart, hle, hvstop⟩ := Span.overlap?_bounds hvisible hspan
      have hroom : cursor + byteLength (placeholder (visible.start - cursor)) = visible.start := by
        rw [byteLength_placeholder]
        omega
      have hshown : byteLength (Document.shown q visible) = visible.length :=
        byteLength_shown (by omega)
      have hbehind : visible.start + byteLength (Document.shown q visible) = visible.stop := by
        rw [hshown, Span.length]
        omega
      dsimp only
      rw [List.append_assoc, fallsBetween_append, fallsBetween_append, hroom, hbehind]
      refine ⟨fallsBetween_placeholder _, ?_, ih hrest (by omega) hlater⟩
      rcases houtside with hedge | hedge
      · exact fallsBetween_behind (by omega)
      · exact fallsBetween_before (by omega)

end Edges

namespace Document

variable {d : Document} {h : Hole}

/-- The parts come one behind the other.  There may be room between them. -/
def Ordered (d : Document) : Prop := ∃ lo hi, InOrder lo hi (d.parts.map Part.span)

theorem Mirrors.ordered {source : String} (hd : d.Mirrors source) : d.Ordered :=
  ⟨_, _, hd.tiles.inOrder⟩

theorem hole_mem_parts {parts : List Part} (hh : h ∈ holesOf parts) : .hole h ∈ parts := by
  induction parts with
  | nil => exact absurd hh List.not_mem_nil
  | cons p rest ih =>
    cases p with
    | text t => exact List.mem_cons_of_mem _ (ih hh)
    | hole x =>
      rcases List.mem_cons.mp hh with rfl | hh
      · exact List.mem_cons_self
      · exact List.mem_cons_of_mem _ (ih hh)

/-- An edge of a part that lies in the text is a boundary there. -/
theorem Ordered.isBoundary_edge (hd : d.Ordered) {edge : Nat} (hedge : IsEdge d.parts edge)
    (hsize : edge - d.location.start ≤ d.text.utf8ByteSize) :
    IsBoundary d.text (edge - d.location.start) := by
  obtain ⟨lo, hi, horder⟩ := hd
  have hfalls : FallsBetween edge d.location.start d.chars :=
    fallsBetween_textFrom horder (Nat.le_max_right _ _) (.inr hedge)
  have hchars : d.text.toList = d.chars := String.toList_ofList
  rw [← byteLength_toList, hchars] at hsize
  rcases Nat.le_total edge d.location.start with hle | hle
  · exact ⟨[], d.text.toList, rfl, by rw [Nat.sub_eq_zero_of_le hle]; rfl⟩
  · obtain ⟨front, back, hsplit, hfront⟩ := hfalls.exists_split hle (by omega)
    exact ⟨front, back, hchars.trans hsplit, by omega⟩

end Document

namespace Markup

/-! ## The reader -/

/-- As `segmentsFrom`, with all cuts checked. -/
def segmentsFrom? (d : Document) (text : String) (cursor stop : Nat) :
    List Hole → Option (List Segment)
  | [] =>
    if cursor < stop then ((Span.of cursor stop).slice? text).map fun s => [.text s] else some []
  | h :: rest => do
    let hole := d.holeSpan h
    let before ←
      if cursor < hole.start then
        ((Span.of cursor hole.start).slice? text).map fun s => [Segment.text s]
      else some []
    let behind ← segmentsFrom? d text (max cursor hole.stop) stop rest
    pure (before ++ .hole h :: behind)

/-- As `valueAt`, with all cuts checked. -/
def valueAt? (d : Document) (text : String) (r : Span) : Option Value :=
  match d.holesIn r with
  | [] => (r.slice? text).map .text
  | [h] =>
    if d.holeSpan h = r then some (.expression h)
    else (segmentsFrom? d text r.start r.stop [h]).map .mixed
  | hs => (segmentsFrom? d text r.start r.stop hs).map .mixed

/-- As `assigned?`, with all cuts checked. -/
def assignedChecked? (d : Document) (text : String) (p : Pending) (quote : Quote) (stop : Nat) :
    Option (Option (Value × Span)) :=
  match quote, p.value with
  | .absent, _ => some (some (.presence, Span.empty p.name.stop))
  | .unquoted, none => some none
  | _, none => some (some (.text "", Span.empty stop))
  | _, some r => (valueAt? d text r).map fun v => some (v, r)

/-- As `splitModifier`, with the cut checked. -/
def splitModifier? (text : String) (name : Span) : Option (Binding × Span) :=
  (name.slice? text).map fun s =>
    match s.toList.head?.bind Binding.ofModifier? with
    | some binding => (binding, Span.of (name.start + 1) name.stop)
    | none => (.plain, name)

namespace Builder

/-- As `openNode`, with the cut checked. -/
def openNode? (b : Builder) (text : String) (name : Span) : Option Builder :=
  (name.slice? text).map fun tag =>
    let b := b.dropCurrent
    let parent := b.frames.head?.map (·.node)
    let startTag := Span.of (name.start - 1) name.stop
    { b with
      current := some
        { id := b.nodeCount, tag := tag, kind := Kind.of (parent.map (·.kind)) tag,
          whole := startTag, nameSpan := name, startTag := startTag, parent := parent.map (·.id) }
      nodeCount := b.nodeCount + 1 }

/-- As `closeNode`, with the cut checked. -/
def closeNode? (b : Builder) (text : String) (tag name : Span) : Option Builder :=
  (name.slice? text).map fun s =>
    match closeIn s tag b.frames with
    | some (e, frames) => { b with frames := frames }.add e
    | none => b.report .strayEndTag tag.start tag.stop

/-- As `addAttribute`, with all cuts checked. -/
def addAttribute? (b : Builder) (d : Document) (text : String) (p : Pending) (quote : Quote)
    (stop : Nat) : Option Builder :=
  match b.current with
  | none => some b
  | some n => do
    let (binding, nameSpan) ← splitModifier? text p.name
    if nameSpan.isEmpty || isCoveredByHole d nameSpan then pure b
    else
      let name ← nameSpan.slice? text
      let value ← assignedChecked? d text p quote stop
      let assignment := value.map fun v =>
        { id := b.assignmentCount, owner := b.attributeCount, value := v.1, span := v.2 :
          Assignment }
      let added : Attribute :=
        { id := b.attributeCount, node := n.id, name := name, binding := binding,
          whole := Span.of p.name.start (attributeStop quote stop), nameSpan := nameSpan,
          assignment := assignment }
      pure
        { b with
          current := some { n with attributes := n.attributes ++ [added] }
          attributeCount := b.attributeCount + 1
          assignmentCount := b.assignmentCount + (if assignment.isSome then 1 else 0) }

/-- As `read`, with all cuts checked. -/
def read? (d : Document) (text : String) (b : Builder) : Token → Option Builder
  | .openName start stop => b.openNode? text (Span.of start stop)
  | .close start nameStart nameStop stop =>
    b.closeNode? text (Span.of start stop) (Span.of nameStart nameStop)
  | .attributeEnd quote stop =>
    match b.pending with
    | some p => { b with pending := none }.addAttribute? d text p quote stop
    | none => some b
  | t => some (b.read d text t)

/-- All tokens of a document have been read, and no cut has failed. -/
def ofDocument? (d : Document) : Option Builder :=
  (tokens d.text).foldlM (Builder.read? d d.text) {}

end Builder
/-! ## Cuts that succeed -/

/-- The name and the value of an attribute lie in the text. -/
def Pending.IsIn (p : Pending) (text : String) : Prop :=
  p.name.IsIn text ∧ ∀ r, p.value = some r → r.IsIn text

section Cuts

variable {d : Document} {text : String} {r name : Span} {cursor stop : Nat}

/-- The edges of a hole in the text are boundaries. -/
theorem isBoundary_holeSpan (hd : d.Ordered) {h : Hole} (hh : h ∈ d.holes) :
    ((d.holeSpan h).start ≤ d.text.utf8ByteSize → IsBoundary d.text (d.holeSpan h).start) ∧
      ((d.holeSpan h).stop ≤ d.text.utf8ByteSize → IsBoundary d.text (d.holeSpan h).stop) :=
  ⟨hd.isBoundary_edge ⟨_, Document.hole_mem_parts hh, .inl rfl⟩,
    hd.isBoundary_edge ⟨_, Document.hole_mem_parts hh, .inr rfl⟩⟩

/-- The cursor is a boundary as long as it is in the text, and each hole moves it to another. -/
theorem segmentsFrom?_eq (hd : d.Ordered) (hstop : IsBoundary d.text stop)
    (hcursor : cursor ≤ d.text.utf8ByteSize → IsBoundary d.text cursor) {hs : List Hole}
    (hs' : ∀ h ∈ hs, h ∈ d.holes ∧ (d.holeSpan h).start ≤ stop) :
    segmentsFrom? d d.text cursor stop hs = some (segmentsFrom d d.text cursor stop hs) := by
  have hsize := hstop.le
  induction hs generalizing cursor with
  | nil =>
    rw [segmentsFrom?, segmentsFrom]
    split
    · next hlt =>
      have hin := Span.IsIn.of (Nat.le_of_lt hlt) (hcursor (by omega)) hstop
      rw [hin.slice?_eq]
      rfl
    · rfl
  | cons h rest ih =>
    obtain ⟨⟨hh, hle⟩, hrest⟩ := List.forall_mem_cons.mp hs'
    obtain ⟨hedge, hedge'⟩ := isBoundary_holeSpan hd hh
    have hnext : max cursor (d.holeSpan h).stop ≤ d.text.utf8ByteSize →
        IsBoundary d.text (max cursor (d.holeSpan h).stop) := by
      intro hmax
      rcases Nat.le_total cursor (d.holeSpan h).stop with hmove | hmove
      · rw [Nat.max_eq_right hmove] at hmax ⊢
        exact hedge' hmax
      · rw [Nat.max_eq_left hmove] at hmax ⊢
        exact hcursor hmax
    rw [segmentsFrom?, segmentsFrom, ih hnext hrest]
    dsimp only
    split
    · next hlt =>
      have hin := Span.IsIn.of (Nat.le_of_lt hlt) (hcursor (by omega)) (hedge (by omega))
      rw [hin.slice?_eq]
      rfl
    · rfl

/-- A hole that shares a byte with a range begins before the range ends. -/
theorem start_holeSpan_le {h : Hole} (hh : h ∈ d.holesIn r) :
    h ∈ d.holes ∧ (d.holeSpan h).start ≤ r.stop := by
  obtain ⟨hmem, hoverlaps⟩ := List.mem_filter.mp hh
  have hlt : h.span.start < r.stop + d.location.start := (Span.overlaps_iff.mp hoverlaps).1
  refine ⟨hmem, ?_⟩
  show h.span.start - d.location.start ≤ r.stop
  omega

theorem valueAt?_eq (hd : d.Ordered) (hr : r.IsIn d.text) :
    valueAt? d d.text r = some (valueAt d d.text r) := by
  have hsegments : segmentsFrom? d d.text r.start r.stop (d.holesIn r) =
      some (segmentsFrom d d.text r.start r.stop (d.holesIn r)) :=
    segmentsFrom?_eq hd hr.stop (fun _ => hr.start) fun h hh => start_holeSpan_le hh
  rw [valueAt?.eq_def, valueAt.eq_def]
  cases hholes : d.holesIn r with
  | nil =>
    show (r.slice? d.text).map Value.text = _
    rw [hr.slice?_eq]
    rfl
  | cons h rest =>
    rw [hholes] at hsegments
    cases rest with
    | nil =>
      dsimp only
      split
      · rfl
      · rw [hsegments]
        rfl
    | cons h' rest =>
      dsimp only
      rw [hsegments]
      rfl

theorem assignedChecked?_eq (hd : d.Ordered) {p : Pending} (hp : p.IsIn d.text) (quote : Quote)
    (stop : Nat) :
    assignedChecked? d d.text p quote stop = some (assigned? d d.text p quote stop) := by
  rw [assignedChecked?.eq_def, assigned?.eq_def]
  cases hvalue : p.value with
  | none => cases quote <;> rfl
  | some r =>
    have hvalueAt := valueAt?_eq hd (hp.2 r hvalue)
    cases quote with
    | absent => rfl
    | unquoted | single | double =>
      dsimp only
      rw [hvalueAt]
      rfl

/-- A modifier is one byte, so the name behind it lies in the text as well. -/
theorem splitModifier?_eq (hname : name.IsIn text) :
    splitModifier? text name = some (splitModifier text name) ∧
      (splitModifier text name).2.IsIn text := by
  have hcut := hname.slice?_eq
  refine ⟨by rw [splitModifier?, hcut]; rfl, ?_⟩
  rw [splitModifier]
  split
  · next binding hbinding =>
    obtain ⟨c, hc, hmodifier⟩ := Option.bind_eq_some_iff.mp hbinding
    obtain ⟨cs, hcs⟩ := List.head?_eq_some_iff.mp hc
    obtain ⟨-, front, rest, hsplit, hfront, hlength⟩ := Span.slice?_eq_some_iff.mp hcut
    rw [hcs, byteLength_cons, utf8Size_of_ofModifier? hmodifier] at hlength
    have hbehind : IsBoundary text (name.start + 1) := by
      refine ⟨front ++ [c], cs ++ rest, by rw [hsplit, hcs]; simp, ?_⟩
      rw [byteLength_append, hfront, byteLength_cons, utf8Size_of_ofModifier? hmodifier]
      rfl
    exact .of (by omega) hbehind hname.stop
  · exact hname

end Cuts

/-! ## Reading -/

section Reading

variable {b : Builder} {d : Document} {text : String} {φ φ' : Phase} {pos pos' : Nat} {t : Token}

/-- What is pending in the phase lies in the text. -/
def Phase.IsIn (φ : Phase) (text : String) : Prop := ∀ p, φ.pending = some p → p.IsIn text

theorem Builder.addAttribute?_eq (hd : d.Ordered) {p : Pending} (hp : p.IsIn d.text)
    (b : Builder) (quote : Quote) (stop : Nat) :
    b.addAttribute? d d.text p quote stop = some (b.addAttribute d d.text p quote stop) := by
  obtain ⟨hsplit, hname⟩ := splitModifier?_eq hp.1
  rw [addAttribute?, addAttribute]
  cases b.current with
  | none => rfl
  | some n =>
    dsimp only
    rw [hsplit, Option.bind_eq_bind, Option.bind_some]
    split
    · rfl
    · rw [hname.slice?_eq, assignedChecked?_eq hd hp]
      rfl

/-- What is pending comes from the ranges of tokens. -/
theorem Phase.IsIn.follows (h : φ.IsIn text) (ht : Follows φ pos t φ' pos')
    (hranges : ∀ r ∈ t.ranges, r.IsIn text) : φ'.IsIn text := by
  intro p hp
  rw [ht.pending] at hp
  cases ht with
  | attributeName _ hlt =>
    obtain rfl := Option.some.inj hp
    have hname := hranges _ List.mem_cons_self
    exact ⟨.of hname.ordered hname.start hname.stop, fun r hr => absurd hr (Option.some_ne_none r).symm⟩
  | attributeValue _ _ hlt =>
    obtain rfl := Option.some.inj hp
    have hvalue := hranges _ List.mem_cons_self
    refine ⟨(h _ rfl).1, fun r hr => ?_⟩
    obtain rfl := Option.some.inj hr
    exact .of hvalue.ordered hvalue.start hvalue.stop
  | attributeEnd => exact absurd hp (Option.some_ne_none p).symm
  | text | comment | close | openName | openEnd | selfClose | mistake => exact h p hp

/-- No cut fails where the ranges of the token lie in the text and so does what is pending. -/
theorem Builder.NestedAt.read?_eq (h : b.NestedAt pos φ) (hd : d.Ordered) (hφ : φ.IsIn d.text)
    (ht : Follows φ pos t φ' pos') (hranges : ∀ r ∈ t.ranges, r.IsIn d.text) :
    b.read? d d.text t = some (b.read d d.text t) := by
  cases ht with
  | openName =>
    have hname := hranges _ List.mem_cons_self
    rw [read?, openNode?, (Span.IsIn.of hname.ordered hname.start hname.stop).slice?_eq]
    rfl
  | close =>
    have hname := hranges _ (List.mem_cons_of_mem _ List.mem_cons_self)
    rw [read?, closeNode?, (Span.IsIn.of hname.ordered hname.start hname.stop).slice?_eq]
    rfl
  | attributeEnd =>
    have hpending : b.pending = _ := h.1
    rw [read?, Builder.read, hpending]
    exact addAttribute?_eq hd (hφ _ rfl) _ _ _
  | text | comment | openEnd | selfClose | attributeName | attributeValue | mistake => rfl

theorem Builder.NestedAt.foldlM_read?_eq {ts : List Token} (h : b.NestedAt pos φ) (hd : d.Ordered)
    (hφ : φ.IsIn d.text) (hts : Path φ pos ts φ' pos')
    (hranges : ∀ t ∈ ts, ∀ r ∈ t.ranges, r.IsIn d.text) :
    ts.foldlM (Builder.read? d d.text) b = some (ts.foldl (Builder.read d d.text) b) := by
  induction hts generalizing b with
  | nil => rfl
  | cons ht _ ih =>
    obtain ⟨htranges, hrest⟩ := List.forall_mem_cons.mp hranges
    rw [List.foldlM_cons, h.read?_eq hd hφ ht htranges, Option.bind_eq_bind, Option.bind_some,
      List.foldl_cons]
    exact ih (h.read ht d d.text) (hφ.follows ht htranges) hrest

/-- No cut of the reader fails. -/
theorem Builder.ofDocument?_eq (hd : d.Ordered) :
    Builder.ofDocument? d = some (Builder.ofDocument d) := by
  obtain ⟨ts, htokens, φ, done, hpath, -⟩ := tokens_eq d.text
  have hranges : ∀ t ∈ ts, ∀ r ∈ t.ranges, r.IsIn d.text := by
    intro t ht r hr
    refine isIn_of_mem_ranges ?_ hr
    rw [htokens]
    exact List.mem_append_left _ ht
  have hnothing : Phase.outside.IsIn d.text := fun p hp => absurd hp (Option.some_ne_none p).symm
  rw [ofDocument?, ofDocument, htokens, List.foldlM_append,
    nestedAt_empty.foldlM_read?_eq hd hnothing hpath hranges, List.foldl_append]
  rfl

end Reading

/-- Nothing is read or cut out of bounds.  The scanner of bytes stays inside every text and finds
the tokens, which are in their places there.  In a document whose parts come in order
every cut of the reader succeeds, and the documents of host files are like that. -/
theorem reading_in_bounds :
    (∀ text : String,
      scanBytes (bytesOf text) {} 0 = some (tokens text) ∧ InPlace text (tokens text)) ∧
    (∀ d : Document, d.Ordered → Builder.ofDocument? d = some (Builder.ofDocument d)) ∧
    ∀ fileName source,
      (∀ literals : List Literal, (∀ l ∈ literals, l.Placed source) →
        ∀ d ∈ Literal.documents fileName source literals, d.Ordered) ∧
      ∀ parse : HostParser, parse.Places → ∀ tags docs,
        documents? parse fileName source tags = some docs → ∀ d ∈ docs, d.Ordered := by
  refine ⟨fun text => ⟨scanBytes_eq text, inPlace_tokens text⟩,
    fun _ => Builder.ofDocument?_eq, fun fileName source => ⟨fun literals h d hd => ?_, ?_⟩⟩
  · exact ((Literal.extracted_documents h fileName).mirrors d hd).ordered
  · intro parse hplaces tags docs h d hd
    exact ((hplaces.extracted h).mirrors d hd).ordered

/-- Characters of two bytes in a name, in a value in front of a hole, and in the text. -/
def accentedSource : String := "html\x60<p é=\"ü$\x7bx\x7d\">ö</p>\x60"

/-- The template in it. -/
def accentedTemplate : TaggedTemplate :=
  { tag := .identifier ⟨0, 4⟩ "html", span := ⟨4, 27⟩, texts := [⟨5, 14⟩, ⟨18, 26⟩]
    expressions := [.identifier ⟨16, 17⟩ "x"] }

theorem reading_in_bounds_of_accented :
    let l : Literal := ⟨⟨4, 27⟩, .markup, [(⟨14, 18⟩, .identifier ⟨16, 17⟩ "x")]⟩
    let d := l.toDocument "a.ts" accentedSource 0
    let parse := HostParser.ofSource accentedSource [accentedTemplate]
    (l.Placed accentedSource ∧ d ∈ Literal.documents "a.ts" accentedSource [l] ∧ d.Ordered) ∧
      tokens d.text =
        [.openName 1 2, .attributeName 3 5, .attributeValue 7 13, .attributeEnd .double 13,
          .openEnd 14, .text 15 17, .close 17 19 20 21, .finish] ∧
      scanBytes (bytesOf d.text) {} 0 = some (tokens d.text) ∧ InPlace d.text (tokens d.text) ∧
      Builder.ofDocument? d = some (Builder.ofDocument d) ∧
      parse.Places ∧ documents? parse "a.ts" accentedSource {} = some [d] ∧
      ∀ e ∈ [d], e.Ordered := by
  intro l d parse
  obtain ⟨htexts, hdocuments, hfound⟩ := reading_in_bounds
  have hplaced : l.Placed accentedSource := by decide +kernel
  have hone : Literal.documents "a.ts" accentedSource [l] = [d] := by
    rw [Literal.documents, Literal.documentsFrom, Literal.documentsFrom, List.mergeSort_singleton]
  have hd : d ∈ Literal.documents "a.ts" accentedSource [l] := by
    rw [hone]
    exact List.mem_singleton_self d
  have hordered : d.Ordered :=
    (hfound "a.ts" accentedSource).1 [l] (List.forall_mem_singleton.mpr hplaced) d hd
  have hplaces : parse.Places :=
    HostParser.places_ofSource (List.forall_mem_singleton.mpr (by decide +kernel))
  have hknown : parse "a.ts" accentedSource = some [accentedTemplate] :=
    HostParser.ofSource_known _ _ _
  have hparse : documents? parse "a.ts" accentedSource {} = some [d] := by
    rw [documents?, hknown, ← hone]
    rfl
  exact ⟨⟨hplaced, hd, hordered⟩, by decide +kernel, (htexts d.text).1, (htexts d.text).2,
    hdocuments d hordered, hplaces, hparse,
    (hfound "a.ts" accentedSource).2 parse hplaces {} [d] hparse⟩

end Markup
end Inlay
