import Inlay.Proofs.Markup.PieceValues
import Inlay.Proofs.Markup.StretchedTokens

/-!
# Trees of documents with holes of other lengths

What stands in a hole, and how long it is, does not matter to how the markup around it is
read: documents that stretch each other have the same tree, up to the places in it and the holes
that its values are made of (`Tree.alike_ofDocument`).

The one thing that has to be known is that no hole is part of a tag's name.  A name is
compared with others, and the placeholder in it would make the length of the hole count.  In the
names of attributes holes are allowed: nothing compares those while a tree is made, so they may
differ in the lengths of their runs of underscores.

Both trees are made from like tokens.  `Builder.Alike` is kept by every function of the
builder, one lemma each, and `alike_foldl` is the induction on the tokens.
-/

namespace Inlay
namespace Markup

/-! ## Like trees -/

/-- Ranges with related ends. -/
structure SpanAlike (R : Nat → Nat → Prop) (r r' : Span) : Prop where
  start : R r.start r'.start
  stop : R r.stop r'.stop

/-- The same text, or related holes. -/
inductive Segment.Alike (H : Hole → Hole → Prop) : Segment → Segment → Prop
  | text {t} : Alike H (.text t) (.text t)
  | hole {x y} : H x y → Alike H (.hole x) (.hole y)

/-- Values of the same kind, with the same texts and related holes. -/
inductive Value.Alike (H : Hole → Hole → Prop) : Value → Value → Prop
  | presence : Alike H .presence .presence
  | text {t} : Alike H (.text t) (.text t)
  | expression {x y} : H x y → Alike H (.expression x) (.expression y)
  | mixed {xs ys} : List.Forall₂ (Segment.Alike H) xs ys → Alike H (.mixed xs) (.mixed ys)

structure Assignment.Alike (R : Nat → Nat → Prop) (H : Hole → Hole → Prop) (a a' : Assignment) :
    Prop where
  id : a.id = a'.id
  owner : a.owner = a'.owner
  value : a.value.Alike H a'.value
  span : SpanAlike R a.span a'.span

/-- The names may have runs of underscores of other lengths. -/
structure Attribute.Alike (R : Nat → Nat → Prop) (H : Hole → Hole → Prop) (a a' : Attribute) :
    Prop where
  id : a.id = a'.id
  node : a.node = a'.node
  name : squeeze a.name.toList = squeeze a'.name.toList
  binding : a.binding = a'.binding
  whole : SpanAlike R a.whole a'.whole
  nameSpan : SpanAlike R a.nameSpan a'.nameSpan
  assignment : Option.Rel (Assignment.Alike R H) a.assignment a'.assignment

structure Node.Alike (R : Nat → Nat → Prop) (H : Hole → Hole → Prop) (n n' : Node) : Prop where
  id : n.id = n'.id
  tag : n.tag = n'.tag
  kind : n.kind = n'.kind
  whole : SpanAlike R n.whole n'.whole
  nameSpan : SpanAlike R n.nameSpan n'.nameSpan
  startTag : SpanAlike R n.startTag n'.startTag
  endTag : Option.Rel (SpanAlike R) n.endTag n'.endTag
  attributes : List.Forall₂ (Attribute.Alike R H) n.attributes n'.attributes
  parent : n.parent = n'.parent
  selfClosed : n.selfClosed = n'.selfClosed

inductive Element.Alike (R : Nat → Nat → Prop) (H : Hole → Hole → Prop) : Element → Element → Prop
  | mk {n n' es es'} : n.Alike R H n' → List.Forall₂ (Element.Alike R H) es es' →
      Alike R H (.mk n es) (.mk n' es')

structure Problem.Alike (R : Nat → Nat → Prop) (p p' : Problem) : Prop where
  mistake : p.mistake = p'.mistake
  span : SpanAlike R p.span p'.span

/-- The same tree, with places related by `R` and holes by `H`. -/
structure Tree.Alike (R : Nat → Nat → Prop) (H : Hole → Hole → Prop) (t t' : Tree) : Prop where
  roots : List.Forall₂ (Element.Alike R H) t.roots t'.roots
  problems : List.Forall₂ (Problem.Alike R) t.problems t'.problems

/-! ## Like builders -/

/-- What is read off the documents is related: the borders between their cells by `R`, and the
holes by `H`. -/
structure Tracks (d e : Document) (R : Nat → Nat → Prop) (H : Hole → Hole → Prop) : Prop where
  stretches : d.Stretches e
  offset : ∀ i j, Cell.Aligned (d.cells e) i j → R i j
  hole : ∀ p ∈ Cell.holes (d.cells e), H p.1 p.2

structure Pending.Alike (cs : List Cell) (p p' : Pending) : Prop where
  name : Cell.AlignedSpan cs p.name p'.name
  value : Option.Rel (Cell.AlignedSpan cs) p.value p'.value

structure Frame.Alike (R : Nat → Nat → Prop) (H : Hole → Hole → Prop) (f f' : Frame) : Prop where
  node : f.node.Alike R H f'.node
  done : List.Forall₂ (Element.Alike R H) f.done f'.done

structure Builder.Alike (cs : List Cell) (R : Nat → Nat → Prop) (H : Hole → Hole → Prop)
    (b b' : Builder) : Prop where
  frames : List.Forall₂ (Frame.Alike R H) b.frames b'.frames
  roots : List.Forall₂ (Element.Alike R H) b.roots b'.roots
  current : Option.Rel (Node.Alike R H) b.current b'.current
  pending : Option.Rel (Pending.Alike cs) b.pending b'.pending
  nodeCount : b.nodeCount = b'.nodeCount
  attributeCount : b.attributeCount = b'.attributeCount
  assignmentCount : b.assignmentCount = b'.assignmentCount
  problems : List.Forall₂ (Problem.Alike R) b.problems b'.problems

/-! ## Options -/

/-- Related options are both there, or neither is. -/
theorem cases_optionRel {α β : Type} {r : α → β → Prop} {x : Option α} {y : Option β}
    (h : Option.Rel r x y) :
    (x = none ∧ y = none) ∨ ∃ a b, x = some a ∧ y = some b ∧ r a b := by
  cases h with
  | none => exact .inl ⟨rfl, rfl⟩
  | some h => exact .inr ⟨_, _, rfl, rfl, h⟩

theorem optionRel_map {α β γ δ : Type} {r : α → β → Prop} {q : γ → δ → Prop} {x : Option α}
    {y : Option β} {f : α → γ} {g : β → δ} (hfg : ∀ a b, r a b → q (f a) (g b))
    (h : Option.Rel r x y) : Option.Rel q (x.map f) (y.map g) := by
  cases h with
  | none => exact .none
  | some h => exact .some (hfg _ _ h)

theorem isSome_eq_of_optionRel {α β : Type} {r : α → β → Prop} {x : Option α} {y : Option β}
    (h : Option.Rel r x y) : x.isSome = y.isSome := by
  cases h <;> rfl

/-! ## Names and values -/

section Ranges

variable {d e : Document} {R : Nat → Nat → Prop} {H : Hole → Hole → Prop} {r r' : Span}

namespace Tracks

theorem span (h : Tracks d e R H) (hr : Cell.AlignedSpan (d.cells e) r r') : SpanAlike R r r' :=
  ⟨h.offset _ _ hr.start, h.offset _ _ hr.stop⟩

theorem empty (h : Tracks d e R H) {i j : Nat} (hi : Cell.Aligned (d.cells e) i j) :
    SpanAlike R (Span.empty i) (Span.empty j) :=
  ⟨h.offset _ _ hi, h.offset _ _ hi⟩

/-- Texts of the same range differ in runs of underscores alone. -/
theorem squeeze_sliceD (h : Tracks d e R H) (hr : Cell.AlignedSpan (d.cells e) r r') :
    squeeze (r.sliceD d.text).toList = squeeze (r'.sliceD e.text).toList := by
  obtain ⟨front, mid, back, hcells, rfl, rfl⟩ := hr
  obtain ⟨hleft, hright⟩ := h.stretches.pieces_split hcells
  rw [h.stretches.filled.sliceD_text hleft, h.stretches.filled'.sliceD_text hright,
    String.toList_ofList, String.toList_ofList]
  refine Cell.squeeze_text fun c hc => h.stretches.isSolid c ?_
  rw [hcells]
  exact List.mem_append_left _ (List.mem_append_right _ hc)

/-- Texts of the same range are the same if there is no hole in it. -/
theorem sliceD_eq (h : Tracks d e R H) (hr : Cell.AlignedSpan (d.cells e) r r')
    (hplain : d.holesIn r = []) : r.sliceD d.text = r'.sliceD e.text := by
  obtain ⟨front, mid, back, hcells, rfl, rfl⟩ := hr
  obtain ⟨hleft, hright⟩ := h.stretches.pieces_split hcells
  rw [h.stretches.filled.holesIn_eq h.stretches.solid_left hleft, Cell.holes_lefts,
    List.map_eq_nil_iff] at hplain
  rw [h.stretches.filled.sliceD_text hleft, h.stretches.filled'.sliceD_text hright,
    Cell.text_eq_of_holes_eq_nil hplain]

theorem isCoveredByHole_eq (h : Tracks d e R H) (hr : Cell.AlignedSpan (d.cells e) r r') :
    isCoveredByHole d r = isCoveredByHole e r' := by
  obtain ⟨front, mid, back, hcells, rfl, rfl⟩ := hr
  obtain ⟨hleft, hright⟩ := h.stretches.pieces_split hcells
  rw [Bool.eq_iff_iff, isCoveredByHole_range h.stretches.filled h.stretches.solid_left hleft,
    isCoveredByHole_range h.stretches.filled' h.stretches.solid_right hright,
    Cell.lefts_eq_hole_iff, Cell.rights_eq_hole_iff]

/-- Names of attributes have the same modifier. -/
theorem splitModifier (h : Tracks d e R H) (hr : Cell.AlignedSpan (d.cells e) r r') :
    (Markup.splitModifier d.text r).1 = (Markup.splitModifier e.text r').1 ∧
      Cell.AlignedSpan (d.cells e) (Markup.splitModifier d.text r).2
        (Markup.splitModifier e.text r').2 := by
  obtain ⟨front, mid, back, hcells, rfl, rfl⟩ := hr
  obtain ⟨hleft, hright⟩ := h.stretches.pieces_split hcells
  have hmodifier : modifierOf? (Cell.lefts mid) = modifierOf? (Cell.rights mid) := by
    cases mid with
    | nil => rfl
    | cons c rest => cases c <;> rfl
  rw [splitModifier_range h.stretches.filled h.stretches.solid_left hleft,
    splitModifier_range h.stretches.filled' h.stretches.solid_right hright, hmodifier]
  split
  · refine ⟨rfl, front ++ mid.take 1, mid.drop 1, back, ?_, ?_, ?_⟩
    · rw [hcells, List.append_assoc front (mid.take 1), List.take_append_drop]
    · rw [Cell.lefts_append, Cell.lefts_take, Cell.lefts_drop]
    · rw [Cell.rights_append, Cell.rights_take, Cell.rights_drop]
  · exact ⟨rfl, front, mid, back, hcells, rfl, rfl⟩

end Tracks

theorem alike_segmentsOf {mid : List Cell} (hH : ∀ p ∈ Cell.holes mid, H p.1 p.2)
    (before : List Char) :
    List.Forall₂ (Segment.Alike H) (segmentsOf before (Cell.lefts mid))
      (segmentsOf before (Cell.rights mid)) := by
  have htext (cs : List Char) :
      List.Forall₂ (Segment.Alike H) (textSegment cs) (textSegment cs) := by
    rw [textSegment]
    split
    · exact .nil
    · exact .cons .text .nil
  induction mid generalizing before with
  | nil => exact htext before
  | cons c rest ih =>
    cases c with
    | char c => exact ih hH (before ++ [c])
    | hole x y =>
      obtain ⟨hhole, hrest⟩ := List.forall_mem_cons.mp hH
      exact List.rel_append (htext before) (.cons (.hole hhole) (ih hrest []))

/-- The same cells are the same kind of value on both sides. -/
theorem alike_valueOf {mid : List Cell} (hH : ∀ p ∈ Cell.holes mid, H p.1 p.2) :
    (valueOf (Cell.lefts mid)).Alike H (valueOf (Cell.rights mid)) := by
  by_cases hone : ∃ x y, mid = [.hole x y]
  · obtain ⟨x, y, rfl⟩ := hone
    exact .expression (hH (x, y) List.mem_cons_self)
  by_cases hholes : Cell.holes mid = []
  · have hleft : Piece.holes (Cell.lefts mid) = [] := by rw [Cell.holes_lefts, hholes]; rfl
    have hright : Piece.holes (Cell.rights mid) = [] := by rw [Cell.holes_rights, hholes]; rfl
    rw [valueOf_text hleft, valueOf_text hright, Cell.text_eq_of_holes_eq_nil hholes]
    exact .text
  · have hleft : Piece.holes (Cell.lefts mid) ≠ [] := by
      rwa [Cell.holes_lefts, ne_eq, List.map_eq_nil_iff]
    have hright : Piece.holes (Cell.rights mid) ≠ [] := by
      rwa [Cell.holes_rights, ne_eq, List.map_eq_nil_iff]
    rw [valueOf_mixed hleft fun x hx => hone (Cell.lefts_eq_hole_iff.mp ⟨x, hx⟩),
      valueOf_mixed hright fun y hy => hone (Cell.rights_eq_hole_iff.mp ⟨y, hy⟩)]
    exact .mixed (alike_segmentsOf hH [])

theorem Tracks.valueAt (h : Tracks d e R H) (hr : Cell.AlignedSpan (d.cells e) r r') :
    (Markup.valueAt d d.text r).Alike H (Markup.valueAt e e.text r') := by
  obtain ⟨front, mid, back, hcells, rfl, rfl⟩ := hr
  obtain ⟨hleft, hright⟩ := h.stretches.pieces_split hcells
  rw [valueAt_range h.stretches.filled h.stretches.solid_left hleft,
    valueAt_range h.stretches.filled' h.stretches.solid_right hright]
  refine alike_valueOf fun p hp => h.hole p ?_
  rw [hcells, Cell.holes_append, Cell.holes_append]
  exact List.mem_append_left _ (List.mem_append_right _ hp)

theorem Tracks.assigned? (h : Tracks d e R H) {p p' : Pending} (hp : p.Alike (d.cells e) p')
    (quote : Quote) {stop stop' : Nat} (hstop : Cell.Aligned (d.cells e) stop stop') :
    Option.Rel (fun v v' => v.1.Alike H v'.1 ∧ SpanAlike R v.2 v'.2)
      (Markup.assigned? d d.text p quote stop) (Markup.assigned? e e.text p' quote stop') := by
  have hvalue := hp.value
  obtain ⟨name, value⟩ := p
  obtain ⟨name', value'⟩ := p'
  cases hvalue with
  | none =>
    cases quote with
    | absent => exact .some ⟨.presence, h.empty hp.name.stop⟩
    | unquoted => exact .none
    | single => exact .some ⟨.text, h.empty hstop⟩
    | double => exact .some ⟨.text, h.empty hstop⟩
  | some hr =>
    cases quote with
    | absent => exact .some ⟨.presence, h.empty hp.name.stop⟩
    | unquoted => exact .some ⟨h.valueAt hr, h.span hr⟩
    | single => exact .some ⟨h.valueAt hr, h.span hr⟩
    | double => exact .some ⟨h.valueAt hr, h.span hr⟩

theorem Tracks.assignment (h : Tracks d e R H) {p p' : Pending} (hp : p.Alike (d.cells e) p')
    (quote : Quote) {stop stop' : Nat} (hstop : Cell.Aligned (d.cells e) stop stop')
    {id id' owner owner' : Nat} (hid : id = id') (howner : owner = owner') :
    Option.Rel (Assignment.Alike R H)
      ((Markup.assigned? d d.text p quote stop).map fun v =>
        { id := id, owner := owner, value := v.1, span := v.2 })
      ((Markup.assigned? e e.text p' quote stop').map fun v =>
        { id := id', owner := owner', value := v.1, span := v.2 }) :=
  optionRel_map (fun _ _ hv => ⟨hid, howner, hv.1, hv.2⟩) (h.assigned? hp quote hstop)

end Ranges

/-! ## Nodes and frames -/

section Frames

variable {R : Nat → Nat → Prop} {H : Hole → Hole → Prop} {n n' : Node} {f f' : Frame}
  {e e' : Element} {stop stop' : Nat} {tag tag' : Span}

theorem Node.Alike.isVoid_eq (h : n.Alike R H n') : n.isVoid = n'.isVoid := by
  rw [Node.isVoid, Node.isVoid, h.tag]

theorem Node.Alike.endAt (h : n.Alike R H n') (hstop : R stop stop') :
    (n.endAt stop).Alike R H (n'.endAt stop') :=
  { h with whole := ⟨h.whole.start, hstop⟩ }

theorem Node.Alike.close (h : n.Alike R H n') (htag : SpanAlike R tag tag') :
    ({ n.endAt tag.stop with endTag := some tag } : Node).Alike R H
      { n'.endAt tag'.stop with endTag := some tag' } :=
  { h.endAt htag.stop with endTag := .some htag }

theorem Node.Alike.endStartTag (h : n.Alike R H n') (hstop : R stop stop') :
    (n.endStartTag stop).Alike R H (n'.endStartTag stop') :=
  { h with
    startTag := ⟨h.startTag.start, hstop⟩
    whole := ⟨h.whole.start, hstop⟩ }

namespace Frame.Alike

theorem add (h : f.Alike R H f') (he : e.Alike R H e') : (f.add e).Alike R H (f'.add e') :=
  { h with done := .cons he h.done }

theorem toElement (h : f.Alike R H f') : f.toElement.Alike R H f'.toElement :=
  .mk h.node (List.rel_reverse h.done)

theorem endAt (h : f.Alike R H f') (hstop : R stop stop') :
    (f.endAt stop).Alike R H (f'.endAt stop') :=
  { h with node := h.node.endAt hstop }

end Frame.Alike

/-- Inside like frames, the element around is of the same kind and has the same number. -/
theorem head_eq_of_alike {fs fs' : List Frame} (h : List.Forall₂ (Frame.Alike R H) fs fs') :
    (fs.head?.map (·.node)).map (·.kind) = (fs'.head?.map (·.node)).map (·.kind) ∧
      (fs.head?.map (·.node)).map (·.id) = (fs'.head?.map (·.node)).map (·.id) := by
  cases h with
  | nil => exact ⟨rfl, rfl⟩
  | cons hf _ => exact ⟨congrArg some hf.node.kind, congrArg some hf.node.id⟩

/-- An end tag closes the same frame of both.  The induction is on the frames around the innermost
one, which take it in one by one. -/
theorem alike_closeIn (name : String) (htag : SpanAlike R tag tag') {fs fs' : List Frame}
    (hfs : List.Forall₂ (Frame.Alike R H) fs fs') :
    Option.Rel (fun x y => x.1.Alike R H y.1 ∧ List.Forall₂ (Frame.Alike R H) x.2 y.2)
      (Builder.closeIn name tag fs) (Builder.closeIn name tag' fs') := by
  cases hfs with
  | nil => rw [Builder.closeIn, Builder.closeIn]; exact .none
  | @cons f f' outer outer' hf houter =>
    induction houter generalizing f f' with
    | nil =>
      rw [Builder.closeIn, Builder.closeIn, hf.node.tag]
      split
      · exact .some ⟨.mk (hf.node.close htag) (List.rel_reverse hf.done), .nil⟩
      · exact .none
    | @cons g g' outer outer' hg houter ih =>
      rw [Builder.closeIn, Builder.closeIn, hf.node.tag]
      split
      · exact .some ⟨.mk (hf.node.close htag) (List.rel_reverse hf.done), .cons hg houter⟩
      · exact ih (hg.add (hf.endAt htag.start).toElement)

theorem alike_closeAll (hstop : R stop stop') {roots roots' : List Element}
    (hroots : List.Forall₂ (Element.Alike R H) roots roots') {fs fs' : List Frame}
    (hfs : List.Forall₂ (Frame.Alike R H) fs fs') :
    List.Forall₂ (Element.Alike R H) (Builder.closeAll stop roots fs)
      (Builder.closeAll stop' roots' fs') := by
  cases hfs with
  | nil => rw [Builder.closeAll, Builder.closeAll]; exact hroots
  | @cons f f' outer outer' hf houter =>
    induction houter generalizing f f' with
    | nil =>
      rw [Builder.closeAll, Builder.closeAll]
      exact .cons (hf.endAt hstop).toElement hroots
    | @cons g g' outer outer' hg houter ih =>
      rw [Builder.closeAll, Builder.closeAll]
      exact ih (hg.add (hf.endAt hstop).toElement)

end Frames

/-! ## Builders -/

namespace Builder.Alike

variable {d e : Document} {R : Nat → Nat → Prop} {H : Hole → Hole → Prop} {b b' : Builder}
  {start stop start' stop' : Nat} {tag tag' name name' : Span}

theorem add (hb : b.Alike (d.cells e) R H b') {x y : Element} (hx : x.Alike R H y) :
    (b.add x).Alike (d.cells e) R H (b'.add y) := by
  obtain ⟨frames, roots, current, pending, nodes, attributes, assignments, problems⟩ := b
  obtain ⟨frames', roots', current', pending', nodes', attributes', assignments', problems'⟩ := b'
  have hframes : List.Forall₂ (Frame.Alike R H) frames frames' := hb.frames
  cases hframes with
  | nil => exact { hb with roots := .cons hx hb.roots }
  | cons hf houter => exact { hb with frames := .cons (hf.add hx) houter }

theorem report (h : Tracks d e R H) (hb : b.Alike (d.cells e) R H b') (mistake : Mistake)
    (hstart : Cell.Aligned (d.cells e) start start') (hstop : Cell.Aligned (d.cells e) stop stop') :
    (b.report mistake start stop).Alike (d.cells e) R H (b'.report mistake start' stop') :=
  { hb with problems := List.rel_append hb.problems (.cons ⟨rfl, h.span (hstart.span hstop)⟩ .nil) }

theorem dropCurrent (hb : b.Alike (d.cells e) R H b') :
    b.dropCurrent.Alike (d.cells e) R H b'.dropCurrent := by
  rw [Builder.dropCurrent.eq_def, Builder.dropCurrent.eq_def]
  rcases cases_optionRel hb.current with ⟨hn, hn'⟩ | ⟨n, n', hn, hn', hnode⟩
  · rw [hn, hn']
    exact hb
  · rw [hn, hn']
    exact { hb.add (.mk hnode .nil) with current := .none }

theorem newNode (h : Tracks d e R H) (hb : b.Alike (d.cells e) R H b')
    (hbracket : Cell.Aligned (d.cells e) (name.start - 1) (name'.start - 1))
    (hname : Cell.AlignedSpan (d.cells e) name name') (hplain : d.holesIn name = []) :
    (b.newNode d.text name).Alike R H (b'.newNode e.text name') := by
  have htag := h.sliceD_eq hname hplain
  have hstart := h.span (hbracket.span hname.stop)
  obtain ⟨hkind, hid⟩ := head_eq_of_alike hb.frames
  have hkindOf := congr (congrArg Kind.of hkind) htag
  exact
    { id := hb.nodeCount
      tag := htag
      kind := hkindOf
      whole := hstart
      nameSpan := h.span hname
      startTag := hstart
      endTag := .none
      attributes := .nil
      parent := hid
      selfClosed := rfl }

theorem openNode (h : Tracks d e R H) (hb : b.Alike (d.cells e) R H b')
    (hbracket : Cell.Aligned (d.cells e) (name.start - 1) (name'.start - 1))
    (hname : Cell.AlignedSpan (d.cells e) name name') (hplain : d.holesIn name = []) :
    (b.openNode d.text name).Alike (d.cells e) R H (b'.openNode e.text name') :=
  have hdropped := hb.dropCurrent
  { hdropped with
    current := .some (hdropped.newNode h hbracket hname hplain)
    nodeCount := congrArg (· + 1) hdropped.nodeCount }

theorem endStartTag (h : Tracks d e R H) (hb : b.Alike (d.cells e) R H b')
    (hstop : Cell.Aligned (d.cells e) stop stop') (selfClosed : Bool) :
    (b.endStartTag stop selfClosed).Alike (d.cells e) R H (b'.endStartTag stop' selfClosed) := by
  rw [Builder.endStartTag.eq_def, Builder.endStartTag.eq_def]
  rcases cases_optionRel hb.current with ⟨hn, hn'⟩ | ⟨n, n', hn, hn', hnode⟩
  · rw [hn, hn']
    exact hb
  · rw [hn, hn']
    have hended : ({ n.endStartTag stop with selfClosed := selfClosed } : Node).Alike R H
        { n'.endStartTag stop' with selfClosed := selfClosed } :=
      { hnode.endStartTag (h.offset _ _ hstop) with selfClosed := rfl }
    have hdone : ({ b with current := none } : Builder).Alike (d.cells e) R H
        { b' with current := none } :=
      { hb with current := .none }
    dsimp only
    rw [hended.isVoid_eq]
    split
    · exact hdone.add (.mk hended .nil)
    · exact { hdone with frames := .cons ⟨hended, .nil⟩ hdone.frames }

theorem closeNode (h : Tracks d e R H) (hb : b.Alike (d.cells e) R H b')
    (htag : Cell.AlignedSpan (d.cells e) tag tag') (hname : Cell.AlignedSpan (d.cells e) name name')
    (hplain : d.holesIn name = []) :
    (b.closeNode d.text tag name).Alike (d.cells e) R H (b'.closeNode e.text tag' name') := by
  rw [Builder.closeNode.eq_def, Builder.closeNode.eq_def, h.sliceD_eq hname hplain]
  have hclosed := alike_closeIn (name'.sliceD e.text) (h.span htag) hb.frames
  rcases cases_optionRel hclosed with ⟨hx, hx'⟩ | ⟨⟨x, fs⟩, ⟨x', fs'⟩, hx, hx', helement, hfs⟩
  · rw [hx, hx']
    exact hb.report h .strayEndTag htag.start htag.stop
  · rw [hx, hx']
    have hrest : ({ b with frames := fs } : Builder).Alike (d.cells e) R H
        { b' with frames := fs' } :=
      { hb with frames := hfs }
    exact hrest.add helement

theorem addAttribute (h : Tracks d e R H) (hb : b.Alike (d.cells e) R H b') {p p' : Pending}
    (hp : p.Alike (d.cells e) p') (quote : Quote) (hstop : Cell.Aligned (d.cells e) stop stop')
    (hwhole : Cell.Aligned (d.cells e) (attributeStop quote stop) (attributeStop quote stop')) :
    (b.addAttribute d d.text p quote stop).Alike (d.cells e) R H
      (b'.addAttribute e e.text p' quote stop') := by
  rw [Builder.addAttribute.eq_def, Builder.addAttribute.eq_def]
  rcases cases_optionRel hb.current with ⟨hn, hn'⟩ | ⟨n, n', hn, hn', hnode⟩
  · rw [hn, hn']
    exact hb
  · rw [hn, hn']
    obtain ⟨hbinding, hname⟩ := h.splitModifier hp.name
    have hempty := hname.isEmpty_eq h.stretches.isSolid
    have hcovered := h.isCoveredByHole_eq hname
    have hassignment := h.assignment hp quote hstop hb.assignmentCount hb.attributeCount
    have hgiven := isSome_eq_of_optionRel hassignment
    dsimp only
    rw [hempty, hcovered]
    split
    · exact hb
    · exact
        { hb with
          current := .some { hnode with
            attributes := List.rel_append hnode.attributes (.cons
              { id := hb.attributeCount
                node := hnode.id
                name := h.squeeze_sliceD hname
                binding := hbinding
                whole := h.span (hp.name.start.span hwhole)
                nameSpan := h.span hname
                assignment := hassignment } .nil) }
          attributeCount := congrArg (· + 1) hb.attributeCount
          assignmentCount := by
            show b.assignmentCount + _ = b'.assignmentCount + _
            rw [hgiven, hb.assignmentCount] }

theorem finish (h : Tracks d e R H) (hb : b.Alike (d.cells e) R H b')
    (hstop : Cell.Aligned (d.cells e) stop stop') :
    (b.finish stop).Alike (d.cells e) R H (b'.finish stop') := by
  have hended : ({ b with current := b.current.map fun n : Node => n.endStartTag stop } :
      Builder).Alike (d.cells e) R H
      { b' with current := b'.current.map fun n : Node => n.endStartTag stop' } := by
    have hnode (n n' : Node) (hn : n.Alike R H n') := hn.endStartTag (h.offset _ _ hstop)
    exact { hb with current := optionRel_map hnode hb.current }
  have hdropped := hended.dropCurrent
  exact { hdropped with
    frames := .nil
    roots := alike_closeAll (h.offset _ _ hstop) hdropped.roots hdropped.frames }

end Builder.Alike

/-! ## Documents -/

/-- The name in a tag. -/
def Token.tagName? : Token → Option Span
  | .openName start stop => some (Span.of start stop)
  | .close _ start stop _ => some (Span.of start stop)
  | _ => none

/-- No hole overlaps the name of an opening or a closing tag. -/
def PlainTags (d : Document) : Prop :=
  ∀ name ∈ (tokens d.text).filterMap Token.tagName?, d.holesIn name = []

instance (d : Document) : Decidable (PlainTags d) := List.decidableBAll _ _

section Documents

variable {d e : Document} {R : Nat → Nat → Prop} {H : Hole → Hole → Prop} {b b' : Builder}

theorem Builder.Alike.read (h : Tracks d e R H) (hb : b.Alike (d.cells e) R H b') {t t' : Token}
    (ht : t.Alike (Cell.Aligned (d.cells e)) t')
    (hplain : ∀ name, t.tagName? = some name → d.holesIn name = []) :
    (b.read d d.text t).Alike (d.cells e) R H (b'.read e e.text t') := by
  cases ht with
  | text _ _ => exact hb
  | comment _ _ => exact hb
  | openName hbracket hstart hstop =>
    exact hb.openNode h hbracket (hstart.span hstop) (hplain _ rfl)
  | openEnd hstop => exact hb.endStartTag h hstop false
  | selfClose hstop => exact hb.endStartTag h hstop true
  | close hstart hnameStart hnameStop hstop =>
    exact hb.closeNode h (hstart.span hstop) (hnameStart.span hnameStop) (hplain _ rfl)
  | attributeName hstart hstop =>
    exact { hb with pending := .some ⟨hstart.span hstop, .none⟩ }
  | attributeValue hstart hstop =>
    exact { hb with
      pending := optionRel_map (fun _ _ hp => ⟨hp.name, .some (hstart.span hstop)⟩) hb.pending }
  | @attributeEnd quote stop stop' hstop hwhole =>
    rw [Builder.read.eq_def, Builder.read.eq_def]
    rcases cases_optionRel hb.pending with ⟨hp, hp'⟩ | ⟨p, p', hp, hp', hpending⟩
    · dsimp only
      rw [hp, hp']
      exact hb
    · dsimp only
      rw [hp, hp']
      have hdone : ({ b with pending := none } : Builder).Alike (d.cells e) R H
          { b' with pending := none } :=
        { hb with pending := .none }
      exact hdone.addAttribute h hpending quote hstop hwhole
  | mistake hindex => exact hb.report h _ hindex hindex
  | finish => exact hb.finish h h.stretches.aligned_size

/-- Like tokens make like builders of like builders. -/
theorem alike_foldl (h : Tracks d e R H) {ts ts' : List Token}
    (hts : List.Forall₂ (Token.Alike (Cell.Aligned (d.cells e))) ts ts')
    (hplain : ∀ name ∈ ts.filterMap Token.tagName?, d.holesIn name = [])
    (hb : b.Alike (d.cells e) R H b') :
    (ts.foldl (Builder.read d d.text) b).Alike (d.cells e) R H
      (ts'.foldl (Builder.read e e.text) b') := by
  induction hts generalizing b b' with
  | nil => exact hb
  | @cons t t' ts ts' ht _ ih =>
    refine ih (fun name hname => hplain name ?_) (hb.read h ht fun name hname => hplain name ?_)
    · obtain ⟨u, hu, hmem⟩ := List.mem_filterMap.mp hname
      exact List.mem_filterMap.mpr ⟨u, List.mem_cons_of_mem t hu, hmem⟩
    · exact List.mem_filterMap.mpr ⟨t, List.mem_cons_self, hname⟩

/-- What stands in the holes of a document, and how long they are, does not matter to its tree:
every node, attribute, value and problem has its counterpart, in the same order. -/
theorem Tree.alike_ofDocument (h : d.Stretches e) (hplain : PlainTags d) :
    Tree.Alike (Counterpart d.parts e.parts) (fun x y => (x, y) ∈ d.holes.zip e.holes)
      (Tree.ofDocument d) (Tree.ofDocument e) := by
  have htracks : Tracks d e (Counterpart d.parts e.parts)
      (fun x y => (x, y) ∈ d.holes.zip e.holes) :=
    { stretches := h
      offset := fun _ _ haligned => haligned.counterpart h.parts
      hole := fun p hp => h.holes_cells ▸ hp }
  have hempty : Builder.Alike (d.cells e) (Counterpart d.parts e.parts)
      (fun x y => (x, y) ∈ d.holes.zip e.holes) {} {} :=
    ⟨.nil, .nil, .none, .none, rfl, rfl, rfl, .nil⟩
  have hread := alike_foldl htracks (alike_tokens h) hplain hempty
  exact ⟨List.rel_reverse hread.roots, hread.problems⟩

/-- An element with a listener, and with a hole between its tags. -/
def listenerWith (listener label : String) : Document :=
  let hole (id start : Nat) (text : String) : Hole :=
    { id := id
      expression := { span := ⟨start + 2, start + 2 + text.utf8ByteSize⟩, text := text }
      span := ⟨start, start + 3 + text.utf8ByteSize⟩ }
  let x := hole 0 11 listener
  let y := hole 1 (x.span.stop + 1) label
  { fileName := "a.ts"
    dialect := .markup
    location := ⟨5, y.span.stop + 4⟩
    parts :=
      [.text { text := "<b @a=", span := ⟨5, 11⟩ }, .hole x,
       .text { text := ">", span := ⟨x.span.stop, x.span.stop + 1⟩ }, .hole y,
       .text { text := "</b>", span := ⟨y.span.stop, y.span.stop + 4⟩ }] }

/-- The element is read in the same way when more is written in its holes. -/
theorem Tree.alike_ofDocument_listenerWith :
    let d := listenerWith "f" ""
    let e := listenerWith "open" "\x27</b>\x27"
    (d.Stretches e ∧ PlainTags d) ∧
      Tree.Alike (Counterpart d.parts e.parts) (fun x y => (x, y) ∈ d.holes.zip e.holes)
        (Tree.ofDocument d) (Tree.ofDocument e) := by
  intro d e
  have hstretches : d.Stretches e :=
    { filled := by decide +kernel
      filled' := by decide +kernel
      parts := .cons (.text rfl rfl) (.cons (.hole (by decide +kernel) (by decide +kernel))
        (.cons (.text rfl (by decide +kernel))
          (.cons (.hole (by decide +kernel) (by decide +kernel))
            (.cons (.text rfl (by decide +kernel)) .nil)))) }
  have hplain : PlainTags d := by decide +kernel
  exact ⟨⟨hstretches, hplain⟩, Tree.alike_ofDocument hstretches hplain⟩

end Documents

end Markup
end Inlay
