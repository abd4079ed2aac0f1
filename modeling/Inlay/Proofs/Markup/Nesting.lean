import Inlay.Proofs.Markup.Elements
import Inlay.Proofs.Markup.Numbering
import Inlay.Proofs.Text.Spans

/-!
# Nested ranges

In the tree of a document the range of every element lies inside that of its parent,
between the start tag and the end tag, and siblings do not overlap: `nested_ofDocument`.
This holds of any text, since ends are set when a tag closes an element, closes one
around it, or never comes.

While a tree is made, the ends of open elements are not known.  `IsOpen` says what is known:
the children of a frame that are complete end before the frame inside it begins, and those of
the innermost frame before the offset that has been reached.  With the phase of
`Path` this is an invariant of reading tokens: `NestedAt.read`.
-/

namespace Inlay
namespace Markup

/-! ## What is nested -/

/-- The ranges of an attribute: the name, and behind it the value, lie in the whole. -/
structure Attribute.Ordered (a : Attribute) : Prop where
  name_start : a.whole.start ≤ a.nameSpan.start
  name : a.nameSpan.start ≤ a.nameSpan.stop
  name_stop : a.nameSpan.stop ≤ a.whole.stop
  value : ∀ x, a.assignment = some x →
    a.nameSpan.stop ≤ x.span.start ∧ x.span.start ≤ x.span.stop ∧ x.span.stop ≤ a.whole.stop

theorem Attribute.Ordered.whole_le {a : Attribute} (h : a.Ordered) :
    a.whole.start ≤ a.whole.stop :=
  Nat.le_trans h.name_start (Nat.le_trans h.name h.name_stop)

/-- The start tag of a node as far as `stop`: it begins with the node, and holds the name and,
behind the name, the attributes in their order. -/
structure Node.Begins (n : Node) (stop : Nat) : Prop where
  start : n.startTag.start = n.whole.start
  name_start : n.startTag.start ≤ n.nameSpan.start
  name : n.nameSpan.start ≤ n.nameSpan.stop
  attributes : InOrder n.nameSpan.stop stop (n.attributes.map (·.whole))
  ordered : ∀ a ∈ n.attributes, a.Ordered

/-- Where the content of a node ends: at its end tag, or with the node. -/
def Node.contentStop (n : Node) : Nat :=
  match n.endTag with
  | some tag => tag.start
  | none => n.whole.stop

def Element.whole (e : Element) : Span := e.node.whole

/-- The ranges of an element: the start tag, the children in their order, and the end
tag, if there is one, lie behind each other in the whole. -/
structure Element.Nested (e : Element) : Prop where
  begins : e.node.Begins e.node.startTag.stop
  children : InOrder e.node.startTag.stop e.node.contentStop (e.children.map Element.whole)
  endTag : ∀ tag, e.node.endTag = some tag → tag.start ≤ tag.stop ∧ tag.stop ≤ e.node.whole.stop

theorem Node.contentStop_of_none {n : Node} (h : n.endTag = none) : n.contentStop = n.whole.stop := by
  rw [contentStop, h]

theorem Node.Begins.mono {n : Node} {stop stop' : Nat} (h : n.Begins stop) (hle : stop ≤ stop') :
    n.Begins stop' :=
  ⟨h.start, h.name_start, h.name, h.attributes.mono_right hle, h.ordered⟩

theorem Node.Begins.endAt {n : Node} {stop : Nat} (h : n.Begins stop) (stop' : Nat) :
    (n.endAt stop').Begins stop :=
  ⟨h.start, h.name_start, h.name, h.attributes, h.ordered⟩

theorem Node.Begins.close {n : Node} {stop : Nat} (h : n.Begins stop) (tag : Span) :
    ({ n.endAt tag.stop with endTag := some tag } : Node).Begins stop :=
  ⟨h.start, h.name_start, h.name, h.attributes, h.ordered⟩

theorem Node.Begins.endStartTag {n : Node} {stop : Nat} (h : n.Begins stop) (selfClosed : Bool) :
    ({ n.endStartTag stop with selfClosed := selfClosed } : Node).Begins stop :=
  ⟨h.start, h.name_start, h.name, h.attributes, h.ordered⟩

theorem Node.Begins.start_le {n : Node} {stop : Nat} (h : n.Begins stop) : n.whole.start ≤ stop := by
  have hstart := h.start
  have hname := h.name_start
  have hspan := h.name
  have hstop := h.attributes.le
  omega

theorem Element.Nested.startTag_le {e : Element} (h : e.Nested) :
    e.node.startTag.stop ≤ e.node.whole.stop := by
  have hcontent := h.children.le
  rw [Node.contentStop] at hcontent
  split at hcontent
  · next tag htag =>
    have hend := h.endTag tag htag
    omega
  · exact hcontent

theorem Element.Nested.whole_le {e : Element} (h : e.Nested) : e.whole.start ≤ e.whole.stop :=
  Nat.le_trans h.begins.start_le h.startTag_le

/-! ## Open elements -/

/-- An open element whose complete children end at or before `stop`. -/
structure Frame.Nested (f : Frame) (stop : Nat) : Prop where
  begins : f.node.Begins f.node.startTag.stop
  endTag : f.node.endTag = none
  children : InOrder f.node.startTag.stop stop (f.done.reverse.map Element.whole)
  done : ∀ e ∈ f.done, e.All Element.Nested

/-- Complete elements, the last one first, in order from the start of the text. -/
structure RootsNested (stop : Nat) (roots : List Element) : Prop where
  inOrder : InOrder 0 stop (roots.reverse.map Element.whole)
  nested : ∀ e ∈ roots, e.All Element.Nested

/-- The complete children of each frame end before the frame inside it begins, and those of
the innermost one before `stop`. -/
def IsOpen (roots : List Element) (stop : Nat) : List Frame → Prop
  | [] => RootsNested stop roots
  | f :: outer => f.Nested stop ∧ IsOpen roots f.node.whole.start outer

section Open

variable {f : Frame} {e : Element} {roots : List Element} {fs : List Frame} {stop stop' : Nat}

theorem InOrder.concat_whole {lo : Nat} {es : List Element}
    (h : InOrder lo stop (es.reverse.map Element.whole)) (he : e.Nested)
    (hstart : stop ≤ e.whole.start) :
    InOrder lo e.whole.stop ((e :: es).reverse.map Element.whole) := by
  rw [List.reverse_cons, List.map_append, List.map_singleton]
  exact (h.mono_right hstart).concat he.whole_le

theorem Frame.Nested.mono (h : f.Nested stop) (hle : stop ≤ stop') : f.Nested stop' :=
  ⟨h.begins, h.endTag, h.children.mono_right hle, h.done⟩

theorem Frame.Nested.add (h : f.Nested stop) (he : e.All Element.Nested)
    (hstart : stop ≤ e.whole.start) : (f.add e).Nested e.whole.stop :=
  ⟨h.begins, h.endTag, InOrder.concat_whole h.children he.self hstart,
    List.forall_mem_cons.mpr ⟨he, h.done⟩⟩

theorem RootsNested.cons (h : RootsNested stop roots) (he : e.All Element.Nested)
    (hstart : stop ≤ e.whole.start) : RootsNested e.whole.stop (e :: roots) :=
  ⟨InOrder.concat_whole h.inOrder he.self hstart, List.forall_mem_cons.mpr ⟨he, h.nested⟩⟩

/-- A frame without an end tag is a nested element that ends behind its children. -/
theorem Frame.Nested.toElement_endAt (h : f.Nested stop) (hle : stop ≤ stop') :
    (f.endAt stop').toElement.All Element.Nested := by
  refine Element.all_mk.mpr ⟨⟨h.begins.endAt stop', ?_, ?_⟩, fun e he => h.done e (List.mem_reverse.mp he)⟩
  · have hcontent : (f.node.endAt stop').contentStop = stop' := Node.contentStop_of_none h.endTag
    show InOrder _ (f.node.endAt stop').contentStop _
    rw [hcontent]
    exact h.children.mono_right hle
  · intro tag htag
    exact absurd (htag.symm.trans h.endTag) (Option.some_ne_none tag)

/-- A frame with an end tag behind its children is a nested element. -/
theorem Frame.Nested.toElement_close (h : f.Nested stop) {tag : Span} (hle : stop ≤ tag.start)
    (htag : tag.start ≤ tag.stop) :
    ({ f with node := { f.node.endAt tag.stop with endTag := some tag } } : Frame).toElement.All
      Element.Nested := by
  refine Element.all_mk.mpr ⟨⟨h.begins.close tag, h.children.mono_right hle, ?_⟩,
    fun e he => h.done e (List.mem_reverse.mp he)⟩
  intro tag' htag'
  obtain rfl : tag = tag' := Option.some.inj htag'
  exact ⟨htag, Nat.le_refl _⟩

theorem IsOpen.mono (h : IsOpen roots stop fs) (hle : stop ≤ stop') : IsOpen roots stop' fs := by
  cases fs with
  | nil => exact ⟨h.inOrder.mono_right hle, h.nested⟩
  | cons f outer => exact ⟨h.1.mono hle, h.2⟩

theorem isOpen_closeIn {name : String} {tag : Span} (h : IsOpen roots stop fs)
    (hle : stop ≤ tag.start) (htag : tag.start ≤ tag.stop) {rest : List Frame}
    (hclose : Builder.closeIn name tag fs = some (e, rest)) :
    e.All Element.Nested ∧ e.whole.stop = tag.stop ∧ IsOpen roots e.whole.start rest := by
  fun_induction Builder.closeIn name tag fs generalizing stop with
  | case1 => exact absurd hclose.symm (Option.some_ne_none _)
  | case2 f rest' _ =>
    obtain ⟨rfl, rfl⟩ := Prod.mk.inj (Option.some.inj hclose)
    exact ⟨h.1.toElement_close hle htag, rfl, h.2⟩
  | case3 => exact absurd hclose.symm (Option.some_ne_none _)
  | case4 f _ g outer ih =>
    -- The frame ends where the end tag begins, and becomes the last child of the next one.
    obtain ⟨hf, hg, houter⟩ := h
    exact ih ⟨hg.add (hf.toElement_endAt hle) (Nat.le_refl _), houter⟩ (Nat.le_refl _) hclose

theorem rootsNested_closeAll (h : IsOpen roots stop fs) (hle : stop ≤ stop') :
    RootsNested stop' (Builder.closeAll stop' roots fs) := by
  fun_induction Builder.closeAll stop' roots fs generalizing stop with
  | case1 => exact ⟨h.inOrder.mono_right hle, h.nested⟩
  | case2 f => exact h.2.cons (h.1.toElement_endAt hle) (Nat.le_refl _)
  | case3 f g outer ih =>
    obtain ⟨hf, hg, houter⟩ := h
    exact ih ⟨hg.add (hf.toElement_endAt hle) (Nat.le_refl _), houter⟩ (Nat.le_refl _)

end Open

/-! ## Reading -/

/-- The ranges of an attribute that is being read, as far as `pos`. -/
structure Pending.Ordered (p : Pending) (pos : Nat) : Prop where
  name : p.name.start < p.name.stop
  name_stop : p.name.stop ≤ pos
  value : ∀ r, p.value = some r → p.name.stop ≤ r.start ∧ r.start ≤ r.stop ∧ r.stop ≤ pos

namespace Builder

variable {b : Builder} {n : Node} {pos pos' : Nat}

/-- The node whose start tag is being read begins behind all that is complete, and its tag has
been read as far as `stop`. -/
def CurrentNested (b : Builder) (stop : Nat) : Prop :=
  ∃ n, b.current = some n ∧ n.Begins stop ∧ n.endTag = none ∧ IsOpen b.roots n.whole.start b.frames

/-- What holds of a tree in the making when the tokens so far end in a phase at `pos`. -/
def NestedAt (b : Builder) (pos : Nat) : Phase → Prop
  | .outside => b.current = none ∧ IsOpen b.roots pos b.frames
  | .tag none => b.CurrentNested pos
  | .tag (some p) => b.pending = some p ∧ p.Ordered pos ∧ b.CurrentNested p.name.start

theorem isOpen_add {e : Element} {stop : Nat} (h : IsOpen b.roots stop b.frames)
    (he : e.All Element.Nested) (hstart : stop ≤ e.whole.start) :
    IsOpen (b.add e).roots e.whole.stop (b.add e).frames := by
  rw [Builder.add]
  split
  · next hframes =>
    rw [hframes] at h
    show IsOpen (e :: b.roots) e.whole.stop b.frames
    rw [hframes]
    exact RootsNested.cons h he hstart
  · next f rest hframes =>
    rw [hframes] at h
    exact ⟨h.1.add he hstart, h.2⟩

theorem current_add (b : Builder) (e : Element) : (b.add e).current = b.current := by
  rw [Builder.add]
  split <;> rfl

/-- A node with its start tag alone is a nested element. -/
theorem nested_leaf (h : n.Begins pos) (hend : n.endTag = none) (selfClosed : Bool) :
    (Element.mk { n.endStartTag pos with selfClosed := selfClosed } []).All Element.Nested := by
  refine Element.all_mk.mpr ⟨⟨h.endStartTag selfClosed, ?_, ?_⟩, List.forall_mem_nil _⟩
  · have hcontent : Node.contentStop { n.endStartTag pos with selfClosed := selfClosed } = pos :=
      Node.contentStop_of_none hend
    exact Nat.le_of_eq hcontent.symm
  · intro tag htag
    exact absurd (htag.symm.trans hend) (Option.some_ne_none tag)

theorem begins_newNode (b : Builder) (text : String) {start stop : Nat} (hstop : start < stop) :
    (b.newNode text (Span.of start stop)).Begins stop := by
  refine ⟨rfl, Nat.sub_le _ _, Nat.le_max_left _ _, ?_, List.forall_mem_nil _⟩
  show max start stop ≤ stop
  omega

theorem NestedAt.openNode (h : b.NestedAt pos .outside) (text : String) {start stop : Nat}
    (hstart : pos < start) (hstop : start < stop) :
    (b.openNode text (Span.of start stop)).NestedAt stop (.tag none) := by
  obtain ⟨hcurrent, hopen⟩ := h
  have hdrop : b.dropCurrent = b := by rw [Builder.dropCurrent, hcurrent]
  rw [Builder.openNode, hdrop]
  exact ⟨_, rfl, begins_newNode b text hstop, rfl, hopen.mono (Nat.le_sub_one_of_lt hstart)⟩

theorem NestedAt.endStartTag (h : b.NestedAt pos (.tag none)) {stop : Nat} (hstop : pos ≤ stop)
    (selfClosed : Bool) : (b.endStartTag stop selfClosed).NestedAt stop .outside := by
  obtain ⟨n, hn, hbegins, hend, hopen⟩ := h
  have hbegins := hbegins.mono hstop
  rw [Builder.endStartTag, hn]
  dsimp only
  split
  · refine ⟨current_add _ _, ?_⟩
    exact isOpen_add (b := { b with current := none }) hopen (nested_leaf hbegins hend selfClosed)
      (Nat.le_refl _)
  · refine ⟨rfl, ⟨hbegins.endStartTag selfClosed, hend, Nat.le_refl _, List.forall_mem_nil _⟩, ?_⟩
    exact hopen

theorem NestedAt.closeNode (h : b.NestedAt pos .outside) (text : String) (tag name : Span)
    (hstart : pos ≤ tag.start) (hstop : tag.start ≤ tag.stop) :
    (b.closeNode text tag name).NestedAt tag.stop .outside := by
  obtain ⟨hcurrent, hopen⟩ := h
  rw [Builder.closeNode]
  split
  · next e frames hclose =>
    obtain ⟨he, hwhole, hrest⟩ := isOpen_closeIn hopen hstart hstop hclose
    rw [← hwhole]
    exact ⟨(current_add _ _).trans hcurrent,
      isOpen_add (b := { b with frames := frames }) hrest he (Nat.le_refl _)⟩
  · exact ⟨hcurrent, hopen.mono (Nat.le_trans hstart hstop)⟩

theorem CurrentNested.mono {stop stop' : Nat} (h : b.CurrentNested stop) (hle : stop ≤ stop') :
    b.CurrentNested stop' := by
  obtain ⟨n, hn, hbegins, hrest⟩ := h
  exact ⟨n, hn, hbegins.mono hle, hrest⟩

/-- The name behind a modifier lies in the name with it. -/
theorem splitModifier_span (text : String) {name : Span} (h : name.start < name.stop) :
    name.start ≤ (splitModifier text name).2.start ∧
      (splitModifier text name).2.start ≤ (splitModifier text name).2.stop ∧
      (splitModifier text name).2.stop = name.stop := by
  rw [splitModifier]
  split
  · refine ⟨Nat.le_succ _, Nat.le_max_left _ _, ?_⟩
    show max (name.start + 1) name.stop = name.stop
    omega
  · exact ⟨Nat.le_refl _, Nat.le_of_lt h, rfl⟩

theorem le_attributeStop (quote : Quote) (stop : Nat) : stop ≤ attributeStop quote stop := by
  cases quote with
  | absent | unquoted => exact Nat.le_refl stop
  | single | double => exact Nat.le_succ stop

/-- What is assigned lies between the name and the end of the attribute. -/
theorem assigned?_span {d : Document} {text : String} {p : Pending} {quote : Quote} {stop : Nat}
    (hp : p.Ordered pos) (hstop : pos ≤ stop) {v : Value × Span}
    (h : assigned? d text p quote stop = some v) :
    p.name.stop ≤ v.2.start ∧ v.2.start ≤ v.2.stop ∧ v.2.stop ≤ stop := by
  have hname := hp.name_stop
  rw [assigned?.eq_def] at h
  split at h
  · rw [← Option.some.inj h]
    exact ⟨Nat.le_refl _, Nat.le_refl _, by show p.name.stop ≤ stop; omega⟩
  · exact absurd h (Option.some_ne_none v).symm
  · rw [← Option.some.inj h]
    exact ⟨by show p.name.stop ≤ stop; omega, Nat.le_refl _, Nat.le_refl stop⟩
  · next r _ hr =>
    rw [← Option.some.inj h]
    obtain ⟨hstart, hspan, hend⟩ := hp.value r hr
    exact ⟨hstart, hspan, Nat.le_trans hend hstop⟩

theorem CurrentNested.addAttribute {p : Pending} (h : b.CurrentNested p.name.start)
    (hp : p.Ordered pos) (d : Document) (text : String) (quote : Quote) {stop : Nat}
    (hstop : pos ≤ stop) :
    (b.addAttribute d text p quote stop).CurrentNested (attributeStop quote stop) := by
  obtain ⟨n, hn, hbegins, hend, hopen⟩ := h
  have hname := hp.name
  have hpos := hp.name_stop
  have hquote := le_attributeStop quote stop
  rw [Builder.addAttribute, hn]
  dsimp only
  split
  · exact ⟨n, hn, hbegins.mono (by omega), hend, hopen⟩
  · obtain ⟨hstart, hspan, hsplit⟩ := splitModifier_span text hname
    have hwhole : max p.name.start (attributeStop quote stop) = attributeStop quote stop := by omega
    refine ⟨_, rfl, ⟨hbegins.start, hbegins.name_start, hbegins.name, ?_, ?_⟩, hend, hopen⟩
    · rw [List.map_append, List.map_singleton]
      refine hbegins.attributes.append ⟨Nat.le_refl _, Nat.le_max_left _ _, ?_⟩
      exact Nat.le_of_eq hwhole
    · refine List.forall_mem_append.mpr ⟨hbegins.ordered, List.forall_mem_singleton.mpr ?_⟩
      refine ⟨hstart, hspan, ?_, ?_⟩
      · show (splitModifier text p.name).2.stop ≤ max p.name.start (attributeStop quote stop)
        omega
      · intro x hx
        obtain ⟨v, hv, rfl⟩ := Option.map_eq_some_iff.mp hx
        obtain ⟨hvstart, hvspan, hvstop⟩ := assigned?_span hp hstop hv
        refine ⟨?_, hvspan, ?_⟩
        · show (splitModifier text p.name).2.stop ≤ v.2.start
          omega
        · show v.2.stop ≤ max p.name.start (attributeStop quote stop)
          omega

/-- Reading a token keeps ranges nested, when it follows the tokens before it. -/
theorem NestedAt.read {φ φ' : Phase} {t : Token} (h : b.NestedAt pos φ)
    (ht : Follows φ pos t φ' pos') (d : Document) (text : String) :
    (b.read d text t).NestedAt pos' φ' := by
  cases ht with
  | text hstart hstop => exact ⟨h.1, h.2.mono (by omega)⟩
  | comment hstart hstop => exact ⟨h.1, h.2.mono (by omega)⟩
  | @close _ start nameStart nameStop _ hstart hname hspan hstop =>
    have hmax : (Span.of start pos').stop = pos' := Nat.max_eq_right (by omega)
    have hclosed := h.closeNode text (Span.of start pos') (Span.of nameStart nameStop) hstart
      (Nat.le_max_left _ _)
    rw [hmax] at hclosed
    exact hclosed
  | openName hstart hstop => exact h.openNode text hstart hstop
  | @attributeName _ start _ hstart hstop =>
    have hmax : (Span.of start pos').stop = pos' := Nat.max_eq_right (Nat.le_of_lt hstop)
    refine ⟨rfl, ⟨?_, Nat.le_of_eq hmax, ?_⟩, h.mono hstart⟩
    · exact Nat.lt_of_lt_of_eq hstop hmax.symm
    · exact fun r hr => absurd hr (Option.some_ne_none r).symm
  | @attributeValue _ start _ p hnone hstart hstop =>
    obtain ⟨hpending, hp, hcurrent⟩ := h
    have hname := hp.name_stop
    have hmax : (Span.of start pos').stop = pos' := Nat.max_eq_right (Nat.le_of_lt hstop)
    have hpos : p.name.stop ≤ pos' := by omega
    refine ⟨?_, ⟨hp.name, hpos, ?_⟩, hcurrent⟩
    · rw [Builder.read, hpending]
      rfl
    · intro r hr
      rw [← Option.some.inj hr]
      exact ⟨Nat.le_trans hname hstart, Nat.le_max_left _ _, Nat.le_of_eq hmax⟩
  | attributeEnd hstop =>
    obtain ⟨hpending, hp, hcurrent⟩ := h
    rw [Builder.read, hpending]
    exact CurrentNested.addAttribute (b := { b with pending := none }) hcurrent hp d text _ hstop
  | openEnd hbracket => exact h.endStartTag (by omega) false
  | selfClose hbracket => exact h.endStartTag (by omega) true
  | mistake _ =>
    rw [Builder.read]
    cases φ with
    | outside => exact h
    | tag pending => cases pending <;> exact h

theorem NestedAt.foldl_read {φ φ' : Phase} {ts : List Token} (h : b.NestedAt pos φ)
    (hts : Path φ pos ts φ' pos') (d : Document) (text : String) :
    (ts.foldl (Builder.read d text) b).NestedAt pos' φ' := by
  induction hts generalizing b with
  | nil => exact h
  | cons ht _ ih => exact ih (h.read ht d text)

theorem nestedAt_empty : ({} : Builder).NestedAt 0 .outside :=
  ⟨rfl, Nat.le_refl 0, List.forall_mem_nil _⟩

/-- At the end of the text everything that is open ends there. -/
theorem NestedAt.finish {φ : Phase} (h : b.NestedAt pos φ) {stop : Nat} (hstop : pos ≤ stop) :
    RootsNested stop (b.finish stop).roots := by
  have hcurrent : ∀ pos', pos' ≤ stop → b.CurrentNested pos' →
      RootsNested stop (b.finish stop).roots := by
    intro pos' hle hnested
    obtain ⟨n, hn, hbegins, hend, hopen⟩ := hnested
    have hleaf := nested_leaf (hbegins.mono hle) hend n.selfClosed
    have hadd := isOpen_add (b := { b with current := some (n.endStartTag stop) }) hopen hleaf
      (Nat.le_refl _)
    rw [Builder.finish, hn]
    exact rootsNested_closeAll hadd (Nat.le_refl _)
  cases φ with
  | outside =>
    rw [Builder.finish, h.1]
    exact rootsNested_closeAll h.2 hstop
  | tag pending =>
    cases pending with
    | none => exact hcurrent pos hstop h
    | some p =>
      have hname := h.2.1.name
      have hpos := h.2.1.name_stop
      exact hcurrent p.name.start (by omega) h.2.2

end Builder
/-! ## The whole tree -/

theorem Element.Nested.startTag_le_endTag {e : Element} (h : e.Nested) {tag : Span}
    (htag : e.node.endTag = some tag) : e.node.startTag.stop ≤ tag.start := by
  have hcontent := h.children.le
  rw [Node.contentStop, htag] at hcontent
  exact hcontent

theorem Element.Nested.contentStop_le {e : Element} (h : e.Nested) :
    e.node.contentStop ≤ e.node.whole.stop := by
  rw [Node.contentStop]
  split
  · next tag htag =>
    obtain ⟨hspan, hstop⟩ := h.endTag tag htag
    omega
  · exact Nat.le_refl _

mutual
/-- Everything inside a nested element lies in its range. -/
theorem Element.within_whole : ∀ e : Element, e.All Element.Nested →
    ∀ x ∈ e.elements, e.whole.start ≤ x.whole.start ∧ x.whole.stop ≤ e.whole.stop
  | .mk n cs, h, x, hx => by
    obtain ⟨hself, hchildren⟩ := Element.all_mk.mp h
    rw [Element.elements, List.mem_cons] at hx
    rcases hx with rfl | hx
    · exact ⟨Nat.le_refl _, Nat.le_refl _⟩
    · obtain ⟨hstart, hstop⟩ := within_elementsOf cs hchildren hself.children x hx
      exact ⟨Nat.le_trans hself.begins.start_le hstart, Nat.le_trans hstop hself.contentStop_le⟩

theorem within_elementsOf : ∀ (es : List Element) {lo hi : Nat}, (∀ e ∈ es, e.All Element.Nested) →
    InOrder lo hi (es.map Element.whole) →
    ∀ x ∈ elementsOf es, lo ≤ x.whole.start ∧ x.whole.stop ≤ hi
  | [], _, _, _, _, _, hx => absurd hx List.not_mem_nil
  | e :: es, _, _, h, hin, x, hx => by
    obtain ⟨he, hes⟩ := List.forall_mem_cons.mp h
    obtain ⟨hstart, hspan, hrest⟩ := hin
    rw [elementsOf, List.mem_append] at hx
    rcases hx with hx | hx
    · obtain ⟨hxstart, hxstop⟩ := Element.within_whole e he x hx
      exact ⟨Nat.le_trans hstart hxstart, Nat.le_trans hxstop hrest.le⟩
    · obtain ⟨hxstart, hxstop⟩ := within_elementsOf es hes hrest x hx
      exact ⟨by omega, hxstop⟩
end

mutual
/-- The attributes of a nested element and of those inside it lie behind each other. -/
theorem Element.inOrder_attributes : ∀ e : Element, e.All Element.Nested →
    InOrder e.whole.start e.whole.stop ((e.walk.flatMap (·.attributes)).map (·.whole))
  | .mk n cs, h => by
    obtain ⟨hself, hchildren⟩ := Element.all_mk.mp h
    have hinner := inOrder_attributes_walkAll cs hchildren hself.children
    have hname : n.whole.start ≤ n.nameSpan.stop :=
      Nat.le_trans (Nat.le_of_eq hself.begins.start.symm)
        (Nat.le_trans hself.begins.name_start hself.begins.name)
    rw [Element.walk, List.flatMap_cons, List.map_append]
    exact ((hself.begins.attributes.mono_left hname).append hinner).mono_right hself.contentStop_le

theorem inOrder_attributes_walkAll : ∀ (es : List Element) {lo hi : Nat},
    (∀ e ∈ es, e.All Element.Nested) → InOrder lo hi (es.map Element.whole) →
    InOrder lo hi (((walkAll es).flatMap (·.attributes)).map (·.whole))
  | [], _, _, _, hin => hin
  | e :: es, _, _, h, hin => by
    obtain ⟨he, hes⟩ := List.forall_mem_cons.mp h
    obtain ⟨hstart, hspan, hrest⟩ := hin
    rw [walkAll, List.flatMap_append, List.map_append]
    exact ((Element.inOrder_attributes e he).mono_left hstart).append
      (inOrder_attributes_walkAll es hes hrest)
end

namespace RootsNested

variable {t : Tree} {size : Nat} {e : Element} {a : Attribute}

theorem inOrder_roots (h : RootsNested size t.roots.reverse) :
    InOrder 0 size (t.roots.map Element.whole) := by
  have hroots := h.inOrder
  rw [List.reverse_reverse] at hroots
  exact hroots

theorem all_roots (h : RootsNested size t.roots.reverse) : ∀ e ∈ t.roots, e.All Element.Nested :=
  fun e he => h.nested e (List.mem_reverse.mpr he)

theorem nested_of_mem (h : RootsNested size t.roots.reverse) (he : e ∈ t.elements) : e.Nested :=
  Tree.forall_elements_iff.mpr h.all_roots e he

theorem whole_stop_le (h : RootsNested size t.roots.reverse) (he : e ∈ t.elements) :
    e.whole.stop ≤ size :=
  (within_elementsOf t.roots h.all_roots h.inOrder_roots e he).2

theorem inOrder_attributes (h : RootsNested size t.roots.reverse) :
    InOrder 0 size (t.attributes.map (·.whole)) :=
  inOrder_attributes_walkAll t.roots h.all_roots h.inOrder_roots

theorem pairwise_attributes (h : RootsNested size t.roots.reverse) :
    t.attributes.Pairwise fun a b => a.whole.stop ≤ b.whole.start :=
  List.pairwise_map.mp h.inOrder_attributes.pairwise

theorem ordered_of_mem (h : RootsNested size t.roots.reverse) (ha : a ∈ t.attributes) :
    a.Ordered := by
  obtain ⟨n, hn, ha⟩ := List.mem_flatMap.mp ha
  obtain ⟨e, he, rfl⟩ := Tree.exists_element hn
  exact (h.nested_of_mem he).begins.ordered a ha

end RootsNested

/-- The ranges of a tree are nested in a text of `size` bytes, and those of the attributes lie
behind each other in the order of their numbers. -/
structure Tree.Nested (t : Tree) (size : Nat) : Prop where
  roots : InOrder 0 size (t.roots.map Element.whole)
  elements : ∀ e ∈ t.elements, e.Nested
  startTag : ∀ n ∈ t.nodes, n.nameSpan.stop ≤ n.startTag.stop ∧ n.startTag.stop ≤ n.whole.stop
  endTag : ∀ n ∈ t.nodes, ∀ tag, n.endTag = some tag →
    n.startTag.stop ≤ tag.start ∧ tag.start ≤ tag.stop ∧ tag.stop ≤ n.whole.stop
  whole : ∀ n ∈ t.nodes, n.whole.start ≤ n.whole.stop ∧ n.whole.stop ≤ size
  attributes : InOrder 0 size (t.attributes.map (·.whole))
  numbers : (t.attributes.map (·.id)).Pairwise (· < ·)

theorem Tree.nested_of_roots {t : Tree} {size : Nat} (h : RootsNested size t.roots.reverse)
    (hnumbers : (t.attributes.map (·.id)).Pairwise (· < ·)) : t.Nested size := by
  refine ⟨h.inOrder_roots, fun _ => h.nested_of_mem, ?_, ?_, ?_, h.inOrder_attributes, hnumbers⟩
  · intro n hn
    obtain ⟨e, he, rfl⟩ := exists_element hn
    exact ⟨(h.nested_of_mem he).begins.attributes.le, (h.nested_of_mem he).startTag_le⟩
  · intro n hn tag htag
    obtain ⟨e, he, rfl⟩ := exists_element hn
    exact ⟨(h.nested_of_mem he).startTag_le_endTag htag, (h.nested_of_mem he).endTag tag htag⟩
  · intro n hn
    obtain ⟨e, he, rfl⟩ := exists_element hn
    exact ⟨(h.nested_of_mem he).whole_le, h.whole_stop_le he⟩

theorem Tree.rootsNested_ofDocument (d : Document) :
    RootsNested d.text.utf8ByteSize (Tree.ofDocument d).roots.reverse := by
  obtain ⟨ts, htokens, φ, done, hpath, hdone⟩ := tokens_eq d.text
  have hread := Builder.nestedAt_empty.foldl_read hpath d d.text
  rw [Tree.ofDocument, Builder.toTree, Builder.ofDocument, htokens, List.foldl_append,
    List.reverse_reverse]
  exact hread.finish hdone

theorem Tree.pairwise_attribute_ids (d : Document) :
    ((Tree.ofDocument d).attributes.map (·.id)).Pairwise (· < ·) := by
  rw [(numbered_ofDocument d).attributes]
  exact List.pairwise_lt_range

/-- The tree of every document is nested in its text. -/
theorem Tree.nested_ofDocument (d : Document) :
    (Tree.ofDocument d).Nested d.text.utf8ByteSize :=
  nested_of_roots (rootsNested_ofDocument d) (pairwise_attribute_ids d)

end Markup
end Inlay
