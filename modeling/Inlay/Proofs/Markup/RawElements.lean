import Inlay.Proofs.Markup.OpenElements
import Inlay.Proofs.Markup.RawText

/-!
# Elements of raw text

An element of raw text has no children, as long as no end tag of one goes on behind a slash:
`rawText_accounted`.  Then the tag that ends the raw text is the end tag of the element, which
therefore is closed before anything else begins.

`Builder.Agrees` ties the builder to the scanner: while the scanner is in raw text, the innermost
frame is the element and is empty, and in any other state no element of raw text is open.
Each step keeps it but the one that leaves raw text; there the whole end tag is read at once.
-/

namespace Inlay
namespace Markup

/-- An element of raw text has no children. -/
def Element.Childless (e : Element) : Prop := isRawTextTag e.node.tag = true → e.children = []

/-- An open element that is not one of raw text. -/
structure Frame.Plain (f : Frame) : Prop where
  tag : isRawTextTag f.node.tag = false
  done : ∀ e ∈ f.done, e.All Element.Childless

/-- Elements of raw text are complete, and have no children. -/
structure Builder.Plain (b : Builder) : Prop where
  roots : ∀ e ∈ b.roots, e.All Element.Childless
  frames : ∀ f ∈ b.frames, f.Plain

/-- The innermost open element is one of raw text with a name, and is empty. -/
structure Builder.InRaw (b : Builder) (name : String) : Prop where
  current : b.current = none
  roots : ∀ e ∈ b.roots, e.All Element.Childless
  frames : ∃ f outer, b.frames = f :: outer ∧ f.node.tag = name ∧ f.done = [] ∧
    ∀ g ∈ outer, g.Plain

/-- A start tag with a name is being read. -/
structure Builder.InTag (b : Builder) (name : String) : Prop where
  plain : b.Plain
  current : ∃ n, b.current = some n ∧ n.tag = name

/-- A part of an attribute. -/
def Token.IsPart : Token → Prop
  | .attributeName .. | .attributeValue .. | .attributeEnd .. => True
  | _ => False

theorem Element.childless_leaf (n : Node) : (Element.mk n []).All Element.Childless :=
  Element.all_leaf fun _ => rfl

/-- An element that is not one of raw text may get children. -/
theorem Frame.plain_iff {f : Frame} : f.Plain ↔ f.Promises Element.Childless := by
  constructor
  · intro h
    exact ⟨fun _ _ _ hraw => absurd (h.tag.symm.trans hraw) Bool.false_ne_true, h.done⟩
  · intro h
    refine ⟨Bool.eq_false_iff.mpr fun hraw => ?_, h.done⟩
    exact List.cons_ne_nil default [] (h.close 0 none [default] hraw)

theorem Builder.plain_iff {b : Builder} : b.Plain ↔ b.Promises Element.Childless :=
  ⟨fun h => ⟨h.roots, fun f hf => Frame.plain_iff.mp (h.frames f hf)⟩,
    fun h => ⟨h.roots, fun f hf => Frame.plain_iff.mpr (h.frames f hf)⟩⟩

namespace Builder

variable {b : Builder} {e : Element} {name : String} {d : Document} {text : String} {t : Token}

/-! ## Reading a token -/

theorem Plain.add (h : b.Plain) (he : e.All Element.Childless) : (b.add e).Plain :=
  plain_iff.mpr ((plain_iff.mp h).add he)

theorem Plain.dropCurrent (h : b.Plain) : b.dropCurrent.Plain :=
  plain_iff.mpr ((plain_iff.mp h).dropCurrent fun _ _ _ => rfl)

theorem Plain.closeNode (h : b.Plain) (text : String) (tag name : Span) :
    (b.closeNode text tag name).Plain :=
  plain_iff.mpr ((plain_iff.mp h).closeNode text tag name)

theorem Plain.selfClose (h : b.Plain) (stop : Nat) : (b.endStartTag stop true).Plain := by
  have hb : { b with current := none }.Plain := ⟨h.roots, h.frames⟩
  rw [Builder.endStartTag]
  split
  · exact h
  · exact hb.add (Element.childless_leaf _)

theorem Plain.finish (h : b.Plain) (stop : Nat) : (b.finish stop).Plain :=
  plain_iff.mpr ((plain_iff.mp h).finish fun _ _ _ => rfl)

/-- Only the end of a start tag can open an element of raw text. -/
theorem Plain.read (h : b.Plain) (d : Document) (text : String)
    (ht : ∀ bracket, t ≠ .openEnd bracket) : (b.read d text t).Plain := by
  cases t with
  | text | comment => exact h
  | openName => exact ⟨h.dropCurrent.roots, h.dropCurrent.frames⟩
  | openEnd bracket => exact absurd rfl (ht bracket)
  | selfClose => exact h.selfClose _
  | close => exact h.closeNode text _ _
  | attributeName | attributeValue | mistake => exact ⟨h.roots, h.frames⟩
  | attributeEnd =>
    rw [Builder.read]
    split
    · have hb : { b with pending := none }.Promises Element.Childless :=
        plain_iff.mp ⟨h.roots, h.frames⟩
      exact plain_iff.mpr (hb.addAttribute d text _ _ _)
    · exact h
  | finish => exact h.finish _

theorem Plain.foldl_read {ts : List Token} (h : b.Plain) (d : Document) (text : String)
    (hts : ∀ t ∈ ts, ∀ bracket, t ≠ .openEnd bracket) :
    (ts.foldl (Builder.read d text) b).Plain := by
  induction ts generalizing b with
  | nil => exact h
  | cons t rest ih =>
    obtain ⟨ht, hrest⟩ := List.forall_mem_cons.mp hts
    exact ih (h.read d text ht) hrest

theorem isVoid_of_isRawTextTag {n : Node} (h : isRawTextTag n.tag = true) : n.isVoid = false := by
  have hapart : ∀ tag ∈ rawTextTags, voidTags.contains tag = false := by decide
  exact hapart _ (List.contains_iff_mem.mp h)

/-- The end of the start tag of an element of raw text opens it. -/
theorem InTag.openEnd_raw (h : b.InTag name) (hraw : isRawTextTag name = true) (stop : Nat) :
    (b.endStartTag stop false).InRaw name := by
  obtain ⟨n, hn, rfl⟩ := h.current
  have hvoid : Node.isVoid { n.endStartTag stop with selfClosed := false } = false :=
    isVoid_of_isRawTextTag hraw
  rw [Builder.endStartTag, hn]
  dsimp only
  rw [hvoid]
  exact ⟨rfl, h.plain.roots, _, _, rfl, rfl, rfl, h.plain.frames⟩

theorem InTag.openEnd_plain (h : b.InTag name) (hraw : isRawTextTag name = false) (stop : Nat) :
    (b.endStartTag stop false).Plain := by
  obtain ⟨n, hn, rfl⟩ := h.current
  have hb : { b with current := none }.Plain := ⟨h.plain.roots, h.plain.frames⟩
  rw [Builder.endStartTag, hn]
  dsimp only
  split
  · exact hb.add (Element.childless_leaf _)
  · exact ⟨h.plain.roots, List.forall_mem_cons.mpr ⟨⟨hraw, List.forall_mem_nil _⟩, h.plain.frames⟩⟩

theorem InTag.openName (h : b.Plain) (text : String) (name : Span) :
    (b.openNode text name).InTag (name.sliceD text) :=
  ⟨⟨h.dropCurrent.roots, h.dropCurrent.frames⟩, _, rfl, rfl⟩

theorem InTag.read (h : b.InTag name) (d : Document) (text : String) (ht : t.IsPart) :
    (b.read d text t).InTag name := by
  have hplain : (b.read d text t).Plain := by
    refine h.plain.read d text ?_
    rintro bracket rfl
    exact ht
  obtain ⟨n, hn, htag⟩ := h.current
  refine ⟨hplain, ?_⟩
  cases t with
  | attributeName | attributeValue => exact ⟨n, hn, htag⟩
  | attributeEnd =>
    rw [Builder.read]
    split
    · rw [Builder.addAttribute]
      dsimp only
      rw [hn]
      dsimp only
      split
      · exact ⟨n, rfl, htag⟩
      · exact ⟨_, rfl, htag⟩
    · exact ⟨n, hn, htag⟩
  | _ => exact absurd ht not_false

/-- The end tag of the element closes it. -/
theorem InRaw.closeNode (h : b.InRaw name) (text : String) (tag close : Span)
    (hname : sameName (close.sliceD text) name = true) : (b.closeNode text tag close).Plain := by
  obtain ⟨f, outer, hframes, hf, hdone, houter⟩ := h.frames
  have hsame : sameName f.node.tag (close.sliceD text) = true := by
    rw [hf, sameName_comm]
    exact hname
  have hb : { b with frames := outer }.Plain := ⟨h.roots, houter⟩
  rw [Builder.closeNode, hframes, closeIn.eq_def]
  dsimp only
  rw [if_pos hsame]
  refine hb.add ?_
  rw [Frame.toElement, hdone]
  exact Element.childless_leaf _

theorem InRaw.report (h : b.InRaw name) (mistake : Mistake) (start stop : Nat) :
    (b.report mistake start stop).InRaw name := ⟨h.current, h.roots, h.frames⟩

/-- At the end of the text the element has got no children. -/
theorem InRaw.finish (h : b.InRaw name) (stop : Nat) :
    ∀ e ∈ (b.finish stop).roots, e.All Element.Childless := by
  obtain ⟨f, outer, hframes, -, hdone, houter⟩ := h.frames
  have hleaf : (f.endAt stop).toElement.All Element.Childless := by
    rw [Frame.toElement, Frame.endAt, hdone]
    exact Element.childless_leaf _
  have hroots : (b.finish stop).roots = closeAll stop b.roots (f :: outer) := by
    rw [Builder.finish, h.current, Option.map_none, dropCurrent, hframes]
  rw [hroots, closeAll.eq_def]
  cases outer with
  | nil => exact List.forall_mem_cons.mpr ⟨hleaf, h.roots⟩
  | cons g rest =>
    obtain ⟨hg, hrest⟩ := List.forall_mem_cons.mp houter
    exact all_closeAll h.roots (List.forall_mem_cons.mpr
      ⟨(Frame.plain_iff.mp hg).add hleaf, fun f hf => Frame.plain_iff.mp (hrest f hf)⟩)

/-! ## A step of the scanner -/

/-- What a builder has read when the scanner is in a state behind the characters `front`. -/
def Agrees (b : Builder) (front : List Char) : State → Prop
  | .rawText name _ => b.InRaw (String.ofList name)
  | .tagName start name => b.Plain ∧ ∃ before, front = before ++ name ∧ byteLength before = start
  | .selfClosing name | .beforeAttribute name | .attributeName name _ | .afterAttribute name
  | .beforeValue name | .doubleQuoted name _ | .singleQuoted name _ | .unquoted name _ =>
    b.InTag (String.ofList name)
  | _ => b.Plain

/-- Reading what a step gives, the builder agrees with the state that the step gives. -/
def Leads (d : Document) (b : Builder) (front : List Char) (next : State × List Token) : Prop :=
  (next.2.foldl (Builder.read d d.text) b).Agrees front next.1

section Steps

variable {front rest name : List Char} {start tag stop pos : Nat} {c : Char}

theorem agrees_content (h : b.InTag (String.ofList name)) (stop start : Nat) :
    (b.endStartTag stop false).Agrees front (content name start) := by
  rw [content]
  split
  · next hraw => exact h.openEnd_raw hraw stop
  · next hraw => exact h.openEnd_plain (Bool.eq_false_iff.mpr hraw) stop

theorem leads_inBeforeAttribute (h : b.InTag (String.ofList name)) :
    Leads d b front (inBeforeAttribute name pos c) := by
  rw [inBeforeAttribute]
  split
  · exact agrees_content h (pos + 1) (pos + 1)
  split
  · exact h
  split <;> exact h

theorem leads_thenBeforeAttribute {done : List Token}
    (h : (done.foldl (Builder.read d d.text) b).InTag (String.ofList name)) :
    Leads d b front (thenBeforeAttribute done name pos c) := by
  rw [Leads, thenBeforeAttribute, List.foldl_append]
  exact leads_inBeforeAttribute h

theorem leads_inSelfClosing (h : b.InTag (String.ofList name)) :
    Leads d b front (inSelfClosing name pos c) := by
  rw [inSelfClosing]
  split
  · exact h.plain.selfClose (pos + 1)
  split
  · exact h
  · exact leads_inBeforeAttribute h

theorem leads_inAfterAttribute {done : List Token}
    (h : (done.foldl (Builder.read d d.text) b).InTag (String.ofList name)) :
    Leads d b front (inAfterAttribute done name pos c) := by
  have hend : ((done ++ [Token.attributeEnd .absent pos]).foldl (Builder.read d d.text) b).InTag
      (String.ofList name) := by
    rw [List.foldl_append]
    exact h.read d d.text (t := .attributeEnd .absent pos) trivial
  rw [inAfterAttribute]
  split
  · exact h
  split
  · exact leads_thenBeforeAttribute hend
  split
  · exact h
  · exact hend

theorem leads_inAttributeName (h : b.InTag (String.ofList name)) :
    Leads d b front (inAttributeName name start pos c) := by
  rw [inAttributeName]
  split
  · exact leads_inAfterAttribute (h.read d d.text (t := .attributeName start pos) trivial)
  · exact h

theorem inTag_valueSince (h : b.InTag (String.ofList name)) (d : Document) (start : Nat)
    (quote : Quote) (pos : Nat) :
    ((valueSince start quote pos).foldl (Builder.read d d.text) b).InTag (String.ofList name) := by
  rw [valueSince]
  split
  · exact (h.read d d.text (t := .attributeValue start pos) trivial).read d d.text
      (t := .attributeEnd quote pos) trivial
  · exact h.read d d.text (t := .attributeEnd quote pos) trivial

theorem leads_inUnquoted (h : b.InTag (String.ofList name)) :
    Leads d b front (inUnquoted name start pos c) := by
  rw [inUnquoted]
  split
  · exact leads_thenBeforeAttribute (inTag_valueSince h d start .unquoted pos)
  · exact h

theorem leads_inBeforeValue (h : b.InTag (String.ofList name)) :
    Leads d b front (inBeforeValue name pos c) := by
  rw [inBeforeValue]
  split
  · exact h
  split
  · exact h
  split
  · exact h
  · exact leads_inUnquoted h

theorem leads_inText (h : b.Plain) : Leads d b front (inText start pos c) := by
  rw [inText]
  split
  · show Builder.Plain _
    rw [textSince]
    split <;> exact h
  · exact h

theorem leads_inTagOpen (h : b.Plain) (hpos : byteLength front = pos) :
    Leads d b (front ++ [c]) (inTagOpen start pos c) := by
  rw [inTagOpen]
  split
  · exact h
  split
  · exact h
  split
  · exact ⟨h, front, rfl, hpos⟩
  split
  · exact h
  · exact leads_inText h

theorem leads_inTagName {before : List Char} (h : b.Plain)
    (htext : d.text.toList = before ++ name ++ c :: rest) (hstart : byteLength before = start)
    (hpos : byteLength (before ++ name) = pos) :
    Leads d b (before ++ name ++ [c]) (inTagName start name pos c) := by
  rw [inTagName]
  split
  · refine leads_thenBeforeAttribute ?_
    have hopen := InTag.openName h d.text (Span.of start pos)
    rw [List.append_assoc] at htext
    rw [byteLength_append, hstart] at hpos
    rw [← hstart, ← hpos, ← hstart, sliceD_of_toList htext, hstart, hpos] at hopen
    exact hopen
  · refine ⟨h, before, ?_, hstart⟩
    rw [List.append_assoc]

theorem leads_inEndTagOpen (h : b.Plain) : Leads d b front (inEndTagOpen tag pos c) := by
  rw [inEndTagOpen]
  split
  · exact h
  split
  · exact h.read d d.text (t := .mistake .endTagWithoutName pos) (fun _ => Token.noConfusion)
  · exact h

theorem leads_inEndTagName (h : b.Plain) : Leads d b front (inEndTagName tag start pos c) := by
  rw [inEndTagName]
  split
  · exact h.closeNode d.text _ _
  split <;> exact h

theorem leads_inAfterEndTagName (h : b.Plain) :
    Leads d b front (inAfterEndTagName tag start stop pos c) := by
  rw [inAfterEndTagName]
  split
  · exact h.closeNode d.text _ _
  · exact h

theorem leads_inDeclaration (h : b.Plain) : Leads d b front (inDeclaration pos c) := by
  rw [inDeclaration]
  split <;> exact h

theorem leads_inComment (h : b.Plain) : Leads d b front (inComment start pos c rest) := by
  rw [inComment.eq_def]
  split <;> exact h

/-- A step outside raw text keeps builder and scanner in agreement. -/
theorem Agrees.step {s : State} (h : b.Agrees front s)
    (htext : d.text.toList = front ++ c :: rest) (hraw : ∀ name start, s ≠ .rawText name start) :
    Leads d b (front ++ [c]) (step s (byteLength front) c rest) := by
  cases s with
  | text start => exact leads_inText h
  | tagOpen start => exact leads_inTagOpen h rfl
  | tagName start name =>
    obtain ⟨hplain, before, rfl, hstart⟩ := h
    exact leads_inTagName hplain htext hstart rfl
  | selfClosing name => exact leads_inSelfClosing h
  | endTagOpen tag => exact leads_inEndTagOpen h
  | endTagName tag start => exact leads_inEndTagName h
  | afterEndTagName tag start stop => exact leads_inAfterEndTagName h
  | beforeAttribute name => exact leads_inBeforeAttribute h
  | attributeName name start => exact leads_inAttributeName h
  | afterAttribute name => exact leads_inAfterAttribute h
  | beforeValue name => exact leads_inBeforeValue h
  | doubleQuoted name start =>
    rw [Markup.step]
    split
    · exact inTag_valueSince h d start .double _
    · exact h
  | singleQuoted name start =>
    rw [Markup.step]
    split
    · exact inTag_valueSince h d start .single _
    · exact h
  | unquoted name start => exact leads_inUnquoted h
  | declarationOpen =>
    rw [Markup.step]
    split
    · exact h
    · exact leads_inDeclaration h
  | declaration => exact leads_inDeclaration h
  | commentOpen =>
    rw [Markup.step]
    split
    · exact h
    · exact leads_inDeclaration h
  | comment start => exact leads_inComment h
  | commentDash => exact h
  | commentBracket => exact h
  | rawText name start => exact absurd rfl (hraw name start)

theorem Agrees.plain {s : State} (h : b.Agrees front s)
    (hraw : ∀ name start, s ≠ .rawText name start) : b.Plain := by
  cases s with
  | rawText name start => exact absurd rfl (hraw name start)
  | tagName => exact h.1
  | selfClosing | beforeAttribute | attributeName | afterAttribute | beforeValue | doubleQuoted
  | singleQuoted | unquoted => exact InTag.plain h
  | _ => exact h

theorem not_openEnd_of_mem_atEnd {s : State} {bracket : Nat} (ht : t ∈ atEnd s pos) :
    t ≠ .openEnd bracket := by
  cases s <;> grind [atEnd, textSince, valueSince]

theorem InRaw.textSince {tagName : String} (h : b.InRaw tagName) (d : Document) (start pos : Nat) :
    ((textSince start pos).foldl (Builder.read d d.text) b).InRaw tagName := by
  rw [Markup.textSince]
  split <;> exact h

/-- Nothing but text comes out of raw text. -/
theorem InRaw.step_rawText (h : b.InRaw (String.ofList name)) (d : Document) (start pos : Nat)
    (c : Char) (rest : List Char) :
    ((Markup.step (.rawText name start) pos c rest).2.foldl (Builder.read d d.text) b).InRaw
      (String.ofList name) := by
  rw [Markup.step, inRawText]
  split
  · exact h.textSince d start pos
  · exact h

/-- At the end of the text all elements of raw text are without children. -/
theorem Agrees.atEnd {s : State} (h : b.Agrees front s) (d : Document) (pos : Nat) :
    ∀ e ∈ ((atEnd s pos ++ [Token.finish]).foldl (Builder.read d d.text) b).roots,
      e.All Element.Childless := by
  rw [List.foldl_append]
  by_cases hraw : ∃ name start, s = .rawText name start
  · obtain ⟨name, start, rfl⟩ := hraw
    exact InRaw.finish (InRaw.textSince h d start pos) _
  · have hplain := h.plain fun name start heq => hraw ⟨name, start, heq⟩
    exact ((hplain.foldl_read d d.text fun t ht bracket => not_openEnd_of_mem_atEnd ht).finish
      _).roots

end Steps

end Builder

/-! ## Whole trees -/

section Run

variable {text : String} {d : Document} {b : Builder} {front rest name : List Char} {c : Char}
variable {start : Nat}

theorem tokensBehind_append (front mid behind : List Char) :
    tokensBehind front (mid ++ behind) =
      emitted (stateAfter (.text 0) 0 (mid ++ behind) front) (byteLength front) behind mid ++
        tokensBehind (front ++ mid) behind := by
  rw [tokensBehind, scan_append, tokensBehind, stateAfter_append, Nat.zero_add, byteLength_append]

theorem tokensBehind_cons (front : List Char) (c : Char) (rest : List Char) :
    tokensBehind front (c :: rest) =
      (step (stateAfter (.text 0) 0 (c :: rest) front) (byteLength front) c rest).2 ++
        tokensBehind (front ++ [c]) rest := by
  have happend := tokensBehind_append front [c] rest
  rw [emitted, emitted, List.append_nil] at happend
  exact happend

/-- From raw text, a step stays in it or leaves it. -/
theorem stays_or_leaves (htext : text.toList = front ++ c :: rest)
    (hraw : stateAfter (.text 0) 0 (c :: rest) front = .rawText name start) :
    step (.rawText name start) (byteLength front) c rest = (.rawText name start, []) ∨
      LeavesRawText text name front c rest := by
  by_cases hahead : (c == '<' && endsRawText name rest) = true
  · refine .inr ⟨htext, ⟨start, hraw⟩, fun name' start' heq => ?_⟩
    rw [stateAfter_concat, hraw, step, inRawText, if_pos hahead] at heq
    exact State.noConfusion heq
  · refine .inl ?_
    rw [step, inRawText, if_neg hahead]

/-- Behind raw text comes the end of the element, or of the text. -/
theorem LeavesRawText.goes_on (h : LeavesRawText d.text name front c rest)
    (hgoes : ¬ GoesOn name rest) (hb : b.InRaw (String.ofList name)) :
    (∃ index, tokensBehind (front ++ [c]) rest = [.mistake .endInTag index, .finish]) ∨
      ∃ mid behind t stop, rest = mid ++ behind ∧
        tokensBehind (front ++ [c]) rest = t :: tokensBehind (front ++ [c] ++ mid) behind ∧
        stateAfter (.text 0) 0 behind (front ++ [c] ++ mid) = .text stop ∧
        (b.read d d.text t).Plain := by
  have htext := h.split
  have hraw := h.isRawTextTag
  obtain ⟨rfl, hahead, hopen⟩ := h.ahead
  have hpos : byteLength (front ++ ['<']) = byteLength front + 1 := byteLength_append _ _
  rcases scan_of_endsRawText hraw htext rfl hahead with
    ⟨-, index, hscan⟩ | ⟨mid, behind, nameStop, stop, rfl, -, hafter, hemitted, hname⟩
  · refine .inl ⟨index, ?_⟩
    rw [tokensBehind, hopen, hpos, hscan]
  · refine .inr ⟨mid, behind, .close (byteLength front) (byteLength front + 2) nameStop stop, stop,
      rfl, ?_, ?_, hb.closeNode d.text _ _ (hname.mpr hgoes)⟩
    · rw [tokensBehind_append, hopen, hpos, hemitted]
      rfl
    · rw [stateAfter_append, hopen, Nat.zero_add, hpos, hafter]

/-- Behind the first characters of a document the scanner and the builder go on to a tree whose
elements of raw text have no children. -/
theorem childless_tokensBehind
    (hends : ∀ name front c rest, LeavesRawText d.text name front c rest → ¬ GoesOn name rest) :
    ∀ (front cs : List Char) {b : Builder}, d.text.toList = front ++ cs →
      b.Agrees front (stateAfter (.text 0) 0 cs front) →
      ∀ e ∈ ((tokensBehind front cs).foldl (Builder.read d d.text) b).roots,
        e.All Element.Childless
  | front, [], b, _, h => h.atEnd d _
  | front, c :: rest, b, htext, h => by
    have hnext : d.text.toList = (front ++ [c]) ++ rest := by rw [htext, List.append_assoc]; rfl
    rw [tokensBehind_cons, List.foldl_append]
    by_cases hraw : ∃ name start, stateAfter (.text 0) 0 (c :: rest) front = .rawText name start
    · obtain ⟨name, start, hstate⟩ := hraw
      rw [hstate] at h
      rcases stays_or_leaves htext hstate with hstays | hleaves
      · refine childless_tokensBehind hends (front ++ [c]) rest hnext ?_
        rw [stateAfter_concat, hstate, hstays]
        exact h
      · have hread := h.step_rawText d start (byteLength front) c rest
        rw [hstate]
        rcases hleaves.goes_on (hends name front c rest hleaves) hread with
          ⟨index, hlast⟩ | ⟨mid, behind, t, stop, hrest, hclose, hafter, hplain⟩
        · rw [hlast]
          exact (hread.report .endInTag index index).finish _
        · have hshorter : behind.length < (c :: rest).length := by
            rw [hrest, List.length_cons, List.length_append]
            omega
          rw [hclose]
          refine childless_tokensBehind hends (front ++ [c] ++ mid) behind ?_ ?_
          · rw [hnext, hrest, ← List.append_assoc (front ++ [c])]
          · rw [hafter]
            exact hplain
    · refine childless_tokensBehind hends (front ++ [c]) rest hnext ?_
      rw [stateAfter_concat]
      exact h.step htext fun name start heq => hraw ⟨name, start, heq⟩
termination_by _ cs => cs.length

/-- Behind all leaves of raw text by the end tag of the element, no element of raw text has
children. -/
theorem childrenOf_rawText
    (hends : ∀ name front c rest, LeavesRawText d.text name front c rest → ¬ GoesOn name rest)
    {n : Node} (hn : n ∈ (Tree.ofDocument d).nodes) (hraw : isRawTextTag n.tag = true) :
    (Tree.ofDocument d).childrenOf n.id = [] := by
  have hempty : ({} : Builder).Agrees [] (.text 0) :=
    ⟨List.forall_mem_nil _, List.forall_mem_nil _⟩
  have hroots := childless_tokensBehind hends [] d.text.toList rfl hempty
  have hall : ∀ e ∈ (Tree.ofDocument d).elements, e.Childless :=
    Tree.forall_elements_iff.mpr fun e he => hroots e (List.mem_reverse.mp he)
  obtain ⟨e, he, rfl⟩ := Tree.exists_element hn
  rw [Tree.childrenOf_of_mem (Tree.numbered_ofDocument d).nodes he, hall e he hraw, List.map_nil]

end Run

/-- Where the scanner leaves the raw text of an element, the next token is the end tag of that
element, or the text ends inside the tag, exactly when the name in the tag does not go on
behind a slash.  If none does in a text, no element of raw text has children in a document
of that text. -/
theorem rawText_accounted (text : String) :
    (∀ name front c rest, LeavesRawText text name front c rest →
      tokens text = emitted (.text 0) 0 rest (front ++ [c]) ++ tokensBehind (front ++ [c]) rest ∧
        (OwnEndTag text name (tokensBehind (front ++ [c]) rest) ↔ ¬ GoesOn name rest)) ∧
    ((∀ name front c rest, LeavesRawText text name front c rest → ¬ GoesOn name rest) →
      ∀ d : Document, d.text = text → ∀ n ∈ (Tree.ofDocument d).nodes, isRawTextTag n.tag = true →
        (Tree.ofDocument d).childrenOf n.id = []) := by
  constructor
  · intro name front c rest h
    refine ⟨tokens_eq_append ?_, h.ownEndTag_iff⟩
    rw [h.split, List.append_assoc]
    rfl
  · rintro hends d rfl n hn hraw
    exact childrenOf_rawText hends hn hraw

/-- A document of a text without holes. -/
def textDocument (text : String) : Document :=
  { fileName := "a.ts"
    dialect := .markup
    location := ⟨0, text.utf8ByteSize⟩
    parts := [.text { text := text, span := ⟨0, text.utf8ByteSize⟩ }] }

/-- A blank behind the name does no harm. -/
theorem rawText_accounted_of_blank :
    let d := textDocument "<style>a</style ><b>"
    (∀ name front c rest, LeavesRawText d.text name front c rest → ¬ GoesOn name rest) ∧
      ∃ n ∈ (Tree.ofDocument d).nodes, isRawTextTag n.tag = true ∧
        (Tree.ofDocument d).childrenOf n.id = [] := by
  intro d
  have hends : ∀ name front c rest, LeavesRawText d.text name front c rest →
      ¬ GoesOn name rest := by
    rintro name front c rest h ⟨cs, more, rfl, -, -⟩
    -- The text has one slash only.
    have hslashes : d.text.toList.count '/' = 1 := by decide +kernel
    rw [h.split] at hslashes
    simp only [List.count_append, List.count_cons, beq_self_eq_true, if_true] at hslashes
    omega
  have hnode : ∃ n ∈ (Tree.ofDocument d).nodes, isRawTextTag n.tag = true := by decide +kernel
  obtain ⟨n, hn, hraw⟩ := hnode
  exact ⟨hends, n, hn, hraw, (rawText_accounted d.text).2 hends d rfl n hn hraw⟩

/-- The end tag that is read has the name `style/`, so that the element stays open and gets a
child. -/
theorem rawText_of_slash :
    let d := textDocument "<style></style/><b></b>"
    LeavesRawText d.text "style".toList "<style>".toList '<' "/style/><b></b>".toList ∧
      ¬ OwnEndTag d.text "style".toList
        (tokensBehind "<style><".toList "/style/><b></b>".toList) ∧
      ∃ n ∈ (Tree.ofDocument d).nodes, isRawTextTag n.tag = true ∧
        ((Tree.ofDocument d).childrenOf n.id).map (·.tag) = ["b"] := by
  intro d
  refine ⟨⟨by decide +kernel, ⟨7, by decide +kernel⟩, ?_⟩, ?_, ?_⟩
  · have hstate : stateAfter (.text 0) 0 "/style/><b></b>".toList ("<style>".toList ++ ['<']) =
        .tagOpen 7 := by decide +kernel
    rw [hstate]
    exact fun _ _ => State.noConfusion
  · have htokens : tokensBehind "<style><".toList "/style/><b></b>".toList =
        .close 7 9 15 16 :: tokensBehind "<style></style/>".toList "<b></b>".toList := by
      decide +kernel
    rw [htokens]
    rintro ⟨hsame⟩
    exact absurd hsame (by decide +kernel)
  · decide +kernel

end Markup
end Inlay
