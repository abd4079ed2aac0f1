import Inlay.Document.Slice
import Inlay.Proofs.Document.Pieces
import Inlay.Proofs.Host.Extraction
import Inlay.Proofs.Lint.Independence
import Inlay.Proofs.Markup.Nesting

/-!
# Places of diagnostics

A diagnostic lies in the document that it is reported for, and so in the place that the
document has in its host file: `diagnostics_within`.

Three facts meet here.  The rules about markup point at nothing but names, start tags and attributes
of the tree (`mem_diagnosticsOf`), and those lie in the text.  A stylesheet's error is
looked up by line and column, and is not looked for behind the end, whatever line and column a
reader reports (`offsetOf_le`).  And the text of a document, or of a slice of one, is never
longer than its place: `byteLength_textFrom_le`.
-/

namespace Inlay

open Markup

/-- The diagnostic has an ordered range in the text of the document, and one in the host file
that lies in the place of the document. -/
structure Diagnostic.Within (x : Diagnostic) (d : Document) : Prop where
  ordered : x.finding.span.start ≤ x.finding.span.stop
  inText : x.finding.span.stop ≤ d.text.utf8ByteSize
  inHost : d.location.start ≤ x.hostSpan.start ∧ x.hostSpan.stop ≤ d.location.stop

/-! ## Texts and places -/

/-- Parts that lie in order show no more than the bytes of the place. -/
theorem byteLength_textFrom_le {location : Span} {parts : List Part} {cursor lo hi : Nat}
    (h : InOrder lo hi (parts.map Part.span)) (hlocation : location.start ≤ location.stop)
    (hlo : cursor ≤ max lo location.start) (hcursor : cursor ≤ location.stop) :
    cursor + byteLength (Document.textFrom location cursor parts) ≤ location.stop := by
  induction parts generalizing cursor lo with
  | nil => exact hcursor
  | cons p rest ih =>
    obtain ⟨hstart, hspan, hrest⟩ := h
    rw [Document.textFrom]
    split
    · exact ih hrest (by omega) hcursor
    · next visible hvisible =>
      obtain ⟨hvstart, hvstop, hordered⟩ := Span.overlap?_eq_some hvisible hspan hlocation
      have hshown : byteLength (Document.shown p visible) = visible.length :=
        byteLength_shown (by omega)
      have hinner : visible.stop + byteLength (Document.textFrom location visible.stop rest) ≤
          location.stop := ih hrest (by omega) (by omega)
      rw [byteLength_append, byteLength_append, byteLength_placeholder, hshown, Span.length]
      omega

namespace Document

/-- The text is no longer than the place. -/
structure Fits (d : Document) : Prop where
  ordered : d.location.start ≤ d.location.stop
  text : d.location.start + d.text.utf8ByteSize ≤ d.location.stop

theorem fits_of_inOrder {d : Document} {lo hi : Nat} (h : InOrder lo hi (d.parts.map Part.span))
    (hlocation : d.location.start ≤ d.location.stop) : d.Fits := by
  refine ⟨hlocation, ?_⟩
  have htext : d.text.utf8ByteSize = byteLength d.chars := by
    rw [← byteLength_toList, text, String.toList_ofList]
  rw [htext]
  exact byteLength_textFrom_le h hlocation (Nat.le_max_right _ _) hlocation

/-- Clipped parts lie where the parts do. -/
theorem inOrder_clip {host : Span} (hhost : host.start ≤ host.stop) {parts : List Part}
    {lo hi : Nat} (h : InOrder lo hi (parts.map Part.span)) :
    InOrder lo hi ((parts.filterMap (clip? host)).map Part.span) := by
  induction parts generalizing lo with
  | nil => exact h
  | cons p rest ih =>
    obtain ⟨hstart, hspan, hrest⟩ := h
    cases hclip : clip? host p with
    | none =>
      rw [List.filterMap_cons_none hclip]
      exact ih (hrest.mono_left (by omega))
    | some q =>
      have hq : p.span.start ≤ q.span.start ∧ q.span.start ≤ q.span.stop ∧
          q.span.stop ≤ p.span.stop := by
        cases p with
        | hole hole =>
          rw [clip?] at hclip
          split at hclip
          · obtain rfl := Option.some.inj hclip
            exact ⟨Nat.le_refl _, hspan, Nat.le_refl _⟩
          · cases hclip
        | text t =>
          obtain ⟨clipped, hclipped, hpiece⟩ := Option.bind_eq_some_iff.mp hclip
          obtain ⟨piece, -, rfl⟩ := Option.map_eq_some_iff.mp hpiece
          obtain ⟨hcstart, hcstop, hcspan⟩ := Span.overlap?_eq_some hclipped hspan hhost
          exact ⟨hcstart ▸ Nat.le_max_left _ _, hcspan, hcstop ▸ Nat.min_le_left _ _⟩
      rw [List.filterMap_cons_some hclip]
      exact ⟨by omega, hq.2.1, ih (hrest.mono_left hq.2.2)⟩

theorem fits_slice {d : Document} {lo hi : Nat} (h : InOrder lo hi (d.parts.map Part.span))
    {r : Span} (hr : r.start ≤ r.stop) (dialect : Dialect) : (d.slice r dialect).Fits := by
  have hhost : (d.spanToHost r).start ≤ (d.spanToHost r).stop := Nat.add_le_add_right hr _
  exact fits_of_inOrder (d := d.slice r dialect) (inOrder_clip hhost h) hhost

/-- A range of the text is one of the place. -/
theorem Fits.within {d : Document} (h : d.Fits) {x : Diagnostic}
    (hlocation : x.location = d.location)
    (hspan : x.finding.span.start ≤ x.finding.span.stop)
    (htext : x.finding.span.stop ≤ d.text.utf8ByteSize) : x.Within d := by
  have hstart : x.hostSpan.start = x.finding.span.start + d.location.start := by
    rw [Diagnostic.hostSpan, hlocation, Span.shift]
  have hstop : x.hostSpan.stop = x.finding.span.stop + d.location.start := by
    rw [Diagnostic.hostSpan, hlocation, Span.shift]
  have hfits := h.text
  exact ⟨hspan, htext, by omega, by omega⟩

end Document

/-! ## Stylesheets -/

namespace Stylesheet

theorem byteLength_fromLine_le (line : Nat) (cs : List Char) :
    byteLength (fromLine line cs) ≤ byteLength cs := by
  fun_induction fromLine line cs with
  | case1 cs => exact Nat.le_refl _
  | case2 => exact Nat.le_refl _
  | case3 line c cs _ ih =>
    rw [byteLength_cons]
    omega
  | case4 line c cs _ ih =>
    rw [byteLength_cons]
    omega

theorem byteLength_takeWhile_le (p : Char → Bool) (cs : List Char) :
    byteLength (cs.takeWhile p) ≤ byteLength cs := by
  have hsplit := byteLength_append (cs.takeWhile p) (cs.dropWhile p)
  rw [List.takeWhile_append_dropWhile] at hsplit
  omega

/-- The place of an error is in the text, wherever the reader says that it is. -/
theorem offsetOf_le (text : String) (m : Mark) : offsetOf text m ≤ text.utf8ByteSize := by
  have hline := byteLength_fromLine_le m.line text.toList
  have hrest := byteLength_takeWhile_le (· != '\n') (fromLine m.line text.toList)
  rw [byteLength_toList] at hline
  rw [offsetOf]
  omega

end Stylesheet

theorem Document.Fits.checkWith {d : Document} (h : d.Fits)
    (error? : String → Option Stylesheet.Error) (settings : Settings) :
    ∀ x ∈ InvalidCss.checkWith error? settings d, x.Within d := by
  intro x hx
  rw [InvalidCss.checkWith] at hx
  split at hx
  · exact absurd hx List.not_mem_nil
  · obtain ⟨e, -, rfl⟩ := Option.map_eq_some_iff.mp (Option.mem_toList.mp hx)
    have hoffset := Stylesheet.offsetOf_le d.text e.mark
    refine h.within rfl (Nat.le_max_left _ _) ?_
    show max _ (min _ _) ≤ _
    omega

/-! ## Rules about markup -/

namespace Consult

/-- Whatever is known, everything that is found has the property. -/
def All {α : Type} (P : α → Prop) (c : Consult (List α)) : Prop :=
  ∀ kb, ∀ x ∈ c.value kb, P x

variable {α β : Type} {P : α → Prop}

theorem all_pure {xs : List α} (h : ∀ x ∈ xs, P x) : (pure xs : Consult (List α)).All P :=
  fun _ => h

theorem all_nil : (pure [] : Consult (List α)).All P := all_pure (List.forall_mem_nil _)

theorem all_singleton {x : α} (h : P x) : (pure [x] : Consult (List α)).All P :=
  all_pure (List.forall_mem_singleton.mpr h)

theorem all_bind (c : Consult β) {f : β → Consult (List α)} (h : ∀ b, (f b).All P) :
    (c >>= f).All P :=
  fun kb => h (c.value kb) kb

end Consult

/-- The finding is about the name or the start tag of a node. -/
def Finding.PointsAtNode (n : Node) (f : Finding) : Prop :=
  f.span = n.nameSpan ∨ f.span = n.startTag

/-- The finding is about an attribute or its name. -/
def Finding.PointsAtAttribute (a : Attribute) (f : Finding) : Prop :=
  f.span = a.nameSpan ∨ f.span = a.whole

/-- A rule whose findings are about what it is shown. -/
structure Rule.Points (r : Rule) : Prop where
  onNode : ∀ s n, (r.onNode s n).All (Finding.PointsAtNode n)
  onAttribute : ∀ s n a, (r.onAttribute s n a).All (Finding.PointsAtAttribute a)
  onAssignment : ∀ s n a x types, ∀ f ∈ r.onAssignment s n a x types, f.PointsAtAttribute a

theorem unknownTagName_points : unknownTagName.Points := by
  refine ⟨fun s n => ?_, fun _ _ _ => Consult.all_nil, fun _ _ _ _ _ => List.forall_mem_nil _⟩
  show (UnknownTagName.onNode s n).All (Finding.PointsAtNode n)
  rw [UnknownTagName.onNode]
  split
  · exact Consult.all_nil
  · refine Consult.all_bind _ fun known => ?_
    split
    · exact Consult.all_nil
    · exact Consult.all_bind _ fun tags => Consult.all_singleton (.inl rfl)

theorem missingImport_points : missingImport.Points := by
  refine ⟨fun s n => ?_, fun _ _ _ => Consult.all_nil, fun _ _ _ _ _ => List.forall_mem_nil _⟩
  show (MissingImport.onNode s n).All (Finding.PointsAtNode n)
  rw [MissingImport.onNode]
  split
  · exact Consult.all_nil
  split
  · exact Consult.all_nil
  · refine Consult.all_bind _ fun found => ?_
    split
    · exact Consult.all_nil
    · refine Consult.all_pure fun f hf => ?_
      obtain ⟨file, -, rfl⟩ := Option.map_eq_some_iff.mp (Option.mem_toList.mp hf)
      exact .inl rfl

theorem unclosedTag_points : unclosedTag.Points := by
  refine ⟨fun s n => ?_, fun _ _ _ => Consult.all_nil, fun _ _ _ _ _ => List.forall_mem_nil _⟩
  show (UnclosedTag.onNode s n).All (Finding.PointsAtNode n)
  rw [UnclosedTag.onNode]
  split
  · exact Consult.all_singleton (.inr rfl)
  · exact Consult.all_nil

theorem unknownAttribute_points : unknownAttribute.Points := by
  refine ⟨fun _ _ => Consult.all_nil, fun s n a => ?_, fun _ _ _ _ _ => List.forall_mem_nil _⟩
  show (UnknownAttribute.onAttribute s n a).All (Finding.PointsAtAttribute a)
  rw [UnknownAttribute.onAttribute]
  split
  · exact Consult.all_nil
  split
  · exact Consult.all_nil
  · refine Consult.all_bind _ fun known => ?_
    split
    · exact Consult.all_nil
    · refine Consult.all_bind _ fun attributes => ?_
      split
      · exact Consult.all_nil
      · exact Consult.all_singleton (.inl rfl)

theorem unknownProperty_points : unknownProperty.Points := by
  refine ⟨fun _ _ => Consult.all_nil, fun s n a => ?_, fun _ _ _ _ _ => List.forall_mem_nil _⟩
  show (UnknownProperty.onAttribute s n a).All (Finding.PointsAtAttribute a)
  rw [UnknownProperty.onAttribute]
  split
  · exact Consult.all_nil
  · refine Consult.all_bind _ fun known => ?_
    split
    · exact Consult.all_nil
    · refine Consult.all_bind _ fun properties => Consult.all_bind _ fun attributes => ?_
      split
      · exact Consult.all_nil
      · exact Consult.all_singleton (.inl rfl)

theorem unknownEvent_points : unknownEvent.Points := by
  refine ⟨fun _ _ => Consult.all_nil, fun s n a => ?_, fun _ _ _ _ _ => List.forall_mem_nil _⟩
  show (UnknownEvent.onAttribute s n a).All (Finding.PointsAtAttribute a)
  rw [UnknownEvent.onAttribute]
  split
  · exact Consult.all_nil
  · refine Consult.all_bind _ fun events => ?_
    split
    · exact Consult.all_nil
    · exact Consult.all_singleton (.inl rfl)

theorem unknownSlot_points : unknownSlot.Points := by
  refine ⟨fun s n => ?_, fun s n a => ?_, fun _ _ _ _ _ => List.forall_mem_nil _⟩
  · show (UnknownSlot.onNode s n).All (Finding.PointsAtNode n)
    rw [UnknownSlot.onNode]
    split
    · exact Consult.all_nil
    split
    · exact Consult.all_nil
    · refine Consult.all_bind _ fun found => ?_
      split
      · exact Consult.all_nil
      · split
        · exact Consult.all_nil
        · exact Consult.all_singleton (.inl rfl)
  · show (UnknownSlot.onAttribute s n a).All (Finding.PointsAtAttribute a)
    rw [UnknownSlot.onAttribute]
    split
    · exact Consult.all_nil
    split
    · exact Consult.all_nil
    split
    · exact Consult.all_nil
    · refine Consult.all_bind _ fun found => ?_
      split
      · exact Consult.all_nil
      · split
        · exact Consult.all_nil
        · exact Consult.all_singleton (.inr rfl)

/-- A rule that only looks at assignments, and whose findings are about the attribute. -/
theorem Rule.points_onAssignment {info : RuleInfo}
    {look : Scene → Node → Attribute → Assignment → BindingTypes → List Finding}
    (h : ∀ s n a x types, ∀ f ∈ look s n a x types, f.span = a.whole) :
    Rule.Points { info := info, onAssignment := look } :=
  ⟨fun _ _ => Consult.all_nil, fun _ _ _ => Consult.all_nil,
    fun s n a x types f hf => .inr (h s n a x types f hf)⟩

theorem invalidBoolean_points : invalidBoolean.Points := by
  refine Rule.points_onAssignment fun _ _ a _ types f hf => ?_
  rw [InvalidBoolean.check] at hf
  split at hf
  · exact absurd hf List.not_mem_nil
  · obtain rfl := List.mem_singleton.mp hf
    rfl

theorem expressionlessProperty_points : expressionlessProperty.Points := by
  refine Rule.points_onAssignment fun _ _ a x _ f hf => ?_
  rw [ExpressionlessProperty.check] at hf
  split at hf
  · exact absurd hf List.not_mem_nil
  · obtain rfl := List.mem_singleton.mp hf
    rfl

theorem noncallableEvent_points : noncallableEvent.Points := by
  refine Rule.points_onAssignment fun _ _ a _ types f hf => ?_
  rw [NoncallableEvent.check] at hf
  split at hf
  · exact absurd hf List.not_mem_nil
  · obtain rfl := List.mem_singleton.mp hf
    rfl

theorem complexAttribute_points : complexAttribute.Points := by
  refine Rule.points_onAssignment fun s n a x types f hf => ?_
  rw [ComplexAttribute.check] at hf
  split at hf
  · exact absurd hf List.not_mem_nil
  · obtain ⟨message, -, rfl⟩ := Option.map_eq_some_iff.mp (Option.mem_toList.mp hf)
    rfl

theorem nullableAttribute_points : nullableAttribute.Points := by
  refine Rule.points_onAssignment fun _ _ a x types f hf => ?_
  rw [NullableAttribute.check] at hf
  split at hf
  · exact absurd hf List.not_mem_nil
  · obtain rfl := List.mem_singleton.mp hf
    rfl

theorem IncompatibleType.span_compare {s : Settings} {tag : String} {a : Attribute}
    {written : Value} {types : BindingTypes} {value : StaticType} :
    ∀ f ∈ compare s tag a written types value, f.span = a.whole := by
  intro f hf
  rw [compare] at hf
  split at hf
  · split at hf
    · exact absurd hf List.not_mem_nil
    · obtain rfl := List.mem_singleton.mp hf
      rfl
  · split at hf
    · exact absurd hf List.not_mem_nil
    split at hf
    · exact absurd hf List.not_mem_nil
    split at hf
    · exact absurd hf List.not_mem_nil
    · obtain rfl := List.mem_singleton.mp hf
      rfl

theorem incompatibleType_points : incompatibleType.Points := by
  refine Rule.points_onAssignment fun s n a x types f hf => ?_
  rw [IncompatibleType.check] at hf
  split at hf
  · exact absurd hf List.not_mem_nil
  split at hf
  · exact absurd hf List.not_mem_nil
  · exact IncompatibleType.span_compare f hf

theorem invalidDirective_points : invalidDirective.Points := by
  refine Rule.points_onAssignment fun _ _ a _ types f hf => ?_
  obtain ⟨message, -, rfl⟩ := Option.map_eq_some_iff.mp (Option.mem_toList.mp hf)
  rfl

/-- Every rule about markup points at what it is shown. -/
theorem markupRules_point : ∀ r ∈ markupRules, r.Points := by
  intro r hr
  simp only [markupRules, List.mem_cons, List.not_mem_nil, or_false] at hr
  rcases hr with rfl | rfl | rfl | rfl | rfl | rfl | rfl | rfl | rfl | rfl | rfl | rfl | rfl | rfl
  · exact unknownTagName_points
  · exact missingImport_points
  · exact unclosedTag_points
  · exact unknownAttribute_points
  · exact unknownProperty_points
  · exact unknownEvent_points
  · exact unknownSlot_points
  · exact invalidBoolean_points
  · exact expressionlessProperty_points
  · exact noncallableEvent_points
  · exact complexAttribute_points
  · exact nullableAttribute_points
  · exact incompatibleType_points
  · exact invalidDirective_points

/-! ## The walk -/

/-- The diagnostic is about a node, or about an attribute of it. -/
def Diagnostic.PointsInto (n : Node) (x : Diagnostic) : Prop :=
  x.finding.PointsAtNode n ∨ ∃ a ∈ n.attributes, x.finding.PointsAtAttribute a

namespace Engine

variable {rules : List Enabled} {s : Scene} {typeOf : HostExpression → StaticType}
  {memo : BindingMemo} {kb : Knowledge} {x : Diagnostic}

theorem mem_run {look : Rule → Consult (List Finding)}
    (hx : x ∈ (Enabled.run s look rules).value kb) :
    x.location = s.document.location ∧ ∃ e ∈ rules, x.finding ∈ (look e.rule).value kb := by
  rw [Enabled.value_run] at hx
  obtain ⟨e, he, hmap⟩ := List.mem_flatMap.mp hx
  obtain ⟨f, hf, rfl⟩ := List.mem_map.mp hmap
  exact ⟨rfl, e, he, hf⟩

theorem mem_checkAttribute (hrules : ∀ e ∈ rules, e.rule.Points) {n : Node} {a : Attribute}
    (hx : x ∈ ((checkAttribute rules s typeOf memo n a).value kb).diagnostics) :
    x.location = s.document.location ∧ x.finding.PointsAtAttribute a := by
  have hname : x ∈ (Enabled.run s (fun r => r.onAttribute s n a) rules).value kb →
      x.location = s.document.location ∧ x.finding.PointsAtAttribute a := by
    intro hrun
    obtain ⟨hlocation, e, he, hfound⟩ := mem_run hrun
    exact ⟨hlocation, (hrules e he).onAttribute s n a kb _ hfound⟩
  rw [checkAttribute, Consult.value_bind] at hx
  cases hassigned : a.assignment with
  | none =>
    rw [hassigned] at hx
    exact hname hx
  | some y =>
    rw [hassigned] at hx
    rcases List.mem_append.mp hx with hrun | hrun
    · exact hname hrun
    · obtain ⟨hlocation, e, he, hfound⟩ := mem_run hrun
      exact ⟨hlocation, (hrules e he).onAssignment s n a y _ _ hfound⟩

theorem mem_checkAttributes (hrules : ∀ e ∈ rules, e.rule.Points) {n : Node}
    {as : List Attribute}
    (hx : x ∈ ((checkAttributes rules s typeOf memo n as).value kb).diagnostics) :
    x.location = s.document.location ∧ ∃ a ∈ as, x.finding.PointsAtAttribute a := by
  induction as with
  | nil => exact absurd hx List.not_mem_nil
  | cons a rest ih =>
    rcases List.mem_append.mp hx with hfirst | hrest
    · obtain ⟨hlocation, hpoints⟩ := mem_checkAttribute hrules hfirst
      exact ⟨hlocation, a, List.mem_cons_self, hpoints⟩
    · obtain ⟨hlocation, b, hb, hpoints⟩ := ih hrest
      exact ⟨hlocation, b, List.mem_cons_of_mem a hb, hpoints⟩

theorem mem_checkNode (hrules : ∀ e ∈ rules, e.rule.Points) {n : Node}
    (hx : x ∈ ((checkNode rules s typeOf memo n).value kb).diagnostics) :
    x.location = s.document.location ∧ x.PointsInto n := by
  have hnode : x ∈ (Enabled.run s (fun r => r.onNode s n) rules).value kb →
      x.location = s.document.location ∧ x.PointsInto n := by
    intro hrun
    obtain ⟨hlocation, e, he, hfound⟩ := mem_run hrun
    exact ⟨hlocation, .inl ((hrules e he).onNode s n kb _ hfound)⟩
  rw [checkNode, Consult.value_bind] at hx
  dsimp only at hx
  split at hx
  · exact hnode hx
  · rcases List.mem_append.mp hx with hrun | hattributes
    · exact hnode hrun
    · obtain ⟨hlocation, a, ha, hpoints⟩ := mem_checkAttributes hrules hattributes
      exact ⟨hlocation, .inr ⟨a, ha, hpoints⟩⟩

theorem mem_checkNodes (hrules : ∀ e ∈ rules, e.rule.Points) {ns : List Node}
    (hx : x ∈ ((checkNodes rules s typeOf memo ns).value kb).diagnostics) :
    x.location = s.document.location ∧ ∃ n ∈ ns, x.PointsInto n := by
  induction ns with
  | nil => exact absurd hx List.not_mem_nil
  | cons n rest ih =>
    rcases List.mem_append.mp hx with hfirst | hrest
    · obtain ⟨hlocation, hpoints⟩ := mem_checkNode hrules hfirst
      exact ⟨hlocation, n, List.mem_cons_self, hpoints⟩
    · obtain ⟨hlocation, m, hm, hpoints⟩ := ih hrest
      exact ⟨hlocation, m, List.mem_cons_of_mem n hm, hpoints⟩

/-- A check of markup reports nothing but diagnostics of the document about its nodes. -/
theorem mem_diagnosticsOf {types : TypeProvider} (hx : x ∈ diagnosticsOf s types memo kb) :
    x.location = s.document.location ∧ ∃ n ∈ s.tree.nodes, x.PointsInto n := by
  rw [diagnosticsOf_eq] at hx
  refine mem_checkNodes (fun e he => ?_) hx
  obtain ⟨r, hr, hmap⟩ := List.mem_filterMap.mp he
  obtain ⟨severity, -, rfl⟩ := Option.map_eq_some_iff.mp hmap
  exact markupRules_point r hr

end Engine

/-! ## Trees -/

/-- The name, the start tag and the attributes of an element lie in it. -/
theorem Markup.Element.Nested.pointsInto {e : Element} (h : e.Nested) {x : Diagnostic}
    (hx : x.PointsInto e.node) :
    x.finding.span.start ≤ x.finding.span.stop ∧ x.finding.span.stop ≤ e.whole.stop := by
  have hbegins := h.begins
  have htag : e.node.startTag.stop ≤ e.whole.stop := h.startTag_le
  have hattributes := hbegins.attributes.le
  rcases hx with (hspan | hspan) | ⟨a, ha, hspan | hspan⟩
  · have hordered := hbegins.name
    rw [hspan]
    omega
  · have hordered := hbegins.name
    have hstart := hbegins.name_start
    rw [hspan]
    omega
  · have hordered := hbegins.ordered a ha
    have hstart := hordered.name
    have hstop := hordered.name_stop
    have hinside := hbegins.attributes.mem (List.mem_map_of_mem ha)
    rw [hspan]
    omega
  · have hinside := hbegins.attributes.mem (List.mem_map_of_mem ha)
    rw [hspan]
    omega

/-- So does the content of an element. -/
theorem Markup.Element.Nested.content {e : Element} (h : e.Nested) {r : Span}
    (hr : e.node.content? = some r) : r.start ≤ r.stop ∧ r.stop ≤ e.whole.stop := by
  obtain ⟨tag, htag, rfl⟩ := Option.map_eq_some_iff.mp hr
  have hstart := h.startTag_le_endTag htag
  obtain ⟨hspan, hstop⟩ := h.endTag tag htag
  rw [Span.of, Nat.max_eq_right hstart]
  exact ⟨hstart, Nat.le_trans hspan hstop⟩

theorem Markup.Tree.styleContents_le {d : Document} {r : Span}
    (hr : r ∈ (Tree.ofDocument d).styleContents) :
    r.start ≤ r.stop ∧ r.stop ≤ d.text.utf8ByteSize := by
  obtain ⟨n, hn, hcontent⟩ := List.mem_filterMap.mp hr
  obtain ⟨e, he, rfl⟩ := exists_element hn
  split at hcontent
  · have hroots := rootsNested_ofDocument d
    obtain ⟨hordered, hstop⟩ := (hroots.nested_of_mem he).content hcontent
    exact ⟨hordered, Nat.le_trans hstop (hroots.whole_stop_le he)⟩
  · cases hcontent

/-! ## Documents of host files -/

namespace Document

/-- A document by itself, or a style element in its markup as a stylesheet. -/
inductive Holds (d : Document) : Document → Prop
  | self : d.Holds d
  | style {r : Span} (h : r ∈ (Tree.ofDocument d).styleContents) : d.Holds (d.slice r .stylesheet)

/-- Whatever the settings, the knowledge, the types and the reader of stylesheets are, checks of
a document report only what lies in it. -/
structure ChecksWithin (d : Document) : Prop where
  markup : ∀ settings visibleFiles types memo kb,
    ∀ x ∈ Engine.diagnosticsOf
        { document := d, tree := Tree.ofDocument d, settings := settings,
          visibleFiles := visibleFiles } types memo kb,
      x.Within d
  stylesheet : ∀ error? settings, ∀ x ∈ InvalidCss.checkWith error? settings d, x.Within d

theorem Fits.checksWithin {d : Document} (h : d.Fits) : d.ChecksWithin := by
  refine ⟨fun settings visibleFiles types memo kb x hx => ?_, h.checkWith⟩
  obtain ⟨hlocation, n, hn, hpoints⟩ := Engine.mem_diagnosticsOf hx
  obtain ⟨e, he, rfl⟩ := Tree.exists_element hn
  have hroots := Tree.rootsNested_ofDocument d
  obtain ⟨hspan, hstop⟩ := (hroots.nested_of_mem he).pointsInto hpoints
  exact h.within hlocation hspan (Nat.le_trans hstop (hroots.whole_stop_le he))

/-- What a document of a host file holds lies in it, and is checked within itself. -/
theorem Mirrors.checksWithin {source : String} {d e : Document} (h : d.Mirrors source)
    (he : d.Holds e) :
    d.location.start ≤ e.location.start ∧ e.location.stop ≤ d.location.stop ∧ e.ChecksWithin := by
  have hinside := h.inside.1
  have hlength : d.text.utf8ByteSize = d.location.stop - d.location.start := h.length
  cases he with
  | self =>
    exact ⟨Nat.le_refl _, Nat.le_refl _, (fits_of_inOrder h.tiles.inOrder hinside).checksWithin⟩
  | style hr =>
    rename_i r
    obtain ⟨hordered, hstop⟩ := Tree.styleContents_le hr
    refine ⟨Nat.le_add_left _ _, ?_, (fits_slice h.tiles.inOrder hordered .stylesheet).checksWithin⟩
    show r.stop + d.location.start ≤ d.location.stop
    omega

end Document

/-- Every check of a document of a host file, or of a style element in it, reports only what
lies in what is checked; and a style element lies in the document. -/
theorem diagnostics_within (fileName source : String) :
    (∀ literals : List Literal, (∀ l ∈ literals, l.Placed source) →
        ∀ d ∈ Literal.documents fileName source literals, ∀ e, d.Holds e →
          d.location.start ≤ e.location.start ∧ e.location.stop ≤ d.location.stop ∧
            e.ChecksWithin) ∧
      ∀ parse : HostParser, parse.Places → ∀ tags docs,
        documents? parse fileName source tags = some docs → ∀ d ∈ docs, ∀ e, d.Holds e →
          d.location.start ≤ e.location.start ∧ e.location.stop ≤ d.location.stop ∧
            e.ChecksWithin := by
  refine ⟨fun literals h d hd e he => ?_, fun parse hplaces tags docs h d hd e he => ?_⟩
  · exact ((Literal.extracted_documents h fileName).mirrors d hd).checksWithin he
  · exact ((hplaces.extracted h).mirrors d hd).checksWithin he

/-- A style element that holds a hole and a letter. -/
def styledSource : String := "html\x60<style>$\x7bb\x7dx</style>\x60"

/-- The template in it. -/
def styledTemplate : TaggedTemplate :=
  { tag := .identifier ⟨0, 4⟩ "html", span := ⟨4, 26⟩, texts := [⟨5, 12⟩, ⟨16, 25⟩]
    expressions := [.identifier ⟨14, 15⟩ "b"] }

/-- A parser of stylesheets that puts an error behind the end of the style element. -/
theorem diagnostics_within_styledSource :
    let l : Literal := ⟨⟨4, 26⟩, .markup, [(⟨12, 16⟩, .identifier ⟨14, 15⟩ "b")]⟩
    let d := l.toDocument "a.ts" styledSource 0
    let e := d.slice ⟨7, 12⟩ .stylesheet
    let error? : Stylesheet.Parser := fun _ => some ⟨"Unexpected end of input", some ⟨7, 10⟩⟩
    let parse := HostParser.ofSource styledSource [styledTemplate]
    (l.Placed styledSource ∧ d ∈ Literal.documents "a.ts" styledSource [l] ∧ d.Holds e) ∧
      (InvalidCss.checkWith error? {} e).length = 1 ∧
      (∀ x ∈ InvalidCss.checkWith error? {} e, x.Within e) ∧
      parse.Places ∧ documents? parse "a.ts" styledSource {} = some [d] ∧ e.ChecksWithin := by
  intro l d e error? parse
  have hplaced : l.Placed styledSource := by decide +kernel
  have hone : Literal.documents "a.ts" styledSource [l] = [d] := by
    rw [Literal.documents, Literal.documentsFrom, Literal.documentsFrom, List.mergeSort_singleton]
  have hd : d ∈ Literal.documents "a.ts" styledSource [l] := by
    rw [hone]
    exact List.mem_singleton_self d
  have he : d.Holds e := .style (by decide +kernel)
  have hplaces : parse.Places :=
    HostParser.places_ofSource (List.forall_mem_singleton.mpr (by decide +kernel))
  have hknown : parse "a.ts" styledSource = some [styledTemplate] :=
    HostParser.ofSource_known _ _ _
  have hparse : documents? parse "a.ts" styledSource {} = some [d] := by
    rw [documents?, hknown, ← hone]
    rfl
  obtain ⟨hliterals, hparsed⟩ := diagnostics_within "a.ts" styledSource
  have hwithin := hliterals [l] (List.forall_mem_singleton.mpr hplaced) d hd e he
  exact ⟨⟨hplaced, hd, he⟩, by decide +kernel, hwithin.2.2.stylesheet error? {}, hplaces, hparse,
    (hparsed parse hplaces {} [d] hparse d (List.mem_singleton_self d) e he).2.2⟩

end Inlay
