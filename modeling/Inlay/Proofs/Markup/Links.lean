import Inlay.Proofs.Markup.Nesting

/-!
# Links

A node names the node around it by its number, takes over from it that it lies in an `svg`
element, and is found among its children: `linked_ofDocument`.

While a tree is made, the frames are the rightmost path of the tree: each frame will be a child
of the next one, and the current node one of the innermost.  So a node that is below the
innermost frame when its name is read is below the same node when that has become an
element.  An end tag is read only outside start tags, which `Path` says, so no current node
loses its frame.
-/

namespace Inlay
namespace Markup

/-- A node has been begun inside another, or inside none. -/
structure Node.Below (outer : Option Node) (n : Node) : Prop where
  parent : n.parent = outer.map (·.id)
  kind : n.kind = Kind.of (outer.map (·.kind)) n.tag

/-- Nothing can be inside a node. -/
def Node.IsLeaf (n : Node) : Prop := n.selfClosed = true ∨ n.isVoid = true

structure Element.Linked (e : Element) : Prop where
  children : ∀ c ∈ e.children, c.node.Below (some e.node)
  leaf : e.node.IsLeaf → e.children = []

theorem Element.linked_leaf (n : Node) : (Element.mk n []).All Element.Linked :=
  Element.all_mk.mpr ⟨⟨List.forall_mem_nil _, fun _ => rfl⟩, List.forall_mem_nil _⟩

/-! ## Open elements -/

structure Frame.Linked (f : Frame) : Prop where
  inner : ¬ f.node.IsLeaf
  below : ∀ e ∈ f.done, e.node.Below (some f.node)
  done : ∀ e ∈ f.done, e.All Element.Linked

/-- The node that begins next is begun inside this one. -/
def innermost (fs : List Frame) : Option Node := fs.head?.map (·.node)

/-- Each frame is begun inside the next one. -/
def FramesLinked : List Frame → Prop
  | [] => True
  | f :: outer => f.Linked ∧ f.node.Below (innermost outer) ∧ FramesLinked outer

structure Builder.Linked (b : Builder) : Prop where
  roots : ∀ e ∈ b.roots, e.node.Below none ∧ e.All Element.Linked
  frames : FramesLinked b.frames
  current : ∀ n, b.current = some n → n.Below (innermost b.frames)

section Open

variable {f : Frame} {e : Element} {fs : List Frame}

theorem Frame.Linked.add (h : f.Linked) (hbelow : e.node.Below (some f.node))
    (he : e.All Element.Linked) : (f.add e).Linked :=
  ⟨h.inner, List.forall_mem_cons.mpr ⟨hbelow, h.below⟩, List.forall_mem_cons.mpr ⟨he, h.done⟩⟩

theorem Frame.Linked.toElement (h : f.Linked) : f.toElement.All Element.Linked := by
  refine Element.all_mk.mpr ⟨⟨fun c hc => h.below c (List.mem_reverse.mp hc), ?_⟩,
    fun c hc => h.done c (List.mem_reverse.mp hc)⟩
  intro hleaf
  exact absurd hleaf h.inner

/-- The links of a frame stay when its node is given an end. -/
theorem Frame.Linked.withNode (h : f.Linked) {n : Node} (hid : n.id = f.node.id)
    (hkind : n.kind = f.node.kind) (hleaf : n.IsLeaf ↔ f.node.IsLeaf) :
    { f with node := n }.Linked := by
  refine ⟨fun hn => h.inner (hleaf.mp hn), ?_, h.done⟩
  intro e he
  obtain ⟨hparent, hof⟩ := h.below e he
  constructor
  · rw [hparent, Option.map_some, Option.map_some, hid]
  · rw [hof, Option.map_some, Option.map_some, hkind]

theorem Frame.Linked.endAt (h : f.Linked) (stop : Nat) : (f.endAt stop).Linked :=
  h.withNode rfl rfl Iff.rfl

theorem linked_closeIn {name : String} {tag : Span} (h : FramesLinked fs) {rest : List Frame}
    (hclose : Builder.closeIn name tag fs = some (e, rest)) :
    e.node.Below (innermost rest) ∧ e.All Element.Linked ∧ FramesLinked rest := by
  fun_induction Builder.closeIn name tag fs with
  | case1 => exact absurd hclose.symm (Option.some_ne_none _)
  | case2 f rest' _ =>
    obtain ⟨hf, hbelow, hrest⟩ := h
    obtain ⟨rfl, rfl⟩ := Prod.mk.inj (Option.some.inj hclose)
    have hclosed := hf.withNode (n := { f.node.endAt tag.stop with endTag := some tag }) rfl rfl
      Iff.rfl
    exact ⟨⟨hbelow.parent, hbelow.kind⟩, hclosed.toElement, hrest⟩
  | case3 => exact absurd hclose.symm (Option.some_ne_none _)
  | case4 f _ g outer ih =>
    obtain ⟨hf, hbelow, hg, hrest⟩ := h
    have hadd := hg.add (e := (f.endAt tag.start).toElement) ⟨hbelow.parent, hbelow.kind⟩
      (hf.endAt tag.start).toElement
    exact ih ⟨hadd, hrest⟩ hclose

theorem linked_closeAll {stop : Nat} {roots : List Element}
    (hroots : ∀ e ∈ roots, e.node.Below none ∧ e.All Element.Linked) (h : FramesLinked fs) :
    ∀ e ∈ Builder.closeAll stop roots fs, e.node.Below none ∧ e.All Element.Linked := by
  fun_induction Builder.closeAll stop roots fs with
  | case1 => exact hroots
  | case2 f =>
    obtain ⟨hf, hbelow, -⟩ := h
    have hnode : (f.endAt stop).toElement.node.Below none := ⟨hbelow.parent, hbelow.kind⟩
    exact List.forall_mem_cons.mpr ⟨⟨hnode, (hf.endAt stop).toElement⟩, hroots⟩
  | case3 f g outer ih =>
    obtain ⟨hf, hbelow, hg, hrest⟩ := h
    have hadd := hg.add (e := (f.endAt stop).toElement) ⟨hbelow.parent, hbelow.kind⟩
      (hf.endAt stop).toElement
    exact ih ⟨hadd, hrest⟩

end Open

/-! ## Reading -/

namespace Builder

variable {b : Builder} {n : Node}

theorem innermost_add (b : Builder) (e : Element) :
    innermost (b.add e).frames = innermost b.frames := by
  rw [Builder.add]
  split
  · rfl
  · next f rest hframes =>
    rw [hframes]
    rfl

theorem Linked.add (h : b.Linked) {e : Element} (hbelow : e.node.Below (innermost b.frames))
    (he : e.All Element.Linked) : (b.add e).Linked := by
  have hframes := h.frames
  have hinnermost := innermost_add b e
  refine ⟨?_, ?_, ?_⟩
  · rw [Builder.add]
    split
    · next hnil =>
      rw [hnil] at hbelow
      exact List.forall_mem_cons.mpr ⟨⟨hbelow, he⟩, h.roots⟩
    · exact h.roots
  · rw [Builder.add]
    split
    · exact hframes
    · next f rest hcons =>
      rw [hcons] at hframes hbelow
      exact ⟨hframes.1.add hbelow he, hframes.2⟩
  · intro n hn
    rw [current_add] at hn
    rw [hinnermost]
    exact h.current n hn

theorem Linked.withoutCurrent (h : b.Linked) : { b with current := none }.Linked :=
  ⟨h.roots, h.frames, fun _ hn => absurd hn.symm (Option.some_ne_none _)⟩

theorem Linked.dropCurrent (h : b.Linked) : b.dropCurrent.Linked := by
  rw [Builder.dropCurrent]
  split
  · next n hn =>
    have hadd := h.add (e := .mk n []) (h.current n hn) (Element.linked_leaf n)
    exact hadd.withoutCurrent
  · exact h

theorem Linked.openNode (h : b.Linked) (text : String) (name : Span) :
    (b.openNode text name).Linked := by
  have hdropped := h.dropCurrent
  refine ⟨hdropped.roots, hdropped.frames, ?_⟩
  intro n hn
  rw [← Option.some.inj hn]
  exact ⟨rfl, rfl⟩

theorem Linked.endStartTag (h : b.Linked) (stop : Nat) (selfClosed : Bool) :
    (b.endStartTag stop selfClosed).Linked := by
  rw [Builder.endStartTag]
  split
  · exact h
  · next n hn =>
    have hbelow := h.current n hn
    have hended : ({ n.endStartTag stop with selfClosed := selfClosed } : Node).Below
        (innermost b.frames) := ⟨hbelow.parent, hbelow.kind⟩
    dsimp only
    split
    · exact h.withoutCurrent.add hended (Element.linked_leaf _)
    · next hinner =>
      refine ⟨h.roots, ⟨⟨?_, List.forall_mem_nil _, List.forall_mem_nil _⟩, hended, h.frames⟩,
        fun _ hm => absurd hm.symm (Option.some_ne_none _)⟩
      intro hleaf
      exact hinner (Bool.or_eq_true _ _ ▸ hleaf)

theorem Linked.closeNode (h : b.Linked) (hcurrent : b.current = none) (text : String)
    (tag name : Span) : (b.closeNode text tag name).Linked := by
  rw [Builder.closeNode]
  split
  · next e frames hclose =>
    obtain ⟨hbelow, he, hframes⟩ := linked_closeIn h.frames hclose
    have hb : { b with frames := frames }.Linked := by
      refine ⟨h.roots, hframes, ?_⟩
      intro n hn
      exact absurd (hn.symm.trans hcurrent) (Option.some_ne_none n)
    exact hb.add hbelow he
  · exact ⟨h.roots, h.frames, h.current⟩

theorem Linked.addAttribute (h : b.Linked) (d : Document) (text : String) (p : Pending)
    (quote : Quote) (stop : Nat) : (b.addAttribute d text p quote stop).Linked := by
  rw [Builder.addAttribute]
  split
  · exact h
  · next n hn =>
    dsimp only
    split
    · exact h
    · refine ⟨h.roots, h.frames, ?_⟩
      intro m hm
      rw [← Option.some.inj hm]
      exact ⟨(h.current n hn).parent, (h.current n hn).kind⟩

theorem Linked.finish (h : b.Linked) (stop : Nat) :
    ∀ e ∈ (b.finish stop).roots, e.node.Below none ∧ e.All Element.Linked := by
  have hended : { b with current := b.current.map fun n : Node => n.endStartTag stop }.Linked := by
    refine ⟨h.roots, h.frames, ?_⟩
    intro m hm
    obtain ⟨n, hn, rfl⟩ := Option.map_eq_some_iff.mp hm
    exact ⟨(h.current n hn).parent, (h.current n hn).kind⟩
  exact linked_closeAll hended.dropCurrent.roots hended.dropCurrent.frames

/-- Reading a token keeps the links.  That no end tag comes inside a start tag is known from the
phase. -/
theorem Linked.read {φ φ' : Phase} {pos pos' : Nat} {t : Token} (h : b.Linked)
    (hn : b.NestedAt pos φ) (ht : Follows φ pos t φ' pos') (d : Document) (text : String) :
    (b.read d text t).Linked := by
  cases ht with
  | text => exact h
  | comment => exact h
  | close => exact h.closeNode hn.1 text _ _
  | openName => exact h.openNode text _
  | attributeName => exact ⟨h.roots, h.frames, h.current⟩
  | attributeValue => exact ⟨h.roots, h.frames, h.current⟩
  | attributeEnd =>
    rw [Builder.read]
    split
    · exact Linked.addAttribute (b := { b with pending := none })
        ⟨h.roots, h.frames, h.current⟩ d text _ _ _
    · exact h
  | openEnd => exact h.endStartTag _ _
  | selfClose => exact h.endStartTag _ _
  | mistake => exact ⟨h.roots, h.frames, h.current⟩

theorem Linked.foldl_read {φ φ' : Phase} {pos pos' : Nat} {ts : List Token} (h : b.Linked)
    (hn : b.NestedAt pos φ) (hts : Path φ pos ts φ' pos') (d : Document) (text : String) :
    (ts.foldl (Builder.read d text) b).Linked := by
  induction hts generalizing b with
  | nil => exact h
  | cons ht _ ih => exact ih (h.read hn ht d text) (hn.read ht d text)

theorem linked_empty : ({} : Builder).Linked :=
  ⟨List.forall_mem_nil _, trivial, fun _ hn => absurd hn.symm (Option.some_ne_none _)⟩

end Builder

/-! ## The whole tree -/

namespace Tree

/-- A node is another one, or it is around it by the parents that nodes name. -/
inductive Encloses (t : Tree) (m : Node) : Node → Prop
  | self : t.Encloses m m
  | parent {n p : Node} : t.parent? n = some p → t.Encloses m p → t.Encloses m n

/-- The nodes of a tree name the nodes around them and are found below those they name. -/
structure Linked (t : Tree) : Prop where
  below : ∀ n ∈ t.nodes, n.Below (t.parent? n)
  root : ∀ n ∈ t.nodes, n.parent = none → (t.roots.map (·.node.id)).count n.id = 1
  child : ∀ n ∈ t.nodes, ∀ p, n.parent = some p →
    p < n.id ∧ ((t.childrenOf p).map (·.id)).count n.id = 1
  rootParent : ∀ e ∈ t.roots, e.node.parent = none
  childParent : ∀ p, ∀ c ∈ t.childrenOf p, c.parent = some p
  leaf : ∀ n ∈ t.nodes, n.IsLeaf → t.childrenOf n.id = []
  svg : ∀ n ∈ t.nodes, (n.kind = .svg ↔ ∃ m ∈ t.nodes, m.lower = "svg" ∧ t.Encloses m n)
  style : ∀ n ∈ t.nodes, (n.kind = .style ↔ n.kind ≠ .svg ∧ n.lower = "style")

section Links

variable {t : Tree} {count : Nat} {e : Element} {n : Node}

theorem elements_numbered (h : t.nodes.map (·.id) = List.range count) :
    t.elements.map (·.node.id) = List.range count := by
  rw [nodes_eq_map, List.map_map] at h
  exact h

theorem findIn?_of_mem (h : t.nodes.map (·.id) = List.range count) (he : e ∈ t.elements) :
    findIn? e.node.id t.roots = some e := by
  rw [findIn?_eq]
  cases hfind : (elementsOf t.roots).find? fun x => x.node.id = e.node.id with
  | none => exact absurd (decide_eq_true rfl) (List.find?_eq_none.mp hfind e he)
  | some x =>
    have hid : x.node.id = e.node.id := by simpa using List.find?_some hfind
    have hx : x ∈ t.elements := List.mem_of_find?_eq_some hfind
    rw [eq_of_number_eq (elements_numbered h) hx he hid]

theorem childrenOf_of_mem (h : t.nodes.map (·.id) = List.range count) (he : e ∈ t.elements) :
    t.childrenOf e.node.id = e.children.map Element.node := by
  rw [childrenOf, findIn?_of_mem h he]

theorem parent?_of_mem (h : t.nodes.map (·.id) = List.range count) (he : e ∈ t.elements)
    (hparent : n.parent = some e.node.id) : t.parent? n = some e.node := by
  rw [parent?, hparent, Option.bind_some, node?, findIn?_of_mem h he, Option.map_some]

theorem parent?_of_none (hparent : n.parent = none) : t.parent? n = none := by
  rw [parent?, hparent, Option.bind_none]

/-- A number that stands in a list of elements stands there once. -/
theorem count_of_sublist (h : t.nodes.map (·.id) = List.range count) {es : List Element}
    (hes : es.Sublist t.elements) (he : e ∈ es) : (es.map (·.node.id)).count e.node.id = 1 := by
  have hnodup : (t.elements.map (·.node.id)).Nodup := by
    rw [elements_numbered h]
    exact List.nodup_range
  exact List.count_eq_one_of_mem (hnodup.sublist (hes.map _)) (List.mem_map_of_mem he)

theorem id_lt_of_child (h : t.nodes.map (·.id) = List.range count) (he : e ∈ t.elements)
    {c : Element} (hc : c ∈ e.children) : e.node.id < c.node.id := by
  have hsorted : (t.elements.map (·.node.id)).Pairwise (· < ·) := by
    rw [elements_numbered h]
    exact List.pairwise_lt_range
  have hinner := hsorted.sublist ((cons_children_sublist he).map _)
  exact List.rel_of_pairwise_cons hinner (List.mem_map_of_mem hc)

/-- An element is a root, or a child of an element that its node is linked to. -/
theorem root_or_child (hroots : ∀ e ∈ t.roots, e.node.Below none ∧ e.All Element.Linked)
    (he : e ∈ t.elements) :
    (e ∈ t.roots ∧ e.node.Below none) ∨
      ∃ p ∈ t.elements, e ∈ p.children ∧ e.node.Below (some p.node) := by
  have hlinked : ∀ p ∈ t.elements, p.Linked :=
    forall_elements_iff.mpr fun e he => (hroots e he).2
  rcases mem_or_child t.roots he with hroot | ⟨p, hp, hc⟩
  · exact .inl ⟨hroot, (hroots e hroot).1⟩
  · exact .inr ⟨p, hp, hc, (hlinked p hp).children e hc⟩

theorem below_parent? (h : t.nodes.map (·.id) = List.range count)
    (hroots : ∀ e ∈ t.roots, e.node.Below none ∧ e.All Element.Linked) (hn : n ∈ t.nodes) :
    n.Below (t.parent? n) := by
  obtain ⟨e, he, rfl⟩ := exists_element hn
  rcases root_or_child hroots he with ⟨-, hbelow⟩ | ⟨p, hp, -, hbelow⟩
  · rw [parent?_of_none hbelow.parent]
    exact hbelow
  · rw [parent?_of_mem h hp hbelow.parent]
    exact hbelow

theorem mem_of_parent? {p : Node} (h : t.parent? n = some p) : p ∈ t.nodes := by
  obtain ⟨id, -, hnode⟩ := Option.bind_eq_some_iff.mp h
  obtain ⟨e, hfind, rfl⟩ := Option.map_eq_some_iff.mp hnode
  rw [findIn?_eq] at hfind
  exact node_mem (List.mem_of_find?_eq_some hfind)

theorem svg_of_encloses (hbelow : ∀ n ∈ t.nodes, n.Below (t.parent? n)) {m : Node}
    (hm : m.lower = "svg") (hmn : t.Encloses m n) (hn : n ∈ t.nodes) : n.kind = .svg := by
  induction hmn with
  | self => rw [(hbelow m hn).kind, Kind.of, if_pos (.inr hm)]
  | parent hparent _ ih =>
    have hkind := ih (mem_of_parent? hparent)
    rw [(hbelow _ hn).kind, hparent, Option.map_some, hkind, Kind.of, if_pos (.inl rfl)]

/-- Going outwards from an `svg` node ends at an `svg` element, since numbers get smaller. -/
theorem encloses_of_svg (hbelow : ∀ n ∈ t.nodes, n.Below (t.parent? n))
    (hlt : ∀ n ∈ t.nodes, ∀ p, n.parent = some p → p < n.id) (n : Node) (hn : n ∈ t.nodes)
    (hkind : n.kind = .svg) : ∃ m ∈ t.nodes, m.lower = "svg" ∧ t.Encloses m n := by
  by_cases hsvg : n.lower = "svg"
  · exact ⟨n, hn, hsvg, .self⟩
  · have hof := (hbelow n hn).kind
    rw [hkind, Kind.of] at hof
    split at hof
    · next hor =>
      obtain ⟨p, hparent, hp⟩ := Option.map_eq_some_iff.mp (hor.resolve_right hsvg)
      have hid := (hbelow n hn).parent
      rw [hparent, Option.map_some] at hid
      have hlt' := hlt n hn p.id hid
      obtain ⟨m, hm, hlower, henc⟩ := encloses_of_svg hbelow hlt p (mem_of_parent? hparent) hp
      exact ⟨m, hm, hlower, .parent hparent henc⟩
    · split at hof <;> exact absurd hof (by decide)
termination_by n.id

theorem style_iff {outer : Option Node} (h : n.Below outer) :
    n.kind = .style ↔ n.kind ≠ .svg ∧ n.lower = "style" := by
  have hlower : n.lower = lowerName n.tag := rfl
  rw [h.kind, Kind.of, hlower]
  split
  · simp
  · split <;> simp [*]

theorem linked_of_roots (h : t.nodes.map (·.id) = List.range count)
    (hroots : ∀ e ∈ t.roots, e.node.Below none ∧ e.All Element.Linked) : t.Linked := by
  have hlinked : ∀ e ∈ t.elements, e.Linked :=
    forall_elements_iff.mpr fun e he => (hroots e he).2
  have hbelow : ∀ n ∈ t.nodes, n.Below (t.parent? n) := fun n hn => below_parent? h hroots hn
  have hchild : ∀ n ∈ t.nodes, ∀ p, n.parent = some p →
      p < n.id ∧ ((t.childrenOf p).map (·.id)).count n.id = 1 := by
    intro n hn p hp
    obtain ⟨c, hc, rfl⟩ := exists_element hn
    rcases root_or_child hroots hc with ⟨-, hroot⟩ | ⟨e, he, hce, hparent⟩
    · exact absurd (hp.symm.trans hroot.parent) (Option.some_ne_none p)
    · obtain rfl : e.node.id = p := Option.some.inj (hparent.parent.symm.trans hp)
      have hsub := (List.sublist_cons_self e e.children).trans (cons_children_sublist he)
      rw [childrenOf_of_mem h he, List.map_map]
      exact ⟨id_lt_of_child h he hce, count_of_sublist h hsub hce⟩
  refine ⟨hbelow, ?_, hchild, fun e he => (hroots e he).1.parent, ?_, ?_, ?_, ?_⟩
  · intro n hn hnone
    obtain ⟨e, he, rfl⟩ := exists_element hn
    rcases root_or_child hroots he with ⟨hroot, -⟩ | ⟨p, -, -, hparent⟩
    · exact count_of_sublist h (sublist_elementsOf t.roots) hroot
    · exact absurd (hparent.parent.symm.trans hnone) (Option.some_ne_none _)
  · intro p c hc
    rw [childrenOf] at hc
    split at hc
    · next e hfind =>
      rw [findIn?_eq] at hfind
      have hid : e.node.id = p := by simpa using List.find?_some hfind
      obtain ⟨x, hx, rfl⟩ := List.mem_map.mp hc
      rw [((hlinked e (List.mem_of_find?_eq_some hfind)).children x hx).parent, ← hid]
      rfl
    · exact absurd hc List.not_mem_nil
  · intro n hn hleaf
    obtain ⟨e, he, rfl⟩ := exists_element hn
    rw [childrenOf_of_mem h he, (hlinked e he).leaf hleaf, List.map_nil]
  · intro n hn
    constructor
    · exact encloses_of_svg hbelow (fun n hn p hp => (hchild n hn p hp).1) n hn
    · rintro ⟨m, -, hm, hmn⟩
      exact svg_of_encloses hbelow hm hmn hn
  · exact fun n hn => style_iff (hbelow n hn)

end Links

theorem linked_roots (d : Document) :
    ∀ e ∈ (Tree.ofDocument d).roots, e.node.Below none ∧ e.All Element.Linked := by
  obtain ⟨ts, htokens, φ, done, hpath, -⟩ := tokens_eq d.text
  have hread := Builder.linked_empty.foldl_read Builder.nestedAt_empty hpath d d.text
  intro e he
  rw [Tree.ofDocument, Builder.toTree, Builder.ofDocument, htokens, List.foldl_append] at he
  exact hread.finish _ e (List.mem_reverse.mp he)

theorem linked_ofDocument (d : Document) : (Tree.ofDocument d).Linked :=
  linked_of_roots (numbered_ofDocument d).nodes (linked_roots d)

/-- The tree of every document is numbered in its order and linked by its numbers. -/
theorem intact_ofDocument (d : Document) :
    (Tree.ofDocument d).Numbered (Builder.ofDocument d).nodeCount
        (Builder.ofDocument d).attributeCount (Builder.ofDocument d).assignmentCount ∧
      (Tree.ofDocument d).Linked :=
  ⟨numbered_ofDocument d, linked_ofDocument d⟩

end Tree
end Markup
end Inlay
