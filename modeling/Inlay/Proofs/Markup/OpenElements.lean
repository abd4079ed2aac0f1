import Inlay.Proofs.Markup.Layout
import Inlay.Proofs.Markup.Links

/-!
# Open elements

What has begun while a document is read is complete, is open, or is the node whose start tag
is being read: `Builder.nodes_perm`.  The frames of a builder are the open elements.  The
builder keeps them as a list, but what is open can be said without it: a node is open when it
can hold others and no end tag has closed it or a node around it
(`Builder.Regular.mem_openNodes_iff`).

`Builder.Regular` gathers what is known of a builder behind the tokens that a scanner gives,
and `Builder.Regular.read` is its step.  What is complete is never changed again:
`Builder.Regular.settled_read`.
-/

namespace Inlay
namespace Markup

/-! ## Nodes in the making -/

/-- The nodes of frames and of what is complete in them, the outermost frame first. -/
def frameNodes : List Frame → List Node
  | [] => []
  | f :: outer => frameNodes outer ++ f.toElement.walk

namespace Builder

/-- All nodes that have begun, in document order. -/
def nodes (b : Builder) : List Node :=
  walkAll b.roots.reverse ++ frameNodes b.frames ++ b.current.toList

/-- The nodes that are open, the innermost first. -/
def openNodes (b : Builder) : List Node := b.frames.map (·.node)

/-- The nodes of complete elements. -/
def settled (b : Builder) : List Node :=
  walkAll b.roots.reverse ++ b.frames.flatMap fun f => walkAll f.done.reverse

end Builder

theorem mem_walkAll {n : Node} {es : List Element} : n ∈ walkAll es ↔ ∃ e ∈ es, n ∈ e.walk := by
  rw [walkAll_eq, List.mem_flatMap]

theorem walk_toElement (f : Frame) : f.toElement.walk = f.node :: walkAll f.done.reverse := rfl

theorem walk_add (f : Frame) (e : Element) :
    (f.add e).toElement.walk = f.toElement.walk ++ e.walk := by
  rw [walk_toElement, walk_toElement, Frame.add, List.reverse_cons, walkAll_append, walkAll,
    walkAll, List.append_nil, List.cons_append]

theorem frameNodes_perm (fs : List Frame) :
    (frameNodes fs).Perm (fs.map (·.node) ++ fs.flatMap fun f => walkAll f.done.reverse) := by
  induction fs with
  | nil => exact .refl _
  | cons f outer ih =>
    rw [frameNodes, walk_toElement, List.map_cons, List.flatMap_cons, List.cons_append]
    refine List.perm_middle.trans (.cons _ ((ih.append_right _).trans ?_))
    rw [List.append_assoc]
    exact List.perm_append_comm.append_left _

theorem marks_frameNodes (fs : List Frame) : (frameNodes fs).map Node.mark = frameMarks fs := by
  induction fs with
  | nil => rfl
  | cons f outer ih =>
    rw [frameNodes, List.map_append, ih, frameMarks, marksOf, walkAll, walkAll, List.append_nil]

namespace Builder

variable {b : Builder} {n : Node} {e : Element}

/-- Nothing has begun but what is open, what is complete, and the current node. -/
theorem nodes_perm (b : Builder) : b.nodes.Perm (b.openNodes ++ b.settled ++ b.current.toList) := by
  refine List.Perm.append_right _ ?_
  rw [settled, ← List.append_assoc]
  refine ((frameNodes_perm b.frames).append_left _).trans ?_
  rw [← List.append_assoc]
  exact List.perm_append_comm.append_right _

theorem marks_nodes (b : Builder) : b.nodes.map Node.mark = b.numbers.marks := by
  rw [nodes, List.map_append, List.map_append, marks_frameNodes]
  rfl

theorem mem_settled : n ∈ b.settled ↔
    (∃ e ∈ b.roots, n ∈ e.walk) ∨ ∃ f ∈ b.frames, ∃ e ∈ f.done, n ∈ e.walk := by
  simp only [settled, List.mem_append, mem_walkAll, List.mem_flatMap, List.mem_reverse]

theorem nodes_add (b : Builder) (e : Element) :
    (b.add e).nodes =
      walkAll b.roots.reverse ++ frameNodes b.frames ++ e.walk ++ b.current.toList := by
  rw [Builder.add]
  split
  · next hframes =>
    rw [nodes, hframes, frameNodes, List.reverse_cons, walkAll_append, walkAll, walkAll,
      List.append_nil, List.append_nil, List.append_nil]
  · next f rest hframes =>
    rw [nodes, hframes, frameNodes, frameNodes, walk_add]
    simp only [List.append_assoc]

/-- A complete element without children stands where the current node stood. -/
theorem nodes_add_leaf (b : Builder) (m : Node) :
    ({ b with current := none }.add (.mk m [])).nodes = { b with current := some m }.nodes := by
  rw [nodes_add]
  simp only [nodes, Element.walk, walkAll, Option.toList_none, Option.toList_some, List.append_nil]

/-- Whether the current node is complete with its start tag or not, it stays where it is. -/
theorem nodes_endStartTag (hn : b.current = some n) (stop : Nat) (selfClosed : Bool) :
    (b.endStartTag stop selfClosed).nodes =
      { b with current := some { n.endStartTag stop with selfClosed := selfClosed } }.nodes := by
  rw [Builder.endStartTag, hn]
  dsimp only
  split
  · exact nodes_add_leaf b _
  · simp only [nodes, frameNodes, walk_toElement, List.reverse_nil, walkAll, Option.toList_none,
      Option.toList_some, List.append_nil, List.append_assoc]

theorem openNodes_add (b : Builder) (e : Element) : (b.add e).openNodes = b.openNodes := by
  rw [Builder.add]
  split
  · rfl
  · next f rest hframes =>
    rw [openNodes, openNodes, hframes]
    rfl

theorem problems_add (b : Builder) (e : Element) : (b.add e).problems = b.problems := by
  rw [Builder.add]
  split <;> rfl

theorem pending_add (b : Builder) (e : Element) : (b.add e).pending = b.pending := by
  rw [Builder.add]
  split <;> rfl

theorem mem_settled_add : n ∈ (b.add e).settled ↔ n ∈ b.settled ∨ n ∈ e.walk := by
  rw [Builder.add]
  split
  · next hframes =>
    simp only [mem_settled, hframes, List.mem_cons, exists_eq_or_imp]
    rw [or_assoc, or_comm]
  · next f rest hframes =>
    simp only [mem_settled, hframes, Frame.add, List.mem_cons, exists_eq_or_imp]
    rw [or_assoc, or_left_comm, or_comm]

end Builder

/-! ## What is open -/

/-- Among some nodes, `m` is `n` or lies around it, by the parents that the nodes name. -/
inductive Around (ns : List Node) (m : Node) : Node → Prop
  | self : Around ns m m
  | parent {n p : Node} : p ∈ ns → n.parent = some p.id → Around ns m p → Around ns m n

theorem Around.trans {ns : List Node} {k m n : Node} (h : Around ns k m) (h' : Around ns m n) :
    Around ns k n := by
  induction h' with
  | self => exact h
  | parent hp hparent _ ih => exact .parent hp hparent ih

mutual
/-- The node of an element lies around all nodes in it. -/
theorem Element.around_of_linked {ns : List Node} {x : Node} : ∀ e : Element,
    e.All Element.Linked → (∀ y ∈ e.walk, y ∈ ns) → x ∈ e.walk → Around ns e.node x
  | .mk n cs, h, hns, hx => by
    obtain ⟨hself, hchildren⟩ := Element.all_mk.mp h
    rw [Element.walk, List.forall_mem_cons] at hns
    rw [Element.walk, List.mem_cons] at hx
    rcases hx with rfl | hx
    · exact .self
    · obtain ⟨c, hc, hcx⟩ := around_walkAll_of_linked cs hchildren hns.2 hx
      exact (Around.parent hns.1 (hself.children c hc).parent .self).trans hcx

theorem around_walkAll_of_linked {ns : List Node} {x : Node} : ∀ es : List Element,
    (∀ e ∈ es, e.All Element.Linked) → (∀ y ∈ walkAll es, y ∈ ns) → x ∈ walkAll es →
    ∃ e ∈ es, Around ns e.node x
  | [], _, _, hx => absurd hx List.not_mem_nil
  | e :: es, h, hns, hx => by
    obtain ⟨he, hes⟩ := List.forall_mem_cons.mp h
    rw [walkAll, List.forall_mem_append] at hns
    rw [walkAll, List.mem_append] at hx
    rcases hx with hx | hx
    · exact ⟨e, List.mem_cons_self, e.around_of_linked he hns.1 hx⟩
    · obtain ⟨c, hc, hcx⟩ := around_walkAll_of_linked es hes hns.2 hx
      exact ⟨c, List.mem_cons_of_mem _ hc, hcx⟩
end

/-- Nothing more can come inside a node: it cannot hold others, or it has its end tag. -/
def Node.IsShut (n : Node) : Prop := n.IsLeaf ∨ n.endTag ≠ none

namespace Builder

/-- What is complete has been shut, or lies in something that has. -/
structure Shut (b : Builder) : Prop where
  roots : ∀ e ∈ b.roots, e.node.IsShut
  done : ∀ f ∈ b.frames, ∀ e ∈ f.done, e.node.IsShut

/-- What is known of a builder when the tokens so far end in a phase at `pos`. -/
structure Regular (b : Builder) (φ : Phase) (pos : Nat) : Prop where
  nested : b.NestedAt pos φ
  linked : b.Linked
  ordered : b.numbers.Ordered
  shut : b.Shut

variable {b : Builder} {φ φ' : Phase} {pos pos' : Nat} {n m : Node}

theorem Regular.map_id (h : b.Regular φ pos) : b.nodes.map (·.id) = List.range b.nodeCount := by
  have hnodes := h.ordered.nodes
  rw [← marks_nodes, List.map_map] at hnodes
  exact hnodes

theorem Regular.nodup (h : b.Regular φ pos) : b.nodes.Nodup := by
  have hids : (b.nodes.map (·.id)).Nodup := by
    rw [h.map_id]
    exact List.nodup_range
  exact hids.of_map

theorem mem_nodes_of_open (hn : n ∈ b.openNodes) : n ∈ b.nodes :=
  b.nodes_perm.mem_iff.mpr (List.mem_append_left _ (List.mem_append_left _ hn))

theorem mem_nodes_of_settled (hn : n ∈ b.settled) : n ∈ b.nodes :=
  b.nodes_perm.mem_iff.mpr (List.mem_append_left _ (List.mem_append_right _ hn))

theorem Regular.not_settled_of_open (h : b.Regular φ pos) (hn : n ∈ b.openNodes) :
    n ∉ b.settled := by
  have hnodup := b.nodes_perm.nodup_iff.mp h.nodup
  exact (List.nodup_append.mp (List.nodup_append.mp hnodup).1).2.2 n hn |> fun hne hs => hne n hs rfl

theorem Regular.not_current_of_open (h : b.Regular φ pos) (hn : n ∈ b.openNodes) :
    b.current ≠ some n := by
  intro hcurrent
  have hnodup := b.nodes_perm.nodup_iff.mp h.nodup
  rw [hcurrent, Option.toList_some] at hnodup
  exact (List.nodup_append.mp hnodup).2.2 n (List.mem_append_left _ hn) n
    (List.mem_singleton.mpr rfl) rfl

theorem isOpen_endTag {roots : List Element} {stop : Nat} {fs : List Frame}
    (h : IsOpen roots stop fs) : ∀ f ∈ fs, f.node.endTag = none := by
  induction fs generalizing stop with
  | nil => exact List.forall_mem_nil _
  | cons f outer ih => exact List.forall_mem_cons.mpr ⟨h.1.endTag, ih h.2⟩

theorem NestedAt.exists_isOpen (h : b.NestedAt pos φ) : ∃ stop, IsOpen b.roots stop b.frames := by
  cases φ with
  | outside => exact ⟨pos, h.2⟩
  | tag pending =>
    cases pending with
    | none =>
      obtain ⟨n, -, -, -, hopen⟩ := h
      exact ⟨_, hopen⟩
    | some p =>
      obtain ⟨-, -, n, -, -, -, hopen⟩ := h
      exact ⟨_, hopen⟩

theorem Regular.endTag_of_open (h : b.Regular φ pos) (hn : n ∈ b.openNodes) : n.endTag = none := by
  obtain ⟨stop, hopen⟩ := h.nested.exists_isOpen
  obtain ⟨f, hf, rfl⟩ := List.mem_map.mp hn
  exact isOpen_endTag hopen f hf

theorem not_isLeaf_of_framesLinked {fs : List Frame} (h : FramesLinked fs) :
    ∀ f ∈ fs, ¬ f.node.IsLeaf := by
  induction fs with
  | nil => exact List.forall_mem_nil _
  | cons f outer ih => exact List.forall_mem_cons.mpr ⟨h.1.inner, ih h.2.2⟩

theorem linked_of_framesLinked {fs : List Frame} (h : FramesLinked fs) :
    ∀ f ∈ fs, f.Linked := by
  induction fs with
  | nil => exact List.forall_mem_nil _
  | cons f outer ih => exact List.forall_mem_cons.mpr ⟨h.1, ih h.2.2⟩

theorem parent_of_framesLinked {fs : List Frame} (h : FramesLinked fs) {f : Frame} (hf : f ∈ fs) :
    f.node.parent = none ∨ ∃ g ∈ fs, f.node.parent = some g.node.id := by
  induction fs with
  | nil => exact absurd hf List.not_mem_nil
  | cons g outer ih =>
    obtain ⟨-, hbelow, hrest⟩ := h
    rcases List.mem_cons.mp hf with rfl | hf
    · cases outer with
      | nil => exact .inl hbelow.parent
      | cons k outer => exact .inr ⟨k, List.mem_cons_of_mem _ List.mem_cons_self, hbelow.parent⟩
    · rcases ih hrest hf with hnone | ⟨k, hk, hparent⟩
      · exact .inl hnone
      · exact .inr ⟨k, List.mem_cons_of_mem _ hk, hparent⟩

/-- What lies around an open node is open. -/
theorem Regular.open_of_around (h : b.Regular φ pos) (hn : n ∈ b.openNodes)
    (ham : Around b.nodes m n) : m ∈ b.openNodes := by
  induction ham with
  | self => exact hn
  | @parent n p hp hparent _ ih =>
    obtain ⟨f, hf, rfl⟩ := List.mem_map.mp hn
    rcases parent_of_framesLinked h.linked.frames hf with hnone | ⟨g, hg, hid⟩
    · exact absurd (hparent.symm.trans hnone) (Option.some_ne_none _)
    · have hgn : g.node ∈ b.openNodes := List.mem_map_of_mem hg
      have hpg : p = g.node :=
        eq_of_number_eq h.map_id hp (mem_nodes_of_open hgn) (Option.some.inj (hparent.symm.trans hid))
      exact ih (hpg ▸ hgn)

/-- What is complete lies in an element that has been shut. -/
theorem Regular.exists_shut (h : b.Regular φ pos) (hn : n ∈ b.settled) :
    ∃ e : Element, e.node.IsShut ∧ e.All Element.Linked ∧ (∀ y ∈ e.walk, y ∈ b.settled) ∧
      n ∈ e.walk := by
  rcases mem_settled.mp hn with ⟨e, he, hne⟩ | ⟨f, hf, e, he, hne⟩
  · exact ⟨e, h.shut.roots e he, (h.linked.roots e he).2,
      fun y hy => mem_settled.mpr (.inl ⟨e, he, hy⟩), hne⟩
  · exact ⟨e, h.shut.done f hf e he, (linked_of_framesLinked h.linked.frames f hf).done e he,
      fun y hy => mem_settled.mpr (.inr ⟨f, hf, e, he, hy⟩), hne⟩

/-- A node is open when its start tag is complete, it can hold others, and neither it nor a node
around it has an end tag. -/
theorem Regular.mem_openNodes_iff (h : b.Regular φ pos) : n ∈ b.openNodes ↔
    n ∈ b.nodes ∧ b.current ≠ some n ∧ ¬ n.IsLeaf ∧
      ∀ m, Around b.nodes m n → m.endTag = none := by
  constructor
  · intro hn
    obtain ⟨f, hf, hfn⟩ := List.mem_map.mp hn
    refine ⟨mem_nodes_of_open hn, h.not_current_of_open hn, ?_, ?_⟩
    · rw [← hfn]
      exact not_isLeaf_of_framesLinked h.linked.frames f hf
    · exact fun m hm => h.endTag_of_open (h.open_of_around hn hm)
  · rintro ⟨hn, hcurrent, hleaf, haround⟩
    have hmem := b.nodes_perm.mem_iff.mp hn
    rw [List.mem_append, List.mem_append, Option.mem_toList] at hmem
    rcases hmem with (hopen | hsettled) | hcur
    · exact hopen
    · obtain ⟨⟨k, cs⟩, hshut, hlinked, hall, hne⟩ := h.exists_shut hsettled
      have hin := fun y hy => mem_nodes_of_settled (hall y hy)
      rcases hshut with hshut | hshut
      · -- A leaf is all there is of its element.
        have hcs : cs = [] := hlinked.self.leaf hshut
        rw [hcs, Element.walk, walkAll, List.mem_singleton] at hne
        exact absurd hshut (hne ▸ hleaf)
      · exact absurd (haround k (Element.around_of_linked _ hlinked hin hne)) hshut
    · exact absurd hcur hcurrent

/-! ## Reading -/

theorem Shut.add (h : b.Shut) {e : Element} (he : e.node.IsShut) : (b.add e).Shut := by
  rw [Builder.add]
  split
  · exact ⟨List.forall_mem_cons.mpr ⟨he, h.roots⟩, h.done⟩
  · next f rest hframes =>
    have hdone := h.done
    rw [hframes, List.forall_mem_cons] at hdone
    exact ⟨h.roots, List.forall_mem_cons.mpr ⟨List.forall_mem_cons.mpr ⟨he, hdone.1⟩, hdone.2⟩⟩

theorem Shut.endStartTag (h : b.Shut) (stop : Nat) (selfClosed : Bool) :
    (b.endStartTag stop selfClosed).Shut := by
  rw [Builder.endStartTag]
  split
  · exact h
  · dsimp only
    split
    · next hleaf =>
      have hb : { b with current := none }.Shut := ⟨h.roots, h.done⟩
      exact hb.add (.inl (Bool.or_eq_true_iff.mp hleaf))
    · exact ⟨h.roots, List.forall_mem_cons.mpr ⟨List.forall_mem_nil _, h.done⟩⟩

end Builder

/-! ## Closing -/

/-- The node with its end tag. -/
def Node.closedBy (n : Node) (tag : Span) : Node := { n.endAt tag.stop with endTag := some tag }

theorem frameNodes_append (fs gs : List Frame) :
    frameNodes (fs ++ gs) = frameNodes gs ++ frameNodes fs := by
  induction fs with
  | nil => exact (List.append_nil _).symm
  | cons f rest ih => rw [List.cons_append, frameNodes, ih, frameNodes, List.append_assoc]

/-- An end tag closes the frame `f`.  The frames of `inner` end where it begins, and all that was
in them is in the closed element, which is laid out as the frames were. -/
structure Closing (name : String) (tag : Span) (fs : List Frame) (e : Element) (inner : List Frame)
    (f : Frame) (outer : List Frame) : Prop where
  frames : fs = inner ++ f :: outer
  passed : ∀ g ∈ inner, sameName g.node.tag name = false
  name : sameName f.node.tag name = true
  node : e.node = f.node.closedBy tag
  walk : e.walk = f.node.closedBy tag ::
    (walkAll f.done.reverse ++ frameNodes (inner.map (·.endAt tag.start)))
  entries : frameEntries (some e.node.id) outer ++ e.entries =
    frameEntries none
      (inner.map (·.endAt tag.start) ++ { f with node := f.node.closedBy tag } :: outer)

theorem closing_of_closeIn {name : String} {tag : Span} {fs : List Frame} {e : Element}
    {outer : List Frame} (hclose : Builder.closeIn name tag fs = some (e, outer)) :
    ∃ inner f, Closing name tag fs e inner f outer := by
  fun_induction Builder.closeIn name tag fs with
  | case1 => exact absurd hclose.symm (Option.some_ne_none _)
  | case2 f rest hname =>
    obtain ⟨rfl, rfl⟩ := Prod.mk.inj (Option.some.inj hclose)
    refine ⟨[], f, rfl, List.forall_mem_nil _, hname, rfl, ?_, (frameEntries_none _ _).symm⟩
    rw [List.map_nil, frameNodes, List.append_nil]
    rfl
  | case3 => exact absurd hclose.symm (Option.some_ne_none _)
  | case4 f hname g rest ih =>
    have hf : sameName f.node.tag name = false := Bool.eq_false_iff.mpr hname
    -- The frame is now in `g`, which is either the one that is closed or ends there as well.
    obtain ⟨inner, k, hframes, hinner, hk, hnode, hwalk, hentries⟩ := ih hclose
    have hlaid : ∀ (g : Frame) outer,
        frameEntries none (g.add (f.endAt tag.start).toElement :: outer) =
          frameEntries none (f.endAt tag.start :: g :: outer) :=
      fun g outer => (frameEntries_add g _ outer).trans (frameEntries_none _ _).symm
    cases inner with
    | nil =>
      obtain ⟨rfl, rfl⟩ := List.cons.inj hframes
      refine ⟨[f], g, rfl, List.forall_mem_singleton.mpr hf, hk, hnode, ?_,
        hentries.trans (hlaid { g with node := g.node.closedBy tag } _)⟩
      rw [hwalk, Frame.add, List.reverse_cons, walkAll_append]
      simp only [walkAll, frameNodes, List.map_nil, List.map_cons, List.append_nil, List.nil_append]
    | cons k' inner =>
      obtain ⟨rfl, rfl⟩ := List.cons.inj hframes
      obtain ⟨hg, hinner⟩ := List.forall_mem_cons.mp hinner
      refine ⟨f :: g :: inner, k, rfl, ?_, hk, hnode, ?_,
        hentries.trans (hlaid (g.endAt tag.start) _)⟩
      · exact List.forall_mem_cons.mpr ⟨hf, List.forall_mem_cons.mpr ⟨hg, hinner⟩⟩
      · have hadd : ∀ x : Element, ((g.add x).endAt tag.start).toElement.walk =
            (g.endAt tag.start).toElement.walk ++ x.walk := fun x => walk_add (g.endAt tag.start) x
        rw [hwalk]
        simp only [List.map_cons, frameNodes, hadd, List.append_assoc]

theorem not_sameName_of_closeIn {name : String} {tag : Span} {fs : List Frame}
    (hclose : Builder.closeIn name tag fs = none) : ∀ f ∈ fs, sameName f.node.tag name = false := by
  fun_induction Builder.closeIn name tag fs with
  | case1 => exact List.forall_mem_nil _
  | case2 => exact absurd hclose (Option.some_ne_none _)
  | case3 f hname => exact List.forall_mem_singleton.mpr (Bool.eq_false_iff.mpr hname)
  | case4 f hname g rest ih =>
    obtain ⟨hg, hrest⟩ := List.forall_mem_cons.mp (ih hclose)
    exact List.forall_mem_cons.mpr
      ⟨Bool.eq_false_iff.mpr hname, List.forall_mem_cons.mpr ⟨hg, hrest⟩⟩

/-- Where everything is an element that ends at `stop`, all nodes are still there. -/
theorem walkAll_closeAll (stop : Nat) (roots : List Element) (fs : List Frame) :
    walkAll (Builder.closeAll stop roots fs).reverse =
      walkAll roots.reverse ++ frameNodes (fs.map (·.endAt stop)) := by
  fun_induction Builder.closeAll stop roots fs with
  | case1 => rw [List.map_nil, frameNodes, List.append_nil]
  | case2 f =>
    rw [List.reverse_cons, walkAll_append]
    simp only [walkAll, List.map_cons, List.map_nil, frameNodes, List.append_nil, List.nil_append]
  | case3 f g outer ih =>
    have hadd : ∀ x : Element, ((g.add x).endAt stop).toElement.walk =
        (g.endAt stop).toElement.walk ++ x.walk := fun x => walk_add (g.endAt stop) x
    rw [ih]
    simp only [List.map_cons, frameNodes, hadd, List.append_assoc]

namespace Builder

variable {b : Builder} {φ φ' : Phase} {pos pos' : Nat} {n m : Node}

theorem Shut.closeNode (h : b.Shut) (text : String) (tag name : Span) :
    (b.closeNode text tag name).Shut := by
  rw [Builder.closeNode]
  split
  · next e outer hclose =>
    obtain ⟨inner, f, hclosing⟩ := closing_of_closeIn hclose
    have hdone := h.done
    rw [hclosing.frames, List.forall_mem_append, List.forall_mem_cons] at hdone
    have hb : { b with frames := outer }.Shut := ⟨h.roots, hdone.2.2⟩
    refine hb.add (.inr ?_)
    rw [hclosing.node]
    exact Option.some_ne_none _
  · exact ⟨h.roots, h.done⟩

theorem Shut.read (h : b.Shut) (hn : b.NestedAt pos φ) {t : Token} (ht : Follows φ pos t φ' pos')
    (d : Document) (text : String) : (b.read d text t).Shut := by
  cases ht with
  | text => exact h
  | comment => exact h
  | close => exact h.closeNode text _ _
  | openName =>
    have hdrop : b.dropCurrent = b := by rw [Builder.dropCurrent, hn.1]
    rw [Builder.read, Builder.openNode, hdrop]
    exact ⟨h.roots, h.done⟩
  | attributeName => exact ⟨h.roots, h.done⟩
  | attributeValue => exact ⟨h.roots, h.done⟩
  | attributeEnd =>
    rw [Builder.read]
    split
    · rw [Builder.addAttribute]
      split
      · exact ⟨h.roots, h.done⟩
      · dsimp only
        split <;> exact ⟨h.roots, h.done⟩
    · exact h
  | openEnd => exact h.endStartTag _ _
  | selfClose => exact h.endStartTag _ _
  | mistake => exact ⟨h.roots, h.done⟩

theorem Regular.read (h : b.Regular φ pos) {t : Token} (ht : Follows φ pos t φ' pos')
    (d : Document) (text : String) : (b.read d text t).Regular φ' pos' :=
  ⟨h.nested.read ht d text, h.linked.read h.nested ht d text, ordered_read h.ordered d text t,
    h.shut.read h.nested ht d text⟩

theorem regular_empty : ({} : Builder).Regular .outside 0 :=
  ⟨nestedAt_empty, linked_empty, ordered_empty, List.forall_mem_nil _, List.forall_mem_nil _⟩

theorem Regular.foldl_read {ts : List Token} (h : b.Regular φ pos) (hts : Path φ pos ts φ' pos')
    (d : Document) (text : String) : (ts.foldl (Builder.read d text) b).Regular φ' pos' := by
  induction hts generalizing b with
  | nil => exact h
  | cons ht _ ih => exact ih (h.read ht d text)

end Builder
end Markup
end Inlay
