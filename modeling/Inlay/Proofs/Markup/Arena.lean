import Inlay.Proofs.Markup.OpenElements

/-!
# Reading into an arena

The writer of an arena and the builder of a tree go side by side: after any tokens that a scanner
gives, the arena holds what the builder holds, laid out in the order of its numbers
(`Builder.Regular.writer_read`).  So a document is read into the arena of its tree:
`Arena.ofDocument_eq`.

The writer changes entries at places, and every such place is the number of an entry.  That
numbers and places agree is what `Builder.Regular` knows of the builder, and so the step of
the writer needs no invariant of its own.
-/

namespace Inlay
namespace Markup

/-! ## Entries at their numbers -/

theorem modify_at {α : Type} {front back : List α} {x : α} {i : Nat} (hi : i = front.length)
    (change : α → α) : (front ++ x :: back).modify i change = front ++ change x :: back := by
  rw [hi, List.modify_eq_take_drop, List.take_left, List.drop_left]
  rfl

/-- Every entry stands at the place that is its number. -/
def AtNumbers (ns : List NodeEntry) : Prop := ns.map (·.id) = List.range ns.length

namespace AtNumbers

variable {ns front back : List NodeEntry} {n : NodeEntry}

theorem id_eq (h : AtNumbers (front ++ n :: back)) : n.id = front.length := by
  have hget : ((front ++ n :: back).map (·.id))[front.length]? = some n.id := by
    rw [List.getElem?_map, List.getElem?_append_right (Nat.le_refl _), Nat.sub_self]
    rfl
  rw [h, List.getElem?_range (by rw [List.length_append, List.length_cons]; omega)] at hget
  exact (Option.some.inj hget).symm

theorem getElem? (h : AtNumbers ns) (hn : n ∈ ns) : ns[n.id]? = some n := by
  obtain ⟨front, back, rfl⟩ := List.append_of_mem hn
  rw [h.id_eq, List.getElem?_append_right (Nat.le_refl _), Nat.sub_self]
  rfl

/-- A change at the number of an entry is a change of this entry. -/
theorem modify (h : AtNumbers (front ++ n :: back)) (change : NodeEntry → NodeEntry) :
    (front ++ n :: back).modify n.id change = front ++ change n :: back :=
  modify_at h.id_eq change

/-- Frames that end are changed at their numbers. -/
theorem foldr_endAt {inner : Option Nat} {fs outer : List Frame}
    (h : AtNumbers (front ++ frameEntries inner (fs ++ outer) ++ back)) (stop : Nat) :
    fs.foldr (fun f ns => ns.modify f.node.id (·.endAt stop))
        (front ++ frameEntries inner (fs ++ outer) ++ back) =
      front ++ frameEntries inner (fs.map (·.endAt stop) ++ outer) ++ back := by
  induction fs generalizing inner back with
  | nil => rfl
  | cons f rest ih =>
    -- The frame itself stands behind those around it, with what is in it.
    have hsplit : ∀ (g : Frame) (gs : List Frame),
        front ++ frameEntries inner (g :: gs ++ outer) ++ back =
          front ++ frameEntries (some g.node.id) (gs ++ outer) ++
            (.ofNode g.node (idsOf g.done.reverse ++ inner.toList) ::
              (entriesOf g.done.reverse ++ back)) := by
      intro g gs
      simp only [List.cons_append, frameEntries, List.append_assoc]
    rw [hsplit] at h
    have hlength : (front ++ frameEntries (some f.node.id) (rest ++ outer)).length =
        (front ++ frameEntries (some f.node.id) (rest.map (·.endAt stop) ++ outer)).length := by
      simp only [List.length_append, frameEntries_append, outermost_endAt,
        length_frameEntries_endAt]
    rw [hsplit, List.foldr_cons, ih h, List.map_cons, hsplit]
    exact modify_at (h.id_eq.trans hlength) _

end AtNumbers

theorem foldr_update (ids : List Nat) (change : NodeEntry → NodeEntry) (a : Arena) :
    ids.foldr (fun id a => a.update id change) a =
      { a with nodes := ids.foldr (fun id ns => ns.modify id change) a.nodes } := by
  induction ids with
  | nil => rfl
  | cons id rest ih => rw [List.foldr_cons, ih]; rfl

/-! ## The arena of a builder -/

namespace Builder

/-- The entries of all nodes but the current one, when the node `inner` is open inside the
innermost frame. -/
def entriesWith (b : Builder) (inner : Option Nat) : List NodeEntry :=
  entriesOf b.roots.reverse ++ frameEntries inner b.frames

def rootsWith (b : Builder) (inner : Option Nat) : List Nat :=
  idsOf b.roots.reverse ++ (outermost inner b.frames).toList

def allAttributes (b : Builder) : List Attribute := b.nodes.flatMap (·.attributes)

/-- What has begun, in the order of its numbers. -/
def arena (b : Builder) : Arena :=
  { nodes := b.entriesWith (b.current.map (·.id)) ++ b.current.toList.map (.ofNode · [])
    attributes := b.allAttributes.map .ofAttribute
    assignments := b.allAttributes.filterMap (·.assignment)
    roots := b.rootsWith (b.current.map (·.id))
    problems := b.problems }

/-- The writer that has come as far as a builder. -/
def writer (b : Builder) : Writer :=
  { arena := b.arena, stack := b.openNodes.map (·.id), current := b.current.map (·.id),
    pending := b.pending }

variable {b : Builder} {φ φ' : Phase} {pos pos' : Nat} {n : Node}

theorem stack_writer (b : Builder) : b.writer.stack = b.frames.map (·.node.id) := List.map_map

theorem current_writer (b : Builder) : b.writer.current = b.current.map (·.id) := rfl

theorem ids_frameEntries (inner : Option Nat) (fs : List Frame) :
    (frameEntries inner fs).map (·.id) = (frameNodes fs).map (·.id) := by
  induction fs generalizing inner with
  | nil => rfl
  | cons f outer ih =>
    rw [frameEntries, frameNodes, walk_toElement, List.map_append, List.map_append, ih,
      List.map_cons, List.map_cons, ids_entriesOf]
    rfl

theorem ids_arena (b : Builder) : b.arena.nodes.map (·.id) = b.nodes.map (·.id) := by
  simp only [arena, nodes, entriesWith, List.map_append, ids_entriesOf, ids_frameEntries,
    List.map_map]
  rfl

theorem allAttributes_eq (b : Builder) : b.allAttributes = attributesOf b.numbers.marks := by
  rw [← marks_nodes, attributesOf, List.flatMap_map]
  rfl

theorem atNumbers (h : b.numbers.Ordered) :
    AtNumbers b.arena.nodes ∧ b.arena.nodes.length = b.nodeCount := by
  have hids : b.arena.nodes.map (·.id) = List.range b.nodeCount := by
    have hmarks := h.nodes
    rw [← marks_nodes, List.map_map] at hmarks
    exact (ids_arena b).trans hmarks
  have hlength : b.arena.nodes.length = b.nodeCount := by
    rw [← List.length_map (f := (·.id)), hids, List.length_range]
  exact ⟨hids.trans (congrArg List.range hlength.symm), hlength⟩

theorem length_attributes (h : b.numbers.Ordered) :
    b.arena.attributes.length = b.attributeCount ∧
      b.arena.assignments.length = b.assignmentCount := by
  have hids := congrArg List.length h.attributes
  have hassigned := congrArg List.length h.assignments
  rw [List.length_map, List.length_range, ← allAttributes_eq] at hids
  rw [List.length_map, List.length_range, assignmentsOf, ← allAttributes_eq] at hassigned
  exact ⟨(List.length_map _).trans hids, hassigned⟩

/-- An element that comes to a builder stands where it stood while it was open. -/
theorem entriesWith_add (b : Builder) (e : Element) :
    (b.add e).entriesWith none = b.entriesWith (some e.node.id) ++ e.entries := by
  rw [Builder.add]
  split
  · next hframes =>
    simp only [entriesWith, hframes, frameEntries, entriesOf_reverse_cons, List.append_nil]
  · next f rest hframes =>
    simp only [entriesWith, hframes, frameEntries_add, List.append_assoc]

theorem rootsWith_add (b : Builder) (e : Element) :
    (b.add e).rootsWith none = b.rootsWith (some e.node.id) := by
  rw [Builder.add]
  split
  · next hframes =>
    simp only [rootsWith, hframes, outermost, idsOf_reverse_cons, Option.toList_none,
      Option.toList_some, List.append_nil]
  · next f rest hframes =>
    simp only [rootsWith, hframes, outermost]
    rfl

/-- A complete element without children is laid out as the current node was. -/
theorem writer_add_leaf (b : Builder) (m : Node) :
    ({ b with current := none }.add (.mk m [])).writer =
      { { b with current := some m }.writer with current := none } := by
  have hcurrent := current_add { b with current := none } (.mk m [])
  simp only [writer, arena, allAttributes, hcurrent, nodes_add_leaf, openNodes_add, problems_add,
    pending_add, Option.map_none, entriesWith_add, rootsWith_add, entries_leaf, Option.toList_none,
    List.map_nil, List.append_nil, Option.map_some, Option.toList_some, List.map_cons]
  rfl

/-- The same holds of a frame without children. -/
theorem writer_push (b : Builder) (m : Node) :
    { b with frames := { node := m } :: b.frames, current := none }.writer =
      { { b with current := some m }.writer with
        stack := m.id :: b.writer.stack, current := none } := by
  simp only [writer, arena, allAttributes, entriesWith, rootsWith, nodes, frameEntries, frameNodes,
    outermost, walk_toElement, List.reverse_nil, idsOf, entriesOf, walkAll, Option.map_none,
    Option.map_some, Option.toList_none, Option.toList_some, List.map_nil, List.map_cons,
    List.append_nil, List.append_assoc, openNodes]

/-! ## Steps -/

theorem mem_frameEntries {f : Frame} {fs : List Frame} (hf : f ∈ fs) (inner : Option Nat) :
    ∃ children, .ofNode f.node children ∈ frameEntries inner fs := by
  induction fs generalizing inner with
  | nil => exact absurd hf List.not_mem_nil
  | cons g outer ih =>
    rw [frameEntries]
    rcases List.mem_cons.mp hf with rfl | hf
    · exact ⟨_, List.mem_append_right _ List.mem_cons_self⟩
    · obtain ⟨children, hmem⟩ := ih hf (some g.node.id)
      exact ⟨children, List.mem_append_left _ hmem⟩

/-- An open node stands at its number. -/
theorem Regular.node?_of_frame (h : b.Regular φ pos) {f : Frame} (hf : f ∈ b.frames) :
    ∃ children, b.arena.node? f.node.id = some (.ofNode f.node children) := by
  obtain ⟨children, hmem⟩ := mem_frameEntries hf (b.current.map (·.id))
  exact ⟨children,
    (atNumbers h.ordered).1.getElem? (List.mem_append_left _ (List.mem_append_right _ hmem))⟩

theorem allAttributes_of_current (hcurrent : b.current = none) (m : Node) :
    { b with current := some m }.allAttributes = b.allAttributes ++ m.attributes := by
  simp only [allAttributes, nodes, hcurrent, Option.toList_none, Option.toList_some,
    List.append_nil, List.flatMap_append, List.flatMap_singleton]

/-- A node is put down and linked as it is laid out. -/
theorem Regular.pushNode (h : b.Regular .outside pos) {entry : NodeEntry} {m : Node}
    (hentry : { entry with id := m.id } = .ofNode m []) (hid : m.id = b.nodeCount)
    (hparent : m.parent = b.frames.head?.map (·.node.id)) (hattributes : m.attributes = []) :
    b.writer.arena.pushNode entry = ({ b with current := some m }.arena, m.id) := by
  obtain ⟨hnumbers, hlength⟩ := atNumbers h.ordered
  have hcurrent : b.current = none := h.nested.1
  have hentryParent : entry.parent = m.parent := congrArg NodeEntry.parent hentry
  have hsame := allAttributes_of_current hcurrent m
  rw [hattributes, List.append_nil] at hsame
  have hopened : { b with current := some m }.arena =
      { b.arena with
        nodes := b.entriesWith (some m.id) ++ [.ofNode m []]
        roots := b.rootsWith (some m.id) } := by
    simp only [arena, hsame, Option.map_some, Option.toList_some, List.map_cons, List.map_nil]
    rfl
  have hbefore : b.arena.nodes = b.entriesWith none ∧ b.arena.roots = b.rootsWith none := by
    simp only [arena, hcurrent, Option.map_none, Option.toList_none, List.map_nil, List.append_nil,
      and_self]
  show b.arena.pushNode entry = _
  rw [Arena.pushNode, hlength.trans hid.symm, hentry, hentryParent, hparent, hopened]
  refine Prod.ext ?_ rfl
  cases hframes : b.frames with
  | nil =>
    simp only [List.head?_nil, Option.map_none, hbefore, entriesWith, rootsWith, hframes,
      frameEntries, outermost, Option.toList_none, Option.toList_some, List.append_nil]
  | cons f outer =>
    have hplaced : b.arena.nodes =
        (entriesOf b.roots.reverse ++ frameEntries (some f.node.id) outer) ++
          .ofNode f.node (idsOf f.done.reverse) :: entriesOf f.done.reverse := by
      simp only [hbefore, entriesWith, hframes, frameEntries, Option.toList_none, List.append_nil,
        List.append_assoc]
    have hlinked : (b.arena.nodes.modify f.node.id fun p =>
        { p with children := p.children ++ [m.id] }) =
          (entriesOf b.roots.reverse ++ frameEntries (some f.node.id) outer) ++
            .ofNode f.node (idsOf f.done.reverse ++ [m.id]) :: entriesOf f.done.reverse := by
      rw [hplaced]
      exact AtNumbers.modify (hplaced ▸ hnumbers) _
    simp only [List.head?_cons, Option.map_some, Arena.update, hlinked]
    simp only [hbefore.2, entriesWith, rootsWith, hframes, frameEntries, outermost,
      Option.toList_some, List.append_assoc, List.cons_append]

/-- The entry under the innermost frame says which kind it is. -/
theorem Regular.kind_of_parent (h : b.Regular φ pos) :
    (b.writer.stack.head?.bind b.writer.arena.node?).map (·.kind) =
      b.frames.head?.map (·.node.kind) := by
  rw [stack_writer, List.head?_map]
  cases hframes : b.frames with
  | nil => rfl
  | cons f outer =>
    obtain ⟨children, hnode⟩ := h.node?_of_frame (hframes ▸ List.mem_cons_self)
    show ((b.arena.node? f.node.id).map (·.kind)) = _
    rw [hnode]
    rfl

theorem Regular.writer_openNode (h : b.Regular .outside pos) (text : String) (name : Span) :
    b.writer.openNode text name = (b.openNode text name).writer := by
  have hcurrent : b.current = none := h.nested.1
  have hdrop : b.dropCurrent = b := by rw [Builder.dropCurrent, hcurrent]
  have hparent : (b.newNode text name).parent = b.frames.head?.map (·.node.id) :=
    Option.map_map _ _ _
  have hkind : (b.frames.head?.map (·.node)).map (·.kind) = b.frames.head?.map (·.node.kind) :=
    Option.map_map _ _ _
  rw [Builder.openNode, hdrop, Writer.openNode]
  dsimp only
  rw [h.kind_of_parent, h.pushNode (m := b.newNode text name) ?_ rfl hparent rfl]
  · rfl
  · simp only [newNode, NodeEntry.ofNode, hkind, stack_writer, List.head?_map, Option.map_map]
    rfl

theorem numbers_of_mark (hn : b.current = some n) {m : Node} (hm : m.mark = n.mark) :
    { b with current := some m }.numbers = b.numbers := by
  simp only [numbers, hn, hm, Option.toList_some, List.map_cons, List.map_nil]

/-- A change of the current node is a change at its number. -/
theorem modify_current (h : b.numbers.Ordered) (hn : b.current = some n)
    {change : NodeEntry → NodeEntry} {m : Node}
    (hchange : change (.ofNode n []) = .ofNode m []) :
    b.arena.nodes.modify n.id change = b.entriesWith (some n.id) ++ [.ofNode m []] := by
  have hplaced : b.arena.nodes = b.entriesWith (some n.id) ++ [.ofNode n []] := by
    simp only [arena, hn, Option.map_some, Option.toList_some, List.map_cons, List.map_nil]
  rw [hplaced, ← hchange]
  exact AtNumbers.modify (hplaced ▸ (atNumbers h).1) change

theorem update_current (h : b.numbers.Ordered) (hn : b.current = some n)
    {change : NodeEntry → NodeEntry} {m : Node} (hm : m.mark = n.mark)
    (hchange : change (.ofNode n []) = .ofNode m []) :
    b.writer.arena.update n.id change = { b with current := some m }.arena := by
  have hid : m.id = n.id := congrArg Prod.fst hm
  have hsame : { b with current := some m }.allAttributes = b.allAttributes := by
    rw [allAttributes_eq, numbers_of_mark hn hm, ← allAttributes_eq]
  show { b.arena with nodes := b.arena.nodes.modify n.id change } = _
  rw [modify_current h hn hchange]
  simp only [arena, hsame, hn, hid, Option.map_some, Option.toList_some, List.map_cons,
    List.map_nil]
  rfl

/-- The current node stands at its number. -/
theorem node?_current (h : b.numbers.Ordered) (hn : b.current = some n) :
    b.arena.node? n.id = some (.ofNode n []) := by
  refine (atNumbers h).1.getElem? (n := .ofNode n []) (List.mem_append_right _ ?_)
  rw [hn]
  exact List.mem_cons_self

theorem writer_endStartTag (h : b.numbers.Ordered) (stop : Nat) (selfClosed : Bool) :
    b.writer.endStartTag stop selfClosed = (b.endStartTag stop selfClosed).writer := by
  cases hn : b.current with
  | none =>
    rw [Writer.endStartTag, current_writer, Builder.endStartTag, hn]
    rfl
  | some n =>
    generalize hm : ({ n.endStartTag stop with selfClosed := selfClosed } : Node) = m
    have hmark : m.mark = n.mark := by rw [← hm]; rfl
    have hid : m.id = n.id := congrArg Prod.fst hmark
    have hupdate : (b.writer.arena.update n.id fun e =>
        { e.endStartTag stop with selfClosed := selfClosed }) =
          { b with current := some m }.arena :=
      update_current h hn hmark (by rw [← hm]; rfl)
    have hvoid : ({ b with current := some m }.arena.node? n.id).any NodeEntry.isVoid =
        m.isVoid := by
      rw [← hid, node?_current (b := { b with current := some m })
        ((numbers_of_mark hn hmark).symm ▸ h) rfl]
      rfl
    rw [Writer.endStartTag, current_writer, Builder.endStartTag, hn, Option.map_some]
    dsimp only
    rw [hupdate, hvoid, hm]
    split
    · rw [writer_add_leaf]
      rfl
    · rw [writer_push, hid]
      rfl

theorem findIdx?_of_closing {name : String} {tag : Span} {fs : List Frame} {e : Element}
    {inner : List Frame} {f : Frame} {outer : List Frame}
    (h : Closing name tag fs e inner f outer) :
    fs.findIdx? (fun g => sameName g.node.tag name) = some inner.length := by
  have hinner : inner.findIdx? (fun g => sameName g.node.tag name) = none :=
    List.findIdx?_eq_none_iff.mpr h.passed
  rw [h.frames, List.findIdx?_append, hinner, List.findIdx?_cons, h.name]
  simp

/-- The stack is searched by the names that stand at its numbers. -/
theorem Regular.findIdx?_stack (h : b.Regular φ pos) (name : String) :
    b.writer.stack.findIdx? (fun id =>
        (b.writer.arena.node? id).any fun n => sameName n.tag name) =
      b.frames.findIdx? fun f => sameName f.node.tag name := by
  have hfound : ∀ f ∈ b.frames,
      ((b.arena.node? f.node.id).any fun n => sameName n.tag name) =
        sameName f.node.tag name := by
    intro f hf
    obtain ⟨children, hnode⟩ := h.node?_of_frame hf
    rw [hnode]
    rfl
  rw [stack_writer, List.findIdx?_map]
  generalize b.frames = fs at hfound
  induction fs with
  | nil => rfl
  | cons f rest ih =>
    obtain ⟨hf, hrest⟩ := List.forall_mem_cons.mp hfound
    rw [List.findIdx?_cons, List.findIdx?_cons, ih hrest, ← hf]
    rfl

/-- Frames up to the one that is closed are changed at their numbers. -/
theorem Regular.update_closing (h : b.Regular .outside pos) {name : String} {tag : Span}
    {e : Element} {inner : List Frame} {f : Frame} {outer : List Frame}
    (hclosing : Closing name tag b.frames e inner f outer) :
    ((inner.map (·.node.id)).foldr (fun id a => a.update id (·.endAt tag.start))
        b.writer.arena).update f.node.id (·.closedBy tag) =
      { b.arena with nodes := ({ b with frames := outer }.add e).entriesWith none } := by
  have hcurrent : b.current = none := h.nested.1
  have hnumbers := (atNumbers h.ordered).1
  have hplaced : b.arena.nodes =
      entriesOf b.roots.reverse ++ frameEntries none (inner ++ f :: outer) ++ [] := by
    simp only [arena, hcurrent, entriesWith, hclosing.frames, Option.map_none, Option.toList_none,
      List.map_nil]
  have hsplit : ∀ (g : Frame) (gs : List Frame),
      entriesOf b.roots.reverse ++ frameEntries none (gs ++ g :: outer) ++ [] =
        (entriesOf b.roots.reverse ++ frameEntries (some g.node.id) outer) ++
          .ofNode g.node (idsOf g.done.reverse ++ (outermost none gs).toList) ::
            (entriesOf g.done.reverse ++ frameEntries none gs) := by
    intro g gs
    simp only [frameEntries_append none gs, frameEntries, List.append_assoc, List.cons_append,
      List.append_nil]
  have hended := AtNumbers.foldr_endAt (hplaced ▸ hnumbers) tag.start
  have hplace : f.node.id =
      (entriesOf b.roots.reverse ++ frameEntries (some f.node.id) outer).length :=
    AtNumbers.id_eq ((hplaced.trans (hsplit f inner)) ▸ hnumbers)
  have hclosed := hsplit { f with node := f.node.closedBy tag } (inner.map (·.endAt tag.start))
  rw [← hclosing.entries, List.append_nil, ← List.append_assoc] at hclosed
  have hnodes : (inner.foldr (fun g ns => ns.modify g.node.id (·.endAt tag.start))
      b.arena.nodes).modify f.node.id (·.closedBy tag) =
        ({ b with frames := outer }.add e).entriesWith none := by
    rw [hplaced, hended, hsplit, modify_at hplace, entriesWith_add]
    exact hclosed.symm
  rw [foldr_update, List.foldr_map]
  exact congrArg (fun ns => ({ b.arena with nodes := ns } : Arena)) hnodes

theorem Regular.writer_closeNode (h : b.Regular .outside pos) (text : String) (tag name : Span) :
    b.writer.closeNode text tag name = (b.closeNode text tag name).writer := by
  have hcurrent : b.current = none := h.nested.1
  rw [Writer.closeNode]
  dsimp only
  rw [h.findIdx?_stack]
  have hnumbers := numbers_closeNode b text tag name
  rw [Builder.closeNode] at hnumbers ⊢
  cases hclose : closeIn (name.sliceD text) tag b.frames with
  | none =>
    rw [List.findIdx?_eq_none_iff.mpr (not_sameName_of_closeIn hclose)]
    rfl
  | some closed =>
    obtain ⟨e, outer⟩ := closed
    obtain ⟨inner, f, hclosing⟩ := closing_of_closeIn hclose
    have hstack : b.writer.stack =
        inner.map (·.node.id) ++ f.node.id :: outer.map (·.node.id) := by
      rw [stack_writer, hclosing.frames, List.map_append, List.map_cons]
    have hlength : inner.length = (inner.map (·.node.id)).length := (List.length_map _).symm
    rw [hclose] at hnumbers
    rw [findIdx?_of_closing hclosing, hstack]
    dsimp only
    rw [hlength, List.take_left, List.drop_left]
    dsimp only
    rw [h.update_closing hclosing]
    have hroots : ({ b with frames := outer }.add e).rootsWith none = b.rootsWith none := by
      rw [rootsWith_add, rootsWith, rootsWith, hclosing.frames, outermost_append, hclosing.node]
      rfl
    have hsame : ({ b with frames := outer }.add e).allAttributes = b.allAttributes := by
      rw [allAttributes_eq, allAttributes_eq, ← hnumbers]
    have hnone : ({ b with frames := outer }.add e).current = none :=
      (current_add _ e).trans hcurrent
    have hopen : ({ b with frames := outer }.add e).openNodes = outer.map (·.node) :=
      openNodes_add _ e
    have hproblems : ({ b with frames := outer }.add e).problems = b.problems := problems_add _ e
    have hpending : ({ b with frames := outer }.add e).pending = b.pending := pending_add _ e
    dsimp only
    generalize { b with frames := outer }.add e = x
      at hroots hsame hnone hopen hproblems hpending ⊢
    simp only [writer, arena, hsame, hnone, hcurrent, hroots, hopen, hproblems, hpending,
      Option.map_none, Option.toList_none, List.map_nil, List.append_nil, List.map_map,
      Function.comp_def]

/-- The current node with one more attribute, which is put down and linked. -/
theorem arena_addAttribute (hn : b.current = some n) (a : Attribute) (attributeCount
    assignmentCount : Nat) :
    { b with
        current := some { n with attributes := n.attributes ++ [a] }
        attributeCount := attributeCount, assignmentCount := assignmentCount }.arena =
      { b.arena with
        nodes := b.entriesWith (some n.id) ++
          [.ofNode { n with attributes := n.attributes ++ [a] } []]
        attributes := b.arena.attributes ++ [.ofAttribute a]
        assignments := b.arena.assignments ++ a.assignment.toList } := by
  have hmore : { b with
      current := some { n with attributes := n.attributes ++ [a] }
      attributeCount := attributeCount, assignmentCount := assignmentCount }.allAttributes =
        b.allAttributes ++ [a] := by
    simp only [allAttributes, nodes, hn, Option.toList_some, List.flatMap_append,
      List.flatMap_singleton, List.append_assoc]
  have hassigned : [a].filterMap (·.assignment) = a.assignment.toList := by
    cases h : a.assignment <;> simp [h]
  simp only [arena, hmore, hn, Option.map_some, Option.toList_some, List.map_append,
    List.filterMap_append, hassigned, List.map_cons, List.map_nil]
  rfl

/-- An attribute of the current node is put down without its assignment. -/
theorem pushAttribute_current (h : b.numbers.Ordered) (hn : b.current = some n) {a : Attribute}
    (hid : a.id = b.attributeCount) (hnode : a.node = n.id) :
    b.writer.arena.pushAttribute { AttributeEntry.ofAttribute a with id := 0, assignment := none } =
      ({ b.arena with
          nodes := b.entriesWith (some n.id) ++
            [.ofNode { n with attributes := n.attributes ++ [a] } []]
          attributes := b.arena.attributes ++
            [{ AttributeEntry.ofAttribute a with assignment := none }] }, a.id) := by
  have hlength : b.writer.arena.attributes.length = a.id := (length_attributes h).1.trans hid.symm
  have hlinked : (b.writer.arena.nodes.modify n.id fun e =>
      { e with attributes := e.attributes ++ [a.id] }) =
        b.entriesWith (some n.id) ++
          [.ofNode { n with attributes := n.attributes ++ [a] } []] :=
    modify_current h hn (by simp only [NodeEntry.ofNode, List.map_append, List.map_cons,
      List.map_nil])
  have hentryNode : (AttributeEntry.ofAttribute a).node = n.id := hnode
  rw [Arena.pushAttribute, hlength]
  simp only [Arena.update, hentryNode, hlinked]
  rfl

/-- Its assignment is linked to it behind that. -/
theorem pushAssignment_last {as : List AttributeEntry} {vs : List Assignment} {a : Attribute}
    {v : Assignment} (ha : a.id = as.length) (howner : v.owner = a.id) (hid : v.id = vs.length)
    (hv : a.assignment = some v) (arena : Arena) :
    ({ arena with
        attributes := as ++ [{ AttributeEntry.ofAttribute a with assignment := none }]
        assignments := vs }.pushAssignment { v with id := 0 }).1 =
      { arena with
        attributes := as ++ [.ofAttribute a], assignments := vs ++ [v] } := by
  have hlinked : ((as ++ [{ AttributeEntry.ofAttribute a with assignment := none }]).modify
      v.owner fun t => { t with assignment := some vs.length }) =
        as ++ [{ AttributeEntry.ofAttribute a with assignment := some vs.length }] :=
    modify_at (howner.trans ha) _
  have hentry : { AttributeEntry.ofAttribute a with assignment := some vs.length } =
      AttributeEntry.ofAttribute a := by
    simp only [AttributeEntry.ofAttribute, hv, Option.map_some, hid]
  rw [hentry] at hlinked
  rw [Arena.pushAssignment]
  refine congrArg₂ (fun ts ws => ({ arena with attributes := ts, assignments := ws } : Arena))
    hlinked ?_
  rw [← hid]

theorem writer_addAttribute (h : b.numbers.Ordered) (d : Document) (text : String) (p : Pending)
    (quote : Quote) (stop : Nat) :
    b.writer.addAttribute d text p quote stop = (b.addAttribute d text p quote stop).writer := by
  cases hn : b.current with
  | none =>
    rw [Writer.addAttribute, current_writer, Builder.addAttribute, hn]
    rfl
  | some n =>
    obtain ⟨hattributes, hassignments⟩ := length_attributes h
    rw [Writer.addAttribute, current_writer, Builder.addAttribute, hn, Option.map_some]
    dsimp only
    split
    · rfl
    · let added (assignment : Option Assignment) : Attribute :=
        { id := b.attributeCount, node := n.id, name := (splitModifier text p.name).2.sliceD text
          binding := (splitModifier text p.name).1
          whole := Span.of p.name.start (attributeStop quote stop)
          nameSpan := (splitModifier text p.name).2, assignment := assignment }
      -- Nothing but the arena of the writer changes.
      let written (arena : Arena) : Writer := { b.writer with arena := arena, current := some n.id }
      have hpush := fun assignment =>
        pushAttribute_current h hn (a := added assignment) rfl rfl
      have hlaid := fun assignment => arena_addAttribute hn (added assignment)
        (b.attributeCount + 1) (b.assignmentCount + if assignment.isSome then 1 else 0)
      cases hv : assigned? d text p quote stop with
      | none =>
        refine congrArg written ((congrArg Prod.fst (hpush none)).trans ?_)
        refine Eq.trans ?_ (hlaid none).symm
        exact congrArg (fun vs => ({ b.arena with nodes := _, attributes := _, assignments := vs } :
          Arena)) (List.append_nil _).symm
      | some v =>
        let assignment : Assignment :=
          { id := b.assignmentCount, owner := b.attributeCount, value := v.1, span := v.2 }
        have hlast := pushAssignment_last (a := added (some assignment)) (v := assignment)
          hattributes.symm rfl hassignments.symm rfl
          { b.arena with
            nodes := b.entriesWith (some n.id) ++
              [.ofNode { n with attributes := n.attributes ++ [added (some assignment)] } []] }
        refine congrArg written (Eq.trans ?_ (hlast.trans (hlaid (some assignment)).symm))
        exact congrArg (fun a : Arena × Nat =>
          (a.1.pushAssignment { id := 0, owner := a.2, value := v.1, span := v.2 }).1)
          (hpush (some assignment))

/-- A node that is complete as it stands is complete where it stands. -/
theorem writer_dropCurrent (b : Builder) :
    b.dropCurrent.writer = { b.writer with current := none } := by
  cases hn : b.current with
  | none =>
    rw [Builder.dropCurrent, hn]
    simp only [writer, hn, Option.map_none]
  | some n =>
    have hb : { b with current := some n } = b := by rw [← hn]
    rw [Builder.dropCurrent, hn]
    dsimp only
    rw [add_withoutCurrent, writer_add_leaf, hb]

/-- What is open where the text ends is changed at its number. -/
theorem writer_closeAll (h : b.numbers.Ordered) (hcurrent : b.current = none) (stop : Nat) :
    { b with frames := [], roots := closeAll stop b.roots b.frames }.writer =
      { b.writer with
        arena := b.writer.stack.foldr (fun id a => a.update id (·.endAt stop)) b.writer.arena
        stack := [] } := by
  have hnumbers : AtNumbers b.writer.arena.nodes := (atNumbers h).1
  have hplaced : b.writer.arena.nodes =
      entriesOf b.roots.reverse ++ frameEntries none (b.frames ++ []) ++ [] := by
    simp only [writer, arena, hcurrent, entriesWith, Option.map_none, Option.toList_none,
      List.map_nil, List.append_nil]
  have hended := AtNumbers.foldr_endAt (hplaced ▸ hnumbers) stop
  have hnodes :
      b.writer.stack.foldr (fun id ns => ns.modify id (·.endAt stop)) b.writer.arena.nodes =
        entriesOf (closeAll stop b.roots b.frames).reverse := by
    rw [hplaced, stack_writer, List.foldr_map, (entriesOf_closeAll _ _ _).1]
    simpa only [List.append_nil] using hended
  have hsame : { b with frames := [], roots := closeAll stop b.roots b.frames }.allAttributes =
      b.allAttributes := by
    rw [allAttributes_eq, allAttributes_eq, numbers_closeAll]
  rw [foldr_update, hnodes]
  simp only [writer, arena, hsame]
  simp only [hcurrent, entriesWith, rootsWith, openNodes, frameEntries, outermost,
    (entriesOf_closeAll _ _ _).2, Option.map_none, Option.toList_none, List.map_nil,
    List.append_nil]

theorem writer_finish (h : b.numbers.Ordered) (stop : Nat) :
    b.writer.finish stop = (b.finish stop).writer := by
  generalize hended : { b with current := b.current.map fun n : Node => n.endStartTag stop } = x
  have hx : x.numbers.Ordered ∧ x.writer = { b.writer with
      arena := b.writer.current.elim b.writer.arena
        fun id => b.writer.arena.update id (·.endStartTag stop) } := by
    cases hn : b.current with
    | none =>
      obtain rfl : b = x := by rw [← hended, hn, Option.map_none, ← hn]
      exact ⟨h, by rw [current_writer, hn]; rfl⟩
    | some n =>
      have hmark : (n.endStartTag stop).mark = n.mark := rfl
      rw [hn, Option.map_some] at hended
      rw [← hended, numbers_of_mark hn hmark, current_writer, hn, Option.map_some,
        Option.elim_some, update_current h hn hmark rfl]
      refine ⟨h, ?_⟩
      rw [writer, writer, hn]
      rfl
  have hdrop := (numbers_dropCurrent x).symm ▸ hx.1
  rw [Builder.finish, hended, writer_closeAll hdrop (current_dropCurrent x), writer_dropCurrent,
    hx.2, Writer.finish]
  cases b.writer.current <;> rfl

theorem Regular.writer_read (h : b.Regular φ pos) {t : Token} (ht : Follows φ pos t φ' pos')
    (d : Document) (text : String) : b.writer.read d text t = (b.read d text t).writer := by
  cases ht with
  | text => rfl
  | comment => rfl
  | close => exact h.writer_closeNode text _ _
  | openName => exact h.writer_openNode text _
  | attributeName => rfl
  | attributeValue => rfl
  | attributeEnd =>
    have hpending : b.writer.pending = b.pending := rfl
    rw [Builder.read, Writer.read, hpending]
    cases b.pending with
    | none => rfl
    | some p => exact writer_addAttribute (b := { b with pending := none }) h.ordered d text p _ _
  | openEnd => exact writer_endStartTag h.ordered _ _
  | selfClose => exact writer_endStartTag h.ordered _ _
  | mistake => rfl

/-- The writer goes where the builder goes. -/
theorem Regular.writer_foldl_read {ts : List Token} (h : b.Regular φ pos)
    (hts : Path φ pos ts φ' pos') (d : Document) (text : String) :
    ts.foldl (Writer.read d text) b.writer = (ts.foldl (Builder.read d text) b).writer := by
  induction hts generalizing b with
  | nil => rfl
  | cons ht _ ih =>
    rw [List.foldl_cons, List.foldl_cons, h.writer_read ht d text, ih (h.read ht d text)]

end Builder

/-! ## Documents -/

/-- The arena that holds a tree. -/
def Tree.arena (t : Tree) : Arena :=
  { nodes := entriesOf t.roots
    attributes := t.attributes.map .ofAttribute
    assignments := t.attributes.filterMap (·.assignment)
    roots := idsOf t.roots
    problems := t.problems }

theorem Builder.arena_finish (b : Builder) (stop : Nat) :
    (b.finish stop).arena = (b.finish stop).toTree.arena := by
  have hcurrent : (b.finish stop).current = none := current_dropCurrent _
  have hframes : (b.finish stop).frames = [] := rfl
  simp only [arena, Tree.arena, Tree.attributes, Tree.nodes, toTree, allAttributes, nodes,
    entriesWith, rootsWith, hcurrent, hframes, frameEntries, frameNodes, outermost,
    Option.map_none, Option.toList_none, List.map_nil, List.append_nil]

/-- A document is read into the arena that holds its tree. -/
theorem Arena.ofDocument_eq (d : Document) : ofDocument d = (Tree.ofDocument d).arena := by
  obtain ⟨ts, htokens, φ, done, hpath, -⟩ := tokens_eq d.text
  have hread := Builder.regular_empty.writer_foldl_read hpath d d.text
  have hordered :=
    (Builder.regular_empty.foldl_read hpath d d.text).ordered
  rw [ofDocument, Tree.ofDocument, Builder.ofDocument, htokens, List.foldl_append,
    List.foldl_append]
  change (((ts.foldl (Writer.read d d.text) ({} : Builder).writer).finish _).arena = _)
  rw [hread, Builder.writer_finish hordered]
  exact Builder.arena_finish _ _

theorem Tree.atNumbers_ofDocument (d : Document) : AtNumbers (Tree.ofDocument d).arena.nodes := by
  have hids : (Tree.ofDocument d).arena.nodes.map (·.id) =
      List.range (Builder.ofDocument d).nodeCount :=
    (ids_entriesOf _).trans (numbered_ofDocument d).nodes
  have hlength := congrArg List.length hids
  rw [List.length_map, List.length_range] at hlength
  exact hids.trans (congrArg List.range hlength.symm)

end Markup
end Inlay
