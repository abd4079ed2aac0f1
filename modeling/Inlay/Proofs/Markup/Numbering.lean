import Inlay.Markup.Lookup
import Inlay.Proofs.Markup.TokenOrder
import Mathlib.Data.List.Nodup

/-!
# Numbers

Nodes, attributes and assignments are numbered in the order in which they begin, and that is
the order in which the tree holds them: `numbered_ofDocument`.  A memo that is kept by
the numbers of assignments therefore cannot confuse two bindings: `binding_of_id_eq`.

While a tree is made, nodes are moved from the current node to the frames and from there into
elements, and their ends are set.  Read from the roots over the frames to the current
node, they stay in one order, and their numbers and attributes stay.  `Builder.numbers` is this
reading, and all that most steps of the builder do to it is nothing.
-/

namespace Inlay
namespace Markup

theorem walkAll_eq (es : List Element) : walkAll es = es.flatMap Element.walk := by
  induction es with
  | nil => rw [walkAll, List.flatMap_nil]
  | cons e rest ih => rw [walkAll, List.flatMap_cons, ih]

theorem walkAll_append (es fs : List Element) : walkAll (es ++ fs) = walkAll es ++ walkAll fs := by
  simp only [walkAll_eq, List.flatMap_append]

/-! ## Nodes in the making -/

/-- The number and the attributes of a node, which stay when its ends are set. -/
def Node.mark (n : Node) : Nat × List Attribute := (n.id, n.attributes)

def marksOf (es : List Element) : List (Nat × List Attribute) := (walkAll es).map Node.mark

/-- The marks of frames and of what is complete in them, the outermost frame first. -/
def frameMarks : List Frame → List (Nat × List Attribute)
  | [] => []
  | f :: outer => frameMarks outer ++ marksOf [f.toElement]

/-- What is numbered, in its order, and how far the numbers have got. -/
structure Numbers where
  marks : List (Nat × List Attribute)
  nodeCount : Nat
  attributeCount : Nat
  assignmentCount : Nat

/-- Everything that has begun: what is complete, what is open, and the node whose start tag is
being read. -/
def Builder.numbers (b : Builder) : Numbers :=
  { marks := marksOf b.roots.reverse ++ frameMarks b.frames ++ b.current.toList.map Node.mark,
    nodeCount := b.nodeCount, attributeCount := b.attributeCount,
    assignmentCount := b.assignmentCount }

theorem marksOf_nil : marksOf [] = [] := rfl

theorem marksOf_append (es fs : List Element) : marksOf (es ++ fs) = marksOf es ++ marksOf fs := by
  simp only [marksOf, walkAll_append, List.map_append]

theorem marksOf_reverse_cons (e : Element) (es : List Element) :
    marksOf (e :: es).reverse = marksOf es.reverse ++ marksOf [e] := by
  rw [List.reverse_cons, marksOf_append]

theorem marksOf_mk (n : Node) (cs : List Element) : marksOf [.mk n cs] = n.mark :: marksOf cs := by
  simp only [marksOf, walkAll, Element.walk, List.append_nil, List.map_cons]

theorem marksOf_add (f : Frame) (e : Element) :
    marksOf [(f.add e).toElement] = marksOf [f.toElement] ++ marksOf [e] := by
  have hchildren := marksOf_reverse_cons e f.done
  simp only [Frame.toElement, Frame.add, marksOf_mk, hchildren, List.cons_append]

theorem marksOf_endAt (f : Frame) (stop : Nat) :
    marksOf [(f.endAt stop).toElement] = marksOf [f.toElement] := by
  simp only [Frame.toElement, Frame.endAt, marksOf_mk, Node.mark, Node.endAt]

namespace Builder

variable {b : Builder}

theorem numbers_add (b : Builder) (e : Element) :
    (b.add e).numbers =
      { b.numbers with
        marks := marksOf b.roots.reverse ++ frameMarks b.frames ++ marksOf [e] ++
          b.current.toList.map Node.mark } := by
  rw [Builder.add]
  split
  · next hframes => simp only [numbers, hframes, frameMarks, marksOf_reverse_cons, List.append_nil]
  · next f rest hframes =>
    simp only [numbers, hframes, frameMarks, marksOf_add, List.append_assoc]

/-- A complete element stands where the current node stood. -/
theorem numbers_add_of_mark {n : Node} (hn : b.current = some n) {m : Node}
    (hm : m.mark = n.mark) : ({ b with current := none }.add (.mk m [])).numbers = b.numbers := by
  rw [numbers_add]
  simp only [numbers, hn, marksOf_mk, hm, marksOf_nil, List.map_nil, Option.toList_none,
    Option.toList_some, List.map_cons, List.append_nil]

theorem add_withoutCurrent (b : Builder) (e : Element) :
    { b.add e with current := none } = { b with current := none }.add e := by
  simp only [Builder.add]
  cases b.frames with
  | nil => rfl
  | cons f rest => rfl

theorem numbers_dropCurrent (b : Builder) : b.dropCurrent.numbers = b.numbers := by
  rw [Builder.dropCurrent]
  split
  · next n hn =>
    rw [add_withoutCurrent]
    exact numbers_add_of_mark hn rfl
  · rfl

theorem numbers_endStartTag (b : Builder) (stop : Nat) (selfClosed : Bool) :
    (b.endStartTag stop selfClosed).numbers = b.numbers := by
  rw [Builder.endStartTag]
  split
  · rfl
  · next n hn =>
    dsimp only
    split
    · exact numbers_add_of_mark hn rfl
    · simp only [numbers, hn, frameMarks, Frame.toElement, marksOf_mk, List.reverse_nil,
        marksOf_nil, List.map_nil, Option.toList_none, Option.toList_some, List.map_cons,
        List.append_nil, List.append_assoc]
      rfl

theorem frameMarks_closeIn {name : String} {tag : Span} {fs : List Frame} {e : Element}
    {rest : List Frame} (hclose : closeIn name tag fs = some (e, rest)) :
    frameMarks rest ++ marksOf [e] = frameMarks fs := by
  fun_induction closeIn name tag fs with
  | case1 => exact absurd hclose.symm (Option.some_ne_none _)
  | case2 f rest' _ =>
    obtain ⟨rfl, rfl⟩ := Prod.mk.inj (Option.some.inj hclose)
    simp only [frameMarks, Frame.toElement, marksOf_mk, Node.mark, Node.endAt]
  | case3 => exact absurd hclose.symm (Option.some_ne_none _)
  | case4 f _ g outer ih =>
    rw [ih hclose]
    simp only [frameMarks, marksOf_add, marksOf_endAt, List.append_assoc]

theorem numbers_closeNode (b : Builder) (text : String) (tag name : Span) :
    (b.closeNode text tag name).numbers = b.numbers := by
  rw [Builder.closeNode]
  split
  · next e frames hclose =>
    have hframes := frameMarks_closeIn hclose
    rw [numbers_add]
    simp only [numbers, List.append_assoc, ← hframes]
  · rfl

theorem marksOf_closeAll (stop : Nat) (roots : List Element) (fs : List Frame) :
    marksOf (closeAll stop roots fs).reverse = marksOf roots.reverse ++ frameMarks fs := by
  fun_induction closeAll stop roots fs with
  | case1 => rw [frameMarks, List.append_nil]
  | case2 f => simp only [frameMarks, marksOf_reverse_cons, marksOf_endAt, List.nil_append]
  | case3 f g outer ih =>
    rw [ih]
    simp only [frameMarks, marksOf_add, marksOf_endAt, List.append_assoc]

theorem current_dropCurrent (b : Builder) : b.dropCurrent.current = none := by
  rw [Builder.dropCurrent]
  split
  · rfl
  · next hnone => exact hnone

theorem numbers_closeAll (b : Builder) (stop : Nat) :
    { b with frames := [], roots := closeAll stop b.roots b.frames }.numbers = b.numbers := by
  simp only [numbers, marksOf_closeAll, frameMarks, List.append_nil]

theorem numbers_finish (b : Builder) (stop : Nat) : (b.finish stop).numbers = b.numbers := by
  have hended : { b with current := b.current.map fun n : Node => n.endStartTag stop }.numbers =
      b.numbers := by
    cases hcurrent : b.current with
    | none => simp only [numbers, hcurrent, Option.map_none]
    | some n => simp only [numbers, hcurrent, Option.map_some, Option.toList_some, List.map_cons,
        Node.mark, Node.endStartTag, List.map_nil]
  rw [Builder.finish]
  exact (numbers_closeAll _ stop).trans ((numbers_dropCurrent _).trans hended)

theorem numbers_openNode (b : Builder) (text : String) (name : Span) :
    (b.openNode text name).numbers =
      { b.numbers with
        marks := b.numbers.marks ++ [(b.nodeCount, [])]
        nodeCount := b.nodeCount + 1 } := by
  have hcount : b.dropCurrent.nodeCount = b.nodeCount :=
    congrArg Numbers.nodeCount (numbers_dropCurrent b)
  rw [← numbers_dropCurrent b, Builder.openNode, ← hcount]
  simp only [numbers, current_dropCurrent, newNode, Node.mark, Option.toList_none,
    Option.toList_some, List.map_cons, List.map_nil, List.append_nil]

end Builder

/-! ## Numbering -/

/-- The attributes under marks. -/
def attributesOf (ms : List (Nat × List Attribute)) : List Attribute := ms.flatMap Prod.snd

/-- The values under marks that are assigned. -/
def assignmentsOf (ms : List (Nat × List Attribute)) : List Assignment :=
  (attributesOf ms).filterMap (·.assignment)

/-- Everything has been numbered in its order, and names what it belongs to by its number. -/
structure Numbers.Ordered (x : Numbers) : Prop where
  nodes : x.marks.map Prod.fst = List.range x.nodeCount
  attributes : (attributesOf x.marks).map (·.id) = List.range x.attributeCount
  assignments : (assignmentsOf x.marks).map (·.id) = List.range x.assignmentCount
  node : ∀ m ∈ x.marks, ∀ a ∈ m.2, a.node = m.1
  owner : ∀ a ∈ attributesOf x.marks, ∀ v, a.assignment = some v → v.owner = a.id

section Marks

variable {x : Numbers} {front : List (Nat × List Attribute)} {node : Nat} {as : List Attribute}

theorem attributesOf_concat_nil (front : List (Nat × List Attribute)) (node : Nat) :
    attributesOf (front ++ [(node, [])]) = attributesOf front := by
  simp only [attributesOf, List.flatMap_append, List.flatMap_singleton, List.append_nil]

theorem attributesOf_concat (front : List (Nat × List Attribute)) (node : Nat)
    (as : List Attribute) (a : Attribute) :
    attributesOf (front ++ [(node, as ++ [a])]) = attributesOf (front ++ [(node, as)]) ++ [a] := by
  simp only [attributesOf, List.flatMap_append, List.flatMap_singleton, List.append_assoc]

theorem assignmentsOf_concat (front : List (Nat × List Attribute)) (node : Nat)
    (as : List Attribute) (a : Attribute) :
    assignmentsOf (front ++ [(node, as ++ [a])]) =
      assignmentsOf (front ++ [(node, as)]) ++ a.assignment.toList := by
  rw [assignmentsOf, attributesOf_concat, List.filterMap_append]
  cases hv : a.assignment with
  | none => simp only [List.filterMap_cons, hv, List.filterMap_nil, Option.toList_none]; rfl
  | some v => simp only [List.filterMap_cons, hv, List.filterMap_nil, Option.toList_some]; rfl

theorem Numbers.Ordered.addNode (h : x.Ordered) :
    { x with marks := x.marks ++ [(x.nodeCount, [])], nodeCount := x.nodeCount + 1 }.Ordered := by
  have hsame := attributesOf_concat_nil x.marks x.nodeCount
  refine ⟨?_, ?_, ?_, ?_, ?_⟩
  · rw [List.map_append, h.nodes, List.range_succ, List.map_singleton]
  · rw [hsame]
    exact h.attributes
  · rw [assignmentsOf, hsame]
    exact h.assignments
  · exact List.forall_mem_append.mpr ⟨h.node, List.forall_mem_singleton.mpr (List.forall_mem_nil _)⟩
  · rw [hsame]
    exact h.owner

/-- The last node gets an attribute with the next number. -/
theorem Numbers.Ordered.addAttribute (h : x.Ordered) (hmarks : x.marks = front ++ [(node, as)])
    {a : Attribute} (hid : a.id = x.attributeCount) (hnode : a.node = node)
    (hval : ∀ v, a.assignment = some v → v.id = x.assignmentCount ∧ v.owner = a.id) :
    { x with
      marks := front ++ [(node, as ++ [a])]
      attributeCount := x.attributeCount + 1
      assignmentCount := x.assignmentCount + if a.assignment.isSome then 1 else 0 }.Ordered := by
  obtain ⟨hnodes, hattributes, hassignments, hnames, howner⟩ := h
  rw [hmarks] at hnodes hattributes hassignments hnames howner
  refine ⟨?_, ?_, ?_, ?_, ?_⟩
  · rw [List.map_append] at hnodes ⊢
    exact hnodes
  · rw [attributesOf_concat, List.map_append, hattributes, List.map_singleton, hid, List.range_succ]
  · rw [assignmentsOf_concat, List.map_append, hassignments]
    cases hv : a.assignment with
    | none => exact List.append_nil _
    | some v =>
      rw [Option.toList_some, List.map_singleton, (hval v hv).1, Option.isSome_some, if_pos rfl,
        List.range_succ]
  · obtain ⟨hfront, hlast⟩ := List.forall_mem_append.mp hnames
    refine List.forall_mem_append.mpr ⟨hfront, List.forall_mem_singleton.mpr ?_⟩
    exact List.forall_mem_append.mpr
      ⟨List.forall_mem_singleton.mp hlast, List.forall_mem_singleton.mpr hnode⟩
  · rw [attributesOf_concat]
    exact List.forall_mem_append.mpr
      ⟨howner, List.forall_mem_singleton.mpr fun v hv => (hval v hv).2⟩

end Marks

namespace Builder

variable {b : Builder}

theorem ordered_addAttribute (h : b.numbers.Ordered) (d : Document) (text : String) (p : Pending)
    (quote : Quote) (stop : Nat) : (b.addAttribute d text p quote stop).numbers.Ordered := by
  rw [Builder.addAttribute]
  split
  · exact h
  · next n hn =>
    dsimp only
    split
    · exact h
    · have hmarks : b.numbers.marks =
          marksOf b.roots.reverse ++ frameMarks b.frames ++ [(n.id, n.attributes)] := by
        simp only [numbers, hn, Option.toList_some, List.map_cons, List.map_nil, Node.mark]
      refine h.addAttribute hmarks rfl rfl ?_
      intro v hv
      obtain ⟨value, _, rfl⟩ := Option.map_eq_some_iff.mp hv
      exact ⟨rfl, rfl⟩

theorem ordered_read (h : b.numbers.Ordered) (d : Document) (text : String) (t : Token) :
    (b.read d text t).numbers.Ordered := by
  cases t with
  | text start stop => exact h
  | comment start stop => exact h
  | openName start stop =>
    rw [Builder.read, numbers_openNode]
    exact h.addNode
  | openEnd bracket =>
    rw [Builder.read, numbers_endStartTag]
    exact h
  | selfClose bracket =>
    rw [Builder.read, numbers_endStartTag]
    exact h
  | close start nameStart nameStop stop =>
    rw [Builder.read, numbers_closeNode]
    exact h
  | attributeName start stop => exact h
  | attributeValue start stop => exact h
  | attributeEnd quote stop =>
    rw [Builder.read]
    split
    · exact ordered_addAttribute (b := { b with pending := none }) h d text _ quote stop
    · exact h
  | mistake kind index => exact h
  | finish =>
    rw [Builder.read, numbers_finish]
    exact h

theorem ordered_foldl_read (h : b.numbers.Ordered) (d : Document) (text : String)
    (ts : List Token) : (ts.foldl (Builder.read d text) b).numbers.Ordered := by
  induction ts generalizing b with
  | nil => exact h
  | cons t rest ih => exact ih (ordered_read h d text t)

theorem ordered_empty : ({} : Builder).numbers.Ordered :=
  ⟨rfl, rfl, rfl, List.forall_mem_nil _, List.forall_mem_nil _⟩

/-- Behind the last token nothing is open, so all marks are in the tree. -/
theorem marks_finish (b : Builder) (stop : Nat) :
    (b.finish stop).numbers.marks = (b.finish stop).toTree.nodes.map Node.mark := by
  have hcurrent : (b.finish stop).current = none := current_dropCurrent _
  have hframes : (b.finish stop).frames = [] := rfl
  simp only [numbers, hcurrent, hframes, frameMarks, Option.toList_none, List.map_nil,
    List.append_nil]
  rfl

end Builder

/-! ## The whole tree -/

/-- A tree holds what has been numbered in the order of the numbers, and what belongs to a node
or to an attribute names it by its number. -/
structure Tree.Numbered (t : Tree) (nodes attributes assignments : Nat) : Prop where
  nodes : t.nodes.map (·.id) = List.range nodes
  attributes : t.attributes.map (·.id) = List.range attributes
  assignments : (t.attributes.filterMap (·.assignment)).map (·.id) = List.range assignments
  node : ∀ n ∈ t.nodes, ∀ a ∈ n.attributes, a.node = n.id
  owner : ∀ a ∈ t.attributes, ∀ v, a.assignment = some v → v.owner = a.id

theorem Tree.numbered_ofDocument (d : Document) :
    (Tree.ofDocument d).Numbered (Builder.ofDocument d).nodeCount
      (Builder.ofDocument d).attributeCount (Builder.ofDocument d).assignmentCount := by
  have hordered : (Builder.ofDocument d).numbers.Ordered :=
    Builder.ordered_foldl_read Builder.ordered_empty d d.text (tokens d.text)
  have hmarks : (Builder.ofDocument d).numbers.marks = (Tree.ofDocument d).nodes.map Node.mark := by
    obtain ⟨ts, htokens, -⟩ := tokens_eq d.text
    rw [Tree.ofDocument, Builder.ofDocument, htokens, List.foldl_append]
    exact Builder.marks_finish _ _
  have hattributes : attributesOf (Builder.ofDocument d).numbers.marks =
      (Tree.ofDocument d).attributes := by
    rw [hmarks, attributesOf, List.flatMap_map]
    rfl
  obtain ⟨hnodes, hids, hassignments, hnode, howner⟩ := hordered
  rw [assignmentsOf, hattributes] at hassignments
  rw [hattributes] at hids howner
  rw [hmarks] at hnodes hnode
  refine ⟨?_, hids, hassignments, ?_, howner⟩
  · rw [List.map_map] at hnodes
    exact hnodes
  · intro n hn
    exact hnode n.mark (List.mem_map_of_mem hn)

/-- What is numbered without a gap is told apart by its number. -/
theorem eq_of_number_eq {α : Type} {number : α → Nat} {xs : List α} {count : Nat}
    (h : xs.map number = List.range count) {x y : α} (hx : x ∈ xs) (hy : y ∈ xs)
    (hxy : number x = number y) : x = y := by
  have hnodup : (xs.map number).Nodup := by
    rw [h]
    exact List.nodup_range
  exact List.inj_on_of_nodup_map hnodup hx hy hxy

/-- In the tree of a document, a number of an assignment stands for one attribute of
one tag. -/
theorem Tree.binding_of_id_eq (d : Document) {n n' : Node} (hn : n ∈ (Tree.ofDocument d).nodes)
    (hn' : n' ∈ (Tree.ofDocument d).nodes) {a a' : Attribute} (ha : a ∈ n.attributes)
    (ha' : a' ∈ n'.attributes) {x x' : Assignment} (hx : a.assignment = some x)
    (hx' : a'.assignment = some x') (hid : x.id = x'.id) : n.tag = n'.tag ∧ a = a' := by
  have h := numbered_ofDocument d
  have hmem : a ∈ (Tree.ofDocument d).attributes := List.mem_flatMap.mpr ⟨n, hn, ha⟩
  have hmem' : a' ∈ (Tree.ofDocument d).attributes := List.mem_flatMap.mpr ⟨n', hn', ha'⟩
  -- Assignments of one number are one, so they name the same attribute, and it names its node.
  have hassignment : x = x' :=
    eq_of_number_eq h.assignments
      (List.mem_filterMap.mpr ⟨a, hmem, hx⟩) (List.mem_filterMap.mpr ⟨a', hmem', hx'⟩) hid
  have hattribute : a = a' := by
    have howner : a.id = a'.id := by rw [← h.owner a hmem x hx, ← h.owner a' hmem' x' hx', hassignment]
    exact eq_of_number_eq h.attributes hmem hmem' howner
  have hnode : n = n' := by
    have hnames : n.id = n'.id := by rw [← h.node n hn a ha, ← h.node n' hn' a' ha', hattribute]
    exact eq_of_number_eq h.nodes hn hn' hnames
  exact ⟨congrArg Node.tag hnode, hattribute⟩

end Markup
end Inlay
