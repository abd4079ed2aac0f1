import Inlay.Proofs.Markup.OpenElements
import Mathlib.Data.List.Induction

/-!
# End tags

Each end tag of a document does one of two things.  It closes the innermost open element of its
name, and the elements that are open inside that one end where it begins and stay without an
end tag; or no element of its name is open, and it is reported and changes no node.  So the
end tags of a document are the end tags of its nodes and the reported ones, and a node
that should have an end tag lacks it when none has closed it:
`Tree.endTags_accounted`.

`Builder.Regular.closes_or_strays` is one end tag.  Over a run, `Builder.ends` is all that
matters of the nodes: `Builder.Regular.ends_read` says that no other token changes it but for
nodes that begin.
-/

namespace Inlay
namespace Markup

/-- The name and the range of an end tag. -/
def Token.endTag? (text : String) : Token → Option (String × Span)
  | .close start nameStart nameStop stop =>
    some ((Span.of nameStart nameStop).sliceD text, Span.of start stop)
  | _ => none

/-- The node that `m` becomes when an end tag over `tag` closes `n`, with `inner` open
inside it. -/
def Node.behind (m : Node) (tag : Span) (inner : List Node) (n : Node) : Node :=
  if m = n then n.closedBy tag else if m ∈ inner then m.endAt tag.start else m

/-- The number of a node with its end tag. -/
def Node.ending (n : Node) : Nat × Option Span := (n.id, n.endTag)

namespace Builder

/-- Reading an end tag of a name over `tag` closes the node `n`, inside which the nodes of
`inner` are open, and around which those of `outer` are. -/
structure Closes (b b' : Builder) (name : String) (tag : Span) (inner : List Node) (n : Node)
    (outer : List Node) : Prop where
  opened : b.openNodes = inner ++ n :: outer
  passed : ∀ m ∈ inner, sameName m.tag name = false
  name : sameName n.tag name = true
  unended : ∀ m ∈ n :: inner, m.endTag = none
  nodes : b'.nodes = b.nodes.map fun m => m.behind tag inner n
  settled : ∀ m ∈ n :: inner, m.behind tag inner n ∈ b'.settled
  stillOpen : b'.openNodes = outer
  problems : b'.problems = b.problems

/-- Reading an end tag of a name over `tag` closes nothing and is reported. -/
structure Strays (b b' : Builder) (name : String) (tag : Span) : Prop where
  passed : ∀ m ∈ b.openNodes, sameName m.tag name = false
  nodes : b'.nodes = b.nodes
  stillOpen : b'.openNodes = b.openNodes
  problems : b'.problems = b.problems ++ [{ mistake := .strayEndTag, span := tag }]

/-! ## One end tag -/

theorem map_frameNodes {fs : List Frame} {stop : Nat} {φ : Node → Node}
    (hopen : ∀ f ∈ fs, φ f.node = f.node.endAt stop)
    (hdone : ∀ f ∈ fs, ∀ m ∈ walkAll f.done.reverse, φ m = m) :
    (frameNodes fs).map φ = frameNodes (fs.map (·.endAt stop)) := by
  induction fs with
  | nil => rfl
  | cons f outer ih =>
    obtain ⟨hf, hopen⟩ := List.forall_mem_cons.mp hopen
    obtain ⟨hfdone, hdone⟩ := List.forall_mem_cons.mp hdone
    have hsame : (walkAll f.done.reverse).map φ = walkAll f.done.reverse :=
      (List.map_congr_left hfdone).trans (List.map_id' _)
    rw [List.map_cons, frameNodes, frameNodes, List.map_append, ih hopen hdone, walk_toElement,
      List.map_cons, hf, hsame]
    rfl

theorem map_eq_self {ns : List Node} {φ : Node → Node} (h : ∀ m ∈ ns, φ m = m) : ns.map φ = ns :=
  (List.map_congr_left h).trans (List.map_id' _)

variable {b : Builder} {φ φ' : Phase} {pos pos' : Nat} {n m : Node}

theorem nodup_openNodes (h : b.Regular φ pos) : b.openNodes.Nodup :=
  (List.nodup_append.mp (List.nodup_append.mp (b.nodes_perm.nodup_iff.mp h.nodup)).1).1

theorem behind_of_not_mem {tag : Span} {inner : List Node} (hn : m ≠ n) (hm : m ∉ inner) :
    m.behind tag inner n = m := by
  rw [Node.behind, if_neg hn, if_neg hm]

section Closing

variable {name : String} {tag : Span} {e : Element} {inner outer : List Frame} {f : Frame}

theorem openNodes_of_closing (hc : Closing name tag b.frames e inner f outer) :
    b.openNodes = inner.map (·.node) ++ f.node :: outer.map (·.node) := by
  rw [openNodes, hc.frames, List.map_append, List.map_cons]

/-- What is complete is not touched by an end tag. -/
theorem Regular.behind_settled (h : b.Regular φ pos)
    (hc : Closing name tag b.frames e inner f outer) (hm : m ∈ b.settled) :
    m.behind tag (inner.map (·.node)) f.node = m := by
  have hopen : m ∉ b.openNodes := fun ho => h.not_settled_of_open ho hm
  rw [openNodes_of_closing hc, List.mem_append, List.mem_cons, not_or, not_or] at hopen
  exact behind_of_not_mem hopen.2.1 hopen.1

/-- Neither is what lies around the closed node. -/
theorem Regular.behind_outer (h : b.Regular φ pos)
    (hc : Closing name tag b.frames e inner f outer) (hm : m ∈ outer.map (·.node)) :
    m.behind tag (inner.map (·.node)) f.node = m := by
  have hnodup := nodup_openNodes h
  rw [openNodes_of_closing hc] at hnodup
  obtain ⟨-, hcons, hapart⟩ := List.nodup_append.mp hnodup
  refine behind_of_not_mem (fun hmf => (List.nodup_cons.mp hcons).1 (hmf ▸ hm)) fun hmi => ?_
  exact hapart m hmi m (List.mem_cons_of_mem _ hm) rfl

theorem Regular.behind_inner (h : b.Regular φ pos)
    (hc : Closing name tag b.frames e inner f outer) {g : Frame} (hg : g ∈ inner) :
    g.node.behind tag (inner.map (·.node)) f.node = g.node.endAt tag.start := by
  have hnodup := nodup_openNodes h
  rw [openNodes_of_closing hc] at hnodup
  have hgi : g.node ∈ inner.map (·.node) := List.mem_map_of_mem hg
  have hgf : g.node ≠ f.node := (List.nodup_append.mp hnodup).2.2 _ hgi _ List.mem_cons_self
  rw [Node.behind, if_neg hgf, if_pos hgi]

/-- The nodes behind an end tag are those before it, each as the end tag leaves it. -/
theorem Regular.nodes_closeNode (h : b.Regular .outside pos)
    (hc : Closing name tag b.frames e inner f outer) :
    ({ b with frames := outer }.add e).nodes =
      b.nodes.map fun m => m.behind tag (inner.map (·.node)) f.node := by
  have hdone : ∀ g ∈ b.frames, ∀ m ∈ walkAll g.done.reverse,
      m.behind tag (inner.map (·.node)) f.node = m := fun g hg m hm =>
    h.behind_settled hc (List.mem_append_right _ (List.mem_flatMap.mpr ⟨g, hg, hm⟩))
  rw [hc.frames, List.forall_mem_append, List.forall_mem_cons] at hdone
  obtain ⟨hinnerDone, hfDone, houterDone⟩ := hdone
  have hroots : ∀ m ∈ walkAll b.roots.reverse, m.behind tag (inner.map (·.node)) f.node = m :=
    fun m hm => h.behind_settled hc (List.mem_append_left _ hm)
  have houter : ∀ m ∈ frameNodes outer, m.behind tag (inner.map (·.node)) f.node = m := by
    intro m hm
    rcases List.mem_append.mp ((frameNodes_perm outer).mem_iff.mp hm) with hm | hm
    · exact h.behind_outer hc hm
    · obtain ⟨g, hg, hm⟩ := List.mem_flatMap.mp hm
      exact houterDone g hg m hm
  have hclosed : f.node.behind tag (inner.map (·.node)) f.node = f.node.closedBy tag := if_pos rfl
  have hcurrent : b.current = none := h.nested.1
  rw [nodes_add, nodes, hc.frames, frameNodes_append, frameNodes, hcurrent, hc.walk,
    walk_toElement, Option.toList_none, List.append_nil, List.append_nil, List.map_append,
    List.map_append, List.map_append, List.map_cons, map_eq_self hroots, map_eq_self houter,
    hclosed, map_eq_self hfDone, map_frameNodes (fun g hg => h.behind_inner hc hg) hinnerDone]
  simp only [List.append_assoc, List.cons_append]

end Closing

/-- An end tag closes the innermost open node of its name, or is reported. -/
theorem Regular.closes_or_strays (h : b.Regular .outside pos) (text : String) (start stop : Nat)
    (name : Span) :
    (∃ inner n outer, b.Closes (b.closeNode text (Span.of start stop) name) (name.sliceD text)
      (Span.of start stop) inner n outer) ∨
    b.Strays (b.closeNode text (Span.of start stop) name) (name.sliceD text)
      (Span.of start stop) := by
  generalize htag : Span.of start stop = tag
  rw [Builder.closeNode]
  split
  · next e outer hclose =>
    obtain ⟨inner, f, hc⟩ := closing_of_closeIn hclose
    have hopened := openNodes_of_closing hc
    have hnodes := h.nodes_closeNode hc
    refine .inl ⟨_, _, _, hopened, ?_, hc.name, ?_, hnodes, ?_, ?_, ?_⟩
    · exact List.forall_mem_map.mpr hc.passed
    · intro m hm
      refine h.endTag_of_open ?_
      rw [hopened, List.mem_append, List.mem_cons]
      rcases List.mem_cons.mp hm with hm | hm
      · exact .inr (.inl hm)
      · exact .inl hm
    · intro m hm
      refine mem_settled_add.mpr (.inr ?_)
      rw [hc.walk, Node.behind]
      split
      · exact List.mem_cons_self
      · next hne =>
        have hmi := (List.mem_cons.mp hm).resolve_left hne
        rw [if_pos hmi]
        obtain ⟨g, hg, rfl⟩ := List.mem_map.mp hmi
        refine List.mem_cons_of_mem _ (List.mem_append_right _ ?_)
        refine (frameNodes_perm _).mem_iff.mpr (List.mem_append_left _ ?_)
        exact List.mem_map.mpr ⟨_, List.mem_map_of_mem hg, rfl⟩
    · exact openNodes_add _ _
    · rw [Builder.add]
      split <;> rfl
  · next hclose =>
    have hspan : Span.of tag.start tag.stop = tag := by
      rw [← htag]
      simp only [Span.of]
      congr 1
      omega
    refine .inr ⟨List.forall_mem_map.mpr (not_sameName_of_closeIn hclose), rfl, rfl, ?_⟩
    rw [report, hspan]

/-! ## What is complete stays -/

theorem settled_closeNode (hn : n ∈ b.settled) (text : String) (tag name : Span) :
    n ∈ (b.closeNode text tag name).settled := by
  rw [Builder.closeNode]
  split
  · next e outer hclose =>
    obtain ⟨inner, f, hc⟩ := closing_of_closeIn hclose
    rw [mem_settled_add, hc.walk]
    rcases List.mem_append.mp hn with hroot | hdone
    · exact .inl (List.mem_append_left _ hroot)
    · obtain ⟨g, hg, hgn⟩ := List.mem_flatMap.mp hdone
      rw [hc.frames, List.mem_append, List.mem_cons] at hg
      rcases hg with hg | rfl | hg
      · refine .inr (List.mem_cons_of_mem _ (List.mem_append_right _ ?_))
        refine (frameNodes_perm _).mem_iff.mpr (List.mem_append_right _ ?_)
        exact List.mem_flatMap.mpr ⟨_, List.mem_map_of_mem hg, hgn⟩
      · exact .inr (List.mem_cons_of_mem _ (List.mem_append_left _ hgn))
      · exact .inl (List.mem_append_right _ (List.mem_flatMap.mpr ⟨g, hg, hgn⟩))
  · exact hn

theorem settled_endStartTag (hn : n ∈ b.settled) (stop : Nat) (selfClosed : Bool) :
    n ∈ (b.endStartTag stop selfClosed).settled := by
  rw [Builder.endStartTag]
  split
  · exact hn
  · dsimp only
    split
    · exact mem_settled_add.mpr (.inl hn)
    · exact hn

theorem settled_addAttribute (d : Document) (text : String) (p : Pending) (quote : Quote)
    (stop : Nat) : (b.addAttribute d text p quote stop).settled = b.settled := by
  rw [Builder.addAttribute]
  split
  · rfl
  · dsimp only
    split <;> rfl

theorem settled_dropCurrent (hn : n ∈ b.settled) : n ∈ b.dropCurrent.settled := by
  rw [Builder.dropCurrent]
  split
  · exact mem_settled_add.mpr (.inl hn)
  · exact hn

theorem settled_read (hn : n ∈ b.settled) (d : Document) (text : String) {t : Token}
    (ht : t ≠ .finish) : n ∈ (b.read d text t).settled := by
  cases t with
  | text | comment | attributeName | attributeValue | mistake => exact hn
  | openName => exact settled_dropCurrent hn
  | openEnd | selfClose => exact settled_endStartTag hn _ _
  | close => exact settled_closeNode hn text _ _
  | attributeEnd =>
    rw [Builder.read]
    split
    · rw [settled_addAttribute]
      exact hn
    · exact hn
  | finish => exact absurd rfl ht

/-- When the text ends, all nodes are in the tree. -/
theorem nodes_finish (b : Builder) (stop : Nat) : ∃ b' : Builder,
    b' = { b with current := b.current.map fun n : Node => n.endStartTag stop }.dropCurrent ∧
    (b.finish stop).toTree.nodes =
      walkAll b'.roots.reverse ++ frameNodes (b'.frames.map (·.endAt stop)) :=
  ⟨_, rfl, walkAll_closeAll stop _ _⟩

theorem settled_finish (hn : n ∈ b.settled) (stop : Nat) :
    n ∈ (b.finish stop).toTree.nodes := by
  obtain ⟨b', hb', hnodes⟩ := b.nodes_finish stop
  have hsettled : n ∈ b'.settled := by
    rw [hb']
    exact settled_dropCurrent hn
  rw [hnodes, List.mem_append]
  rcases List.mem_append.mp hsettled with hroot | hdone
  · exact .inl hroot
  · refine .inr ((frameNodes_perm _).mem_iff.mpr (List.mem_append_right _ ?_))
    obtain ⟨f, hf, hfn⟩ := List.mem_flatMap.mp hdone
    exact List.mem_flatMap.mpr ⟨_, List.mem_map_of_mem hf, hfn⟩

/-! ## The end tags of nodes -/

/-- The numbers of the nodes, each with the end tag of its node. -/
def ends (b : Builder) : List (Nat × Option Span) := b.nodes.map Node.ending

theorem ends_withCurrent (hn : b.current = some n) (hending : m.ending = n.ending) :
    { b with current := some m }.ends = b.ends := by
  simp only [ends, nodes, hn, Option.toList_some, List.map_append, List.map_singleton, hending]

theorem ends_endStartTag (b : Builder) (stop : Nat) (selfClosed : Bool) :
    (b.endStartTag stop selfClosed).ends = b.ends := by
  cases hcurrent : b.current with
  | none => rw [Builder.endStartTag, hcurrent]
  | some n =>
    rw [ends, nodes_endStartTag hcurrent]
    exact ends_withCurrent hcurrent rfl

theorem ends_addAttribute (b : Builder) (d : Document) (text : String) (p : Pending)
    (quote : Quote) (stop : Nat) : (b.addAttribute d text p quote stop).ends = b.ends := by
  rw [Builder.addAttribute]
  split
  · rfl
  · next n hn =>
    dsimp only
    split
    · rfl
    · exact ends_withCurrent hn rfl

theorem nodes_dropCurrent (b : Builder) : b.dropCurrent.nodes = b.nodes := by
  rw [Builder.dropCurrent]
  split
  · next n hn =>
    rw [add_withoutCurrent, nodes_add_leaf]
    simp only [nodes, hn]
  · rfl

theorem ends_openNode (b : Builder) (text : String) (name : Span) :
    ∃ id, (b.openNode text name).ends = b.ends ++ [(id, none)] := by
  have hends : b.dropCurrent.ends = b.ends := by rw [ends, nodes_dropCurrent, ends]
  refine ⟨b.dropCurrent.nodeCount, ?_⟩
  rw [← hends]
  simp only [ends, openNode, nodes, current_dropCurrent, Option.toList_some, Option.toList_none,
    List.append_nil, List.map_append, List.map_singleton]
  rfl

/-- A token that is no end tag gives no node an end tag. -/
theorem ends_read (b : Builder) (d : Document) (text : String) {t : Token}
    (hclose : t.endTag? text = none) (ht : t ≠ .finish) :
    (b.read d text t).ends = b.ends ∨
      ∃ id, (b.read d text t).ends = b.ends ++ [(id, none)] := by
  cases t with
  | text | comment | attributeName | attributeValue | mistake => exact .inl rfl
  | openName => exact .inr (ends_openNode b text _)
  | openEnd | selfClose => exact .inl (ends_endStartTag b _ _)
  | close => exact absurd hclose (Option.some_ne_none _)
  | attributeEnd =>
    refine .inl ?_
    rw [Builder.read]
    split
    · exact ends_addAttribute _ d text _ _ _
    · rfl
  | finish => exact absurd rfl ht

theorem ends_frameNodes_endAt (fs : List Frame) (stop : Nat) :
    (frameNodes (fs.map (·.endAt stop))).map Node.ending = (frameNodes fs).map Node.ending := by
  induction fs with
  | nil => rfl
  | cons f outer ih =>
    rw [List.map_cons, frameNodes, frameNodes, List.map_append, List.map_append, ih]
    rfl

theorem ends_finish (b : Builder) (stop : Nat) :
    (b.finish stop).toTree.nodes.map Node.ending = b.ends := by
  obtain ⟨b', hb', hnodes⟩ := b.nodes_finish stop
  have hcurrent : b'.current = none := by rw [hb', current_dropCurrent]
  have hends : b'.ends = b.ends := by
    rw [hb', ends, nodes_dropCurrent]
    cases hb : b.current with
    | none => simp only [ends, nodes, hb, Option.map_none]
    | some n => exact ends_withCurrent hb rfl
  rw [hnodes, ← hends, ends, nodes, hcurrent, Option.toList_none, List.append_nil,
    List.map_append, List.map_append, ends_frameNodes_endAt]

/-! ## Reported end tags -/

/-- How many end tags have been reported. -/
def strays (ps : List Problem) : Nat := ps.countP fun p => p.mistake = .strayEndTag

theorem problems_dropCurrent (b : Builder) : b.dropCurrent.problems = b.problems := by
  rw [Builder.dropCurrent]
  split
  · exact problems_add b _
  · rfl

theorem problems_endStartTag (b : Builder) (stop : Nat) (selfClosed : Bool) :
    (b.endStartTag stop selfClosed).problems = b.problems := by
  rw [Builder.endStartTag]
  split
  · rfl
  · dsimp only
    split
    · exact problems_add _ _
    · rfl

theorem problems_addAttribute (b : Builder) (d : Document) (text : String) (p : Pending)
    (quote : Quote) (stop : Nat) :
    (b.addAttribute d text p quote stop).problems = b.problems := by
  rw [Builder.addAttribute]
  split
  · rfl
  · dsimp only
    split <;> rfl

theorem problems_finish (b : Builder) (stop : Nat) : (b.finish stop).problems = b.problems :=
  problems_dropCurrent _

theorem strays_report {mistake : Mistake} (h : mistake ≠ .strayEndTag) (start stop : Nat) :
    strays (b.report mistake start stop).problems = strays b.problems := by
  rw [report, strays, strays, List.countP_append, List.countP_singleton, if_neg, Nat.add_zero]
  exact fun hstray => h (of_decide_eq_true hstray)

/-- Only end tags are reported as stray end tags. -/
theorem strays_read (b : Builder) (d : Document) (text : String) {t : Token}
    (hclose : t.endTag? text = none) (hkind : ∀ index, t ≠ .mistake .strayEndTag index) :
    strays (b.read d text t).problems = strays b.problems := by
  cases t with
  | text | comment | attributeName | attributeValue => rfl
  | openName => exact congrArg strays (problems_dropCurrent b)
  | openEnd | selfClose => exact congrArg strays (problems_endStartTag b _ _)
  | close => exact absurd hclose (Option.some_ne_none _)
  | attributeEnd =>
    rw [Builder.read]
    split
    · exact congrArg strays (problems_addAttribute _ d text _ _ _)
    · rfl
  | mistake kind index => exact strays_report (fun h => hkind index (h ▸ rfl)) _ _
  | finish => exact congrArg strays (problems_finish b _)

end Builder

/-- The scanner reports no stray end tags: what is open is not its business. -/
theorem kind_of_mem_step {s : State} {pos : Nat} {c : Char} {rest : List Char} {kind : Mistake}
    {index : Nat} (h : Token.mistake kind index ∈ (step s pos c rest).2) :
    kind = .endTagWithoutName := by
  cases s with
  | comment start =>
    rw [step, inComment.eq_def] at h
    split at h
    · exact absurd (List.mem_singleton.mp h) (by simp)
    · exact absurd h List.not_mem_nil
  | _ =>
    simp only [step] at h
    grind [inText, inTagOpen, textSince, inBeforeAttribute, thenBeforeAttribute, inTagName,
      inSelfClosing, inEndTagOpen, inEndTagName, inAfterEndTagName, inAfterAttribute,
      inAttributeName, inUnquoted, valueSince, inBeforeValue, inDeclaration, inRawText]

theorem kind_of_mem_atEnd {s : State} {pos : Nat} {kind : Mistake} {index : Nat}
    (h : Token.mistake kind index ∈ atEnd s pos) : kind = .endInTag ∨ kind = .endInComment := by
  cases s <;> grind [atEnd, textSince, valueSince]

theorem not_stray_of_mem_scan {s : State} {pos : Nat} {cs : List Char} {index : Nat} :
    Token.mistake .strayEndTag index ∉ scan s pos cs := by
  induction cs generalizing s pos with
  | nil =>
    rw [scan, List.mem_append, List.mem_singleton, not_or]
    refine ⟨fun h => ?_, Token.noConfusion⟩
    rcases kind_of_mem_atEnd h with h | h <;> exact Mistake.noConfusion h
  | cons c rest ih =>
    rw [scan, List.mem_append, not_or]
    exact ⟨fun h => Mistake.noConfusion (kind_of_mem_step h), ih⟩

/-! ## All end tags -/

theorem Path.of_append {φ φ'' : Phase} {pos pos'' : Nat} {ts us : List Token}
    (h : Path φ pos (ts ++ us) φ'' pos'') :
    ∃ φ' pos', Path φ pos ts φ' pos' ∧ Path φ' pos' us φ'' pos'' := by
  induction ts generalizing φ pos with
  | nil => exact ⟨φ, pos, .nil, h⟩
  | cons t rest ih =>
    cases h with
    | cons ht hrest =>
      obtain ⟨φ', pos', hts, hus⟩ := ih hrest
      exact ⟨φ', pos', .cons ht hts, hus⟩

namespace Builder

variable {b b' : Builder} {name : String} {tag : Span} {inner outer : List Node} {n m : Node}
variable {d : Document} {ts : List Token} {t : Token} {id : Nat}

theorem Closes.find? (h : b.Closes b' name tag inner n outer) :
    (b.openNodes.find? fun m => sameName m.tag name) = some n := by
  rw [h.opened, List.find?_append, List.find?_eq_none.mpr, Option.none_or, List.find?_cons, h.name]
  exact fun m hm => Bool.not_eq_true _ ▸ h.passed m hm

theorem Closes.mem_openNodes (h : b.Closes b' name tag inner n outer) : n ∈ b.openNodes := by
  rw [h.opened]
  exact List.mem_append_right _ List.mem_cons_self

theorem ending_behind (hne : m ≠ n) : (m.behind tag inner n).ending = m.ending := by
  rw [Node.behind, if_neg hne]
  split <;> rfl

/-- Closing gives one node an end tag. -/
theorem Closes.ends_eq (h : b.Closes b' name tag inner n outer) (hnodup : b.nodes.Nodup) :
    ∃ front back, b.ends = front ++ (n.id, none) :: back ∧
      b'.ends = front ++ (n.id, some tag) :: back := by
  obtain ⟨front, back, hsplit⟩ := List.append_of_mem (mem_nodes_of_open h.mem_openNodes)
  rw [hsplit] at hnodup
  obtain ⟨-, hcons, hapart⟩ := List.nodup_append.mp hnodup
  have hkept : ∀ ms : List Node, (∀ m ∈ ms, m ≠ n) →
      (ms.map fun m => m.behind tag inner n).map Node.ending = ms.map Node.ending := by
    intro ms hms
    rw [List.map_map]
    exact List.map_congr_left fun m hm => ending_behind (hms m hm)
  have hfront := hkept front fun m hm => hapart m hm n List.mem_cons_self
  have hback := hkept back fun m hm hmn => (List.nodup_cons.mp hcons).1 (hmn ▸ hm)
  have hnone := h.unended n List.mem_cons_self
  have hclosed : n.behind tag inner n = n.closedBy tag := if_pos rfl
  refine ⟨front.map Node.ending, back.map Node.ending, ?_, ?_⟩
  · rw [ends, hsplit, List.map_append, List.map_cons, Node.ending, hnone]
  · rw [ends, h.nodes, hsplit, List.map_append, List.map_cons, List.map_append, List.map_cons,
      hfront, hback, hclosed]
    rfl

/-- The builder behind the first tokens of a document. -/
def after (d : Document) (ts : List Token) : Builder := ts.foldl (Builder.read d d.text) {}

theorem after_concat (d : Document) (ts : List Token) (t : Token) :
    after d (ts ++ [t]) = (after d ts).read d d.text t := by
  rw [after, List.foldl_append]
  rfl

/-- One of the tokens is an end tag over `tag` that closes the node with a number. -/
def ClosedIn (d : Document) (ts : List Token) (id : Nat) (tag : Span) : Prop :=
  ∃ before t behind name inner n outer, ts = before ++ t :: behind ∧
    t.endTag? d.text = some (name, tag) ∧
    (after d before).Closes (after d (before ++ [t])) name tag inner n outer ∧ n.id = id

theorem closedIn_nil : ¬ ClosedIn d [] id tag := by
  rintro ⟨before, t, behind, name, inner, n, outer, hsplit, -⟩
  exact List.append_ne_nil_of_right_ne_nil before (List.cons_ne_nil t behind) hsplit.symm

theorem closedIn_concat : ClosedIn d (ts ++ [t]) id tag ↔ ClosedIn d ts id tag ∨
    ∃ name inner n outer, t.endTag? d.text = some (name, tag) ∧
      (after d ts).Closes (after d (ts ++ [t])) name tag inner n outer ∧ n.id = id := by
  constructor
  · rintro ⟨before, u, behind, name, inner, n, outer, hsplit, hu, hcloses, hid⟩
    rcases List.eq_nil_or_concat behind with rfl | ⟨behind, x, rfl⟩
    · obtain ⟨rfl, hlast⟩ := List.append_inj' hsplit rfl
      obtain rfl : t = u := List.singleton_inj.mp hlast
      exact .inr ⟨name, inner, n, outer, hu, hcloses, hid⟩
    · rw [List.concat_eq_append, ← List.cons_append, ← List.append_assoc] at hsplit
      obtain ⟨rfl, -⟩ := List.append_inj' hsplit rfl
      exact .inl ⟨before, u, behind, name, inner, n, outer, rfl, hu, hcloses, hid⟩
  · rintro (⟨before, u, behind, name, inner, n, outer, rfl, hu, hcloses, hid⟩ |
      ⟨name, inner, n, outer, hu, hcloses, hid⟩)
    · refine ⟨before, u, behind ++ [t], name, inner, n, outer, ?_, hu, hcloses, hid⟩
      rw [List.append_assoc, List.cons_append]
    · exact ⟨ts, t, [], name, inner, n, outer, rfl, hu, hcloses, hid⟩

/-- Every end tag of the tokens has closed a node or been reported. -/
structure Accounted (d : Document) (ts : List Token) : Prop where
  ends : ∀ id tag, (id, some tag) ∈ (after d ts).ends ↔ ClosedIn d ts id tag
  count : (ts.countP fun t => (t.endTag? d.text).isSome) =
    ((after d ts).ends.countP fun x => x.2.isSome) + strays (after d ts).problems

theorem accounted_nil (d : Document) : Accounted d [] :=
  ⟨fun _ _ => iff_of_false List.not_mem_nil closedIn_nil, rfl⟩

theorem Accounted.closes (h : Accounted d ts) (hnodup : (after d ts).nodes.Nodup)
    (ht : t.endTag? d.text = some (name, tag))
    (hcloses : (after d ts).Closes (after d (ts ++ [t])) name tag inner n outer) :
    Accounted d (ts ++ [t]) := by
  obtain ⟨front, back, hends, hends'⟩ := hcloses.ends_eq hnodup
  constructor
  · intro id s
    have hold := h.ends id s
    have hlast : (∃ name inner n outer, t.endTag? d.text = some (name, s) ∧
        (after d ts).Closes (after d (ts ++ [t])) name s inner n outer ∧ n.id = id) ↔
        id = n.id ∧ s = tag := by
      constructor
      · rintro ⟨name', inner', n', outer', ht', hcloses', rfl⟩
        obtain ⟨rfl, rfl⟩ := Prod.mk.inj (Option.some.inj (ht.symm.trans ht'))
        rw [Option.some.inj (hcloses.find?.symm.trans hcloses'.find?)]
        exact ⟨rfl, rfl⟩
      · rintro ⟨rfl, rfl⟩
        exact ⟨name, inner, n, outer, ht, hcloses, rfl⟩
    rw [closedIn_concat, ← hold, hlast, hends, hends']
    simp only [List.mem_append, List.mem_cons, Prod.mk.injEq, Option.some.injEq, reduceCtorEq,
      and_false, false_or]
    rw [or_left_comm, or_comm]
  · have hcount := h.count
    rw [List.countP_append, List.countP_singleton, ht, hends', hcloses.problems, hcount, hends]
    simp only [List.countP_append, List.countP_cons, Option.isSome_some, Option.isSome_none,
      if_true, Bool.false_eq_true, if_false]
    omega

theorem Accounted.strays (h : Accounted d ts) (ht : t.endTag? d.text = some (name, tag))
    (hstrays : (after d ts).Strays (after d (ts ++ [t])) name tag) : Accounted d (ts ++ [t]) := by
  have hends : (after d (ts ++ [t])).ends = (after d ts).ends := by
    rw [Builder.ends, hstrays.nodes, Builder.ends]
  constructor
  · intro id s
    rw [closedIn_concat, hends, h.ends id s, or_iff_left]
    rintro ⟨name', inner, n, outer, ht', hcloses, -⟩
    obtain ⟨rfl, rfl⟩ := Prod.mk.inj (Option.some.inj (ht.symm.trans ht'))
    exact absurd hcloses.name (Bool.eq_false_iff.mp (hstrays.passed n hcloses.mem_openNodes))
  · have hreported : Builder.strays (after d (ts ++ [t])).problems =
        Builder.strays (after d ts).problems + 1 := by
      rw [hstrays.problems, Builder.strays, Builder.strays, List.countP_append,
        List.countP_singleton, decide_eq_true rfl]
      rfl
    rw [List.countP_append, List.countP_singleton, ht, hends, hreported, h.count]
    exact Nat.add_assoc _ _ 1

/-- Any other token leaves the account as it is. -/
theorem Accounted.other (h : Accounted d ts) (ht : t.endTag? d.text = none)
    (hends : (after d (ts ++ [t])).ends = (after d ts).ends ∨
      ∃ id, (after d (ts ++ [t])).ends = (after d ts).ends ++ [(id, none)])
    (hstrays : Builder.strays (after d (ts ++ [t])).problems =
      Builder.strays (after d ts).problems) : Accounted d (ts ++ [t]) := by
  have hmem : ∀ id tag, (id, some tag) ∈ (after d (ts ++ [t])).ends ↔
      (id, some tag) ∈ (after d ts).ends := by
    intro id tag
    rcases hends with hsame | ⟨new, hnew⟩
    · rw [hsame]
    · rw [hnew, List.mem_append, List.mem_singleton, or_iff_left (by simp)]
  have hcount : ((after d (ts ++ [t])).ends.countP fun x => x.2.isSome) =
      (after d ts).ends.countP fun x => x.2.isSome := by
    rcases hends with hsame | ⟨new, hnew⟩
    · rw [hsame]
    · rw [hnew, List.countP_append, List.countP_singleton]
      rfl
  constructor
  · intro id tag
    rw [closedIn_concat, hmem, h.ends id tag, or_iff_left]
    rintro ⟨name, inner, n, outer, ht', -⟩
    exact Option.some_ne_none _ (ht'.symm.trans ht)
  · rw [List.countP_append, List.countP_singleton, ht, hcount, hstrays, h.count]
    rfl

theorem regular_after {φ : Phase} {pos : Nat} (hts : Path .outside 0 ts φ pos) (d : Document) :
    (after d ts).Regular φ pos :=
  regular_empty.foldl_read hts d d.text

/-- Reading an end tag that follows the tokens before it. -/
theorem closes_or_strays_after {φ φ' : Phase} {pos pos' : Nat}
    (hts : Path .outside 0 ts φ pos) (hfollows : Follows φ pos t φ' pos')
    (ht : t.endTag? d.text = some (name, tag)) :
    (∃ inner n outer, (after d ts).Closes (after d (ts ++ [t])) name tag inner n outer) ∨
      (after d ts).Strays (after d (ts ++ [t])) name tag := by
  have hregular := regular_after hts d
  rw [after_concat]
  cases hfollows with
  | close =>
    obtain ⟨rfl, rfl⟩ := Prod.mk.inj (Option.some.inj ht)
    exact hregular.closes_or_strays d.text _ _ _
  | text | comment | openName | attributeName | attributeValue | attributeEnd | openEnd
  | selfClose | mistake => exact absurd ht.symm (Option.some_ne_none _)

theorem accounted_after {φ : Phase} {pos : Nat} (hts : Path .outside 0 ts φ pos)
    (hkind : ∀ index, Token.mistake .strayEndTag index ∉ ts) : Accounted d ts := by
  induction ts using List.reverseRec generalizing φ pos with
  | nil => exact accounted_nil d
  | append_singleton ts t ih =>
    obtain ⟨φ', pos', hbefore, hlast⟩ := hts.of_append
    have hold := ih hbefore fun index hmem => hkind index (List.mem_append_left _ hmem)
    cases hlast with
    | cons hfollows _ =>
      cases ht : t.endTag? d.text with
      | some x =>
        rcases closes_or_strays_after hbefore hfollows ht with ⟨inner, n, outer, hcloses⟩ | hstrays
        · exact hold.closes (regular_after hbefore d).nodup ht hcloses
        · exact hold.strays ht hstrays
      | none =>
        have hfinish : t ≠ .finish := by
          rintro rfl
          exact nomatch hfollows
        refine hold.other ht ?_ ?_
        · rw [after_concat]
          exact ends_read _ d d.text ht hfinish
        · rw [after_concat]
          refine strays_read _ d d.text ht fun index hmistake => hkind index ?_
          exact List.mem_append_right _ (List.mem_singleton.mpr hmistake.symm)

/-- What is complete behind some tokens of a document is in its tree. -/
theorem settled_foldl_read {behind : List Token} (hbehind : .finish ∉ behind) (hn : n ∈ b.settled)
    (d : Document) (text : String) : n ∈ (behind.foldl (Builder.read d text) b).settled := by
  induction behind generalizing b with
  | nil => exact hn
  | cons t rest ih =>
    rw [List.mem_cons, not_or] at hbehind
    exact ih hbehind.2 (settled_read hn d text (Ne.symm hbehind.1))

theorem not_finish_of_path {φ φ' : Phase} {pos pos' : Nat} (hts : Path φ pos ts φ' pos') :
    Token.finish ∉ ts := by
  induction hts with
  | nil => exact List.not_mem_nil
  | cons ht _ ih =>
    rw [List.mem_cons, not_or]
    refine ⟨?_, ih⟩
    rintro rfl
    exact nomatch ht

end Builder

/-- The end tags of a document are accounted for by its tree.

Behind any of its tokens, the open nodes are those that can hold others and neither have an end
tag nor lie in a node with one, in a chain from the inside out.  What an end tag does is said by
`Builder.Closes` and `Builder.Strays`, and nodes that it makes complete are in the
tree as they are then. -/
structure Tree.EndTags (t : Tree) (d : Document) : Prop where
  opened : ∀ before token behind, tokens d.text = before ++ token :: behind →
    ∀ n, n ∈ (Builder.after d before).openNodes ↔
      n ∈ (Builder.after d before).nodes ∧ (Builder.after d before).current ≠ some n ∧
        ¬ n.IsLeaf ∧ ∀ m, Around (Builder.after d before).nodes m n → m.endTag = none
  chain : ∀ before token behind, tokens d.text = before ++ token :: behind →
    (Builder.after d before).openNodes.Pairwise fun m n => Around (Builder.after d before).nodes n m
  settled : ∀ before token behind, tokens d.text = before ++ token :: behind →
    ∀ n ∈ (Builder.after d before).settled, n ∈ t.nodes
  read : ∀ before token behind, tokens d.text = before ++ token :: behind →
    ∀ name tag, token.endTag? d.text = some (name, tag) →
      (∃ inner n outer, (Builder.after d before).Closes (Builder.after d (before ++ [token])) name
        tag inner n outer) ∨
      (Builder.after d before).Strays (Builder.after d (before ++ [token])) name tag
  count : ((tokens d.text).countP fun t => (t.endTag? d.text).isSome) =
    (t.nodes.countP fun n => n.endTag.isSome) +
      t.problems.countP fun p => p.mistake = .strayEndTag
  endTag : ∀ n ∈ t.nodes, ∀ tag, n.endTag = some tag ↔
    Builder.ClosedIn d (tokens d.text) n.id tag
  unclosed : ∀ n ∈ t.nodes, n.isUnclosed = true ↔
    n.isVoid = false ∧ n.selfClosed = false ∧ ∀ tag, ¬ Builder.ClosedIn d (tokens d.text) n.id tag

/-- The frames lie one around the other. -/
theorem pairwise_around {ns : List Node} {fs : List Frame} (h : FramesLinked fs)
    (hns : ∀ f ∈ fs, f.node ∈ ns) : (fs.map (·.node)).Pairwise fun m n => Around ns n m := by
  induction fs with
  | nil => exact .nil
  | cons f outer ih =>
    obtain ⟨-, hbelow, hrest⟩ := h
    have houter := ih hrest (List.forall_mem_cons.mp hns).2
    rw [List.map_cons]
    refine .cons ?_ houter
    cases outer with
    | nil => exact List.forall_mem_nil _
    | cons g outer =>
      rw [List.map_cons] at houter ⊢
      have hgf : Around ns g.node f.node :=
        .parent (hns g (List.mem_cons_of_mem _ List.mem_cons_self)) hbelow.parent .self
      intro n hn
      rcases List.mem_cons.mp hn with rfl | hn
      · exact hgf
      · exact (List.rel_of_pairwise_cons houter hn).trans hgf

section Tokens

variable {d : Document} {before behind : List Token} {token : Token} {n : Node} {tag : Span}

/-- What comes before one of the tokens of a text is a path that the token follows, and the
end comes behind it. -/
theorem path_before {text : String} (hsplit : tokens text = before ++ token :: behind) :
    ∃ φ pos, Path .outside 0 before φ pos ∧
      (token ≠ .finish → ∃ φ' pos', Follows φ pos token φ' pos') ∧
      ∃ after, tokens text = before ++ after ++ [.finish] ∧ .finish ∉ after := by
  obtain ⟨ts, htokens, φ, done, hpath, -⟩ := tokens_eq text
  rw [htokens] at hsplit
  rcases List.eq_nil_or_concat behind with rfl | ⟨front, last, rfl⟩
  · obtain ⟨rfl, hlast⟩ := List.append_inj' hsplit rfl
    obtain rfl := List.singleton_inj.mp hlast
    refine ⟨φ, done, hpath, fun hne => absurd rfl hne, [], ?_, List.not_mem_nil⟩
    rw [htokens, List.append_nil]
  · rw [List.concat_eq_append, ← List.cons_append, ← List.append_assoc] at hsplit
    obtain ⟨rfl, -⟩ := List.append_inj' hsplit rfl
    have hfinish := Builder.not_finish_of_path hpath
    rw [List.mem_append, not_or] at hfinish
    obtain ⟨φ', pos', hbefore, hrest⟩ := hpath.of_append
    cases hrest with
    | cons hfollows _ =>
      exact ⟨φ', pos', hbefore, fun _ => ⟨_, _, hfollows⟩, _, htokens, hfinish.2⟩

theorem Builder.regular_before (hsplit : tokens d.text = before ++ token :: behind) :
    ∃ φ pos, (after d before).Regular φ pos := by
  obtain ⟨φ, pos, hbefore, -⟩ := path_before hsplit
  exact ⟨φ, pos, regular_after hbefore d⟩

theorem Builder.closes_or_strays_before (hsplit : tokens d.text = before ++ token :: behind)
    {name : String} (hread : token.endTag? d.text = some (name, tag)) :
    (∃ inner n outer,
      (after d before).Closes (after d (before ++ [token])) name tag inner n outer) ∨
      (after d before).Strays (after d (before ++ [token])) name tag := by
  obtain ⟨φ, pos, hbefore, hnext, -⟩ := path_before hsplit
  have hfinish : token ≠ .finish := by
    rintro rfl
    exact Option.some_ne_none _ hread.symm
  obtain ⟨φ', pos', hfollows⟩ := hnext hfinish
  exact closes_or_strays_after hbefore hfollows hread

namespace Tree

theorem ofDocument_eq_finish {ts : List Token} (htokens : tokens d.text = ts ++ [.finish]) :
    Tree.ofDocument d = ((Builder.after d ts).finish d.text.utf8ByteSize).toTree := by
  rw [Tree.ofDocument, Builder.ofDocument, htokens, List.foldl_append]
  rfl

theorem mem_nodes_of_settled (hsplit : tokens d.text = before ++ token :: behind)
    (hn : n ∈ (Builder.after d before).settled) : n ∈ (Tree.ofDocument d).nodes := by
  obtain ⟨-, -, -, -, after, htokens, hfinish⟩ := path_before hsplit
  rw [ofDocument_eq_finish htokens, Builder.after, List.foldl_append]
  exact Builder.settled_finish (Builder.settled_foldl_read hfinish hn d d.text) _

/-- The account is as it was before the end of the text. -/
theorem exists_accounted (d : Document) : ∃ ts, tokens d.text = ts ++ [.finish] ∧
    Builder.Accounted d ts ∧ (Tree.ofDocument d).nodes.map Node.ending = (Builder.after d ts).ends ∧
    (Tree.ofDocument d).problems = (Builder.after d ts).problems := by
  obtain ⟨ts, htokens, φ, done, hpath, -⟩ := tokens_eq d.text
  have hstray : ∀ index, Token.mistake .strayEndTag index ∉ ts := by
    intro index hmem
    have hscan : Token.mistake .strayEndTag index ∉ tokens d.text := not_stray_of_mem_scan
    exact hscan (htokens ▸ List.mem_append_left _ hmem)
  refine ⟨ts, htokens, Builder.accounted_after hpath hstray, ?_, ?_⟩
  · rw [ofDocument_eq_finish htokens]
    exact Builder.ends_finish _ _
  · rw [ofDocument_eq_finish htokens]
    exact Builder.problems_finish _ _

theorem endTag_iff_closedIn (hn : n ∈ (Tree.ofDocument d).nodes) :
    n.endTag = some tag ↔ Builder.ClosedIn d (tokens d.text) n.id tag := by
  obtain ⟨ts, htokens, haccount, hends, -⟩ := exists_accounted d
  have hfinish : ¬ ∃ name inner k outer, Token.endTag? d.text .finish = some (name, tag) ∧
      (Builder.after d ts).Closes (Builder.after d (ts ++ [.finish])) name tag inner k outer ∧
        k.id = n.id := by
    rintro ⟨name, inner, k, outer, hread, -⟩
    exact Option.some_ne_none _ hread.symm
  rw [htokens, Builder.closedIn_concat, or_iff_left hfinish, ← haccount.ends, ← hends, List.mem_map]
  constructor
  · exact fun htag => ⟨n, hn, Prod.ext rfl htag⟩
  · rintro ⟨m, hm, hending⟩
    obtain ⟨hid, htag⟩ := Prod.mk.inj hending
    rw [← eq_of_number_eq (numbered_ofDocument d).nodes hm hn hid]
    exact htag

theorem count_endTags (d : Document) :
    ((tokens d.text).countP fun t => (t.endTag? d.text).isSome) =
      ((Tree.ofDocument d).nodes.countP fun n => n.endTag.isSome) +
        (Tree.ofDocument d).problems.countP fun p => p.mistake = .strayEndTag := by
  obtain ⟨ts, htokens, haccount, hends, hproblems⟩ := exists_accounted d
  have hcount := haccount.count
  rw [← hends, List.countP_map, ← hproblems] at hcount
  rw [htokens, List.countP_append, hcount]
  rfl

/-- A node lacks its end tag when none has closed it and it is not complete without one. -/
theorem isUnclosed_iff (hn : n ∈ (Tree.ofDocument d).nodes) : n.isUnclosed = true ↔
    n.isVoid = false ∧ n.selfClosed = false ∧
      ∀ tag, ¬ Builder.ClosedIn d (tokens d.text) n.id tag := by
  have hnone : n.endTag.isNone = true ↔ ∀ tag, ¬ Builder.ClosedIn d (tokens d.text) n.id tag := by
    rw [Option.isNone_iff_eq_none, Option.eq_none_iff_forall_ne_some]
    exact forall_congr' fun tag => not_congr (endTag_iff_closedIn hn)
  rw [Node.isUnclosed, Bool.and_eq_true, Bool.and_eq_true, Bool.not_eq_true', Bool.not_eq_true',
    hnone]
  constructor
  · rintro ⟨⟨hopen, hself⟩, hvoid⟩
    exact ⟨hvoid, hself, hopen⟩
  · rintro ⟨hvoid, hself, hopen⟩
    exact ⟨⟨hopen, hself⟩, hvoid⟩

theorem endTags_accounted (d : Document) : (Tree.ofDocument d).EndTags d := by
  refine ⟨?_, ?_, ?_, ?_, count_endTags d, ?_, ?_⟩
  · intro before token behind hsplit n
    obtain ⟨φ, pos, hregular⟩ := Builder.regular_before hsplit
    exact hregular.mem_openNodes_iff
  · intro before token behind hsplit
    obtain ⟨φ, pos, hregular⟩ := Builder.regular_before hsplit
    exact pairwise_around hregular.linked.frames fun f hf =>
      Builder.mem_nodes_of_open (List.mem_map_of_mem hf)
  · exact fun before token behind hsplit n hn => mem_nodes_of_settled hsplit hn
  · exact fun before token behind hsplit name tag hread =>
      Builder.closes_or_strays_before hsplit hread
  · exact fun n hn tag => endTag_iff_closedIn hn
  · exact fun n hn => isUnclosed_iff hn

end Tree
end Tokens
end Markup
end Inlay
