import Inlay.Proofs.Markup.EndTags
import Inlay.Proofs.Markup.RawElements

/-!
# Tokens of attributes

The tokens of an attribute are its name, its value, if it has one, and its end, and no other
token comes between them: `Bracketed`.  The scanner keeps to this but in one place.  Where a text
ends behind the equals sign of an attribute, and before a value, the end of the attribute never
comes: `attributes_bracketed`.

The tree holds what the tokens complete.  `ended` reads the complete attributes off the
tokens alone, and `Tree.attributes_unnumbered` says that they are the attributes of the tree, but
for those that have no name of their own.
-/

namespace Inlay
namespace Markup

/-! ## Brackets -/

/-- A token of an attribute. -/
def Token.isAttributePart : Token → Bool
  | .attributeName _ _ | .attributeValue _ _ | .attributeEnd _ _ => true
  | _ => false

/-- Behind each name of an attribute comes at most one value and then the end of the attribute,
and neither comes anywhere else. -/
inductive Bracketed : List Token → Prop
  | nil : Bracketed []
  | other {t ts} : t.isAttributePart = false → Bracketed ts → Bracketed (t :: ts)
  | bare {start stop quote place ts} : Bracketed ts →
      Bracketed (.attributeName start stop :: .attributeEnd quote place :: ts)
  | valued {start stop valueStart valueStop quote place ts} : Bracketed ts →
      Bracketed (.attributeName start stop :: .attributeValue valueStart valueStop ::
        .attributeEnd quote place :: ts)

/-- The last of the tokens is the name of an attribute; those before it are bracketed. -/
def Awaiting (ts : List Token) : Prop :=
  ∃ before start stop, ts = before ++ [.attributeName start stop] ∧ Bracketed before

namespace Bracketed

variable {ts us : List Token}

theorem append (h : Bracketed ts) (h' : Bracketed us) : Bracketed (ts ++ us) := by
  induction h with
  | nil => exact h'
  | other ht _ ih => exact .other ht ih
  | bare _ ih => exact .bare ih
  | valued _ ih => exact .valued ih

theorem of_others (h : ∀ t ∈ ts, t.isAttributePart = false) : Bracketed ts := by
  induction ts with
  | nil => exact .nil
  | cons t ts ih =>
    obtain ⟨ht, hts⟩ := List.forall_mem_cons.mp h
    exact .other ht (ih hts)

/-- What stands behind bracketed tokens is bracketed when all are. -/
theorem of_append (h : Bracketed ts) (h' : Bracketed (ts ++ us)) : Bracketed us := by
  induction h with
  | nil => exact h'
  | @other t ts ht _ ih =>
    rw [List.cons_append] at h'
    generalize ts ++ us = rest at h' ih
    cases h' with
    | other _ h' => exact ih h'
    | bare => exact absurd ht Bool.noConfusion
    | valued => exact absurd ht Bool.noConfusion
  | bare _ ih =>
    rw [List.cons_append, List.cons_append] at h'
    cases h' with
    | other ht => exact absurd ht Bool.noConfusion
    | bare h' => exact ih h'
  | valued _ ih =>
    rw [List.cons_append, List.cons_append, List.cons_append] at h'
    cases h' with
    | other ht => exact absurd ht Bool.noConfusion
    | valued h' => exact ih h'

theorem attributeName (h : Bracketed ts) (start stop : Nat) :
    Awaiting (ts ++ [.attributeName start stop]) :=
  ⟨ts, start, stop, rfl, h⟩

end Bracketed

namespace Awaiting

variable {ts us : List Token}

theorem attributeEnd (h : Awaiting ts) (quote : Quote) (pos : Nat) :
    Bracketed (ts ++ [.attributeEnd quote pos]) := by
  obtain ⟨before, start, stop, rfl, hbefore⟩ := h
  rw [List.append_assoc]
  exact hbefore.append (.bare .nil)

theorem valueSince (h : Awaiting ts) (start : Nat) (quote : Quote) (pos : Nat) :
    Bracketed (ts ++ valueSince start quote pos) := by
  obtain ⟨before, nameStart, nameStop, rfl, hbefore⟩ := h
  rw [Markup.valueSince, List.append_assoc]
  split
  · exact hbefore.append (.valued .nil)
  · exact hbefore.append (.bare .nil)

/-- A name with another token behind it than a value or an end spoils the brackets. -/
theorem not_bracketed (h : Awaiting ts) {t : Token} (ht : t.isAttributePart = false) :
    ¬ Bracketed (ts ++ t :: us) := by
  obtain ⟨before, start, stop, rfl, hbefore⟩ := h
  intro hall
  rw [List.append_assoc] at hall
  cases hbefore.of_append hall with
  | other hname => exact absurd hname Bool.noConfusion
  | bare => exact absurd ht Bool.noConfusion
  | valued => exact absurd ht Bool.noConfusion

end Awaiting

/-! ## Brackets of the scanner -/

/-- The name of an attribute has been read, and its end has not. -/
def State.awaitsEnd : State → Bool
  | .afterAttribute _ | .beforeValue _ => true
  | .doubleQuoted _ _ | .singleQuoted _ _ | .unquoted _ _ => true
  | _ => false

/-- What a state says of the tokens before it. -/
def State.Brackets (s : State) (ts : List Token) : Prop :=
  if s.awaitsEnd then Awaiting ts else Bracketed ts

/-- A step that has nothing to do with the name, the value or the end of an attribute. -/
def Unrelated (next : State × List Token) : Prop :=
  next.1.awaitsEnd = false ∧ ∀ t ∈ next.2, t.isAttributePart = false

theorem awaitsEnd_content (name : List Char) (start : Nat) :
    (content name start).awaitsEnd = false := by
  rw [content]
  split <;> rfl

section Steps

variable {ts done : List Token} {name : List Char} {start pos : Nat} {c : Char}

theorem unrelated_inBeforeAttribute (name : List Char) (pos : Nat) (c : Char) :
    Unrelated (inBeforeAttribute name pos c) := by
  rw [Unrelated]
  grind [inBeforeAttribute, awaitsEnd_content, State.awaitsEnd, Token.isAttributePart]

/-- Outside of attributes every step is unrelated to them. -/
theorem unrelated_step {s : State} (hs : s.awaitsEnd = false)
    (hname : ∀ name start, s ≠ .attributeName name start) (rest : List Char) :
    Unrelated (step s pos c rest) := by
  rw [Unrelated]
  cases s with
  | comment start =>
    rw [step, inComment.eq_def]
    split <;> exact ⟨rfl, by simp [Token.isAttributePart]⟩
  | attributeName name start => exact absurd rfl (hname name start)
  | _ =>
    simp only [step]
    grind [inText, textSince, inTagOpen, inBeforeAttribute, thenBeforeAttribute, inTagName,
      inSelfClosing, inEndTagOpen, inEndTagName, inAfterEndTagName, inDeclaration, inRawText,
      awaitsEnd_content, State.awaitsEnd, Token.isAttributePart]

theorem brackets_of_unrelated (h : Bracketed ts) {next : State × List Token}
    (hnext : Unrelated next) : next.1.Brackets (ts ++ next.2) := by
  rw [State.Brackets, hnext.1]
  exact h.append (.of_others hnext.2)

theorem brackets_thenBeforeAttribute (h : Bracketed (ts ++ done)) :
    (thenBeforeAttribute done name pos c).1.Brackets
      (ts ++ (thenBeforeAttribute done name pos c).2) := by
  have hnext := brackets_of_unrelated h (unrelated_inBeforeAttribute name pos c)
  rw [List.append_assoc] at hnext
  exact hnext

theorem brackets_inAfterAttribute (h : Awaiting (ts ++ done)) :
    (inAfterAttribute done name pos c).1.Brackets (ts ++ (inAfterAttribute done name pos c).2) := by
  have hend : Bracketed (ts ++ (done ++ [Token.attributeEnd .absent pos])) := by
    rw [← List.append_assoc]
    exact h.attributeEnd .absent pos
  rw [inAfterAttribute]
  split
  · exact h
  split
  · exact brackets_thenBeforeAttribute hend
  split
  · exact h
  · exact hend

theorem brackets_inAttributeName (h : Bracketed ts) :
    (inAttributeName name start pos c).1.Brackets (ts ++ (inAttributeName name start pos c).2) := by
  rw [inAttributeName]
  split
  · exact brackets_inAfterAttribute (h.attributeName start pos)
  · rw [List.append_nil]
    exact h

theorem brackets_inUnquoted (h : Awaiting ts) :
    (inUnquoted name start pos c).1.Brackets (ts ++ (inUnquoted name start pos c).2) := by
  rw [inUnquoted]
  split
  · exact brackets_thenBeforeAttribute (h.valueSince start .unquoted pos)
  · rw [List.append_nil]
    exact h

theorem brackets_inBeforeValue (h : Awaiting ts) :
    (inBeforeValue name pos c).1.Brackets (ts ++ (inBeforeValue name pos c).2) := by
  have hsilent : Awaiting (ts ++ []) := by rwa [List.append_nil]
  rw [inBeforeValue]
  split
  · exact hsilent
  split
  · exact hsilent
  split
  · exact hsilent
  · exact brackets_inUnquoted h

end Steps

theorem State.Brackets.step {s : State} {ts : List Token} (h : s.Brackets ts) (pos : Nat) (c : Char)
    (rest : List Char) : (step s pos c rest).1.Brackets (ts ++ (step s pos c rest).2) := by
  have hsilent : s.Brackets (ts ++ []) := by rwa [List.append_nil]
  cases s with
  | attributeName name start => exact brackets_inAttributeName h
  | afterAttribute name => exact brackets_inAfterAttribute hsilent
  | beforeValue name => exact brackets_inBeforeValue h
  | unquoted name start => exact brackets_inUnquoted h
  | doubleQuoted name start =>
    rw [Markup.step]
    split
    · exact Awaiting.valueSince h start .double pos
    · exact hsilent
  | singleQuoted name start =>
    rw [Markup.step]
    split
    · exact Awaiting.valueSince h start .single pos
    · exact hsilent
  | _ => exact brackets_of_unrelated h (unrelated_step rfl (by simp) rest)

theorem State.Brackets.stateAfter {s : State} {ts : List Token} (h : s.Brackets ts) (pos : Nat)
    (after cs : List Char) :
    (stateAfter s pos after cs).Brackets (ts ++ emitted s pos after cs) := by
  induction cs generalizing s pos ts with
  | nil =>
    rw [emitted, List.append_nil]
    exact h
  | cons c cs ih =>
    rw [Markup.stateAfter, emitted, ← List.append_assoc]
    exact ih (h.step pos c _) _

/-- The end of the text completes every attribute that has been begun, but not in front of
a value. -/
theorem State.Brackets.atEnd {s : State} {ts : List Token} (h : s.Brackets ts)
    (hs : ∀ name, s ≠ .beforeValue name) (pos : Nat) : Bracketed (ts ++ atEnd s pos) := by
  have hmistake : Bracketed [.mistake .endInTag pos] := .other rfl .nil
  have hvalue : ∀ start, Awaiting ts →
      Bracketed (ts ++ (valueSince start .unquoted pos ++ [Token.mistake .endInTag pos])) := by
    intro start hts
    rw [← List.append_assoc]
    exact (hts.valueSince start .unquoted pos).append hmistake
  cases s with
  | afterAttribute name =>
    have hended := (Awaiting.attributeEnd h .absent pos).append hmistake
    rw [List.append_assoc] at hended
    exact hended
  | attributeName name start => exact Bracketed.append h (.bare hmistake)
  | beforeValue name => exact absurd rfl (hs name)
  | doubleQuoted name start => exact hvalue start h
  | singleQuoted name start => exact hvalue start h
  | unquoted name start => exact hvalue start h
  | _ =>
    refine Bracketed.append h (.of_others ?_)
    grind [Markup.atEnd, textSince, Token.isAttributePart]

/-- The text ends where the scanner looks for a value: behind the equals sign of an attribute, and
perhaps blanks. -/
def stopsBehindEquals (text : String) : Bool :=
  match stateAfter (.text 0) 0 [] text.toList with
  | .beforeValue _ => true
  | _ => false

theorem stopsBehindEquals_iff (text : String) : stopsBehindEquals text = true ↔
    ∃ name, stateAfter (.text 0) 0 [] text.toList = .beforeValue name := by
  rw [stopsBehindEquals]
  cases stateAfter (.text 0) 0 [] text.toList <;> simp

theorem tokens_eq_emitted (text : String) :
    tokens text = emitted (.text 0) 0 [] text.toList ++
      (atEnd (stateAfter (.text 0) 0 [] text.toList) text.utf8ByteSize ++ [Token.finish]) := by
  have hsplit := tokens_eq_append (List.append_nil text.toList).symm
  rw [tokensBehind, byteLength_toList] at hsplit
  exact hsplit

/-- The tokens of a text are bracketed up to where the text ends. -/
theorem brackets_emitted (text : String) :
    (stateAfter (.text 0) 0 [] text.toList).Brackets (emitted (.text 0) 0 [] text.toList) := by
  have hstart : (State.text 0).Brackets [] := .nil
  exact hstart.stateAfter 0 [] text.toList

theorem bracketed_tokens {text : String} (h : stopsBehindEquals text = false) :
    Bracketed (tokens text) := by
  have hstate : ∀ name, stateAfter (.text 0) 0 [] text.toList ≠ .beforeValue name := by
    intro name hname
    exact absurd ((stopsBehindEquals_iff text).mpr ⟨name, hname⟩) (Bool.eq_false_iff.mp h)
  rw [tokens_eq_emitted, ← List.append_assoc]
  exact ((brackets_emitted text).atEnd hstate _).append (.other rfl .nil)

/-- Behind an equals sign without a value the end of the attribute is missing. -/
theorem tokens_of_stopsBehindEquals {text : String} (h : stopsBehindEquals text = true) :
    ∃ before start stop, Bracketed before ∧ tokens text =
      before ++ [.attributeName start stop, .mistake .endInTag text.utf8ByteSize, .finish] := by
  obtain ⟨name, hstate⟩ := (stopsBehindEquals_iff text).mp h
  have hbrackets := brackets_emitted text
  have htokens := tokens_eq_emitted text
  rw [hstate] at hbrackets htokens
  obtain ⟨before, start, stop, hemitted, hbefore⟩ : Awaiting _ := hbrackets
  refine ⟨before, start, stop, hbefore, ?_⟩
  rw [htokens, hemitted, List.append_assoc]
  rfl

theorem not_bracketed_of_lost {text : String} {index : Nat}
    (h : ∃ before start stop, Bracketed before ∧
      tokens text = before ++ [.attributeName start stop, .mistake .endInTag index, .finish]) :
    ¬ Bracketed (tokens text) := by
  obtain ⟨before, start, stop, hbefore, htokens⟩ := h
  rw [htokens, List.append_cons]
  exact (hbefore.attributeName start stop).not_bracketed rfl

theorem stopsBehindEquals_iff_tokens (text : String) :
    stopsBehindEquals text = true ↔ ∃ before start stop, Bracketed before ∧ tokens text =
      before ++ [.attributeName start stop, .mistake .endInTag text.utf8ByteSize, .finish] := by
  refine ⟨tokens_of_stopsBehindEquals, fun hlost => ?_⟩
  by_contra hstops
  have hall := bracketed_tokens (Bool.eq_false_iff.mpr hstops)
  exact not_bracketed_of_lost hlost hall

theorem bracketed_tokens_iff (text : String) :
    Bracketed (tokens text) ↔ stopsBehindEquals text = false := by
  refine ⟨fun hall => Bool.eq_false_iff.mpr fun hstops => ?_, bracketed_tokens⟩
  exact not_bracketed_of_lost (tokens_of_stopsBehindEquals hstops) hall

/-! ## Complete attributes -/

/-- An attribute all of whose tokens have been read. -/
structure Ended where
  pending : Pending
  quote : Quote
  stop : Nat

/-- The attribute that is pending behind a token, when `p` is in front of it. -/
def Token.pending (p : Option Pending) : Token → Option Pending
  | .attributeName start stop => some { name := Span.of start stop }
  | .attributeValue start stop => p.map fun p => { p with value := some (Span.of start stop) }
  | .attributeEnd _ _ => none
  | _ => p

/-- The attribute that a token completes, when `p` is pending. -/
def Token.ended? (p : Option Pending) : Token → Option Ended
  | .attributeEnd quote stop => p.map fun p => { pending := p, quote := quote, stop := stop }
  | _ => none

def pendingAfter (p : Option Pending) (ts : List Token) : Option Pending :=
  ts.foldl (fun p t => t.pending p) p

/-- The attributes that are completed by tokens, when `p` is pending in front of them. -/
def endedFrom (p : Option Pending) : List Token → List Ended
  | [] => []
  | t :: ts => (t.ended? p).toList ++ endedFrom (t.pending p) ts

def ended (ts : List Token) : List Ended := endedFrom none ts

def Token.attributeName? : Token → Option Span
  | .attributeName start stop => some (Span.of start stop)
  | _ => none

/-- The names of attributes, each with its modifier. -/
def attributeNames (ts : List Token) : List Span := ts.filterMap Token.attributeName?

theorem pendingAfter_append (p : Option Pending) (ts us : List Token) :
    pendingAfter p (ts ++ us) = pendingAfter (pendingAfter p ts) us :=
  List.foldl_append

theorem endedFrom_append (p : Option Pending) (ts us : List Token) :
    endedFrom p (ts ++ us) = endedFrom p ts ++ endedFrom (pendingAfter p ts) us := by
  induction ts generalizing p with
  | nil => rfl
  | cons t ts ih =>
    rw [List.cons_append, endedFrom, ih, endedFrom, List.append_assoc]
    rfl

theorem Token.pending_of_not_part {t : Token} (ht : t.isAttributePart = false)
    (p : Option Pending) : t.pending p = p ∧ t.ended? p = none ∧ t.attributeName? = none := by
  cases t with
  | attributeName | attributeValue | attributeEnd => exact absurd ht Bool.noConfusion
  | _ => exact ⟨rfl, rfl, rfl⟩

theorem endedFrom_of_others {ts : List Token} (h : ∀ t ∈ ts, t.isAttributePart = false)
    (p : Option Pending) : endedFrom p ts = [] := by
  induction ts with
  | nil => rfl
  | cons t ts ih =>
    obtain ⟨ht, hts⟩ := List.forall_mem_cons.mp h
    obtain ⟨hpending, hended, -⟩ := Token.pending_of_not_part ht p
    rw [endedFrom, hpending, hended, ih hts]
    rfl

theorem endedFrom_append_others {ts us : List Token} (h : ∀ t ∈ us, t.isAttributePart = false)
    (p : Option Pending) : endedFrom p (ts ++ us) = endedFrom p ts := by
  rw [endedFrom_append, endedFrom_of_others h, List.append_nil]

namespace Bracketed

variable {ts : List Token}

theorem pendingAfter (h : Bracketed ts) : pendingAfter none ts = none := by
  induction h with
  | nil => rfl
  | @other t ts ht _ ih =>
    rw [Markup.pendingAfter, List.foldl_cons, (Token.pending_of_not_part ht none).1]
    exact ih
  | bare _ ih => exact ih
  | valued _ ih => exact ih

/-- Bracketed tokens complete an attribute for every name. -/
theorem names_ended (h : Bracketed ts) : (ended ts).map (·.pending.name) = attributeNames ts := by
  rw [ended]
  induction h with
  | nil => rfl
  | @other t ts ht _ ih =>
    obtain ⟨hpending, hended, hname⟩ := Token.pending_of_not_part ht none
    rw [endedFrom, hpending, hended, attributeNames, List.filterMap_cons, hname]
    exact ih
  | bare _ ih => exact congrArg (_ :: ·) ih
  | valued _ ih => exact congrArg (_ :: ·) ih

end Bracketed

/-- The attribute that a tree gets from a complete one, with zeros for the numbers that the tree
gives.  A name that is empty behind its modifier, or that is only a hole, gives none. -/
def Ended.attribute? (d : Document) (e : Ended) : Option Attribute :=
  let (binding, nameSpan) := splitModifier d.text e.pending.name
  if nameSpan.isEmpty || isCoveredByHole d nameSpan then none
  else
    some
      { id := 0, node := 0, name := nameSpan.sliceD d.text, binding := binding,
        whole := Span.of e.pending.name.start (attributeStop e.quote e.stop), nameSpan := nameSpan,
        assignment := (assigned? d d.text e.pending e.quote e.stop).map fun v =>
          { id := 0, owner := 0, value := v.1, span := v.2 } }

/-- The attribute with zeros for all numbers. -/
def Attribute.unnumbered (a : Attribute) : Attribute :=
  { a with
    id := 0, node := 0
    assignment := a.assignment.map fun x => { x with id := 0, owner := 0 } }

/-- The attribute that is pending in a phase. -/
def Phase.pending : Phase → Option Pending
  | .outside => none
  | .tag p => p

theorem Follows.pending {φ φ' : Phase} {pos pos' : Nat} {t : Token}
    (h : Follows φ pos t φ' pos') : φ'.pending = t.pending φ.pending := by
  cases h <;> rfl

namespace Builder

variable {b : Builder} {d : Document} {pos pos' : Nat} {φ φ' : Phase}

/-- The attributes that have been read, in their order. -/
def attributes (b : Builder) : List Attribute := attributesOf b.numbers.marks

theorem attributes_withCurrent {n : Node} (hn : b.current = some n) (as : List Attribute) :
    ({ b with current := some { n with attributes := n.attributes ++ as } } : Builder).attributes =
      b.attributes ++ as := by
  simp only [attributes, attributesOf, numbers, hn, Option.toList_some, List.map_cons, List.map_nil,
    Node.mark, List.flatMap_append, List.flatMap_singleton, List.append_assoc]

theorem attributes_addAttribute {n : Node} (hn : b.current = some n) (e : Ended) :
    (b.addAttribute d d.text e.pending e.quote e.stop).attributes.map Attribute.unnumbered =
      b.attributes.map Attribute.unnumbered ++ (e.attribute? d).toList := by
  rw [addAttribute, hn, Ended.attribute?]
  dsimp only
  split
  · exact (List.append_nil _).symm
  · have hadded := attributes_withCurrent hn
    simp only [attributes, numbers] at hadded ⊢
    rw [hadded, List.map_append, List.map_singleton]
    simp only [Attribute.unnumbered, Option.map_map]
    rfl

theorem attributes_eq_of_numbers {b' : Builder} (h : b'.numbers = b.numbers) :
    b'.attributes = b.attributes := by
  rw [attributes, h, attributes]

/-- A token adds the attribute that it completes, and no other. -/
theorem NestedAt.attributes_read (h : b.NestedAt pos φ) {t : Token}
    (ht : Follows φ pos t φ' pos') (d : Document) :
    (b.read d d.text t).attributes.map Attribute.unnumbered =
      b.attributes.map Attribute.unnumbered ++
        (t.ended? φ.pending).toList.filterMap (Ended.attribute? d) := by
  have hsame : ∀ b' : Builder, b'.attributes = b.attributes →
      b'.attributes.map Attribute.unnumbered = b.attributes.map Attribute.unnumbered ++ [] := by
    intro b' hb'
    rw [hb', List.append_nil]
  cases ht with
  | @attributeEnd _ quote stop p hstop =>
    obtain ⟨hpending, hp, n, hn, -⟩ := h
    have hadd := attributes_addAttribute (b := { b with pending := none }) (d := d) hn
      { pending := p, quote := quote, stop := stop }
    rw [Builder.read, hpending]
    exact hadd
  | openName =>
    refine hsame _ ?_
    rw [Builder.read, attributes, numbers_openNode]
    exact attributesOf_concat_nil _ _
  | openEnd => exact hsame _ (attributes_eq_of_numbers (numbers_endStartTag b _ _))
  | selfClose => exact hsame _ (attributes_eq_of_numbers (numbers_endStartTag b _ _))
  | close => exact hsame _ (attributes_eq_of_numbers (numbers_closeNode b _ _ _))
  | text | comment | attributeName | attributeValue | mistake => exact hsame _ rfl

theorem NestedAt.attributes_foldl_read {ts : List Token} (h : b.NestedAt pos φ)
    (hts : Path φ pos ts φ' pos') (d : Document) :
    (ts.foldl (Builder.read d d.text) b).attributes.map Attribute.unnumbered =
      b.attributes.map Attribute.unnumbered ++
        (endedFrom φ.pending ts).filterMap (Ended.attribute? d) := by
  induction hts generalizing b with
  | nil => exact (List.append_nil _).symm
  | cons ht _ ih =>
    rw [List.foldl_cons, ih (h.read ht d d.text), h.attributes_read ht, List.append_assoc,
      ← List.filterMap_append, endedFrom, ht.pending]

end Builder

/-- The attributes of a tree, but for their numbers, are what the tokens of its text complete. -/
theorem Tree.attributes_unnumbered (d : Document) :
    (Tree.ofDocument d).attributes.map Attribute.unnumbered =
      (ended (tokens d.text)).filterMap (Ended.attribute? d) := by
  obtain ⟨ts, htokens, φ, done, hpath, -⟩ := tokens_eq d.text
  have hattributes : (Tree.ofDocument d).attributes = (Builder.after d ts).attributes := by
    have hmarks := Builder.marks_finish (Builder.after d ts) d.text.utf8ByteSize
    rw [Builder.numbers_finish] at hmarks
    rw [ofDocument_eq_finish htokens, Builder.attributes, hmarks, attributesOf, List.flatMap_map]
    rfl
  have hended : ended (tokens d.text) = endedFrom none ts := by
    rw [ended, htokens, endedFrom_append]
    exact List.append_nil _
  rw [hattributes, hended]
  exact Builder.nestedAt_empty.attributes_foldl_read hpath d

theorem Tree.exists_ended {d : Document} {a : Attribute}
    (ha : a ∈ (Tree.ofDocument d).attributes) :
    ∃ e ∈ ended (tokens d.text), e.attribute? d = some a.unnumbered := by
  have hmem : a.unnumbered ∈ (ended (tokens d.text)).filterMap (Ended.attribute? d) := by
    rw [← Tree.attributes_unnumbered]
    exact List.mem_map_of_mem ha
  exact List.mem_filterMap.mp hmem

/-- What the tokens complete is what is assigned in the tree. -/
theorem Ended.assigned?_eq {d : Document} {e : Ended} {a : Attribute}
    (h : e.attribute? d = some a.unnumbered) :
    a.assignment.map (fun x => (x.value, x.span)) =
      assigned? d d.text e.pending e.quote e.stop := by
  rw [attribute?] at h
  dsimp only at h
  split at h
  · exact absurd h (Option.some_ne_none _).symm
  · have hassignment := congrArg (Option.map fun x => (x.value, x.span))
      (congrArg Attribute.assignment (Option.some.inj h))
    simp only [Attribute.unnumbered, Option.map_map] at hassignment
    exact hassignment.symm.trans Option.map_id'

/-! ## Names in the tree -/

/-- The names of the attributes of a text that end, each with its modifier. -/
def endedNames (text : String) : List Span :=
  if stopsBehindEquals text then (attributeNames (tokens text)).dropLast
  else attributeNames (tokens text)

theorem names_ended_tokens (text : String) :
    (ended (tokens text)).map (·.pending.name) = endedNames text := by
  rw [endedNames]
  split
  · next hstops =>
    obtain ⟨before, start, stop, hbefore, htokens⟩ := tokens_of_stopsBehindEquals hstops
    have hnames : attributeNames (tokens text) = attributeNames before ++ [Span.of start stop] := by
      rw [htokens, attributeNames, List.filterMap_append]
      rfl
    have hended : ended (tokens text) = ended before := by
      rw [htokens, ended, endedFrom_append, hbefore.pendingAfter]
      exact List.append_nil _
    rw [hnames, hended, hbefore.names_ended, List.dropLast_concat]
  · next hstops => exact (bracketed_tokens (Bool.eq_false_iff.mpr hstops)).names_ended

/-- A name, split from its modifier, that an attribute can have: it is not empty, and not only
a hole. -/
def isOwnName (d : Document) (name : Binding × Span) : Bool :=
  !(name.2.isEmpty || isCoveredByHole d name.2)

theorem Ended.name_attribute? (d : Document) (e : Ended) :
    (e.attribute? d).map (fun a => (a.binding, a.nameSpan)) =
      Option.guard (isOwnName d) (splitModifier d.text e.pending.name) := by
  rw [attribute?, Option.guard, isOwnName]
  dsimp only
  split
  · next h => rw [h]; rfl
  · next h => rw [Bool.eq_false_iff.mpr h]; rfl

theorem Tree.attributes_names (d : Document) :
    (Tree.ofDocument d).attributes.map (fun a => (a.binding, a.nameSpan)) =
      ((endedNames d.text).map (splitModifier d.text)).filter (isOwnName d) := by
  have hmap := congrArg (List.map fun a : Attribute => (a.binding, a.nameSpan))
    (attributes_unnumbered d)
  rw [List.map_map, List.map_filterMap, funext (Ended.name_attribute? d)] at hmap
  rw [← names_ended_tokens, List.map_map, ← List.filterMap_eq_filter, List.filterMap_map]
  exact hmap

/-- The tokens of attributes are bracketed, and every name becomes an attribute of the tree, in
the order of the text, but for those that have no name of their own.  The one exception is the
last name of a text that ends behind its equals sign: it is left without an end, and the
tree is without it. -/
theorem attributes_bracketed (text : String) (d : Document) :
    (Bracketed (tokens text) ↔ stopsBehindEquals text = false) ∧
    (stopsBehindEquals text = true ↔ ∃ before start stop, Bracketed before ∧ tokens text =
      before ++ [.attributeName start stop, .mistake .endInTag text.utf8ByteSize, .finish]) ∧
    (Tree.ofDocument d).attributes.map (fun a => (a.binding, a.nameSpan)) =
      ((endedNames d.text).map (splitModifier d.text)).filter (isOwnName d) :=
  ⟨bracketed_tokens_iff text, stopsBehindEquals_iff_tokens text, Tree.attributes_names d⟩

/-- The name `x` of this text has no end, and no attribute. -/
theorem attribute_lost_behind_equals :
    let d := textDocument "<a x="
    ¬ Bracketed (tokens d.text) ∧ attributeNames (tokens d.text) = [⟨3, 4⟩] ∧
      (isOwnName d (splitModifier d.text ⟨3, 4⟩)) = true ∧
      (Tree.ofDocument d).attributes = [] := by
  intro d
  refine ⟨?_, by decide +kernel, by decide +kernel, by decide +kernel⟩
  have htokens : tokens d.text =
      [.openName 1 2] ++ [.attributeName 3 4] ++ .mistake .endInTag 5 :: [.finish] := by
    decide +kernel
  rw [htokens]
  exact Awaiting.not_bracketed ⟨_, 3, 4, rfl, .other rfl .nil⟩ rfl

end Markup
end Inlay
