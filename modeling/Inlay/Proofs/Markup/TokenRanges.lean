import Inlay.Proofs.Markup.TokenOrder
import Inlay.Proofs.Text.AsciiBytes

/-!
# The ranges of tokens

The offsets of a token are places between the characters of the text, and those that stand for a
bracket are where the bracket stands.  The offsets come from the states, which carry them from the
character where they were set: `State.Marks` is what they are, and it is kept by each step.

All tokens that one step completes end at one offset, at the character that is read or right behind
it.  So the offsets at which tokens end never decrease.  `inPlace_tokens` puts it all together.
-/

namespace Inlay
namespace Markup

/-! ## Places in texts -/

/-- The character stands in the text at the offset. -/
def StandsAt (text : String) (c : Char) (offset : Nat) : Prop :=
  ∃ front rest, text.toList = front ++ c :: rest ∧ byteLength front = offset

namespace StandsAt

variable {text : String} {c : Char} {offset : Nat}

theorem isBoundary (h : StandsAt text c offset) : IsBoundary text offset := by
  obtain ⟨front, rest, hsplit, hfront⟩ := h
  exact ⟨front, c :: rest, hsplit, hfront⟩

theorem isBoundary_behind (h : StandsAt text c offset) :
    IsBoundary text (offset + c.utf8Size) := by
  obtain ⟨front, rest, hsplit, rfl⟩ := h
  exact ⟨front ++ [c], rest, by rw [hsplit, List.append_assoc]; rfl, byteLength_append front [c]⟩

theorem unique {k : Char} (h : StandsAt text c offset) (h' : StandsAt text k offset) : c = k := by
  obtain ⟨front, rest, hsplit, hfront⟩ := h
  obtain ⟨front', rest', hsplit', hfront'⟩ := h'
  obtain ⟨piece, rfl, hpiece⟩ :=
    exists_append_of_byteLength_le (hsplit.symm.trans hsplit') (by omega)
  rw [byteLength_append] at hfront'
  obtain rfl : piece = [] := eq_nil_of_byteLength_eq_zero (by omega)
  exact (List.cons.inj hpiece).1

/-- A character of ASCII is one byte of the text. -/
theorem getElem?_bytesOf (h : StandsAt text c offset) (hc : c.toNat < 128) :
    (bytesOf text)[offset]? = some c.toUInt8 := by
  obtain ⟨front, rest, hsplit, rfl⟩ := h
  rw [bytesOf_eq_encode, hsplit, encode_append, encode_cons, encode_of_ascii hc, ← length_encode,
    List.getElem?_append_right (Nat.le_refl _), Nat.sub_self]
  rfl

end StandsAt

/-! ## Tokens and states -/

/-- A token ends at an offset, and its other offsets are places in the text: of a bracket, or
between characters. -/
inductive Token.EndsAt (text : String) (offset : Nat) : Token → Prop
  | text {start} : IsBoundary text start → EndsAt text offset (.text start offset)
  | openName {bracket} : StandsAt text '<' bracket →
      EndsAt text offset (.openName (bracket + 1) offset)
  | openEnd : StandsAt text '>' offset → EndsAt text offset (.openEnd offset)
  | selfClose : StandsAt text '>' offset → EndsAt text offset (.selfClose offset)
  | close {tag start stop} : StandsAt text '<' tag → IsBoundary text start → IsBoundary text stop →
      EndsAt text offset (.close tag start stop offset)
  | attributeName {start} : IsBoundary text start → EndsAt text offset (.attributeName start offset)
  | attributeValue {start} : IsBoundary text start →
      EndsAt text offset (.attributeValue start offset)
  | attributeEnd {quote} : EndsAt text offset (.attributeEnd quote offset)
  | comment {start} : IsBoundary text start → EndsAt text offset (.comment start offset)
  | mistake {kind} : EndsAt text offset (.mistake kind offset)

/-- What the offsets of a state are, when it is at `pos`. -/
def State.Marks (text : String) (pos : Nat) : State → Prop
  | .text start | .attributeName _ start | .doubleQuoted _ start | .singleQuoted _ start
  | .unquoted _ start | .comment start | .rawText _ start => IsBoundary text start
  | .tagOpen start => StandsAt text '<' start ∧ pos = start + 1
  | .tagName start _ => ∃ bracket, StandsAt text '<' bracket ∧ start = bracket + 1
  | .endTagOpen tag => StandsAt text '<' tag
  | .endTagName tag start => StandsAt text '<' tag ∧ IsBoundary text start
  | .afterEndTagName tag start stop =>
    StandsAt text '<' tag ∧ IsBoundary text start ∧ IsBoundary text stop
  | .commentDash => StandsAt text '-' pos ∧ StandsAt text '>' (pos + 1)
  | .commentBracket => StandsAt text '>' pos
  | .selfClosing _ | .beforeAttribute _ | .afterAttribute _ | .beforeValue _ | .declarationOpen
  | .declaration | .commentOpen => True

/-- A step up to `stop` completes tokens that end at `offset`, and its state marks places. -/
def Completes (text : String) (offset stop : Nat) (next : State × List Token) : Prop :=
  (∀ t ∈ next.2, t.EndsAt text offset) ∧ next.1.Marks text stop

namespace Completes

variable {text : String} {offset stop : Nat} {s : State} {t : Token} {ts : List Token}

theorem silent (h : s.Marks text stop) : Completes text offset stop (s, []) :=
  ⟨List.forall_mem_nil _, h⟩

theorem emit (ht : t.EndsAt text offset) (h : s.Marks text stop) :
    Completes text offset stop (s, [t]) :=
  ⟨List.forall_mem_singleton.mpr ht, h⟩

theorem append {next : State × List Token} (hts : ∀ t ∈ ts, t.EndsAt text offset)
    (h : Completes text offset stop next) : Completes text offset stop (next.1, ts ++ next.2) :=
  ⟨List.forall_mem_append.mpr ⟨hts, h.1⟩, h.2⟩

end Completes

/-! ## Steps -/

section Steps

variable {text : String} {c : Char} {name : List Char} {start tag stop pos : Nat}

theorem endsAt_textSince (h : IsBoundary text start) :
    ∀ t ∈ textSince start pos, t.EndsAt text pos := by
  rw [textSince]
  split
  · exact List.forall_mem_singleton.mpr (.text h)
  · exact List.forall_mem_nil _

theorem endsAt_valueSince (h : IsBoundary text start) (quote : Quote) :
    ∀ t ∈ valueSince start quote pos, t.EndsAt text pos := by
  rw [valueSince]
  refine List.forall_mem_append.mpr ⟨?_, List.forall_mem_singleton.mpr .attributeEnd⟩
  split
  · exact List.forall_mem_singleton.mpr (.attributeValue h)
  · exact List.forall_mem_nil _

theorem marks_content (h : IsBoundary text start) : (content name start).Marks text stop := by
  rw [content]
  split <;> exact h

/-- Behind a character of one byte. -/
theorem StandsAt.isBoundary_succ {k : Char} (h : StandsAt text c pos) (hc : (c == k) = true)
    (hk : k.utf8Size = 1) : IsBoundary text (pos + 1) := by
  obtain rfl := beq_iff_eq.mp hc
  rw [← hk]
  exact h.isBoundary_behind

theorem completes_inText (h : StandsAt text c pos) (hstart : IsBoundary text start) :
    Completes text pos (pos + c.utf8Size) (inText start pos c) := by
  rw [inText]
  split
  · next hc =>
    obtain rfl := beq_iff_eq.mp hc
    exact ⟨endsAt_textSince hstart, h, rfl⟩
  · exact .silent hstart

theorem completes_inBeforeAttribute (h : StandsAt text c pos) :
    Completes text pos (pos + c.utf8Size) (inBeforeAttribute name pos c) := by
  rw [inBeforeAttribute]
  split
  · next hc =>
    have hbehind := h.isBoundary_succ hc rfl
    obtain rfl := beq_iff_eq.mp hc
    exact .emit (.openEnd h) (marks_content hbehind)
  split
  · exact .silent trivial
  split
  · exact .silent trivial
  · exact .silent h.isBoundary

theorem completes_thenBeforeAttribute {ts : List Token} (hts : ∀ t ∈ ts, t.EndsAt text pos)
    (h : StandsAt text c pos) :
    Completes text pos (pos + c.utf8Size) (thenBeforeAttribute ts name pos c) :=
  .append hts (completes_inBeforeAttribute h)

theorem completes_inTagOpen (h : StandsAt text c pos) (hstart : StandsAt text '<' start)
    (hpos : pos = start + 1) : Completes text pos (pos + c.utf8Size) (inTagOpen start pos c) := by
  rw [inTagOpen]
  split
  · exact .silent trivial
  split
  · exact .silent trivial
  split
  · exact .silent ⟨start, hstart, hpos⟩
  split
  · exact .silent hstart
  · exact completes_inText h hstart.isBoundary

theorem completes_inTagName {bracket : Nat} (h : StandsAt text c pos)
    (hbracket : StandsAt text '<' bracket) :
    Completes text pos (pos + c.utf8Size) (inTagName (bracket + 1) name pos c) := by
  rw [inTagName]
  split
  · exact completes_thenBeforeAttribute (List.forall_mem_singleton.mpr (.openName hbracket)) h
  · exact .silent ⟨bracket, hbracket, rfl⟩

theorem completes_inSelfClosing (h : StandsAt text c pos) :
    Completes text pos (pos + c.utf8Size) (inSelfClosing name pos c) := by
  rw [inSelfClosing]
  split
  · next hc =>
    have hbehind := h.isBoundary_succ hc rfl
    obtain rfl := beq_iff_eq.mp hc
    exact .emit (.selfClose h) hbehind
  split
  · exact .silent trivial
  · exact completes_inBeforeAttribute h

theorem completes_inEndTagOpen (h : StandsAt text c pos) (htag : StandsAt text '<' tag) :
    Completes text pos (pos + c.utf8Size) (inEndTagOpen tag pos c) := by
  rw [inEndTagOpen]
  split
  · exact .silent htag
  split
  · next hc => exact .emit .mistake (h.isBoundary_succ hc rfl)
  · exact .silent ⟨htag, h.isBoundary⟩

theorem completes_inAfterAttribute {ts : List Token} (hts : ∀ t ∈ ts, t.EndsAt text pos)
    (h : StandsAt text c pos) :
    Completes text pos (pos + c.utf8Size) (inAfterAttribute ts name pos c) := by
  have hend : ∀ t ∈ ts ++ [.attributeEnd .absent pos], t.EndsAt text pos :=
    List.forall_mem_append.mpr ⟨hts, List.forall_mem_singleton.mpr .attributeEnd⟩
  rw [inAfterAttribute]
  split
  · exact ⟨hts, trivial⟩
  split
  · exact completes_thenBeforeAttribute hend h
  split
  · exact ⟨hts, trivial⟩
  · exact ⟨hend, h.isBoundary⟩

theorem completes_inAttributeName (h : StandsAt text c pos) (hstart : IsBoundary text start) :
    Completes text pos (pos + c.utf8Size) (inAttributeName name start pos c) := by
  rw [inAttributeName]
  split
  · exact completes_inAfterAttribute (List.forall_mem_singleton.mpr (.attributeName hstart)) h
  · exact .silent hstart

theorem completes_inUnquoted (h : StandsAt text c pos) (hstart : IsBoundary text start) :
    Completes text pos (pos + c.utf8Size) (inUnquoted name start pos c) := by
  rw [inUnquoted]
  split
  · exact completes_thenBeforeAttribute (endsAt_valueSince hstart _) h
  · exact .silent hstart

theorem completes_inBeforeValue (h : StandsAt text c pos) :
    Completes text pos (pos + c.utf8Size) (inBeforeValue name pos c) := by
  rw [inBeforeValue]
  split
  · next hc => exact .silent (h.isBoundary_succ hc rfl)
  split
  · next hc => exact .silent (h.isBoundary_succ hc rfl)
  split
  · exact .silent trivial
  · exact completes_inUnquoted h h.isBoundary

theorem completes_inQuotes {inside : State} (hinside : inside.Marks text (pos + c.utf8Size))
    (hstart : IsBoundary text start) (mark : Char) (quote : Quote) :
    Completes text pos (pos + c.utf8Size)
      (if c == mark then (.beforeAttribute name, valueSince start quote pos) else (inside, [])) := by
  split
  · exact ⟨endsAt_valueSince hstart quote, trivial⟩
  · exact .silent hinside

theorem completes_inDeclaration (h : StandsAt text c pos) :
    Completes text pos (pos + c.utf8Size) (inDeclaration pos c) := by
  rw [inDeclaration]
  split
  · next hc => exact .silent (h.isBoundary_succ hc rfl)
  · exact .silent trivial

theorem completes_inComment {front rest : List Char} (hsplit : text.toList = front ++ c :: rest)
    (hfront : byteLength front = pos) (hstart : IsBoundary text start) :
    Completes text pos (pos + c.utf8Size) (inComment start pos c rest) := by
  rw [inComment.eq_def]
  split
  · next more =>
    have hdash : StandsAt text '-' (pos + 1) :=
      ⟨front ++ ['-'], '>' :: more, by rw [hsplit, List.append_assoc]; rfl, by
        rw [byteLength_append, hfront]; rfl⟩
    have hbracket : StandsAt text '>' (pos + 1 + 1) :=
      ⟨front ++ ['-', '-'], more, by rw [hsplit, List.append_assoc]; rfl, by
        rw [byteLength_append, hfront]; rfl⟩
    exact .emit (.comment hstart) ⟨hdash, hbracket⟩
  · exact .silent hstart

theorem completes_inRawText (h : StandsAt text c pos) (hstart : IsBoundary text start)
    (rest : List Char) :
    Completes text pos (pos + c.utf8Size) (inRawText name start pos c rest) := by
  rw [inRawText]
  split
  · next hc =>
    obtain rfl := beq_iff_eq.mp (Bool.and_eq_true_iff.mp hc).1
    exact ⟨endsAt_textSince hstart, h, rfl⟩
  · exact .silent hstart

end Steps

section Runs

variable {text : String} {s : State} {c : Char} {pos : Nat} {front rest cs : List Char}

/-- All tokens that a step completes end at one place: at the character, or right behind it. -/
theorem State.Marks.step (h : s.Marks text pos) (hsplit : text.toList = front ++ c :: rest)
    (hfront : byteLength front = pos) :
    ∃ offset, pos ≤ offset ∧ offset ≤ pos + c.utf8Size ∧ IsBoundary text offset ∧
      Completes text offset (pos + c.utf8Size) (step s pos c rest) := by
  have hc : StandsAt text c pos := ⟨front, rest, hsplit, hfront⟩
  have hpos := c.utf8Size_pos
  have hhere {next : State × List Token} (hnext : Completes text pos (pos + c.utf8Size) next) :
      ∃ offset, pos ≤ offset ∧ offset ≤ pos + c.utf8Size ∧ IsBoundary text offset ∧
        Completes text offset (pos + c.utf8Size) next :=
    ⟨pos, Nat.le_refl pos, Nat.le_add_right _ _, hc.isBoundary, hnext⟩
  have hclose {tag start stop : Nat} (hbracket : (c == '>') = true) (htag : StandsAt text '<' tag)
      (hstart : IsBoundary text start) (hstop : IsBoundary text stop) :
      ∃ offset, pos ≤ offset ∧ offset ≤ pos + c.utf8Size ∧ IsBoundary text offset ∧
        Completes text offset (pos + c.utf8Size)
          (.text (pos + 1), [.close tag start stop (pos + 1)]) := by
    have hbehind := hc.isBoundary_succ hbracket rfl
    exact ⟨pos + 1, by omega, by omega, hbehind, .emit (.close htag hstart hstop) hbehind⟩
  cases s with
  | text start => exact hhere (completes_inText hc h)
  | tagOpen start => exact hhere (completes_inTagOpen hc h.1 h.2)
  | tagName start name =>
    obtain ⟨bracket, hbracket, rfl⟩ := h
    exact hhere (completes_inTagName hc hbracket)
  | selfClosing name => exact hhere (completes_inSelfClosing hc)
  | endTagOpen tag => exact hhere (completes_inEndTagOpen hc h)
  | endTagName tag start =>
    rw [Markup.step, inEndTagName]
    split
    · next hbracket => exact hclose hbracket h.1 h.2 hc.isBoundary
    split
    · exact hhere (.silent ⟨h.1, h.2, hc.isBoundary⟩)
    · exact hhere (.silent h)
  | afterEndTagName tag start stop =>
    rw [Markup.step, inAfterEndTagName]
    split
    · next hbracket => exact hclose hbracket h.1 h.2.1 h.2.2
    · exact hhere (.silent h)
  | beforeAttribute name => exact hhere (completes_inBeforeAttribute hc)
  | attributeName name start => exact hhere (completes_inAttributeName hc h)
  | afterAttribute name => exact hhere (completes_inAfterAttribute (List.forall_mem_nil _) hc)
  | beforeValue name => exact hhere (completes_inBeforeValue hc)
  | doubleQuoted name start => exact hhere (completes_inQuotes h h _ _)
  | singleQuoted name start => exact hhere (completes_inQuotes h h _ _)
  | unquoted name start => exact hhere (completes_inUnquoted hc h)
  | declarationOpen =>
    rw [Markup.step]
    split
    · exact hhere (.silent trivial)
    · exact hhere (completes_inDeclaration hc)
  | declaration => exact hhere (completes_inDeclaration hc)
  | commentOpen =>
    rw [Markup.step]
    split
    · next hdash => exact hhere (.silent (hc.isBoundary_succ hdash rfl))
    · exact hhere (completes_inDeclaration hc)
  | comment start => exact hhere (completes_inComment hsplit hfront h)
  | commentDash =>
    obtain rfl := hc.unique h.1
    exact hhere (.silent h.2)
  | commentBracket => exact hhere (.silent (hc.isBoundary_succ (beq_iff_eq.mpr (hc.unique h)) rfl))
  | rawText name start => exact hhere (completes_inRawText hc h rest)

theorem State.Marks.atEnd (h : s.Marks text pos) : ∀ t ∈ atEnd s pos, t.EndsAt text pos := by
  have hmistake : ∀ kind, ∀ t ∈ [Token.mistake kind pos], t.EndsAt text pos := fun _ =>
    List.forall_mem_singleton.mpr .mistake
  cases s with
  | text start => exact endsAt_textSince h
  | rawText name start => exact endsAt_textSince h
  | tagName start name =>
    obtain ⟨bracket, hbracket, rfl⟩ := h
    exact List.forall_mem_cons.mpr ⟨.openName hbracket, hmistake _⟩
  | attributeName name start =>
    exact List.forall_mem_cons.mpr ⟨.attributeName h,
      List.forall_mem_cons.mpr ⟨.attributeEnd, hmistake _⟩⟩
  | afterAttribute name => exact List.forall_mem_cons.mpr ⟨.attributeEnd, hmistake _⟩
  | doubleQuoted name start | singleQuoted name start | unquoted name start =>
    exact List.forall_mem_append.mpr ⟨endsAt_valueSince h _, hmistake _⟩
  | comment start =>
    exact List.forall_mem_cons.mpr ⟨.mistake, List.forall_mem_singleton.mpr (.comment h)⟩
  | beforeAttribute | beforeValue | selfClosing | endTagOpen | endTagName | afterEndTagName =>
    exact hmistake _
  | _ => exact List.forall_mem_nil _

/-- Where a token ends: behind the text that it stands for, or at its bracket. -/
def Token.end? : Token → Option Nat
  | .text _ stop | .openName _ stop | .close _ _ _ stop | .attributeName _ stop
  | .attributeValue _ stop | .attributeEnd _ stop | .comment _ stop => some stop
  | .openEnd bracket | .selfClose bracket => some bracket
  | .mistake _ index => some index
  | .finish => none

theorem Token.EndsAt.end?_eq {t : Token} {offset : Nat} (h : t.EndsAt text offset) :
    t.end? = some offset := by
  cases h <;> rfl

theorem ends_of_endsAt {ts : List Token} {offset : Nat} (h : ∀ t ∈ ts, t.EndsAt text offset) :
    ts.filterMap Token.end? = List.replicate ts.length offset := by
  induction ts with
  | nil => rfl
  | cons t ts ih =>
    obtain ⟨ht, hts⟩ := List.forall_mem_cons.mp h
    rw [List.filterMap_cons_some ht.end?_eq, ih hts, List.length_cons, List.replicate_succ]

/-- Tokens that end at one offset come before tokens that end behind it. -/
theorem pairwise_ends_append {ts us : List Token} {lo hi offset : Nat}
    (hts : ∀ t ∈ ts, t.EndsAt text offset) (hlo : lo ≤ offset) (hhi : offset ≤ hi)
    (hus : (hi :: us.filterMap Token.end?).Pairwise (· ≤ ·)) :
    (lo :: (ts ++ us).filterMap Token.end?).Pairwise (· ≤ ·) := by
  rw [List.pairwise_cons] at hus ⊢
  rw [List.filterMap_append, ends_of_endsAt hts]
  refine ⟨fun x hx => ?_, List.pairwise_append.mpr ⟨?_, hus.2, fun x hx y hy => ?_⟩⟩
  · rcases List.mem_append.mp hx with hx | hx
    · rw [List.eq_of_mem_replicate hx]
      exact hlo
    · exact Nat.le_trans (Nat.le_trans hlo hhi) (hus.1 x hx)
  · exact List.pairwise_replicate.mpr (.inr (Nat.le_refl offset))
  · rw [List.eq_of_mem_replicate hx]
    exact Nat.le_trans hhi (hus.1 y hy)

/-- The offsets of a token are places in the text. -/
def Token.Placed (text : String) (t : Token) : Prop :=
  t = .finish ∨ ∃ offset, IsBoundary text offset ∧ t.EndsAt text offset

theorem State.Marks.scan (h : s.Marks text pos) (hsplit : text.toList = front ++ cs)
    (hfront : byteLength front = pos) :
    (∀ t ∈ scan s pos cs, t.Placed text) ∧
      (pos :: (scan s pos cs).filterMap Token.end?).Pairwise (· ≤ ·) := by
  induction cs generalizing s pos front with
  | nil =>
    have hpos : IsBoundary text pos := ⟨front, [], hsplit, hfront⟩
    refine ⟨List.forall_mem_append.mpr ⟨fun t ht => .inr ⟨pos, hpos, h.atEnd t ht⟩, ?_⟩, ?_⟩
    · exact List.forall_mem_singleton.mpr (.inl rfl)
    · exact pairwise_ends_append h.atEnd (Nat.le_refl pos) (Nat.le_refl pos)
        (List.pairwise_singleton _ _)
  | cons c rest ih =>
    obtain ⟨offset, hlo, hhi, hoffset, hts, hnext⟩ := h.step hsplit hfront
    have hsplit' : text.toList = (front ++ [c]) ++ rest := by rw [hsplit, List.append_assoc]; rfl
    have hfront' : byteLength (front ++ [c]) = pos + c.utf8Size := by
      rw [byteLength_append, hfront]
      rfl
    obtain ⟨hplaced, hends⟩ := ih hnext hsplit' hfront'
    refine ⟨List.forall_mem_append.mpr ⟨fun t ht => .inr ⟨offset, hoffset, hts t ht⟩, hplaced⟩, ?_⟩
    exact pairwise_ends_append hts hlo hhi hends

/-- The tokens of a text are placed in it, and the offsets at which they end never decrease. -/
theorem placed_tokens (text : String) :
    (∀ t ∈ tokens text, t.Placed text) ∧
      (0 :: (tokens text).filterMap Token.end?).Pairwise (· ≤ ·) := by
  have hstart : (State.text 0).Marks text 0 := ⟨[], text.toList, rfl, rfl⟩
  have hsplit : text.toList = [] ++ text.toList := rfl
  exact hstart.scan hsplit rfl

theorem placed_of_mem_tokens {t : Token} (ht : t ∈ tokens text) : t.Placed text :=
  (placed_tokens text).1 t ht

theorem pairwise_ends_tokens (text : String) :
    ((tokens text).filterMap Token.end?).Pairwise (· ≤ ·) :=
  (List.pairwise_cons.mp (placed_tokens text).2).2

end Runs

/-! ## Ranges -/

/-- The ranges of a token. -/
def Token.ranges : Token → List Span
  | .text start stop | .openName start stop | .attributeName start stop
  | .attributeValue start stop | .comment start stop => [{ start := start, stop := stop }]
  | .close start nameStart nameStop stop =>
    [{ start := start, stop := stop }, { start := nameStart, stop := nameStop }]
  | .openEnd _ | .selfClose _ | .attributeEnd _ _ | .mistake _ _ | .finish => []

/-- The range of the name in a token. -/
def Token.name? : Token → Option Span
  | .openName start stop | .attributeName start stop => some { start := start, stop := stop }
  | .close _ nameStart nameStop _ => some { start := nameStart, stop := nameStop }
  | _ => none

/-- The ranges of a token that follows another begin before they end, and its name is not empty. -/
theorem Follows.ordered {φ φ' : Phase} {pos pos' : Nat} {t : Token} (h : Follows φ pos t φ' pos') :
    (∀ r ∈ t.ranges, r.start ≤ r.stop) ∧ ∀ r ∈ t.name?, r.start < r.stop := by
  cases h with
  | text _ hlt => exact ⟨List.forall_mem_singleton.mpr (Nat.le_of_lt hlt), by simp [Token.name?]⟩
  | comment _ hle => exact ⟨List.forall_mem_singleton.mpr hle, by simp [Token.name?]⟩
  | close _ hstart hname hstop =>
    simp only [Token.ranges, Token.name?, List.forall_mem_cons, Option.mem_def, Option.some.injEq,
      forall_eq', List.not_mem_nil, false_implies, implies_true, and_true]
    omega
  | openName _ hlt | attributeName _ hlt =>
    exact ⟨List.forall_mem_singleton.mpr (Nat.le_of_lt hlt), by simpa [Token.name?] using hlt⟩
  | attributeValue _ _ hlt =>
    exact ⟨List.forall_mem_singleton.mpr (Nat.le_of_lt hlt), by simp [Token.name?]⟩
  | attributeEnd | openEnd | selfClose | mistake =>
    exact ⟨List.forall_mem_nil _, by simp [Token.name?]⟩

theorem Path.ordered {φ φ' : Phase} {pos pos' : Nat} {ts : List Token}
    (h : Path φ pos ts φ' pos') {t : Token} (ht : t ∈ ts) :
    (∀ r ∈ t.ranges, r.start ≤ r.stop) ∧ ∀ r ∈ t.name?, r.start < r.stop := by
  induction h with
  | nil => exact absurd ht List.not_mem_nil
  | cons hfollows _ ih =>
    rcases List.mem_cons.mp ht with rfl | ht
    · exact hfollows.ordered
    · exact ih ht

section Tokens

variable {text : String} {t : Token} {r : Span} {start stop : Nat}

theorem ordered_of_mem_tokens (ht : t ∈ tokens text) :
    (∀ r ∈ t.ranges, r.start ≤ r.stop) ∧ ∀ r ∈ t.name?, r.start < r.stop := by
  obtain ⟨ts, htokens, φ, done, hpath, -⟩ := tokens_eq text
  rw [htokens, List.mem_append, List.mem_singleton] at ht
  rcases ht with ht | rfl
  · exact hpath.ordered ht
  · exact ⟨List.forall_mem_nil _, by simp [Token.name?]⟩

/-- The ranges of tokens lie in the text, with both ends between characters. -/
theorem isIn_of_mem_ranges (ht : t ∈ tokens text) (hr : r ∈ t.ranges) : r.IsIn text := by
  have hordered := (ordered_of_mem_tokens ht).1 r hr
  rcases placed_of_mem_tokens ht with rfl | ⟨offset, hoffset, hends⟩
  · exact absurd hr List.not_mem_nil
  cases hends with
  | close htag hstart hstop =>
    rcases List.mem_cons.mp hr with rfl | hr
    · exact ⟨hordered, htag.isBoundary, hoffset⟩
    · obtain rfl := List.mem_singleton.mp hr
      exact ⟨hordered, hstart, hstop⟩
  | openName hbracket =>
    obtain rfl := List.mem_singleton.mp hr
    exact ⟨hordered, hbracket.isBoundary_behind, hoffset⟩
  | text hstart | attributeName hstart | attributeValue hstart | comment hstart =>
    obtain rfl := List.mem_singleton.mp hr
    exact ⟨hordered, hstart, hoffset⟩
  | openEnd | selfClose | attributeEnd | mistake => exact absurd hr List.not_mem_nil

theorem isBoundary_of_mem_end? {offset : Nat} (ht : t ∈ tokens text) (hend : offset ∈ t.end?) :
    IsBoundary text offset := by
  rcases placed_of_mem_tokens ht with rfl | ⟨offset', hoffset, hends⟩
  · exact absurd hend (by simp [Token.end?])
  · rw [hends.end?_eq] at hend
    obtain rfl := Option.some.inj hend
    exact hoffset

/-- The bracket of a start tag stands right before its name. -/
theorem bracket_of_openName (ht : .openName start stop ∈ tokens text) :
    0 < start ∧ (bytesOf text)[start - 1]? = some '<'.toUInt8 := by
  rcases placed_of_mem_tokens ht with heq | ⟨offset, -, hends⟩
  · exact Token.noConfusion heq
  · cases hends with
    | openName hbracket => exact ⟨Nat.succ_pos _, hbracket.getElem?_bytesOf (by decide)⟩

theorem bracket_of_close {nameStart nameStop : Nat}
    (ht : .close start nameStart nameStop stop ∈ tokens text) :
    (bytesOf text)[start]? = some '<'.toUInt8 := by
  rcases placed_of_mem_tokens ht with heq | ⟨offset, -, hends⟩
  · exact Token.noConfusion heq
  · cases hends with
    | close hbracket => exact hbracket.getElem?_bytesOf (by decide)

theorem bracket_of_end {bracket : Nat}
    (ht : .openEnd bracket ∈ tokens text ∨ .selfClose bracket ∈ tokens text) :
    (bytesOf text)[bracket]? = some '>'.toUInt8 := by
  have hstands : StandsAt text '>' bracket := by
    rcases ht with ht | ht
    · rcases placed_of_mem_tokens ht with heq | ⟨offset, -, hends⟩
      · exact Token.noConfusion heq
      · cases hends with
        | openEnd h => exact h
    · rcases placed_of_mem_tokens ht with heq | ⟨offset, -, hends⟩
      · exact Token.noConfusion heq
      · cases hends with
        | selfClose h => exact h
  exact hstands.getElem?_bytesOf (by decide)

end Tokens

/-- Tokens that are in their places in a text.  What the ranges hold can be cut out of the text, and
is not empty where it is a name. -/
structure InPlace (text : String) (ts : List Token) : Prop where
  ranges : ∀ t ∈ ts, ∀ r ∈ t.ranges, r.start ≤ r.stop ∧ r.stop ≤ text.utf8ByteSize ∧
    IsBoundary text r.start ∧ IsBoundary text r.stop
  names : ∀ t ∈ ts, ∀ r ∈ t.name?, r.start < r.stop ∧ ∃ name, r.slice? text = some name ∧ name ≠ ""
  openName : ∀ start stop, .openName start stop ∈ ts →
    0 < start ∧ (bytesOf text)[start - 1]? = some '<'.toUInt8
  close : ∀ start nameStart nameStop stop, .close start nameStart nameStop stop ∈ ts →
    (bytesOf text)[start]? = some '<'.toUInt8
  bracket : ∀ bracket, .openEnd bracket ∈ ts ∨ .selfClose bracket ∈ ts →
    (bytesOf text)[bracket]? = some '>'.toUInt8
  positions : ∀ t ∈ ts, ∀ offset ∈ t.end?, IsBoundary text offset
  ends : (ts.filterMap Token.end?).Pairwise (· ≤ ·)

theorem Token.name?_mem_ranges {t : Token} {r : Span} (hr : r ∈ t.name?) : r ∈ t.ranges := by
  cases t with
  | openName | attributeName =>
    obtain rfl := Option.some.inj hr
    exact List.mem_cons_self
  | close =>
    obtain rfl := Option.some.inj hr
    exact List.mem_cons_of_mem _ List.mem_cons_self
  | _ => exact absurd hr (by simp [Token.name?])

theorem inPlace_tokens (text : String) : InPlace text (tokens text) where
  ranges t ht r hr := by
    have hin := isIn_of_mem_ranges ht hr
    exact ⟨hin.ordered, hin.stop.le, hin.start, hin.stop⟩
  names t ht r hr := by
    have hlt := (ordered_of_mem_tokens ht).2 r hr
    obtain ⟨name, hname, hne⟩ := (isIn_of_mem_ranges ht (Token.name?_mem_ranges hr)).exists_cut
    exact ⟨hlt, name, hname, hne hlt⟩
  openName _ _ := bracket_of_openName
  close _ _ _ _ := bracket_of_close
  bracket _ := bracket_of_end
  positions _ ht _ := isBoundary_of_mem_end? ht
  ends := pairwise_ends_tokens text

end Markup
end Inlay
