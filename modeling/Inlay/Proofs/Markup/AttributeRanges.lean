import Inlay.Proofs.Markup.AttributeTokens

/-!
# Ranges of attributes

How each attribute of a tree is written, character by character, and what its ranges are of
that: `Tree.exactRanges_ofDocument`.  The range of the whole begins with the modifier or the name.
Where there is an equals sign, it ends behind the value and the closing quote.  Where there is
none, it should end with the name, but the end of such an attribute is noticed only behind the
blanks that follow, and the range reaches over these to whatever stands behind them: to the
next attribute, if there is one.

`Spelling` cuts a text around an attribute.  `State.Spells` is the part of this that has been read
when the scanner is in a state; each step keeps it, and what a step completes is spelled.
-/

namespace Inlay
namespace Markup

/-! ## Spellings -/

/-- The name of an attribute with its modifier.  An equals sign can only be the first character. -/
def IsAttributeName : List Char → Prop
  | [] => False
  | c :: cs => endsName c = false ∧ ∀ x ∈ cs, (x == '=' || endsName x) = false

def AllBlank (cs : List Char) : Prop := ∀ c ∈ cs, isMarkupBlank c = true

/-- An equals sign with blanks around it. -/
def IsEquals (cs : List Char) : Prop :=
  ∃ before behind, cs = before ++ '=' :: behind ∧ AllBlank before ∧ AllBlank behind

/-- A character that ends a value without quotes. -/
def endsUnquoted (c : Char) : Bool := isMarkupBlank c || c == '>'

/-- A value without quotes that is not empty. -/
def IsUnquoted : List Char → Prop
  | [] => False
  | c :: cs => c ≠ '"' ∧ c ≠ '\x27' ∧ ∀ x ∈ c :: cs, endsUnquoted x = false

/-- What can stand behind the name of an attribute, up to the value, as the value, as the closing
quote and behind the attribute. -/
inductive Shape : Quote → (lead value closing rest : List Char) → Prop
  | bare {blanks rest} : AllBlank blanks →
      (∀ c ∈ rest.head?, isMarkupBlank c = false ∧ c ≠ '=') → Shape .absent blanks [] [] rest
  | double {lead value rest} : IsEquals lead → '"' ∉ value →
      Shape .double (lead ++ ['"']) value ['"'] rest
  | single {lead value rest} : IsEquals lead → '\x27' ∉ value →
      Shape .single (lead ++ ['\x27']) value ['\x27'] rest
  | unquoted {lead value rest} : IsEquals lead → IsUnquoted value →
      (∀ c ∈ rest.head?, endsUnquoted c = true) → Shape .unquoted lead value [] rest
  | missing {lead rest} : IsEquals lead → rest.head? = some '>' → Shape .unquoted lead [] [] rest
  | unterminated {lead value q} : IsEquals lead → q = '"' ∨ q = '\x27' → q ∉ value →
      Shape .unquoted (lead ++ [q]) value [] []

/-- A place in a text where an attribute is written. -/
structure Spelling (text : List Char) where
  before : List Char
  name : List Char
  lead : List Char
  value : List Char
  closing : List Char
  rest : List Char
  quote : Quote
  text_eq : text = before ++ name ++ lead ++ value ++ closing ++ rest
  isName : IsAttributeName name
  shape : Shape quote lead value closing rest

namespace Spelling

variable {text : List Char} (w : Spelling text)

/-- The name with its modifier. -/
def nameSpan : Span := Span.of (byteLength w.before) (byteLength (w.before ++ w.name))

def valueSpan : Span :=
  Span.of (byteLength (w.before ++ w.name ++ w.lead))
    (byteLength (w.before ++ w.name ++ w.lead ++ w.value))

def value? : Option Span := if w.value = [] then none else some w.valueSpan

/-- Where the name, the value or the closing quote ends, whichever comes last. -/
def contentStop : Nat :=
  if w.quote = .absent then byteLength (w.before ++ w.name)
  else byteLength (w.before ++ w.name ++ w.lead ++ w.value ++ w.closing)

end Spelling

/-- A complete attribute stands in the text as it is spelled there. -/
def Ended.Spelled (e : Ended) (text : List Char) : Prop :=
  ∃ w : Spelling text, e.quote = w.quote ∧ e.pending.name = w.nameSpan ∧
    e.pending.value = w.value? ∧ e.stop = byteLength (w.before ++ w.name ++ w.lead ++ w.value)

/-! ## What a state has read -/

/-- A name has been read, with nothing behind it but `tail`, and is pending. -/
def NameRead (p : Option Pending) (read tail : List Char) : Prop :=
  ∃ before name, read = before ++ name ++ tail ∧ IsAttributeName name ∧
    p = some { name := Span.of (byteLength before) (byteLength (before ++ name)) }

/-- A value is being read in the quotes `q`, from `start` on. -/
def InQuotes (q : Char) (p : Option Pending) (start : Nat) (read : List Char) : Prop :=
  ∃ lead value, IsEquals lead ∧ q ∉ value ∧ NameRead p read (lead ++ [q] ++ value) ∧
    start + byteLength value = byteLength read

/-- What the characters that have been read end in, in a state, and what is pending. -/
def State.Spells (s : State) (p : Option Pending) (read : List Char) : Prop :=
  match s with
  | .attributeName _ start =>
    ∃ before name, read = before ++ name ∧ IsAttributeName name ∧ start = byteLength before
  | .afterAttribute _ => ∃ blanks, AllBlank blanks ∧ NameRead p read blanks
  | .beforeValue _ => ∃ lead, IsEquals lead ∧ NameRead p read lead
  | .doubleQuoted _ start => InQuotes '"' p start read
  | .singleQuoted _ start => InQuotes '\x27' p start read
  | .unquoted _ start =>
    ∃ lead value, IsEquals lead ∧ IsUnquoted value ∧ NameRead p read (lead ++ value) ∧
      start + byteLength value = byteLength read
  | _ => True

/-- What a step has given behind `read` and `c`: complete attributes that are spelled, and a state
that says what has been read. -/
structure Writes (p : Option Pending) (read : List Char) (c : Char) (rest : List Char)
    (next : State × List Token) : Prop where
  ended : ∀ e ∈ endedFrom p next.2, e.Spelled (read ++ c :: rest)
  state : next.1.Spells (pendingAfter p next.2) (read ++ [c])

section Reading

variable {p : Option Pending} {read tail lead value closing rest : List Char} {c : Char}
variable {name : List Char} {start : Nat} {quote : Quote}

theorem IsAttributeName.concat (h : IsAttributeName name) (hc : (c == '=' || endsName c) = false) :
    IsAttributeName (name ++ [c]) := by
  cases name with
  | nil => exact h.elim
  | cons x xs =>
    exact ⟨h.1, List.forall_mem_append.mpr ⟨h.2, List.forall_mem_singleton.mpr hc⟩⟩

theorem IsAttributeName.ne_nil (h : IsAttributeName name) : name ≠ [] := by
  rintro rfl
  exact h

theorem IsAttributeName.pos (h : IsAttributeName name) : 0 < byteLength name := by
  cases name with
  | nil => exact h.elim
  | cons c cs => exact Nat.add_pos_left c.utf8Size_pos _

theorem IsUnquoted.ne_nil (h : IsUnquoted value) : value ≠ [] := by
  rintro rfl
  exact h

theorem IsUnquoted.concat (h : IsUnquoted value) (hc : endsUnquoted c = false) :
    IsUnquoted (value ++ [c]) := by
  cases value with
  | nil => exact h.elim
  | cons x xs =>
    exact ⟨h.1, h.2.1, List.forall_mem_append.mpr ⟨h.2.2, List.forall_mem_singleton.mpr hc⟩⟩

theorem AllBlank.concat {blanks : List Char} (h : AllBlank blanks) (hc : isMarkupBlank c = true) :
    AllBlank (blanks ++ [c]) :=
  List.forall_mem_append.mpr ⟨h, List.forall_mem_singleton.mpr hc⟩

theorem IsEquals.concat (h : IsEquals lead) (hc : isMarkupBlank c = true) :
    IsEquals (lead ++ [c]) := by
  obtain ⟨before, behind, rfl, hbefore, hbehind⟩ := h
  exact ⟨before, behind ++ [c], by rw [List.append_assoc, List.cons_append], hbefore,
    hbehind.concat hc⟩

theorem AllBlank.equals {blanks : List Char} (h : AllBlank blanks) : IsEquals (blanks ++ ['=']) :=
  ⟨blanks, [], rfl, h, List.forall_mem_nil _⟩

theorem NameRead.concat (h : NameRead p read tail) (c : Char) :
    NameRead p (read ++ [c]) (tail ++ [c]) := by
  obtain ⟨before, name, rfl, hname, hp⟩ := h
  exact ⟨before, name, List.append_assoc _ _ _, hname, hp⟩

/-- What the end of an attribute without a value completes. -/
theorem NameRead.spelled (h : NameRead p read lead) (hshape : Shape quote lead [] closing rest) :
    ∀ e ∈ endedFrom p [.attributeEnd quote (byteLength read)],
      e.Spelled (read ++ closing ++ rest) := by
  obtain ⟨before, name, rfl, hname, rfl⟩ := h
  refine List.forall_mem_singleton.mpr ?_
  refine ⟨⟨before, name, lead, [], closing, rest, quote, ?_, hname, hshape⟩, rfl, rfl, rfl, ?_⟩
  · rw [List.append_nil]
  · rw [List.append_nil]

/-- What the end of a value completes. -/
theorem NameRead.spelled_valueSince (h : NameRead p read (lead ++ value))
    (hshape : Shape quote lead value closing rest)
    (hstart : start + byteLength value = byteLength read) :
    ∀ e ∈ endedFrom p (valueSince start quote (byteLength read)),
      e.Spelled (read ++ closing ++ rest) := by
  rw [valueSince]
  by_cases hvalue : value = []
  · subst hvalue
    rw [List.append_nil] at h
    rw [byteLength_nil, Nat.add_zero] at hstart
    rw [if_neg (Nat.not_lt.mpr (Nat.le_of_eq hstart.symm))]
    exact h.spelled hshape
  · have hpos : 0 < byteLength value :=
      Nat.pos_of_ne_zero fun h => hvalue (eq_nil_of_byteLength_eq_zero h)
    rw [if_pos (by omega)]
    obtain ⟨before, name, hread, hname, rfl⟩ := h
    rw [← List.append_assoc (before ++ name)] at hread
    subst hread
    have hlead : start = byteLength (before ++ name ++ lead) := by
      rw [byteLength_append _ value] at hstart
      omega
    refine List.forall_mem_singleton.mpr ?_
    refine ⟨⟨before, name, lead, value, closing, rest, quote, rfl, hname, hshape⟩,
      rfl, rfl, ?_, rfl⟩
    rw [hlead]
    exact (if_neg hvalue).symm

/-! ## Steps -/

/-- A name can begin with a step that reads none of the tokens of an attribute, and nothing else
that a state promises. -/
theorem Unrelated.writes {next : State × List Token} (h : Unrelated next)
    (hname : ∀ name start, next.1 = .attributeName name start →
      start = byteLength read ∧ endsName c = false) (p : Option Pending) :
    Writes p read c rest next := by
  refine ⟨?_, ?_⟩
  · rw [endedFrom_of_others h.2]
    exact List.forall_mem_nil _
  · obtain ⟨hawaits, -⟩ := h
    revert hawaits hname
    cases next.1 with
    | attributeName name start =>
      intro hname _
      obtain ⟨hstart, hc⟩ := hname name start rfl
      exact ⟨read, [c], rfl, ⟨hc, List.forall_mem_nil _⟩, hstart⟩
    | afterAttribute | beforeValue | doubleQuoted | singleQuoted | unquoted =>
      exact fun _ h => absurd h Bool.noConfusion
    | _ => exact fun _ _ => trivial

theorem attributeName_of_inBeforeAttribute {name' : List Char} {pos start : Nat}
    (h : (inBeforeAttribute name pos c).1 = .attributeName name' start) :
    start = pos ∧ endsName c = false := by
  have hcontent := awaitsEnd_content name (pos + 1)
  grind [inBeforeAttribute, content, endsName]

theorem attributeName_of_step {s : State} {pos : Nat} {name' : List Char}
    (hs : ∀ name start, s ≠ .attributeName name start) (hawaits : s.awaitsEnd = false)
    (h : (step s pos c rest).1 = .attributeName name' start) :
    start = pos ∧ endsName c = false := by
  cases s with
  | comment start =>
    rw [step, inComment.eq_def] at h
    split at h <;> exact absurd h (by simp)
  | attributeName name start => exact absurd rfl (hs name start)
  | afterAttribute | beforeValue | doubleQuoted | singleQuoted | unquoted =>
    exact absurd hawaits Bool.noConfusion
  | _ =>
    simp only [step] at h
    grind [inText, inTagOpen, thenBeforeAttribute, inTagName, inSelfClosing, inEndTagOpen,
      inEndTagName, inAfterEndTagName, inDeclaration, inRawText, inBeforeAttribute, content,
      endsName]

theorem writes_thenBeforeAttribute {done : List Token}
    (h : ∀ e ∈ endedFrom p done, e.Spelled (read ++ c :: rest)) :
    Writes p read c rest (thenBeforeAttribute done name (byteLength read) c) := by
  have hnext : Writes (pendingAfter p done) read c rest
      (inBeforeAttribute name (byteLength read) c) :=
    (unrelated_inBeforeAttribute name _ c).writes (fun _ _ => attributeName_of_inBeforeAttribute) _
  refine ⟨?_, ?_⟩
  · rw [thenBeforeAttribute, endedFrom_append]
    exact List.forall_mem_append.mpr ⟨h, hnext.ended⟩
  · rw [thenBeforeAttribute, pendingAfter_append]
    exact hnext.state

theorem writes_inAfterAttribute {done : List Token} {blanks : List Char}
    (hended : endedFrom p done = []) (hblanks : AllBlank blanks)
    (hname : NameRead (pendingAfter p done) read blanks) :
    Writes p read c rest (inAfterAttribute done name (byteLength read) c) := by
  have hdone : ∀ e ∈ endedFrom p done, e.Spelled (read ++ c :: rest) := by
    rw [hended]
    exact List.forall_mem_nil _
  have hend : c ≠ '=' → isMarkupBlank c = false →
      ∀ e ∈ endedFrom p (done ++ [.attributeEnd .absent (byteLength read)]),
        e.Spelled (read ++ c :: rest) := by
    intro hequals hblank
    have hshape : Shape .absent blanks [] [] (c :: rest) := by
      refine .bare hblanks ?_
      rintro x ⟨⟩
      exact ⟨hblank, hequals⟩
    have hspelled := hname.spelled hshape
    rw [List.append_nil] at hspelled
    rw [endedFrom_append, hended]
    exact hspelled
  rw [inAfterAttribute]
  split
  · next hequals =>
    rw [beq_iff_eq] at hequals
    subst hequals
    exact ⟨hdone, blanks ++ ['='], hblanks.equals, hname.concat '='⟩
  next hequals =>
  rw [beq_iff_eq] at hequals
  split
  · next hc =>
    refine writes_thenBeforeAttribute (hend hequals ?_)
    rcases (Bool.or_eq_true _ _).mp hc with hc | hc <;> rw [beq_iff_eq.mp hc] <;> rfl
  next hc =>
  split
  · next hblank => exact ⟨hdone, blanks ++ [c], hblanks.concat hblank, hname.concat c⟩
  · next hblank =>
    have hblank := Bool.eq_false_iff.mpr hblank
    refine ⟨hend hequals hblank, read, [c], rfl, ⟨?_, List.forall_mem_nil _⟩, rfl⟩
    rw [endsName, hblank, Bool.eq_false_iff.mpr hc]
    rfl

theorem writes_inAttributeName {before full : List Char} (hread : read = before ++ full)
    (hfull : IsAttributeName full) (hstart : start = byteLength before) (p : Option Pending) :
    Writes p read c rest (inAttributeName name start (byteLength read) c) := by
  rw [inAttributeName]
  split
  · have hname : NameRead (pendingAfter p [.attributeName start (byteLength read)]) read [] := by
      refine ⟨before, full, ?_, hfull, ?_⟩
      · rw [List.append_nil, hread]
      · rw [hstart, hread]
        rfl
    exact writes_inAfterAttribute rfl (List.forall_mem_nil _) hname
  · next hc =>
    refine ⟨List.forall_mem_nil _, before, full ++ [c], ?_, hfull.concat (Bool.eq_false_iff.mpr hc),
      hstart⟩
    rw [hread, List.append_assoc]

theorem writes_inUnquoted (hlead : IsEquals lead)
    (hvalue : IsUnquoted value ∨ value = [] ∧ c ≠ '"' ∧ c ≠ '\x27' ∧ isMarkupBlank c = false)
    (hname : NameRead p read (lead ++ value))
    (hstart : start + byteLength value = byteLength read) :
    Writes p read c rest (inUnquoted name start (byteLength read) c) := by
  rw [inUnquoted]
  split
  · next hc =>
    have hshape : Shape .unquoted lead value [] (c :: rest) := by
      rcases hvalue with hvalue | ⟨rfl, -, -, hblank⟩
      · refine .unquoted hlead hvalue ?_
        rintro x ⟨⟩
        exact hc
      · rw [hblank, Bool.false_or, beq_iff_eq] at hc
        exact .missing hlead (congrArg some hc)
    have hspelled := hname.spelled_valueSince hshape hstart
    rw [List.append_nil] at hspelled
    exact writes_thenBeforeAttribute hspelled
  · next hc =>
    have hc : endsUnquoted c = false := Bool.eq_false_iff.mpr hc
    refine ⟨List.forall_mem_nil _, lead, value ++ [c], hlead, ?_, ?_, ?_⟩
    · rcases hvalue with hvalue | ⟨rfl, hdouble, hsingle, -⟩
      · exact hvalue.concat hc
      · exact ⟨hdouble, hsingle, List.forall_mem_singleton.mpr hc⟩
    · rw [← List.append_assoc]
      exact hname.concat c
    · rw [byteLength_append, byteLength_append, ← hstart, Nat.add_assoc]

theorem writes_inBeforeValue (hlead : IsEquals lead) (hname : NameRead p read lead) :
    Writes p read c rest (inBeforeValue name (byteLength read) c) := by
  have hquoted : ∀ q : Char, c = q → q.utf8Size = 1 →
      InQuotes q p (byteLength read + 1) (read ++ [c]) := by
    rintro q rfl hsize
    refine ⟨lead, [], hlead, List.not_mem_nil, ?_, ?_⟩
    · rw [List.append_nil]
      exact hname.concat c
    · rw [byteLength_append, byteLength_cons, hsize]
      rfl
  rw [inBeforeValue]
  split
  · next hc => exact ⟨List.forall_mem_nil _, hquoted '"' (beq_iff_eq.mp hc) rfl⟩
  next hdouble =>
  split
  · next hc => exact ⟨List.forall_mem_nil _, hquoted '\x27' (beq_iff_eq.mp hc) rfl⟩
  next hsingle =>
  rw [beq_iff_eq] at hdouble hsingle
  split
  · next hblank => exact ⟨List.forall_mem_nil _, lead ++ [c], hlead.concat hblank, hname.concat c⟩
  · next hblank =>
    have hempty : NameRead p read (lead ++ []) := by rwa [List.append_nil]
    exact writes_inUnquoted hlead
      (.inr ⟨rfl, hdouble, hsingle, Bool.eq_false_iff.mpr hblank⟩) hempty rfl

/-- A character in quotes belongs to the value, or is the closing quote. -/
theorem InQuotes.writes {q : Char} (h : InQuotes q p start read)
    (hshape : ∀ lead value rest, IsEquals lead → q ∉ value →
      Shape quote (lead ++ [q]) value [q] rest)
    {inside : State} (hinside : ∀ read', InQuotes q p start read' → inside.Spells p read') :
    Writes p read c rest
      (if c == q then (.beforeAttribute name, valueSince start quote (byteLength read))
        else (inside, [])) := by
  obtain ⟨lead, value, hlead, hvalue, hname, hstart⟩ := h
  split
  · next hc =>
    rw [beq_iff_eq] at hc
    subst hc
    have hspelled := hname.spelled_valueSince (hshape lead value rest hlead hvalue) hstart
    rw [List.append_assoc] at hspelled
    exact ⟨hspelled, trivial⟩
  · next hc =>
    rw [beq_iff_eq] at hc
    refine ⟨List.forall_mem_nil _, hinside _ ⟨lead, value ++ [c], hlead, ?_, ?_, ?_⟩⟩
    · rw [List.mem_append, List.mem_singleton, not_or]
      exact ⟨hvalue, Ne.symm hc⟩
    · rw [← List.append_assoc]
      exact hname.concat c
    · rw [byteLength_append, byteLength_append, ← hstart, Nat.add_assoc]

end Reading

theorem State.Spells.step {s : State} {p : Option Pending} {read : List Char} (h : s.Spells p read)
    (c : Char) (rest : List Char) : Writes p read c rest (step s (byteLength read) c rest) := by
  cases s with
  | attributeName name start =>
    obtain ⟨before, full, hread, hfull, hstart⟩ := h
    exact writes_inAttributeName hread hfull hstart p
  | afterAttribute name =>
    obtain ⟨blanks, hblanks, hname⟩ := h
    exact writes_inAfterAttribute rfl hblanks hname
  | beforeValue name =>
    obtain ⟨lead, hlead, hname⟩ := h
    exact writes_inBeforeValue hlead hname
  | doubleQuoted name start =>
    exact InQuotes.writes h (fun _ _ _ => .double) fun _ hquotes => hquotes
  | singleQuoted name start =>
    exact InQuotes.writes h (fun _ _ _ => .single) fun _ hquotes => hquotes
  | unquoted name start =>
    obtain ⟨lead, value, hlead, hvalue, hname, hstart⟩ := h
    exact writes_inUnquoted hlead (.inl hvalue) hname hstart
  | _ =>
    exact (unrelated_step rfl (by simp) rest).writes
      (fun _ _ => attributeName_of_step (by simp) rfl) p

/-- A quote that is missing at the end of the text does not end the value with any less. -/
theorem InQuotes.atEnd {q : Char} {p : Option Pending} {start : Nat} {read : List Char}
    (h : InQuotes q p start read) (hq : q = '"' ∨ q = '\x27') :
    ∀ e ∈ endedFrom p (valueSince start .unquoted (byteLength read)), e.Spelled read := by
  obtain ⟨lead, value, hlead, hvalue, hname, hstart⟩ := h
  have hspelled := hname.spelled_valueSince (.unterminated hlead hq hvalue) hstart
  rw [List.append_nil, List.append_nil] at hspelled
  exact hspelled

/-- What the end of the text completes is spelled. -/
theorem State.Spells.atEnd {s : State} {p : Option Pending} {read : List Char}
    (h : s.Spells p read) : ∀ e ∈ endedFrom p (atEnd s (byteLength read)), e.Spelled read := by
  have hmistake : ∀ t ∈ [Token.mistake .endInTag (byteLength read)], t.isAttributePart = false :=
    List.forall_mem_singleton.mpr rfl
  have hbare : ∀ {p blanks}, AllBlank blanks → NameRead p read blanks →
      ∀ e ∈ endedFrom p [.attributeEnd .absent (byteLength read)], e.Spelled read := by
    intro p blanks hblanks hname
    have hshape : Shape .absent blanks [] [] [] := .bare hblanks fun _ hc => absurd hc (by simp)
    have hspelled := hname.spelled hshape
    rw [List.append_nil, List.append_nil] at hspelled
    exact hspelled
  cases s with
  | attributeName name start =>
    obtain ⟨before, full, rfl, hfull, rfl⟩ := h
    exact hbare (List.forall_mem_nil _) ⟨before, full, (List.append_nil _).symm, hfull, rfl⟩
  | afterAttribute name =>
    obtain ⟨blanks, hblanks, hname⟩ := h
    exact hbare hblanks hname
  | doubleQuoted name start =>
    rw [Markup.atEnd, endedFrom_append_others hmistake]
    exact InQuotes.atEnd h (.inl rfl)
  | singleQuoted name start =>
    rw [Markup.atEnd, endedFrom_append_others hmistake]
    exact InQuotes.atEnd h (.inr rfl)
  | unquoted name start =>
    obtain ⟨lead, value, hlead, hvalue, hname, hstart⟩ := h
    have hshape : Shape .unquoted lead value [] [] :=
      .unquoted hlead hvalue fun _ hc => absurd hc (by simp)
    have hspelled := hname.spelled_valueSince hshape hstart
    rw [List.append_nil, List.append_nil] at hspelled
    rw [Markup.atEnd, endedFrom_append_others hmistake]
    exact hspelled
  | _ =>
    rw [endedFrom_of_others (by grind [Markup.atEnd, textSince, Token.isAttributePart])]
    exact List.forall_mem_nil _

theorem State.Spells.scan {s : State} {p : Option Pending} {read : List Char} (h : s.Spells p read)
    (cs : List Char) :
    ∀ e ∈ endedFrom p (scan s (byteLength read) cs), e.Spelled (read ++ cs) := by
  induction cs generalizing s p read with
  | nil =>
    rw [Markup.scan, endedFrom_append_others (List.forall_mem_singleton.mpr rfl), List.append_nil]
    exact h.atEnd
  | cons c cs ih =>
    obtain ⟨hended, hstate⟩ := h.step c cs
    have hrest := ih hstate
    rw [byteLength_append, byteLength_cons, byteLength_nil, Nat.add_zero, List.append_assoc]
      at hrest
    rw [Markup.scan, endedFrom_append]
    exact List.forall_mem_append.mpr ⟨hended, hrest⟩

/-- Every complete attribute of a text is spelled in it. -/
theorem spelled_of_mem_ended {text : String} {e : Ended} (he : e ∈ ended (tokens text)) :
    e.Spelled text.toList :=
  (show (State.text 0).Spells none [] from trivial).scan text.toList e he

/-! ## The attributes of a tree -/

namespace Spelling

variable {text : List Char} (w : Spelling text)

/-- The binding that the name begins with. -/
def binding : Binding := (w.name.head?.bind Binding.ofModifier?).getD .plain

/-- From the modifier or the name to the end of what the attribute takes, which are the blanks
behind the name where there is no equals sign. -/
def whole : Span :=
  Span.of (byteLength w.before)
    (byteLength (w.before ++ w.name ++ w.lead ++ w.value ++ w.closing))

/-- The name behind the modifier. -/
def ownName : Span :=
  Span.of (byteLength w.before + if w.binding = .plain then 0 else 1)
    (byteLength (w.before ++ w.name))

/-- Where the value is assigned: behind the name where there is no equals sign, between the quotes
where there are only these, and nowhere where nothing stands behind the equals sign. -/
def assigned? : Option Span :=
  match w.quote, w.value? with
  | .absent, _ => some (Span.empty (byteLength (w.before ++ w.name)))
  | .unquoted, none => none
  | _, none => some (Span.empty (byteLength (w.before ++ w.name ++ w.lead ++ w.value)))
  | _, some r => some r

end Spelling

/-- The attribute is assigned its presence, for want of an equals sign. -/
def Attribute.IsBare (a : Attribute) : Prop := a.assignment.map (·.value) = some .presence

/-- The ranges of an attribute are those of a place where it is written. -/
structure Attribute.SpelledAs (a : Attribute) {text : List Char} (w : Spelling text) : Prop where
  binding : a.binding = w.binding
  whole : a.whole = w.whole
  nameSpan : a.nameSpan = w.ownName
  assigned : a.assignment.map (·.span) = w.assigned?
  bare : a.IsBare ↔ w.quote = .absent

theorem Shape.attributeStop {quote : Quote} {lead value closing rest : List Char}
    (h : Shape quote lead value closing rest) (stop : Nat) :
    attributeStop quote stop = stop + byteLength closing := by
  cases h <;> rfl

theorem splitModifier_spelling {text : String} (w : Spelling text.toList) :
    splitModifier text w.nameSpan = (w.binding, w.ownName) := by
  have hslice : w.nameSpan.sliceD text = String.ofList w.name := by
    have htext : text.toList =
        w.before ++ (w.name ++ (w.lead ++ (w.value ++ (w.closing ++ w.rest)))) :=
      w.text_eq.trans (by simp only [List.append_assoc])
    rw [Spelling.nameSpan, byteLength_append]
    exact sliceD_of_toList htext
  rw [splitModifier, hslice, String.toList_ofList]
  cases hmodifier : w.name.head?.bind Binding.ofModifier? with
  | none =>
    have hbinding : w.binding = .plain := by rw [Spelling.binding, hmodifier]; rfl
    rw [Spelling.ownName, hbinding, if_pos rfl]
    rfl
  | some binding =>
    have hbinding : w.binding = binding := by rw [Spelling.binding, hmodifier]; rfl
    have hplain : binding ≠ .plain := by
      obtain ⟨c, -, hc⟩ := Option.bind_eq_some_iff.mp hmodifier
      rintro rfl
      revert hc
      rw [Binding.ofModifier?.eq_def]
      split <;> simp
    have hpos : byteLength w.before + 1 ≤ byteLength (w.before ++ w.name) := by
      have hname := w.isName.pos
      rw [byteLength_append]
      omega
    rw [Spelling.ownName, hbinding, if_neg hplain]
    simp only [Spelling.nameSpan, Span.of, byteLength_append] at hpos ⊢
    rw [Nat.max_eq_right (Nat.le_add_right _ _)]

theorem valueAt_ne_presence (d : Document) (text : String) (r : Span) :
    valueAt d text r ≠ .presence := by
  rw [valueAt.eq_def]
  split
  · exact Value.noConfusion
  · split <;> exact Value.noConfusion
  · exact Value.noConfusion

/-- What is assigned, and where, by how the attribute is written. -/
theorem assigned?_spelling (d : Document) {text : List Char} (w : Spelling text) {p : Pending}
    (hname : p.name = w.nameSpan) (hvalue : p.value = w.value?) {stop : Nat}
    (hstop : stop = byteLength (w.before ++ w.name ++ w.lead ++ w.value)) :
    (assigned? d d.text p w.quote stop).map (·.2) = w.assigned? ∧
      ((assigned? d d.text p w.quote stop).map (·.1) = some .presence ↔ w.quote = .absent) := by
  have hbare : p.name.stop = byteLength (w.before ++ w.name) := by
    rw [hname]
    refine Nat.max_eq_right ?_
    rw [byteLength_append]
    exact Nat.le_add_right _ _
  have hvalueAt : ∀ r, some (valueAt d d.text r) ≠ some .presence := fun r h =>
    valueAt_ne_presence d d.text r (Option.some.inj h)
  have htext : some (Value.text "") ≠ some .presence := fun h =>
    Value.noConfusion (Option.some.inj h)
  obtain ⟨name, value⟩ := p
  subst hvalue hstop
  rw [Spelling.assigned?]
  cases w.quote with
  | absent => exact ⟨congrArg (fun stop => some (Span.empty stop)) hbare, iff_of_true rfl rfl⟩
  | unquoted =>
    cases w.value? with
    | none => exact ⟨rfl, iff_of_false (Option.some_ne_none _).symm Quote.noConfusion⟩
    | some r => exact ⟨rfl, iff_of_false (hvalueAt r) Quote.noConfusion⟩
  | single | double =>
    cases w.value? with
    | none => exact ⟨rfl, iff_of_false htext Quote.noConfusion⟩
    | some r => exact ⟨rfl, iff_of_false (hvalueAt r) Quote.noConfusion⟩

/-- Every attribute of a tree is written in its text. -/
theorem exists_spelling {d : Document} {a : Attribute} (ha : a ∈ (Tree.ofDocument d).attributes) :
    ∃ w : Spelling d.text.toList, a.SpelledAs w := by
  obtain ⟨e, he, hattribute⟩ := Tree.exists_ended ha
  obtain ⟨w, hquote, hname, hvalue, hstop⟩ := spelled_of_mem_ended he
  have hassigned := Ended.assigned?_eq hattribute
  rw [hquote] at hassigned
  obtain ⟨hspan, hpresence⟩ := assigned?_spelling d w hname hvalue hstop
  rw [← hassigned, Option.map_map] at hspan hpresence
  rw [Ended.attribute?, hname, splitModifier_spelling, hquote, hstop, w.shape.attributeStop,
    ← byteLength_append] at hattribute
  dsimp only at hattribute
  split at hattribute
  · exact absurd hattribute (Option.some_ne_none _).symm
  have hsame := Option.some.inj hattribute
  have hbinding : a.binding = w.binding := (congrArg Attribute.binding hsame).symm
  have hwhole : a.whole = w.whole := (congrArg Attribute.whole hsame).symm
  have hnameSpan : a.nameSpan = w.ownName := (congrArg Attribute.nameSpan hsame).symm
  exact ⟨w, hbinding, hwhole, hnameSpan, hspan, hpresence⟩

/-! ## Exact ranges -/

/-- An attribute without an equals sign reaches over blanks behind its name. -/
def Attribute.TrailsBlanks (a : Attribute) : Prop := a.IsBare ∧ a.nameSpan.stop < a.whole.stop

/-- A blank begins at the offset. -/
def BlankBehind (text : List Char) (offset : Nat) : Prop :=
  ∃ front c rest, text = front ++ c :: rest ∧ byteLength front = offset ∧ isMarkupBlank c = true

/-- A blank ends at the offset. -/
def BlankBefore (text : List Char) (offset : Nat) : Prop :=
  ∃ front c rest, text = front ++ [c] ++ rest ∧ byteLength (front ++ [c]) = offset ∧
    isMarkupBlank c = true

section Exact

variable {text : List Char} {w : Spelling text} {a b : Attribute} {c : Char}

/-- Two cuts of a text at one offset are the same. -/
theorem append_inj_of_byteLength {front front' rest rest' : List Char}
    (h : front ++ rest = front' ++ rest') (hlength : byteLength front = byteLength front') :
    front = front' ∧ rest = rest' := by
  obtain ⟨piece, rfl, rfl⟩ := exists_append_of_byteLength_le h (Nat.le_of_eq hlength)
  rw [byteLength_append] at hlength
  obtain rfl : piece = [] := eq_nil_of_byteLength_eq_zero (by omega)
  exact ⟨(List.append_nil front).symm, rfl⟩

theorem IsAttributeName.not_blank {name : List Char} (h : IsAttributeName name) :
    ∀ c ∈ name, isMarkupBlank c = false := by
  have hends : ∀ {c}, endsName c = false → isMarkupBlank c = false := fun h =>
    (Bool.or_eq_false_iff.mp h).2
  cases name with
  | nil => exact List.forall_mem_nil _
  | cons c cs =>
    refine List.forall_mem_cons.mpr ⟨hends h.1, fun x hx => hends ?_⟩
    exact (Bool.or_eq_false_iff.mp (h.2 x hx)).2

theorem IsUnquoted.not_blank {value : List Char} (h : IsUnquoted value) :
    ∀ c ∈ value, isMarkupBlank c = false := by
  cases value with
  | nil => exact List.forall_mem_nil _
  | cons c cs => exact fun x hx => (Bool.or_eq_false_iff.mp (h.2.2 x hx)).1

/-- Behind the name of an attribute without an equals sign are blanks, and then none. -/
theorem Shape.of_absent {lead value closing rest : List Char}
    (h : Shape .absent lead value closing rest) : value = [] ∧ closing = [] ∧ AllBlank lead ∧
      ∀ c ∈ rest.head?, isMarkupBlank c = false ∧ c ≠ '=' := by
  cases h with
  | bare hblanks hrest => exact ⟨rfl, rfl, hblanks, hrest⟩

/-- Only an attribute without an equals sign can end with a blank and have something behind it
other than a bracket. -/
theorem Spelling.blank_last (w : Spelling text) {front : List Char}
    (hlast : w.before ++ w.name ++ w.lead ++ w.value ++ w.closing = front ++ [c])
    (hc : isMarkupBlank c = true) :
    w.quote = .absent ∧ w.lead ≠ [] ∨ w.rest.head? = some '>' ∨ w.rest = [] := by
  obtain ⟨before, name, lead, value, closing, rest, quote, htext, hname, hshape⟩ := w
  have hnot : ∀ xs cs : List Char, cs ≠ [] → (∀ x ∈ cs, isMarkupBlank x = false) →
      xs ++ cs ≠ front ++ [c] := by
    intro xs cs hcs hblank heq
    have hgetLast := congrArg List.getLast? heq
    rw [List.getLast?_append_of_ne_nil _ hcs, List.getLast?_concat] at hgetLast
    exact absurd hc (Bool.eq_false_iff.mp (hblank c (List.mem_of_getLast? hgetLast)))
  dsimp only at hlast ⊢
  cases hshape with
  | bare =>
    refine .inl ⟨rfl, ?_⟩
    rintro rfl
    rw [List.append_nil, List.append_nil, List.append_nil] at hlast
    exact hnot before name hname.ne_nil hname.not_blank hlast
  | double =>
    have hblank : ∀ x ∈ ['"'], isMarkupBlank x = false := List.forall_mem_singleton.mpr rfl
    exact absurd hlast (hnot _ ['"'] (List.cons_ne_nil _ _) hblank)
  | single =>
    have hblank : ∀ x ∈ ['\x27'], isMarkupBlank x = false := List.forall_mem_singleton.mpr rfl
    exact absurd hlast (hnot _ ['\x27'] (List.cons_ne_nil _ _) hblank)
  | unquoted _ hvalue =>
    rw [List.append_nil] at hlast
    exact absurd hlast (hnot _ value hvalue.ne_nil hvalue.not_blank)
  | missing _ hrest => exact .inr (.inl hrest)
  | unterminated => exact .inr (.inr rfl)

namespace Attribute.SpelledAs

theorem whole_stop (h : a.SpelledAs w) :
    a.whole.stop = byteLength (w.before ++ w.name ++ w.lead ++ w.value ++ w.closing) := by
  rw [h.whole]
  refine Nat.max_eq_right ?_
  simp only [byteLength_append]
  omega

theorem nameSpan_stop (h : a.SpelledAs w) : a.nameSpan.stop = byteLength (w.before ++ w.name) := by
  have hname := w.isName.pos
  rw [h.nameSpan]
  refine Nat.max_eq_right ?_
  rw [byteLength_append]
  split <;> omega

/-- A bare attribute is its name and the blanks behind that. -/
theorem of_bare (h : a.SpelledAs w) (hbare : a.IsBare) : w.value = [] ∧ w.closing = [] ∧
    AllBlank w.lead ∧ ∀ c ∈ w.rest.head?, isMarkupBlank c = false ∧ c ≠ '=' := by
  have hshape := w.shape
  rw [h.bare.mp hbare] at hshape
  exact hshape.of_absent

theorem whole_stop_of_bare (h : a.SpelledAs w) (hbare : a.IsBare) :
    a.whole.stop = a.nameSpan.stop + byteLength w.lead := by
  obtain ⟨hvalue, hclosing, -⟩ := h.of_bare hbare
  rw [h.whole_stop, h.nameSpan_stop, hvalue, hclosing, List.append_nil, List.append_nil,
    byteLength_append _ w.lead]

theorem trailsBlanks_iff (h : a.SpelledAs w) :
    a.TrailsBlanks ↔ w.quote = .absent ∧ w.lead ≠ [] := by
  rw [TrailsBlanks, h.bare]
  refine and_congr_right fun hquote => ?_
  have hstop := h.whole_stop_of_bare (h.bare.mpr hquote)
  constructor
  · rintro hlt hnil
    rw [hnil, byteLength_nil] at hstop
    omega
  · intro hlead
    have hpos : byteLength w.lead ≠ 0 := fun h => hlead (eq_nil_of_byteLength_eq_zero h)
    omega

/-- The range ends with the name, the value or the closing quote, unless blanks are in it behind
the name. -/
theorem exact_iff (h : a.SpelledAs w) : a.whole.stop = w.contentStop ↔ ¬ a.TrailsBlanks := by
  rw [h.trailsBlanks_iff, Spelling.contentStop]
  split
  · next hquote =>
    rw [h.whole_stop_of_bare (h.bare.mpr hquote), h.nameSpan_stop, Nat.add_eq_left,
      not_and_not_right]
    exact ⟨fun hzero _ => eq_nil_of_byteLength_eq_zero hzero, fun hnil => by rw [hnil hquote]; rfl⟩
  · next hquote => exact iff_of_true h.whole_stop fun hblanks => hquote hblanks.1

/-- Blanks are in the range where one stands directly behind the name. -/
theorem trailsBlanks_iff_behind (h : a.SpelledAs w) (hbare : a.IsBare) :
    a.TrailsBlanks ↔ BlankBehind text a.nameSpan.stop := by
  obtain ⟨hvalue, hclosing, hblanks, hrest⟩ := h.of_bare hbare
  have htext := w.text_eq
  rw [hvalue, hclosing, List.append_nil, List.append_nil] at htext
  rw [h.trailsBlanks_iff, h.nameSpan_stop, and_iff_right (h.bare.mp hbare)]
  constructor
  · intro hlead
    obtain ⟨c, cs, hcons⟩ := List.exists_cons_of_ne_nil hlead
    rw [hcons] at hblanks htext
    exact ⟨w.before ++ w.name, c, cs ++ w.rest, htext.trans (List.append_assoc _ _ _), rfl,
      hblanks c List.mem_cons_self⟩
  · rintro ⟨front, c, rest, hsplit, hfront, hc⟩ hnil
    rw [hnil, List.append_nil] at htext
    obtain ⟨-, hsame⟩ := append_inj_of_byteLength (htext.symm.trans hsplit) hfront.symm
    exact absurd hc (Bool.eq_false_iff.mp (hrest c (by rw [hsame]; rfl)).1)

/-- The text of the whole has a blank in it, when there is no equals sign, only where it trails. -/
theorem exists_blank_iff {text : String} {w : Spelling text.toList} (h : a.SpelledAs w)
    (hbare : a.IsBare) :
    (∃ c ∈ (a.whole.sliceD text).toList, isMarkupBlank c = true) ↔ a.TrailsBlanks := by
  obtain ⟨hvalue, hclosing, hblanks, -⟩ := h.of_bare hbare
  have hslice : (a.whole.sliceD text).toList = w.name ++ w.lead := by
    have hspan : a.whole =
        Span.of (byteLength w.before) (byteLength w.before + byteLength (w.name ++ w.lead)) := by
      rw [h.whole, Spelling.whole, hvalue, hclosing, List.append_nil, List.append_nil,
        List.append_assoc, byteLength_append]
    have htext : text.toList = w.before ++ (w.name ++ w.lead ++ w.rest) := by
      refine w.text_eq.trans ?_
      rw [hvalue, hclosing]
      simp only [List.append_assoc, List.append_nil]
    rw [hspan, sliceD_of_toList htext, String.toList_ofList]
  rw [hslice, h.trailsBlanks_iff, and_iff_right (h.bare.mp hbare)]
  constructor
  · rintro ⟨c, hmem, hc⟩ hnil
    rw [hnil, List.append_nil] at hmem
    exact absurd hc (Bool.eq_false_iff.mp (w.isName.not_blank c hmem))
  · intro hlead
    obtain ⟨c, cs, hcons⟩ := List.exists_cons_of_ne_nil hlead
    rw [hcons] at hblanks ⊢
    exact ⟨c, List.mem_append_right _ List.mem_cons_self, hblanks c List.mem_cons_self⟩

/-- Where one attribute ends at a blank and another begins, the blank is one that the first
should not have. -/
theorem trailsBlanks_of_stop_eq {w' : Spelling text} (ha : a.SpelledAs w) (hb : b.SpelledAs w')
    (hstop : a.whole.stop = b.whole.start) (hblank : BlankBefore text b.whole.start) :
    a.TrailsBlanks := by
  obtain ⟨front, c, rest, hsplit, hfront, hc⟩ := hblank
  have hstart : b.whole.start = byteLength w'.before := by rw [hb.whole]; rfl
  rw [ha.whole_stop] at hstop
  have hlast := (append_inj_of_byteLength (w.text_eq.symm.trans hsplit) (hstop.trans hfront.symm)).1
  have hrest : w.rest = w'.name ++ (w'.lead ++ w'.value ++ w'.closing ++ w'.rest) := by
    have htext := w'.text_eq
    simp only [List.append_assoc] at htext ⊢
    exact (append_inj_of_byteLength (w.text_eq.symm.trans htext) (hstop.trans hstart)).2
  have hname := w'.isName
  rw [ha.trailsBlanks_iff]
  rcases w.blank_last hlast hc with habsent | hbracket | hnil
  · exact habsent
  · rw [hrest] at hbracket
    cases hfull : w'.name with
    | nil => exact absurd hfull hname.ne_nil
    | cons x xs =>
      rw [hfull] at hname hbracket
      rw [Option.some.inj hbracket] at hname
      exact absurd hname.1 (by decide)
  · rw [hrest] at hnil
    exact absurd (List.append_eq_nil_iff.mp hnil).1 hname.ne_nil

end Attribute.SpelledAs

/-- Of two attributes one is behind the other. -/
theorem attributes_apart {d : Document} (ha : a ∈ (Tree.ofDocument d).attributes)
    (hb : b ∈ (Tree.ofDocument d).attributes) (hne : a ≠ b) :
    a.whole.stop ≤ b.whole.start ∨ b.whole.stop ≤ a.whole.start := by
  have hpairs := (Tree.rootsNested_ofDocument d).pairwise_attributes
  obtain ⟨i, hi, rfl⟩ := List.getElem_of_mem ha
  obtain ⟨j, hj, rfl⟩ := List.getElem_of_mem hb
  rcases Nat.lt_trichotomy i j with hlt | rfl | hlt
  · exact .inl (List.pairwise_iff_getElem.mp hpairs i j hi hj hlt)
  · exact absurd rfl hne
  · exact .inr (List.pairwise_iff_getElem.mp hpairs j i hj hi hlt)

/-- A cursor inside the name of an attribute with a blank in front of it touches another attribute
only where that one has this blank. -/
theorem touches_iff_trailsBlanks {d : Document} (ha : a ∈ (Tree.ofDocument d).attributes)
    (hb : b ∈ (Tree.ofDocument d).attributes) (hne : a ≠ b)
    (hblank : BlankBefore d.text.toList b.whole.start) {offset : Nat}
    (hoffset : b.nameSpan.contains offset = true) :
    a.whole.touches offset = true ↔ a.TrailsBlanks ∧ a.whole.stop = offset := by
  obtain ⟨w, hspelled⟩ := exists_spelling ha
  obtain ⟨w', hspelled'⟩ := exists_spelling hb
  have hwhole := ((Tree.rootsNested_ofDocument d).ordered_of_mem ha).whole_le
  have hname : b.whole.start ≤ b.nameSpan.start ∧ b.nameSpan.stop ≤ b.whole.stop := by
    rw [hspelled'.whole_stop, hspelled'.nameSpan_stop, hspelled'.whole, hspelled'.nameSpan]
    refine ⟨Nat.le_add_right _ _, ?_⟩
    simp only [byteLength_append]
    omega
  rw [Span.contains_iff] at hoffset
  rw [Span.touches_iff]
  constructor
  · rintro ⟨hstart, hstop⟩
    rcases attributes_apart ha hb hne with hle | hle
    · have hmeet : a.whole.stop = b.whole.start := by omega
      exact ⟨hspelled.trailsBlanks_of_stop_eq hspelled' hmeet hblank, by omega⟩
    · omega
  · rintro ⟨-, rfl⟩
    exact ⟨hwhole, Nat.le_refl _⟩

end Exact

/-- The ranges of the attributes of a tree, as the text has them.

Each attribute is written somewhere in the text, and its ranges are those of its parts there.  That
of the whole is exact unless the attribute, having no equals sign, trails blanks: a blank
stands directly behind its name.  Only then is there a blank in it without an equals sign, and a
cursor in the name of one attribute, behind a blank, touches another. -/
structure Tree.ExactRanges (t : Tree) (text : String) : Prop where
  spelled : ∀ a ∈ t.attributes, ∃ w : Spelling text.toList, a.SpelledAs w ∧
    (a.whole.stop = w.contentStop ↔ ¬ a.TrailsBlanks)
  behind : ∀ a ∈ t.attributes, a.IsBare →
    (a.TrailsBlanks ↔ BlankBehind text.toList a.nameSpan.stop)
  blank : ∀ a ∈ t.attributes, a.IsBare →
    ((∃ c ∈ (a.whole.sliceD text).toList, isMarkupBlank c = true) ↔ a.TrailsBlanks)
  apart : ∀ a ∈ t.attributes, ∀ b ∈ t.attributes, a ≠ b →
    BlankBefore text.toList b.whole.start → ∀ offset, b.nameSpan.contains offset = true →
      (a.whole.touches offset = true ↔ a.TrailsBlanks ∧ a.whole.stop = offset)

theorem Tree.exactRanges_ofDocument (d : Document) : (Tree.ofDocument d).ExactRanges d.text := by
  refine ⟨?_, ?_, ?_, fun a ha b hb hne hblank _ => touches_iff_trailsBlanks ha hb hne hblank⟩
  · intro a ha
    obtain ⟨w, hspelled⟩ := exists_spelling ha
    exact ⟨w, hspelled, hspelled.exact_iff⟩
  · intro a ha hbare
    obtain ⟨w, hspelled⟩ := exists_spelling ha
    exact hspelled.trailsBlanks_iff_behind hbare
  · intro a ha hbare
    obtain ⟨w, hspelled⟩ := exists_spelling ha
    exact hspelled.exists_blank_iff hbare

/-- The range of `a` has the blank behind it, and a cursor in `b` touches it. -/
theorem whole_reaches_next_attribute :
    let d := textDocument "<p a b>"
    ∃ a ∈ (Tree.ofDocument d).attributes, ∃ b ∈ (Tree.ofDocument d).attributes, a ≠ b ∧
      a.IsBare ∧ a.nameSpan = ⟨3, 4⟩ ∧ a.whole = ⟨3, 5⟩ ∧ a.whole.sliceD d.text = "a " ∧
      BlankBefore d.text.toList b.whole.start ∧ b.nameSpan.contains 5 = true ∧
      a.whole.touches 5 = true := by
  intro d
  let a : Attribute :=
    { id := 0, node := 0, name := "a", binding := .plain, whole := ⟨3, 5⟩, nameSpan := ⟨3, 4⟩,
      assignment := some { id := 0, owner := 0, value := .presence, span := ⟨4, 4⟩ } }
  let b : Attribute :=
    { id := 1, node := 0, name := "b", binding := .plain, whole := ⟨5, 6⟩, nameSpan := ⟨5, 6⟩,
      assignment := some { id := 1, owner := 1, value := .presence, span := ⟨6, 6⟩ } }
  have hattributes : (Tree.ofDocument d).attributes = [a, b] := by decide +kernel
  rw [hattributes]
  refine ⟨a, List.mem_cons_self, b, List.mem_cons_of_mem _ List.mem_cons_self, by decide, rfl, rfl,
    rfl, by decide +kernel, ?_, rfl, rfl⟩
  exact ⟨"<p a".toList, ' ', "b>".toList, by decide +kernel, rfl, rfl⟩

end Markup
end Inlay
