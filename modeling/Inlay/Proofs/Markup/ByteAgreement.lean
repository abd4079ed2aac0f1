import Inlay.Proofs.Markup.ByteScanner
import Inlay.Proofs.Markup.TokenOrder

/-!
# The scanner of bytes and the states

The scanner of bytes does what the states do: no access of it fails, and its tokens are those of the
characters (`scanBytes_eq`).  It is a simulation.  `State.Agrees` is what the registers hold when a
state is at a character, and the first byte of the character takes both to the next state and to
the same tokens.  The other bytes of the character, if it has more, are none of ASCII, and
the modes in which they are read pass over such bytes.  Only the end of a comment is read in
one piece by the bytes and in three by the states.
-/

namespace Inlay
namespace Markup

/-! ## Agreement with the states -/

/-- The name of the tag opened last is in its place. -/
def Registers.Named (r : Registers) (input : List UInt8) (name : List Char) : Prop :=
  bytesIn? input r.openName = some (encode name)

/-- The name whose end tag ends the raw text is in its place. -/
def Registers.RawNamed (r : Registers) (input : List UInt8) (name : List Char) : Prop :=
  isRawTextTag (String.ofList name) = true ∧
    ∃ place, r.rawName = some place ∧ bytesIn? input place = some (encode name)

/-- What the registers hold in a state, behind the characters in `front`.  The end of a comment is
read in one piece, so there is no mode for being inside of it. -/
def State.Agrees (s : State) (input : List UInt8) (front : List Char) (r : Registers) : Prop :=
  match s with
  | .text start => r.mode = .text ∧ r.sectionStart = start
  | .tagOpen start => r.mode = .beforeTagName ∧ r.sectionStart = start ∧ r.tagStart = start
  | .tagName start name =>
    r.mode = .tagName ∧ r.sectionStart = start ∧
      ∃ before, front = before ++ name ∧ byteLength before = start
  | .selfClosing name => r.mode = .selfClosingTag ∧ r.Named input name
  | .endTagOpen tag => r.mode = .beforeEndTagName ∧ r.tagStart = tag
  | .endTagName tag start => r.mode = .endTagName ∧ r.tagStart = tag ∧ r.sectionStart = start
  | .afterEndTagName tag start stop =>
    r.mode = .afterEndTagName ∧ r.tagStart = tag ∧ r.endTagName = { start := start, stop := stop }
  | .beforeAttribute name => r.mode = .beforeAttribute ∧ r.Named input name
  | .attributeName name start =>
    r.mode = .attributeName ∧ r.sectionStart = start ∧ r.Named input name
  | .afterAttribute name => r.mode = .afterAttribute ∧ r.Named input name
  | .beforeValue name => r.mode = .beforeValue ∧ r.Named input name
  | .doubleQuoted name start => r.mode = .doubleQuoted ∧ r.sectionStart = start ∧ r.Named input name
  | .singleQuoted name start => r.mode = .singleQuoted ∧ r.sectionStart = start ∧ r.Named input name
  | .unquoted name start => r.mode = .unquoted ∧ r.sectionStart = start ∧ r.Named input name
  | .declarationOpen => r.mode = .beforeDeclaration
  | .declaration => r.mode = .declaration ∨ r.mode = .instruction
  | .commentOpen => r.mode = .beforeComment
  | .comment start => r.mode = .comment ∧ r.sectionStart = start
  | .commentDash | .commentBracket => False
  | .rawText name start => r.mode = .rawText ∧ r.sectionStart = start ∧ r.RawNamed input name

/-- A byte has been read alone, to the tokens and the state of a step. -/
def Simulates (input : List UInt8) (front : List Char) (next : State × List Token)
    (handled : Option Handled) : Prop :=
  ∃ r, handled = some { registers := r, tokens := next.2 } ∧ next.1.Agrees input front r

section Steps

variable {input : List UInt8} {front rest : List Char} {r : Registers} {b : UInt8} {c : Char}
  {name : List Char} {start tag stop index : Nat}

theorem isTagStartByte_eq (h : LeadByte b c) : isTagStartByte b = isTagStart c := by
  have hle : ∀ k : Char, k.toNat < 128 → decide (k.toUInt8 ≤ b) = decide (k ≤ c) := fun k hk =>
    decide_eq_decide.mpr (h.le_iff hk)
  have hge : ∀ k : Char, k.toNat < 128 → decide (b ≤ k.toUInt8) = decide (c ≤ k) := fun k hk =>
    decide_eq_decide.mpr (h.ge_iff hk)
  rw [isTagStartByte, isTagStart, hle 'a' (by decide), hle 'A' (by decide), hge 'z' (by decide),
    hge 'Z' (by decide)]

theorem endsNameByte_eq (h : LeadByte b c) : endsNameByte b = endsName c := by
  simp (disch := decide) only [endsNameByte, endsName, h.beq_eq, h.isBlankByte_eq]

namespace Simulates

theorem behind {next : State × List Token} {handled : Option Handled}
    (h : Simulates input front next handled) (ts : List Token) :
    Simulates input front (next.1, ts ++ next.2) (handled.map (.behind ts)) := by
  obtain ⟨r, rfl, hagrees⟩ := h
  exact ⟨r, rfl, hagrees⟩

end Simulates

theorem simulates_inText (hb : LeadByte b c) (hmode : r.mode = .text) (hstart : r.sectionStart = start) :
    Simulates input front (inText start index c) (some (r.inText index b)) := by
  simp (disch := decide) only [inText, Registers.inText, hb.beq_eq]
  subst hstart
  split
  · exact ⟨_, rfl, rfl, rfl, rfl⟩
  · exact ⟨r, rfl, hmode, rfl⟩

theorem agrees_content (hstart : r.sectionStart = start) (hname : r.Named input name) :
    ∃ r', r.enterContent? input = some r' ∧
      ∀ front, (content name start).Agrees input front r' := by
  rw [Registers.enterContent?, hname, Option.map_some, fromUTF8?_encode, Option.getD_some, content]
  split
  · next hraw => exact ⟨_, rfl, fun _ => ⟨rfl, hstart, hraw, _, rfl, hname⟩⟩
  · exact ⟨_, rfl, fun _ => ⟨rfl, hstart⟩⟩

theorem simulates_inBeforeAttribute (hb : LeadByte b c) (hmode : r.mode = .beforeAttribute)
    (hname : r.Named input name) :
    Simulates input front (inBeforeAttribute name index c) (r.beforeAttribute? input index b) := by
  simp (disch := decide) only [inBeforeAttribute, Registers.beforeAttribute?, hb.beq_eq,
    hb.isBlankByte_eq]
  split
  · obtain ⟨r', henter, hagrees⟩ :=
      agrees_content (r := { r with sectionStart := index + 1 }) rfl hname
    rw [henter]
    exact ⟨r', rfl, hagrees front⟩
  split
  · exact ⟨_, rfl, rfl, hname⟩
  split
  · exact ⟨r, rfl, hmode, hname⟩
  · exact ⟨_, rfl, rfl, rfl, hname⟩

theorem simulates_inTagOpen (hb : LeadByte b c) (hfront : byteLength front = index)
    (hstart : r.sectionStart = start) (htag : r.tagStart = start) :
    Simulates input (front ++ [c]) (inTagOpen start index c) (some (r.beforeTagName index b)) := by
  simp (disch := decide) only [inTagOpen, Registers.beforeTagName, hb.beq_eq,
    isTagStartByte_eq hb]
  split
  · exact ⟨_, rfl, rfl⟩
  split
  · exact ⟨_, rfl, .inr rfl⟩
  split
  · exact ⟨_, rfl, rfl, rfl, front, rfl, hfront⟩
  split
  · exact ⟨_, rfl, rfl, htag⟩
  · exact simulates_inText (r := { r with mode := .text }) hb rfl hstart

theorem bytesIn?_encode (front mid back : List Char) :
    bytesIn? (encode (front ++ mid ++ back))
        { start := byteLength front, stop := byteLength (front ++ mid) } = some (encode mid) := by
  rw [bytesIn?, if_pos, Span.length]
  · simp only [encode_append, byteLength_append, Nat.add_sub_cancel_left, List.append_assoc]
    rw [← length_encode front, List.drop_left, ← length_encode mid, List.take_left]
  · simp only [length_encode, byteLength_append]
    omega

theorem simulates_inTagName (hb : LeadByte b c) (hinput : input = encode (front ++ rest))
    (hfront : byteLength front = index) (hmode : r.mode = .tagName)
    (hstart : r.sectionStart = start)
    (hname : ∃ before, front = before ++ name ∧ byteLength before = start) :
    Simulates input (front ++ [c]) (inTagName start name index c) (r.inTagName? input index b) := by
  obtain ⟨before, rfl, hbefore⟩ := hname
  subst hstart hfront
  simp only [inTagName, Registers.inTagName?, endsNameByte_eq hb]
  split
  · refine .behind ?_ _
    apply simulates_inBeforeAttribute hb
    · rfl
    · rw [hinput, Registers.Named, ← hbefore]
      exact bytesIn?_encode before name rest
  · exact ⟨r, rfl, hmode, rfl, before, List.append_assoc before name [c], hbefore⟩

theorem simulates_inSelfClosing (hb : LeadByte b c) (hmode : r.mode = .selfClosingTag)
    (hname : r.Named input name) :
    Simulates input front (inSelfClosing name index c) (r.inSelfClosingTag? input index b) := by
  simp (disch := decide) only [inSelfClosing, Registers.inSelfClosingTag?, hb.beq_eq,
    hb.isBlankByte_eq]
  split
  · exact ⟨_, rfl, rfl, rfl⟩
  split
  · exact ⟨r, rfl, hmode, hname⟩
  · exact simulates_inBeforeAttribute (r := { r with mode := .beforeAttribute }) hb rfl hname

theorem simulates_inEndTagOpen (hb : LeadByte b c) (hmode : r.mode = .beforeEndTagName)
    (htag : r.tagStart = tag) :
    Simulates input front (inEndTagOpen tag index c) (some (r.beforeEndTagName index b)) := by
  simp (disch := decide) only [inEndTagOpen, Registers.beforeEndTagName, hb.beq_eq,
    hb.isBlankByte_eq]
  split
  · exact ⟨r, rfl, hmode, htag⟩
  split
  · exact ⟨_, rfl, rfl, rfl⟩
  · exact ⟨_, rfl, rfl, htag, rfl⟩

theorem simulates_inEndTagName (hb : LeadByte b c) (hmode : r.mode = .endTagName)
    (htag : r.tagStart = tag) (hstart : r.sectionStart = start) :
    Simulates input front (inEndTagName tag start index c) (some (r.inEndTagName index b)) := by
  subst htag hstart
  simp (disch := decide) only [inEndTagName, Registers.inEndTagName, hb.beq_eq,
    hb.isBlankByte_eq]
  cases c == '>' with
  | true => exact ⟨_, rfl, rfl, rfl⟩
  | false =>
    cases isMarkupBlank c with
    | true => exact ⟨_, rfl, rfl, rfl, rfl⟩
    | false => exact ⟨r, rfl, hmode, rfl, rfl⟩

theorem simulates_inAfterEndTagName (hb : LeadByte b c) (hmode : r.mode = .afterEndTagName)
    (htag : r.tagStart = tag) (hname : r.endTagName = { start := start, stop := stop }) :
    Simulates input front (inAfterEndTagName tag start stop index c)
      (some (r.inAfterEndTagName index b)) := by
  simp (disch := decide) only [inAfterEndTagName, Registers.inAfterEndTagName, hb.beq_eq]
  split
  · refine ⟨{ r with mode := .text, sectionStart := index + 1 }, ?_, rfl, rfl⟩
    rw [Registers.closeTag, htag, hname]
  · exact ⟨r, rfl, hmode, htag, hname⟩

theorem simulates_inAfterAttribute (hb : LeadByte b c) (hmode : r.mode = .afterAttribute)
    (hname : r.Named input name) (done : List Token) :
    Simulates input front (inAfterAttribute done name index c)
      ((r.inAfterAttribute? input index b).map (.behind done)) := by
  simp (disch := decide) only [inAfterAttribute, Registers.inAfterAttribute?, hb.beq_eq,
    hb.isBlankByte_eq]
  split
  · exact ⟨_, congrArg some (Handled.behind_silent done _), rfl, hname⟩
  split
  · rw [Option.map_map, Handled.behind_comp_behind]
    refine .behind ?_ _
    exact simulates_inBeforeAttribute (r := { r with mode := .beforeAttribute }) hb rfl hname
  split
  · exact ⟨r, congrArg some (Handled.behind_silent done r), hmode, hname⟩
  · exact ⟨_, rfl, rfl, rfl, hname⟩

theorem simulates_inAttributeName (hb : LeadByte b c) (hmode : r.mode = .attributeName)
    (hstart : r.sectionStart = start) (hname : r.Named input name) :
    Simulates input front (inAttributeName name start index c)
      (r.inAttributeName? input index b) := by
  subst hstart
  simp (disch := decide) only [inAttributeName, Registers.inAttributeName?, hb.beq_eq,
    endsNameByte_eq hb]
  split
  · apply simulates_inAfterAttribute hb
    · rfl
    · exact hname
  · exact ⟨r, rfl, hmode, rfl, hname⟩

theorem simulates_inUnquoted (hb : LeadByte b c) (hmode : r.mode = .unquoted)
    (hstart : r.sectionStart = start) (hname : r.Named input name) :
    Simulates input front (inUnquoted name start index c) (r.inUnquoted? input index b) := by
  subst hstart
  simp (disch := decide) only [inUnquoted, Registers.inUnquoted?, hb.beq_eq, hb.isBlankByte_eq]
  split
  · refine .behind ?_ _
    apply simulates_inBeforeAttribute hb
    · rfl
    · exact hname
  · exact ⟨r, rfl, hmode, rfl, hname⟩

theorem simulates_inBeforeValue (hb : LeadByte b c) (hmode : r.mode = .beforeValue)
    (hname : r.Named input name) :
    Simulates input front (inBeforeValue name index c) (r.inBeforeValue? input index b) := by
  simp (disch := decide) only [inBeforeValue, Registers.inBeforeValue?, hb.beq_eq,
    hb.isBlankByte_eq]
  split
  · exact ⟨_, rfl, rfl, rfl, hname⟩
  split
  · exact ⟨_, rfl, rfl, rfl, hname⟩
  split
  · exact ⟨r, rfl, hmode, hname⟩
  · apply simulates_inUnquoted hb
    · rfl
    · rfl
    · exact hname

theorem simulates_inDeclaration (hb : LeadByte b c)
    (hmode : r.mode = .declaration ∨ r.mode = .instruction) :
    Simulates input front (inDeclaration index c) (some (r.inDeclaration index b)) := by
  simp (disch := decide) only [inDeclaration, Registers.inDeclaration, hb.beq_eq]
  split
  · exact ⟨_, rfl, rfl, rfl⟩
  · exact ⟨r, rfl, hmode⟩

/-! ### Looking ahead -/

theorem endsComment?_append (xs ys : List UInt8) (b : UInt8) :
    endsComment? (xs ++ b :: ys) xs.length =
      some (['-'.toUInt8, '>'.toUInt8].isPrefixOf ys) := by
  cases ys with
  | nil => simp [endsComment?]
  | cons y ys =>
    cases ys with
    | nil => simp [endsComment?, List.isPrefixOf]
    | cons z ys =>
      have hy : (xs ++ b :: y :: z :: ys)[xs.length + 1]? = some y := by simp
      have hz : (xs ++ b :: y :: z :: ys)[xs.length + 2]? = some z := by simp
      have hlength : xs.length + 2 < (xs ++ b :: y :: z :: ys).length := by simp
      rw [endsComment?, if_pos hlength, hy, hz]
      show (if y == '-'.toUInt8 then some (z == '>'.toUInt8) else some false) =
        some ('-'.toUInt8 == y && ('>'.toUInt8 == z && true))
      rw [BEq.comm (a := '-'.toUInt8), BEq.comm (a := '>'.toUInt8), Bool.and_true]
      cases y == '-'.toUInt8 <;> rfl

/-- Where the comment does not end, one byte is read. -/
theorem simulates_inComment (hb : LeadByte b c) (hmode : r.mode = .comment)
    (hstart : r.sectionStart = start) (hinput : input = encode (front ++ c :: rest))
    (hfront : byteLength front = index) (hends : ¬ (c = '-' ∧ ['-', '>'] <+: rest)) :
    Simulates input (front ++ [c]) (inComment start index c rest) (r.inComment? input index b) := by
  subst hstart
  rw [inComment_eq, if_neg hends, Registers.inComment?, hb.beq_eq (by decide)]
  by_cases hc : c = '-'
  · subst hc
    have hascii : ∀ x ∈ ['-', '>'], x.toNat < 128 :=
      List.forall_mem_cons.mpr ⟨by decide, List.forall_mem_singleton.mpr (by decide)⟩
    have hahead : endsComment? input index = some (['-', '>'].isPrefixOf rest) := by
      rw [hinput, ← hfront, ← length_encode, ← isPrefixOf_encode hascii, encode_append]
      exact endsComment?_append _ _ _
    have hnot : ['-', '>'].isPrefixOf rest = false := by
      rw [← Bool.not_eq_true, List.isPrefixOf_iff_prefix]
      exact fun h => hends ⟨rfl, h⟩
    rw [hahead, hnot]
    exact ⟨r, rfl, hmode, rfl⟩
  · rw [if_neg (mt beq_iff_eq.mp hc)]
    exact ⟨r, rfl, hmode, rfl⟩

theorem inComment?_of_ends {more : List Char}
    (hinput : input = encode (front ++ '-' :: '-' :: '>' :: more)) (hfront : byteLength front = index) :
    r.inComment? input index '-'.toUInt8 =
      some
        { registers := { r with mode := .text, sectionStart := index + 3 }
          tokens := [.comment r.sectionStart index]
          skipped := 2 } := by
  have hahead : endsComment? input index = some true := by
    rw [hinput, ← hfront, ← length_encode, encode_append]
    exact endsComment?_append _ _ _
  rw [Registers.inComment?, if_pos (beq_self_eq_true _), hahead]
  rfl

/-- A cut behind the first bytes. -/
theorem bytesIn?_append (xs ys : List UInt8) (n : Nat) :
    bytesIn? (xs ++ ys) { start := xs.length, stop := xs.length + n } =
      if n ≤ ys.length then some (ys.take n) else none := by
  have hcond : (xs.length ≤ xs.length + n ∧ xs.length + n ≤ (xs ++ ys).length) ↔ n ≤ ys.length := by
    rw [List.length_append]
    omega
  rw [bytesIn?, Span.length, List.drop_left, Nat.add_sub_cancel_left]
  simp only [hcond]

/-- Behind the slash, the bytes are the end of an end tag where the characters are. -/
theorem endTagAhead_eq (hascii : ∀ x ∈ name, x.toNat < 128) (cs : List Char) :
    ((if name.length ≤ (encode cs).length then some ((encode cs).take name.length) else none).any
        (fun candidate => candidate.map lowerByte == (encode name).map lowerByte) &&
      (encode cs)[name.length]?.all endsNameByte) = endsRawText name ('/' :: cs) := by
  have hchars : endsRawText name ('/' :: cs) =
      ((cs.take name.length).map lowerChar == name.map lowerChar &&
        (cs.drop name.length).head?.all endsName) := by
    rw [endsRawText]
    cases cs.drop name.length <;> rfl
  have hbytes := take_encode_lower_iff hascii cs
  rw [hchars]
  by_cases hlower : (cs.take name.length).map lowerChar = name.map lowerChar
  · have htaken : (cs.take name.length).length = name.length := by
      simpa only [List.length_map] using congrArg List.length hlower
    have hsize : (encode (cs.take name.length)).length = name.length := by
      rw [length_encode, byteLength_of_ascii (ascii_of_map_lowerChar_eq hlower hascii), htaken]
    have hsplit : encode cs = encode (cs.take name.length) ++ encode (cs.drop name.length) := by
      rw [← encode_append, List.take_append_drop]
    have hroom : name.length ≤ (encode cs).length := by
      rw [hsplit, List.length_append]
      omega
    have hend : (encode cs)[name.length]? = (encode (cs.drop name.length))[0]? := by
      rw [hsplit, List.getElem?_append_right (by omega), hsize, Nat.sub_self]
    rw [if_pos hroom, Option.any_some, beq_iff_eq.mpr (hbytes.mpr hlower), beq_iff_eq.mpr hlower,
      hend]
    cases cs.drop name.length with
    | nil => rfl
    | cons c behind =>
      obtain ⟨b, more, hencode, hleads, -, -⟩ := exists_lead c
      rw [encode_cons, hencode]
      exact endsNameByte_eq hleads
  · rw [beq_eq_false_iff_ne.mpr hlower, Bool.false_and]
    split
    · rw [Option.any_some, beq_eq_false_iff_ne.mpr (mt hbytes.mp hlower), Bool.false_and]
    · rfl

/-- The look-ahead for the end of raw text sees the end tag where it stands. -/
theorem endsRawText?_eq (hname : r.RawNamed input name)
    (hinput : input = encode (front ++ '<' :: rest)) (hfront : byteLength front = index) :
    r.endsRawText? input index = some (endsRawText name rest) := by
  obtain ⟨hraw, place, hplace, hbytes⟩ := hname
  have hascii := ascii_of_isRawTextTag hraw
  have hlength : (encode name).length = name.length := by
    rw [length_encode, byteLength_of_ascii hascii]
  rw [Registers.endsRawText?, hplace]
  dsimp only
  rw [hbytes, Option.map_some, hlength]
  congr 1
  have hlt : (encode front ++ ['<'.toUInt8]).length = index + 1 := by
    rw [List.length_append, length_encode, hfront]
    rfl
  have hbehind : input = (encode front ++ ['<'.toUInt8]) ++ encode rest := by
    rw [hinput, encode_append, encode_cons, List.append_assoc]
    rfl
  cases rest with
  | nil =>
    rw [hbehind, List.getElem?_append_right (by omega), hlt, Nat.sub_self]
    rfl
  | cons x cs =>
    obtain ⟨d, more, hencode, hleads, -, hmore⟩ := exists_lead x
    have hnext : input[index + 1]? = some d := by
      rw [hbehind, List.getElem?_append_right (by omega), hlt, Nat.sub_self, encode_cons, hencode]
      rfl
    have hslash : (some d == some '/'.toUInt8) = (x == '/') := hleads.beq_eq (by decide)
    rw [hnext, hslash]
    by_cases hx : x = '/'
    · subst hx
      have htwo : (encode front ++ ['<'.toUInt8, '/'.toUInt8]).length = index + 2 := by
        rw [List.length_append, length_encode, hfront]
        rfl
      have hinput' : input = (encode front ++ ['<'.toUInt8, '/'.toUInt8]) ++ encode cs := by
        rw [hbehind, encode_cons, List.append_assoc, List.append_assoc]
        rfl
      have hcandidate : bytesIn? input { start := index + 2, stop := index + 2 + name.length } =
          if name.length ≤ (encode cs).length then some ((encode cs).take name.length)
          else none := by
        rw [hinput', ← htwo]
        exact bytesIn?_append _ _ _
      have hend : input[index + 2 + name.length]? = (encode cs)[name.length]? := by
        rw [hinput', List.getElem?_append_right (by omega), htwo, Nat.add_sub_cancel_left]
      rw [hcandidate, hend]
      exact endTagAhead_eq hascii cs
    · have hno : endsRawText name (x :: cs) = false := by
        rw [endsRawText.eq_def]
        split
        · next heq => exact absurd (List.cons.inj heq).1 hx
        · rfl
      rw [hno, beq_eq_false_iff_ne.mpr hx]
      rfl

theorem simulates_inRawText (hb : LeadByte b c) (hmode : r.mode = .rawText)
    (hstart : r.sectionStart = start) (hname : r.RawNamed input name)
    (hinput : input = encode (front ++ c :: rest)) (hfront : byteLength front = index) :
    Simulates input (front ++ [c]) (inRawText name start index c rest)
      (r.inRawText? input index b) := by
  subst hstart
  rw [inRawText, Registers.inRawText?, hb.beq_eq (by decide)]
  by_cases hc : c = '<'
  · subst hc
    rw [endsRawText?_eq hname hinput hfront, beq_self_eq_true, Bool.true_and, if_pos rfl,
      Option.map_some]
    split
    · exact ⟨_, rfl, rfl, rfl, rfl⟩
    · exact ⟨r, rfl, hmode, rfl, hname⟩
  · rw [beq_eq_false_iff_ne.mpr hc]
    exact ⟨r, rfl, hmode, rfl, hname⟩

/-! ### All steps -/

theorem simulates_beforeDeclaration {dashed : Mode} {next : State} (hb : LeadByte b c)
    (hnext : next.Agrees input front { r with mode := dashed, sectionStart := index + 1 }) :
    Simulates input front (if c == '-' then (next, []) else inDeclaration index c)
      (some (r.beforeDeclaration index b dashed)) := by
  rw [Registers.beforeDeclaration, hb.beq_eq (by decide)]
  split
  · exact ⟨_, rfl, hnext⟩
  · apply simulates_inDeclaration hb
    exact .inl rfl

theorem simulates_inQuotes {mark : Char} {quote : Quote} {inside : State} (hb : LeadByte b c)
    (hmark : mark.toNat < 128) (hinside : inside.Agrees input front r) (hname : r.Named input name) :
    Simulates input front
      (if c == mark then (.beforeAttribute name, valueSince r.sectionStart quote index)
        else (inside, []))
      (some (r.inQuotes index b mark.toUInt8 quote)) := by
  rw [Registers.inQuotes, hb.beq_eq hmark]
  split
  · exact ⟨_, rfl, rfl, hname⟩
  · exact ⟨r, rfl, hinside⟩

/-- The first byte of a character does what the character does, except where a comment ends. -/
theorem State.Agrees.step {s : State} (h : s.Agrees input front r) (hb : LeadByte b c)
    (hinput : input = encode (front ++ c :: rest)) (hfront : byteLength front = index)
    (hends : ∀ start, s = .comment start → ¬ (c = '-' ∧ ['-', '>'] <+: rest)) :
    Simulates input (front ++ [c]) (step s index c rest) (r.handle? input index b) := by
  rw [Registers.handle?]
  cases s with
  | text start =>
    obtain ⟨hmode, hstart⟩ := h
    rw [hmode]
    exact simulates_inText hb hmode hstart
  | tagOpen start =>
    obtain ⟨hmode, hstart, htag⟩ := h
    rw [hmode]
    exact simulates_inTagOpen hb hfront hstart htag
  | tagName start name =>
    obtain ⟨hmode, hstart, hname⟩ := h
    rw [hmode]
    exact simulates_inTagName hb hinput hfront hmode hstart hname
  | selfClosing name =>
    obtain ⟨hmode, hname⟩ := h
    rw [hmode]
    exact simulates_inSelfClosing hb hmode hname
  | endTagOpen tag =>
    obtain ⟨hmode, htag⟩ := h
    rw [hmode]
    exact simulates_inEndTagOpen hb hmode htag
  | endTagName tag start =>
    obtain ⟨hmode, htag, hstart⟩ := h
    rw [hmode]
    exact simulates_inEndTagName hb hmode htag hstart
  | afterEndTagName tag start stop =>
    obtain ⟨hmode, htag, hname⟩ := h
    rw [hmode]
    exact simulates_inAfterEndTagName hb hmode htag hname
  | beforeAttribute name =>
    obtain ⟨hmode, hname⟩ := h
    rw [hmode]
    exact simulates_inBeforeAttribute hb hmode hname
  | attributeName name start =>
    obtain ⟨hmode, hstart, hname⟩ := h
    rw [hmode]
    exact simulates_inAttributeName hb hmode hstart hname
  | afterAttribute name =>
    obtain ⟨hmode, hname⟩ := h
    have hsilent : (r.inAfterAttribute? input index b).map (Handled.behind []) =
        r.inAfterAttribute? input index b := Option.map_id'
    rw [hmode]
    show Simulates input (front ++ [c]) _ (r.inAfterAttribute? input index b)
    rw [← hsilent]
    exact simulates_inAfterAttribute hb hmode hname []
  | beforeValue name =>
    obtain ⟨hmode, hname⟩ := h
    rw [hmode]
    exact simulates_inBeforeValue hb hmode hname
  | doubleQuoted name start =>
    obtain ⟨hmode, rfl, hname⟩ := h
    rw [hmode]
    exact simulates_inQuotes hb (by decide) ⟨hmode, rfl, hname⟩ hname
  | singleQuoted name start =>
    obtain ⟨hmode, rfl, hname⟩ := h
    rw [hmode]
    exact simulates_inQuotes hb (by decide) ⟨hmode, rfl, hname⟩ hname
  | unquoted name start =>
    obtain ⟨hmode, hstart, hname⟩ := h
    rw [hmode]
    exact simulates_inUnquoted hb hmode hstart hname
  | declarationOpen =>
    have hmode : r.mode = .beforeDeclaration := h
    rw [hmode]
    apply simulates_beforeDeclaration hb
    rfl
  | declaration =>
    have hdeclaration : Simulates input (front ++ [c]) (inDeclaration index c)
        (some (r.inDeclaration index b)) := simulates_inDeclaration hb h
    rcases h with hmode | hmode <;> rw [hmode] <;> exact hdeclaration
  | commentOpen =>
    have hmode : r.mode = .beforeComment := h
    rw [hmode]
    apply simulates_beforeDeclaration hb
    exact ⟨rfl, rfl⟩
  | comment start =>
    obtain ⟨hmode, hstart⟩ := h
    rw [hmode]
    exact simulates_inComment hb hmode hstart hinput hfront (hends start rfl)
  | commentDash => exact h.elim
  | commentBracket => exact h.elim
  | rawText name start =>
    obtain ⟨hmode, hstart, hname⟩ := h
    rw [hmode]
    exact simulates_inRawText hb hmode hstart hname hinput hfront

end Steps

/-! ## Characters of more than one byte -/

/-- In the state a character that is not of ASCII is read over. -/
def State.readsOver : State → Bool
  | .text _ | .tagName _ _ | .endTagName _ _ | .afterEndTagName _ _ _ | .attributeName _ _
  | .doubleQuoted _ _ | .singleQuoted _ _ | .unquoted _ _ | .declaration | .comment _
  | .rawText _ _ => true
  | _ => false

section Large

variable {input : List UInt8} {front rest : List Char} {r : Registers} {b x : UInt8} {c : Char}
  {s : State} {pos : Nat}

theorem beq_eq_false_of_large {k : Char} (hc : 128 ≤ c.toNat) (hk : k.toNat < 128) :
    (c == k) = false := by
  rw [beq_eq_false_iff_ne]
  rintro rfl
  omega

theorem isTagStart_of_large (hc : 128 ≤ c.toNat) : isTagStart c = false := by
  have hlow : ∀ k : Char, k.toNat < 128 → ¬ c ≤ k := fun k hk hle => by
    have hnat : c.toNat ≤ k.toNat := hle
    omega
  simp [isTagStart, hlow 'z' (by decide), hlow 'Z' (by decide)]

/-- Behind a character that is not of ASCII, such characters are read over. -/
theorem readsOver_step (hc : 128 ≤ c.toNat) (hdash : s ≠ .commentDash) :
    (step s pos c rest).1.readsOver = true := by
  have hne : ∀ k : Char, k.toNat < 128 → (c == k) = false := fun k hk =>
    beq_eq_false_of_large hc hk
  have hblank : isMarkupBlank c = false := by
    simp (disch := decide) only [isMarkupBlank, hne, Bool.or_false]
  have hname : endsName c = false := by
    simp (disch := decide) only [endsName, hne, hblank, Bool.or_false]
  have htag := isTagStart_of_large hc
  cases s with
  | commentDash => exact absurd rfl hdash
  | comment start =>
    have hends : ¬ (c = '-' ∧ ['-', '>'] <+: rest) := fun h =>
      absurd (hne '-' (by decide)) (by rw [h.1]; decide)
    rw [step, inComment_eq, if_neg hends]
    rfl
  | _ =>
    simp (disch := decide) [step, inText, inTagOpen, inTagName, inSelfClosing, inBeforeAttribute,
      inEndTagOpen, inEndTagName, inAfterEndTagName, inAttributeName, inAfterAttribute,
      inBeforeValue, inUnquoted, inDeclaration, inRawText, hne, hblank, hname, htag,
      State.readsOver]

/-- Where a character is read over, so is a byte that is none of ASCII. -/
theorem State.Agrees.handle?_of_large (h : s.Agrees input front r) (hs : s.readsOver = true)
    (hx : 128 ≤ x.toNat) (index : Nat) :
    r.handle? input index x = some { registers := r } := by
  have hne : ∀ k : Char, k.toNat < 128 → (x == k.toUInt8) = false := fun k hk =>
    ((leadByte_of_large hx).beq_eq hk).trans (beq_eq_false_of_large (by decide) hk)
  have hblank : isBlankByte x = false := by
    simp (disch := decide) only [isBlankByte, hne, Bool.or_false]
  have hname : endsNameByte x = false := by
    simp (disch := decide) only [endsNameByte, hne, hblank, Bool.or_false]
  rw [Registers.handle?]
  cases s with
  | declaration =>
    rcases h with hmode | hmode <;> rw [hmode] <;>
      simp (disch := decide) [Registers.inDeclaration, hne]
  | text | tagName | endTagName | afterEndTagName | attributeName | doubleQuoted | singleQuoted
  | unquoted | comment | rawText =>
    rw [h.1]
    simp (disch := decide) [Registers.inText, Registers.inTagName?, Registers.inEndTagName,
      Registers.inAfterEndTagName, Registers.inAttributeName?, Registers.inQuotes,
      Registers.inUnquoted?, Registers.inComment?, Registers.inRawText?, hne, hblank, hname]
  | _ => exact absurd hs Bool.false_ne_true

end Large

/-! ## Runs -/

section Runs

variable {input : List UInt8} {front rest : List Char} {r r' : Registers} {s : State}
  {ts : List Token} {index skipped : Nat}

/-- The end of the input completes what the end of the text does. -/
theorem State.Agrees.atEnd (h : s.Agrees input front r) (index : Nat) :
    r.atEnd index = Markup.atEnd s index := by
  rw [Registers.atEnd]
  cases s with
  | declaration => rcases h with hmode | hmode <;> rw [hmode] <;> rfl
  | declarationOpen | commentOpen => rw [show r.mode = _ from h]; rfl
  | commentDash | commentBracket => exact h.elim
  | text | comment => rw [h.1, h.2]; rfl
  | tagName | attributeName | doubleQuoted | singleQuoted | unquoted | rawText =>
    rw [h.1, h.2.1]
    rfl
  | _ => rw [h.1]; rfl

theorem scanBytes_of_handle? {b : UInt8} {handled : Handled} (hb : input[index]? = some b)
    (h : r.handle? input index b = some handled) :
    scanBytes input r index =
      (scanBytes input handled.registers (index + handled.skipped + 1)).map (handled.tokens ++ ·) := by
  obtain ⟨hlt, rfl⟩ := List.getElem?_eq_some_iff.mp hb
  rw [scanBytes, dif_pos hlt, h]
  cases hrest : scanBytes input handled.registers (index + handled.skipped + 1) <;> simp [hrest]

/-- The bytes of a character behind its first one are read over. -/
theorem scanBytes_of_large
    (hr : ∀ index x, 128 ≤ x.toNat → r.handle? input index x = some { registers := r })
    {xs more ys : List UInt8} (hinput : input = xs ++ more ++ ys) (hmore : ∀ x ∈ more, 128 ≤ x.toNat) :
    scanBytes input r xs.length = scanBytes input r (xs ++ more).length := by
  induction more generalizing xs with
  | nil => rw [List.append_nil]
  | cons x more ih =>
    obtain ⟨hx, hmore⟩ := List.forall_mem_cons.mp hmore
    have hget : input[xs.length]? = some x := by
      rw [hinput, List.append_assoc, List.getElem?_append_right (Nat.le_refl _), Nat.sub_self]
      rfl
    have hsplit : xs ++ x :: more = xs ++ [x] ++ more := by
      rw [List.append_assoc, List.singleton_append]
    have hnext := ih (hinput.trans (by rw [hsplit])) hmore
    rw [List.length_append, List.length_singleton] at hnext
    rw [scanBytes_of_handle? hget (hr _ x hx), hsplit, ← hnext, Nat.add_zero]
    exact Option.map_id'

/-- One character is read, except where a comment ends. -/
theorem State.Agrees.scanBytes_cons {c : Char} (h : s.Agrees input front r)
    (hinput : input = encode (front ++ c :: rest))
    (hends : ∀ start, s = .comment start → ¬ (c = '-' ∧ ['-', '>'] <+: rest)) :
    ∃ r', (Markup.step s (byteLength front) c rest).1.Agrees input (front ++ [c]) r' ∧
      scanBytes input r (byteLength front) =
        (scanBytes input r' (byteLength (front ++ [c]))).map
          ((Markup.step s (byteLength front) c rest).2 ++ ·) := by
  obtain ⟨b, more, hencode, hb, hmore, hascii⟩ := exists_lead c
  obtain ⟨r', hhandle, hagrees⟩ := h.step hb hinput rfl hends
  have hsplit : input = (encode front ++ [b]) ++ more ++ encode rest := by
    rw [hinput, encode_append, encode_cons, hencode, List.append_assoc, List.append_assoc]
    rfl
  have hget : input[byteLength front]? = some b := by
    rw [hsplit, ← length_encode, List.append_assoc, List.append_assoc,
      List.getElem?_append_right (Nat.le_refl _), Nat.sub_self]
    rfl
  have hsize : byteLength (front ++ [c]) = (encode front ++ [b] ++ more).length := by
    rw [← length_encode, encode_append, encode_cons, hencode, encode_nil, List.append_nil,
      List.append_assoc]
    rfl
  refine ⟨r', hagrees, ?_⟩
  have hread : scanBytes input r (byteLength front) =
      (scanBytes input r' (encode front ++ [b]).length).map
        ((Markup.step s (byteLength front) c rest).2 ++ ·) := by
    rw [List.length_append, length_encode]
    exact scanBytes_of_handle? hget hhandle
  rw [hread, hsize]
  rcases Nat.lt_or_ge c.toNat 128 with hc | hc
  · rw [hascii hc, List.append_nil]
  · have hdash : s ≠ .commentDash := by
      rintro rfl
      exact h
    have hover : ∀ index x, 128 ≤ x.toNat → r'.handle? input index x = some { registers := r' } :=
      fun index x hx => hagrees.handle?_of_large (readsOver_step hc hdash) hx index
    rw [scanBytes_of_large hover hsplit hmore]

/-- The end of a comment is read in one piece. -/
theorem State.Agrees.scanBytes_comment {start : Nat} (h : (State.comment start).Agrees input front r)
    (hinput : input = encode (front ++ '-' :: '-' :: '>' :: rest)) :
    ∃ r', (State.text (byteLength front + 3)).Agrees input (front ++ ['-', '-', '>']) r' ∧
      scanBytes input r (byteLength front) =
        (scanBytes input r' (byteLength (front ++ ['-', '-', '>']))).map
          ([.comment start (byteLength front)] ++ ·) := by
  obtain ⟨hmode, rfl⟩ := h
  have hget : input[byteLength front]? = some '-'.toUInt8 := by
    rw [hinput, encode_append, ← length_encode, List.getElem?_append_right (Nat.le_refl _),
      Nat.sub_self]
    rfl
  have hhandle : r.handle? input (byteLength front) '-'.toUInt8 =
      r.inComment? input (byteLength front) '-'.toUInt8 := by
    rw [Registers.handle?, hmode]
  have hread := scanBytes_of_handle? hget (hhandle.trans (inComment?_of_ends hinput rfl))
  rw [byteLength_append]
  exact ⟨_, ⟨rfl, rfl⟩, hread⟩

theorem State.Agrees.scanBytes_eq (h : s.Agrees input front r)
    (hinput : input = encode (front ++ rest)) :
    scanBytes input r (byteLength front) = some (scan s (byteLength front) rest) := by
  generalize hn : rest.length = n
  induction n using Nat.strongRecOn generalizing front rest s r with
  | ind n ih =>
    cases rest with
    | nil =>
      have hend : ¬ byteLength front < input.length := by
        rw [hinput, List.append_nil, length_encode]
        omega
      rw [scanBytes, dif_neg hend, h.atEnd, scan]
    | cons c rest =>
      rw [List.length_cons] at hn
      by_cases hends : ∀ start, s = .comment start → ¬ (c = '-' ∧ ['-', '>'] <+: rest)
      · obtain ⟨r', hagrees, hscan⟩ := h.scanBytes_cons hinput hends
        have hrest := ih rest.length (by omega) hagrees (by rw [hinput]; simp) rfl
        rw [hscan, hrest, byteLength_append]
        rfl
      · simp only [Classical.not_forall, Classical.not_not] at hends
        obtain ⟨start, rfl, rfl, more, rfl⟩ := hends
        obtain ⟨r', hagrees, hscan⟩ := h.scanBytes_comment hinput
        rw [List.length_append] at hn
        have hrest := ih more.length (by omega) hagrees (by rw [hinput]; simp) rfl
        rw [hscan, hrest, byteLength_append]
        rfl

/-- No access of the scanner of bytes fails, and its tokens are those of the characters. -/
theorem scanBytes_eq (text : String) : scanBytes (bytesOf text) {} 0 = some (tokens text) := by
  have hstart : (State.text 0).Agrees (bytesOf text) [] {} := ⟨rfl, rfl⟩
  exact hstart.scanBytes_eq (bytesOf_eq_encode text)

end Runs
end Markup
end Inlay
