import Inlay.Proofs.Markup.RawText
import Inlay.Proofs.Markup.StretchedTokens

/-!
# Tokens of joined texts

Where a tag, a comment, a declaration or a processing instruction has just ended, the scanner
keeps nothing of what it has read.  The tokens of two texts that are joined there are those of
the first without the mark of its end, and those of the second further on: `tokens_append`.

Two facts carry this.  A state holds offsets and nothing else of the text but the name of a tag,
so that a step moves with its offsets (`step_shift`).  And a step that looks ahead sees what is
behind the first text only if that text ends inside a comment, inside raw text or inside the
end tag of raw text (`step_append_or`), never in text.
-/

namespace Inlay
namespace Markup

/-! ## Further on in a text -/

/-- The token, so many bytes further on in the text. -/
def Token.shift (d : Nat) : Token → Token
  | .text start stop => .text (start + d) (stop + d)
  | .openName start stop => .openName (start + d) (stop + d)
  | .openEnd bracket => .openEnd (bracket + d)
  | .selfClose bracket => .selfClose (bracket + d)
  | .close start nameStart nameStop stop =>
    .close (start + d) (nameStart + d) (nameStop + d) (stop + d)
  | .attributeName start stop => .attributeName (start + d) (stop + d)
  | .attributeValue start stop => .attributeValue (start + d) (stop + d)
  | .attributeEnd quote stop => .attributeEnd quote (stop + d)
  | .comment start stop => .comment (start + d) (stop + d)
  | .mistake kind index => .mistake kind (index + d)
  | .finish => .finish

/-- The state of a scanner that began so many bytes further on. -/
def State.shift (d : Nat) : State → State
  | .text start => .text (start + d)
  | .tagOpen start => .tagOpen (start + d)
  | .tagName start name => .tagName (start + d) name
  | .selfClosing name => .selfClosing name
  | .endTagOpen tag => .endTagOpen (tag + d)
  | .endTagName tag start => .endTagName (tag + d) (start + d)
  | .afterEndTagName tag start stop => .afterEndTagName (tag + d) (start + d) (stop + d)
  | .beforeAttribute name => .beforeAttribute name
  | .attributeName name start => .attributeName name (start + d)
  | .afterAttribute name => .afterAttribute name
  | .beforeValue name => .beforeValue name
  | .doubleQuoted name start => .doubleQuoted name (start + d)
  | .singleQuoted name start => .singleQuoted name (start + d)
  | .unquoted name start => .unquoted name (start + d)
  | .declarationOpen => .declarationOpen
  | .declaration => .declaration
  | .commentOpen => .commentOpen
  | .comment start => .comment (start + d)
  | .commentDash => .commentDash
  | .commentBracket => .commentBracket
  | .rawText name start => .rawText name (start + d)

/-- What a step gives, so many bytes further on. -/
def shiftStep (d : Nat) (next : State × List Token) : State × List Token :=
  (next.1.shift d, next.2.map (Token.shift d))

section Shift

variable (d : Nat) {name : List Char} {start pos tag stop : Nat} {c : Char}

theorem shiftStep_ite {p : Prop} [Decidable p] (a b : State × List Token) :
    shiftStep d (if p then a else b) = if p then shiftStep d a else shiftStep d b :=
  apply_ite (shiftStep d) p a b

theorem textSince_shift (start pos : Nat) :
    textSince (start + d) (pos + d) = (textSince start pos).map (Token.shift d) := by
  rw [textSince, textSince, apply_ite (List.map (Token.shift d))]
  exact if_congr (Nat.add_lt_add_iff_right) rfl rfl

theorem valueSince_shift (start : Nat) (quote : Quote) (pos : Nat) :
    valueSince (start + d) quote (pos + d) =
      (valueSince start quote pos).map (Token.shift d) := by
  rw [valueSince, valueSince, List.map_append, apply_ite (List.map (Token.shift d))]
  congr 1
  exact if_congr (Nat.add_lt_add_iff_right) rfl rfl

theorem content_shift (name : List Char) (start : Nat) :
    content name (start + d) = (content name start).shift d := by
  rw [content, content, apply_ite (State.shift d)]
  rfl

theorem inText_shift (start pos : Nat) (c : Char) :
    inText (start + d) (pos + d) c = shiftStep d (inText start pos c) := by
  rw [inText, inText, shiftStep_ite, textSince_shift]
  rfl

theorem inBeforeAttribute_shift (name : List Char) (pos : Nat) (c : Char) :
    inBeforeAttribute name (pos + d) c = shiftStep d (inBeforeAttribute name pos c) := by
  rw [inBeforeAttribute, inBeforeAttribute, shiftStep_ite, shiftStep_ite, shiftStep_ite,
    Nat.add_right_comm, content_shift]
  rfl

theorem thenBeforeAttribute_shift (done : List Token) (name : List Char) (pos : Nat) (c : Char) :
    thenBeforeAttribute (done.map (Token.shift d)) name (pos + d) c =
      shiftStep d (thenBeforeAttribute done name pos c) := by
  rw [thenBeforeAttribute, thenBeforeAttribute, inBeforeAttribute_shift, shiftStep, shiftStep,
    List.map_append]

theorem inTagOpen_shift (start pos : Nat) (c : Char) :
    inTagOpen (start + d) (pos + d) c = shiftStep d (inTagOpen start pos c) := by
  rw [inTagOpen, inTagOpen, shiftStep_ite, shiftStep_ite, shiftStep_ite, shiftStep_ite,
    inText_shift]
  rfl

theorem inTagName_shift (start : Nat) (name : List Char) (pos : Nat) (c : Char) :
    inTagName (start + d) name (pos + d) c = shiftStep d (inTagName start name pos c) := by
  rw [inTagName, inTagName, shiftStep_ite, ← thenBeforeAttribute_shift]
  rfl

theorem inSelfClosing_shift (name : List Char) (pos : Nat) (c : Char) :
    inSelfClosing name (pos + d) c = shiftStep d (inSelfClosing name pos c) := by
  rw [inSelfClosing, inSelfClosing, shiftStep_ite, shiftStep_ite, inBeforeAttribute_shift,
    Nat.add_right_comm]
  rfl

theorem inEndTagOpen_shift (tag pos : Nat) (c : Char) :
    inEndTagOpen (tag + d) (pos + d) c = shiftStep d (inEndTagOpen tag pos c) := by
  rw [inEndTagOpen, inEndTagOpen, shiftStep_ite, shiftStep_ite, Nat.add_right_comm]
  rfl

theorem inEndTagName_shift (tag start pos : Nat) (c : Char) :
    inEndTagName (tag + d) (start + d) (pos + d) c =
      shiftStep d (inEndTagName tag start pos c) := by
  rw [inEndTagName, inEndTagName, shiftStep_ite, shiftStep_ite, Nat.add_right_comm pos d 1]
  rfl

theorem inAfterEndTagName_shift (tag start stop pos : Nat) (c : Char) :
    inAfterEndTagName (tag + d) (start + d) (stop + d) (pos + d) c =
      shiftStep d (inAfterEndTagName tag start stop pos c) := by
  rw [inAfterEndTagName, inAfterEndTagName, shiftStep_ite, Nat.add_right_comm pos d 1]
  rfl

theorem inAfterAttribute_shift (done : List Token) (name : List Char) (pos : Nat) (c : Char) :
    inAfterAttribute (done.map (Token.shift d)) name (pos + d) c =
      shiftStep d (inAfterAttribute done name pos c) := by
  have hends : done.map (Token.shift d) ++ [Token.attributeEnd .absent (pos + d)] =
      (done ++ [Token.attributeEnd .absent pos]).map (Token.shift d) := by
    rw [List.map_append]
    rfl
  rw [inAfterAttribute, inAfterAttribute, hends, thenBeforeAttribute_shift, shiftStep_ite,
    shiftStep_ite, shiftStep_ite]
  rfl

theorem inAttributeName_shift (name : List Char) (start pos : Nat) (c : Char) :
    inAttributeName name (start + d) (pos + d) c =
      shiftStep d (inAttributeName name start pos c) := by
  rw [inAttributeName, inAttributeName, shiftStep_ite, ← inAfterAttribute_shift]
  rfl

theorem inUnquoted_shift (name : List Char) (start pos : Nat) (c : Char) :
    inUnquoted name (start + d) (pos + d) c = shiftStep d (inUnquoted name start pos c) := by
  rw [inUnquoted, inUnquoted, valueSince_shift, thenBeforeAttribute_shift, shiftStep_ite]
  rfl

theorem inBeforeValue_shift (name : List Char) (pos : Nat) (c : Char) :
    inBeforeValue name (pos + d) c = shiftStep d (inBeforeValue name pos c) := by
  rw [inBeforeValue, inBeforeValue, inUnquoted_shift, Nat.add_right_comm, shiftStep_ite,
    shiftStep_ite, shiftStep_ite]
  rfl

theorem inDeclaration_shift (pos : Nat) (c : Char) :
    inDeclaration (pos + d) c = shiftStep d (inDeclaration pos c) := by
  rw [inDeclaration, inDeclaration, shiftStep_ite, Nat.add_right_comm]
  rfl

theorem inComment_shift (start pos : Nat) (c : Char) (rest : List Char) :
    inComment (start + d) (pos + d) c rest = shiftStep d (inComment start pos c rest) := by
  rw [inComment_eq, inComment_eq, shiftStep_ite]
  rfl

theorem inRawText_shift (name : List Char) (start pos : Nat) (c : Char) (rest : List Char) :
    inRawText name (start + d) (pos + d) c rest =
      shiftStep d (inRawText name start pos c rest) := by
  rw [inRawText, inRawText, textSince_shift, shiftStep_ite]
  rfl

/-- A step moves with the offsets that the state holds. -/
theorem step_shift (s : State) (pos : Nat) (c : Char) (rest : List Char) :
    step (s.shift d) (pos + d) c rest = shiftStep d (step s pos c rest) := by
  cases s with
  | text start => exact inText_shift d start pos c
  | tagOpen start => exact inTagOpen_shift d start pos c
  | tagName start name => exact inTagName_shift d start name pos c
  | selfClosing name => exact inSelfClosing_shift d name pos c
  | endTagOpen tag => exact inEndTagOpen_shift d tag pos c
  | endTagName tag start => exact inEndTagName_shift d tag start pos c
  | afterEndTagName tag start stop => exact inAfterEndTagName_shift d tag start stop pos c
  | beforeAttribute name => exact inBeforeAttribute_shift d name pos c
  | attributeName name start => exact inAttributeName_shift d name start pos c
  | afterAttribute name => exact inAfterAttribute_shift d [] name pos c
  | beforeValue name => exact inBeforeValue_shift d name pos c
  | doubleQuoted name start | singleQuoted name start =>
    rw [State.shift, step, step, valueSince_shift, shiftStep_ite]
    rfl
  | unquoted name start => exact inUnquoted_shift d name start pos c
  | declarationOpen =>
    rw [State.shift, step, step, inDeclaration_shift, shiftStep_ite]
    rfl
  | declaration => exact inDeclaration_shift d pos c
  | commentOpen =>
    rw [State.shift, step, step, inDeclaration_shift, shiftStep_ite, Nat.add_right_comm]
    rfl
  | comment start => exact inComment_shift d start pos c rest
  | commentDash => rfl
  | commentBracket =>
    rw [State.shift, step, step, Nat.add_right_comm]
    rfl
  | rawText name start => exact inRawText_shift d name start pos c rest

theorem atEnd_shift (s : State) (pos : Nat) :
    atEnd (s.shift d) (pos + d) = (atEnd s pos).map (Token.shift d) := by
  cases s with
  | text start | rawText _ start => exact textSince_shift d start pos
  | doubleQuoted _ start | singleQuoted _ start | unquoted _ start =>
    rw [State.shift, atEnd, atEnd, valueSince_shift, List.map_append]
    rfl
  | _ => rfl

/-- So does the whole scan. -/
theorem scan_shift (s : State) (pos : Nat) (cs : List Char) :
    scan (s.shift d) (pos + d) cs = (scan s pos cs).map (Token.shift d) := by
  induction cs generalizing s pos with
  | nil =>
    rw [scan, scan, atEnd_shift, List.map_append]
    rfl
  | cons c cs ih =>
    rw [scan, scan, step_shift, List.map_append, ← ih, Nat.add_right_comm]
    rfl

end Shift

/-! ## Looks ahead -/

/-- The scanner reads text, and no tag or comment. -/
def State.IsText (s : State) : Prop := ∃ start, s = .text start

section Ahead

variable {name cs rest : List Char} {start tag pos : Nat} {c : Char} {s : State}

/-- Two characters are too few to end a comment. -/
theorem stateAfter_comment_of_short (h : cs.length ≤ 2) :
    stateAfter (.comment start) pos [] cs = .comment start := by
  induction cs generalizing pos with
  | nil => rfl
  | cons c cs ih =>
    have hshort : ¬ (['-', '>'] <+: cs) := fun hprefix => by
      have hle := hprefix.length_le
      rw [List.length_cons] at h
      exact absurd hle (by simp only [List.length_cons, List.length_nil]; omega)
    rw [stateAfter, List.append_nil, step, inComment_eq, if_neg fun hends => hshort hends.2]
    exact ih (by rw [List.length_cons] at h; omega)

/-- An end tag takes a slash and the name. -/
theorem length_of_endsRawText (h : endsRawText name rest = true) : name.length < rest.length := by
  obtain ⟨cs, more, rfl, hlower, -⟩ := exists_of_endsRawText h
  have hlength := congrArg List.length hlower
  rw [List.length_map, List.length_map] at hlength
  rw [List.length_cons, List.length_append]
  omega

/-- A text that is no longer than the name and its slash has no end tag behind a bracket in it. -/
theorem stateAfter_rawText_of_short (h : cs.length ≤ name.length + 1) :
    stateAfter (.rawText name start) pos [] cs = .rawText name start := by
  induction cs generalizing pos with
  | nil => rfl
  | cons c cs ih =>
    rw [List.length_cons] at h
    have hends : endsRawText name cs = false := Bool.eq_false_iff.mpr fun hends => by
      have hlong := length_of_endsRawText hends
      omega
    rw [stateAfter, List.append_nil, step, inRawText, hends, Bool.and_false]
    exact ih (by omega)

theorem stateAfter_endTagName_of_not_ends (hcs : ∀ c ∈ cs, endsEndTagName c = false) :
    stateAfter (.endTagName tag start) pos [] cs = .endTagName tag start := by
  induction cs generalizing pos with
  | nil => rfl
  | cons c cs ih =>
    obtain ⟨hc, hcs⟩ := List.forall_mem_cons.mp hcs
    rw [stateAfter, step_endTagName_of_not_ends hc]
    exact ih hcs

/-- A text that ends with the name in an end tag ends inside the tag. -/
theorem stateAfter_slash_of_short (hraw : isRawTextTag (String.ofList name) = true)
    (hends : endsRawText name rest = true) (h : rest.length ≤ name.length + 1) :
    ¬ (stateAfter (.tagOpen start) (start + 1) [] rest).IsText := by
  obtain ⟨cs, more, rfl, hlower, -⟩ := exists_of_endsRawText hends
  obtain ⟨hne, hchars⟩ := name_of_isRawTextTag hraw hlower
  have hlength := congrArg List.length hlower
  rw [List.length_map, List.length_map] at hlength
  rw [List.length_cons, List.length_append] at h
  obtain rfl : more = [] := List.eq_nil_of_length_eq_zero (by omega)
  cases cs with
  | nil => exact absurd rfl hne
  | cons x cs =>
    obtain ⟨hx, hcs⟩ := List.forall_mem_cons.mp fun c hc =>
      endsEndTagName_of_not_endsName (hchars c hc)
    have hstate : stateAfter (.tagOpen start) (start + 1) [] ('/' :: x :: (cs ++ [])) =
        .endTagName start (start + 2) := by
      show stateAfter (.endTagOpen start) (start + 2) [] (x :: (cs ++ [])) = _
      rw [stateAfter, step_endTagOpen hx, List.append_nil]
      exact stateAfter_endTagName_of_not_ends hcs
    rintro ⟨stop, htext⟩
    exact State.noConfusion (hstate.symm.trans htext)

theorem endsTag_append (h : name.length < cs.length) (more : List Char) :
    endsTag name (cs ++ more) = endsTag name cs := by
  induction name generalizing cs with
  | nil =>
    cases cs with
    | nil => exact absurd h (Nat.not_lt_zero _)
    | cons c cs => rfl
  | cons a name ih =>
    cases cs with
    | nil => exact absurd h (Nat.not_lt_zero _)
    | cons c cs => rw [List.cons_append, endsTag_cons, endsTag_cons, ih (Nat.lt_of_succ_lt_succ h)]

/-- Whether an end tag is ahead is known from the character behind its name. -/
theorem endsRawText_append (h : name.length + 1 < rest.length) (more : List Char) :
    endsRawText name (rest ++ more) = endsRawText name rest := by
  cases rest with
  | nil => exact absurd h (Nat.not_lt_zero _)
  | cons c cs =>
    rw [List.cons_append, endsRawText_cons, endsRawText_cons,
      endsTag_append (Nat.lt_of_succ_lt_succ h)]

/-- What comes behind a text changes a step in it only if the text ends inside the comment
or the raw text, or inside the end tag of that. -/
theorem step_append_or (hs : s.RawNamed) (pos : Nat) (c : Char) (rest more : List Char) :
    step s pos c (rest ++ more) = step s pos c rest ∨
      ¬ (stateAfter (step s pos c rest).1 (pos + c.utf8Size) [] rest).IsText := by
  cases s with
  | comment start =>
    rw [step, step, inComment_eq, inComment_eq]
    rcases rest with _ | ⟨x, _ | ⟨y, rest⟩⟩
    case comment.cons.cons =>
      left
      simp only [List.cons_append, List.cons_prefix_cons, List.nil_prefix, and_true]
    all_goals
      right
      rw [if_neg (by simp), stateAfter_comment_of_short (by simp)]
      rintro ⟨stop, htext⟩
      exact State.noConfusion htext
  | rawText name start =>
    rw [step, step, inRawText, inRawText]
    by_cases hc : c = '<'
    · subst hc
      by_cases hlong : name.length + 1 < rest.length
      · rw [endsRawText_append hlong]
        exact .inl rfl
      · right
        cases hends : endsRawText name rest with
        | true => exact stateAfter_slash_of_short (hs name start rfl) hends (by omega)
        | false =>
          have hstate : stateAfter (.rawText name start) (pos + 1) [] rest = .rawText name start :=
            stateAfter_rawText_of_short (by omega)
          rintro ⟨stop, htext⟩
          exact State.noConfusion (hstate.symm.trans htext)
    · rw [beq_eq_false_iff_ne.mpr hc]
      exact .inl rfl
  | _ => exact .inl rfl

/-- A text that ends in text is read in one way, whatever comes behind it. -/
theorem stateAfter_and_emitted_eq (hs : s.RawNamed) (htext : (stateAfter s pos [] cs).IsText)
    (more : List Char) :
    stateAfter s pos more cs = stateAfter s pos [] cs ∧
      emitted s pos more cs = emitted s pos [] cs := by
  induction cs generalizing s pos with
  | nil => exact ⟨rfl, rfl⟩
  | cons c cs ih =>
    rw [stateAfter, List.append_nil] at htext
    have hstep := (step_append_or hs pos c cs more).resolve_right (not_not_intro htext)
    rw [stateAfter, stateAfter, emitted, emitted, List.append_nil, hstep]
    obtain ⟨hstate, hemitted⟩ := ih (hs.step pos c cs) htext
    exact ⟨hstate, by rw [hemitted]⟩

end Ahead

/-! ## Between tags -/

/-- A tag, a comment, a declaration or a processing instruction has just ended, or there is
nothing yet: the scanner is in text, and has read none. -/
def EndsBetweenTags (text : String) : Prop :=
  stateAfter (.text 0) 0 [] text.toList = .text text.utf8ByteSize

instance (text : String) : Decidable (EndsBetweenTags text) :=
  inferInstanceAs (Decidable (stateAfter _ _ _ _ = _))

theorem rawNamed_text (start : Nat) : (State.text start).RawNamed :=
  fun _ _ heq => State.noConfusion heq

/-- The scanner is inside a tag, a comment, a declaration or a processing instruction. -/
def State.InMarkup : State → Prop
  | .text _ | .tagOpen _ | .rawText _ _ => False
  | _ => True

/-- The last character of the text is a bracket that takes the scanner out of a tag, a comment,
a declaration or a processing instruction, and into text. -/
def EndsWithMarkup (text : String) : Prop :=
  ∃ front, text.toList = front ++ ['>'] ∧ (stateAfter (.text 0) 0 ['>'] front).InMarkup ∧
    (stateAfter (.text 0) 0 [] text.toList).IsText

/-- What a state knows: text begins before it, and the end of a comment has been seen ahead. -/
def State.Knows (s : State) (pos : Nat) (rest : List Char) : Prop :=
  match s with
  | .text start | .tagOpen start => start ≤ pos
  | .commentDash => ['-', '>'] <+: rest
  | .commentBracket => ['>'] <+: rest
  | _ => True

theorem State.Knows.step {s : State} {pos : Nat} {c : Char} {rest : List Char}
    (h : s.Knows pos (c :: rest)) : (step s pos c rest).1.Knows (pos + c.utf8Size) rest := by
  have hc := c.utf8Size_pos
  cases s with
  | comment start =>
    rw [Markup.step, inComment_eq]
    split
    · next hends => exact hends.2
    · trivial
  | commentDash => exact (List.cons_prefix_cons.mp h).2
  | _ =>
    simp only [Markup.step]
    grind [State.Knows, inText, inTagOpen, inBeforeAttribute, thenBeforeAttribute, inTagName,
      inSelfClosing, inEndTagOpen, inEndTagName, inAfterEndTagName, inAfterAttribute,
      inAttributeName, inUnquoted, inBeforeValue, inDeclaration, inRawText, content]

theorem State.Knows.stateAfter {s : State} {pos : Nat} {after cs : List Char}
    (h : s.Knows pos (cs ++ after)) :
    (stateAfter s pos after cs).Knows (pos + byteLength cs) after := by
  induction cs generalizing s pos with
  | nil => exact h
  | cons c cs ih =>
    rw [byteLength_cons, ← Nat.add_assoc]
    exact ih h.step

/-- Text begins behind a character exactly if that is the bracket that leads there. -/
theorem State.Knows.step_eq_text_iff {s : State} {pos : Nat} {c : Char}
    (h : s.Knows pos [c]) : (Markup.step s pos c []).1 = .text (pos + c.utf8Size) ↔
      c = '>' ∧ s.InMarkup ∧ (Markup.step s pos c []).1.IsText := by
  have hc := c.utf8Size_pos
  have hbracket : '>'.utf8Size = 1 := rfl
  cases s with
  | comment start =>
    simp only [Markup.step, inComment_eq]
    grind [State.IsText]
  | commentDash => exact absurd h.length_le (by simp)
  | commentBracket =>
    obtain rfl : '>' = c := (List.cons_prefix_cons.mp h).1
    exact iff_of_true rfl ⟨rfl, trivial, _, rfl⟩
  | _ =>
    simp only [Markup.step, State.InMarkup, State.IsText]
    grind [State.Knows, inText, inTagOpen, inBeforeAttribute, thenBeforeAttribute, inTagName,
      inSelfClosing, inEndTagOpen, inEndTagName, inAfterEndTagName, inAfterAttribute,
      inAttributeName, inUnquoted, inBeforeValue, inDeclaration, inRawText, content]

theorem endsBetweenTags_iff (text : String) :
    EndsBetweenTags text ↔ text = "" ∨ EndsWithMarkup text := by
  rw [EndsBetweenTags, EndsWithMarkup]
  rcases List.eq_nil_or_concat text.toList with hnil | ⟨front, c, hsplit⟩
  · obtain rfl : text = "" := String.toList_inj.mp hnil
    exact iff_of_true rfl (.inl rfl)
  · have hknows : (stateAfter (.text 0) 0 [c] front).Knows (byteLength front) [c] := by
      have hstart : (State.text 0).Knows 0 (front ++ [c]) := Nat.le_refl 0
      simpa using hstart.stateAfter
    have hne : text ≠ "" := by
      rintro rfl
      exact absurd hsplit (by simp)
    have hlength : text.utf8ByteSize = byteLength front + c.utf8Size := by
      rw [← byteLength_toList, hsplit, List.concat_eq_append, byteLength_append]
      rfl
    rw [List.concat_eq_append] at hsplit
    rw [hsplit, stateAfter_concat, hlength, hknows.step_eq_text_iff]
    constructor
    · rintro ⟨rfl, hmarkup, htext⟩
      exact .inr ⟨front, rfl, hmarkup, htext⟩
    · rintro (hempty | ⟨front', heq, hmarkup, htext⟩)
      · exact absurd hempty hne
      · obtain ⟨rfl, hc⟩ := List.append_inj' heq rfl
        obtain rfl : c = '>' := (List.cons.inj hc).1
        exact ⟨rfl, hmarkup, htext⟩

/-! ## Joined texts -/

/-- The scanner begins anew between tags. -/
theorem scan_text (pos : Nat) (text : String) :
    scan (.text pos) pos text.toList = (tokens text).map (Token.shift pos) := by
  have hshift := scan_shift pos (.text 0) 0 text.toList
  rwa [State.shift, Nat.zero_add] at hshift

theorem EndsBetweenTags.exists_tokens {a : String} (h : EndsBetweenTags a) (b : String) :
    ∃ ts, tokens a = ts ++ [.finish] ∧
      tokens (a ++ b) = ts ++ (tokens b).map (Token.shift a.utf8ByteSize) := by
  have hstate : stateAfter (.text 0) 0 [] a.toList = .text a.utf8ByteSize := h
  have hlength : byteLength a.toList = a.utf8ByteSize := byteLength_toList a
  obtain ⟨hstate', hemitted⟩ :=
    stateAfter_and_emitted_eq (rawNamed_text 0) ⟨_, hstate⟩ b.toList
  refine ⟨emitted (.text 0) 0 [] a.toList, ?_, ?_⟩
  · have hsplit := scan_append (.text 0) 0 a.toList []
    rw [List.append_nil, hstate, Nat.zero_add, hlength] at hsplit
    rw [tokens, hsplit, scan, atEnd, textSince, if_neg (Nat.lt_irrefl _), List.nil_append]
  · rw [tokens, String.toList_append, scan_append, hstate', hstate, hemitted, Nat.zero_add,
      hlength, scan_text]

/-- Between tags a text can be cut: the tokens before the cut and those behind it are those of
the two texts.  A text ends between tags if it is empty, or ends with a tag, a comment, a
declaration or a processing instruction. -/
theorem tokens_append (a : String) :
    (EndsBetweenTags a ↔ a = "" ∨ EndsWithMarkup a) ∧
      ∀ b, EndsBetweenTags a → ∃ ts, tokens a = ts ++ [.finish] ∧
        tokens (a ++ b) = ts ++ (tokens b).map (Token.shift a.utf8ByteSize) :=
  ⟨endsBetweenTags_iff a, fun b h => h.exists_tokens b⟩

/-- The second text begins with what would end a comment, and has an end tag of raw text. -/
theorem tokens_append_behind_comment :
    EndsBetweenTags "<style>p</style><!-- - -->" ∧ ∃ ts,
      tokens "<style>p</style><!-- - -->" = ts ++ [.finish] ∧
      tokens ("<style>p</style><!-- - -->" ++ "-->é</style><i x=") =
        ts ++ (tokens "-->é</style><i x=").map (Token.shift 26) := by
  have hends : EndsBetweenTags "<style>p</style><!-- - -->" := by decide +kernel
  exact ⟨hends, (tokens_append _).2 "-->é</style><i x=" hends⟩

end Markup
end Inlay
