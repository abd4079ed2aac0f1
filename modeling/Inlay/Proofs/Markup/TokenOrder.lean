import Inlay.Markup.Tree
import Inlay.Proofs.Text.Bytes

/-!
# The order of tokens

Tokens come in the order of their text, and those of a start tag come together: the
name, the attributes, the end.  `Follows` says which token can stand behind another, and
where, and `Path` the same of a list of tokens.

The scanner keeps to this.  `State.Reads` says what a state promises: the phase in which the next
token will be, and an offset that no later token reaches back over.  Each step of the scanner
gives tokens that lead from what the old state promises to what the new one does, so
`tokens_eq` gets a path for the tokens of any text by induction on the text.
-/

namespace Inlay
namespace Markup

/-- Where a list of tokens has got to.  In a tag an attribute may be pending: its name
has been read, and perhaps its value, but not its end. -/
inductive Phase where
  | outside
  | tag (pending : Option Pending)

/-- A token can come in a phase behind an offset, and leads to another phase and offset.
A mistake stands for no text, so the offset stays. -/
inductive Follows : Phase → Nat → Token → Phase → Nat → Prop
  | text {pos start stop} : pos ≤ start → start < stop →
      Follows .outside pos (.text start stop) .outside stop
  | comment {pos start stop} : pos ≤ start → start ≤ stop →
      Follows .outside pos (.comment start stop) .outside stop
  | close {pos start nameStart nameStop stop} : pos ≤ start → start + 2 ≤ nameStart →
      nameStart < nameStop → nameStop < stop →
      Follows .outside pos (.close start nameStart nameStop stop) .outside stop
  | openName {pos start stop} : pos < start → start < stop →
      Follows .outside pos (.openName start stop) (.tag none) stop
  | attributeName {pos start stop} : pos ≤ start → start < stop →
      Follows (.tag none) pos (.attributeName start stop)
        (.tag (some { name := Span.of start stop })) stop
  | attributeValue {pos start stop p} : p.value = none → pos ≤ start → start < stop →
      Follows (.tag (some p)) pos (.attributeValue start stop)
        (.tag (some { p with value := some (Span.of start stop) })) stop
  | attributeEnd {pos quote stop p} : pos ≤ stop →
      Follows (.tag (some p)) pos (.attributeEnd quote stop) (.tag none) (attributeStop quote stop)
  | openEnd {pos bracket} : pos ≤ bracket →
      Follows (.tag none) pos (.openEnd bracket) .outside (bracket + 1)
  | selfClose {pos bracket} : pos ≤ bracket →
      Follows (.tag none) pos (.selfClose bracket) .outside (bracket + 1)
  | mistake {φ pos kind index} : pos ≤ index → Follows φ pos (.mistake kind index) φ pos

/-- Each of the tokens follows the one before it. -/
inductive Path : Phase → Nat → List Token → Phase → Nat → Prop
  | nil {φ pos} : Path φ pos [] φ pos
  | cons {φ pos t φ' pos' ts φ'' pos''} : Follows φ pos t φ' pos' → Path φ' pos' ts φ'' pos'' →
      Path φ pos (t :: ts) φ'' pos''

namespace Path

variable {φ φ' φ'' : Phase} {pos pos' pos'' : Nat}

theorem single {t : Token} (h : Follows φ pos t φ' pos') : Path φ pos [t] φ' pos' := cons h nil

theorem append {ts us : List Token} (h : Path φ pos ts φ' pos') (h' : Path φ' pos' us φ'' pos'') :
    Path φ pos (ts ++ us) φ'' pos'' := by
  induction h with
  | nil => exact h'
  | cons hfollows _ ih => exact cons hfollows (ih h')

end Path

/-! ## What a state promises -/

/-- At `pos` in a state, the tokens so far end in a phase and before the offset `done`, which
nothing that is still to be read lies before. -/
def State.Reads (s : State) (φ : Phase) (done pos : Nat) : Prop :=
  match s with
  | .text start | .rawText _ start => φ = .outside ∧ done ≤ start ∧ start ≤ pos
  | .tagOpen start => φ = .outside ∧ done ≤ start ∧ start < pos
  | .tagName start _ => φ = .outside ∧ done < start ∧ start < pos
  | .endTagOpen tag => φ = .outside ∧ done ≤ tag ∧ tag + 2 ≤ pos
  | .endTagName tag start => φ = .outside ∧ done ≤ tag ∧ tag + 2 ≤ start ∧ start < pos
  | .afterEndTagName tag start stop =>
    φ = .outside ∧ done ≤ tag ∧ tag + 2 ≤ start ∧ start < stop ∧ stop < pos
  | .beforeAttribute _ | .selfClosing _ => φ = .tag none ∧ done ≤ pos
  | .attributeName _ start => φ = .tag none ∧ done ≤ start ∧ start < pos
  | .afterAttribute _ | .beforeValue _ => (∃ p, φ = .tag (some p) ∧ p.value = none) ∧ done ≤ pos
  | .doubleQuoted _ start | .singleQuoted _ start =>
    (∃ p, φ = .tag (some p) ∧ p.value = none) ∧ done ≤ start ∧ start ≤ pos
  | .unquoted _ start => (∃ p, φ = .tag (some p) ∧ p.value = none) ∧ done ≤ start ∧ start < pos
  | .declarationOpen | .declaration | .commentOpen | .commentDash | .commentBracket =>
    φ = .outside ∧ done ≤ pos
  | .comment start => φ = .outside ∧ done ≤ start ∧ start ≤ pos

/-- What a step gives, a state and tokens, leads on from a phase and an offset, when the step
ends at `pos`. -/
def Continues (φ : Phase) (done pos : Nat) (next : State × List Token) : Prop :=
  ∃ φ' done', Path φ done next.2 φ' done' ∧ next.1.Reads φ' done' pos

namespace Continues

variable {φ φ' : Phase} {done done' pos : Nat} {s : State} {ts : List Token}

theorem silent (h : s.Reads φ done pos) : Continues φ done pos (s, []) := ⟨φ, done, .nil, h⟩

theorem emit {t : Token} (ht : Follows φ done t φ' done') (h : s.Reads φ' done' pos) :
    Continues φ done pos (s, [t]) :=
  ⟨φ', done', .single ht, h⟩

theorem append {next : State × List Token} (hts : Path φ done ts φ' done')
    (h : Continues φ' done' pos next) : Continues φ done pos (next.1, ts ++ next.2) := by
  obtain ⟨φ'', done'', hpath, hreads⟩ := h
  exact ⟨φ'', done'', hts.append hpath, hreads⟩

end Continues

/-! ## Steps -/

/-- A comment ends where the two characters behind a dash are a dash and a bracket. -/
theorem inComment_eq (start pos : Nat) (c : Char) (rest : List Char) :
    inComment start pos c rest =
      if c = '-' ∧ ['-', '>'] <+: rest then (.commentDash, [.comment start pos])
      else (.comment start, []) := by
  rw [inComment.eq_def]
  split
  · next after => rw [if_pos ⟨rfl, after, rfl⟩]
  · next hother =>
    rw [if_neg]
    rintro ⟨rfl, after, rfl⟩
    exact hother after rfl rfl

section Steps

variable {φ : Phase} {done start tag stop pos stop' : Nat} {c : Char} {name : List Char}

theorem path_textSince (h : done ≤ start) (hpos : start ≤ pos) :
    ∃ done', Path .outside done (textSince start pos) .outside done' ∧ done' ≤ pos := by
  rw [textSince]
  split
  · next hlt => exact ⟨pos, .single (.text h hlt), Nat.le_refl pos⟩
  · exact ⟨done, .nil, Nat.le_trans h hpos⟩

/-- The end of a value leaves the attribute behind. -/
theorem path_valueSince {p : Pending} {quote : Quote} (hp : p.value = none) (h : done ≤ start)
    (hpos : start ≤ pos) :
    Path (.tag (some p)) done (valueSince start quote pos) (.tag none) (attributeStop quote pos) := by
  rw [valueSince]
  split
  · next hlt => exact .cons (.attributeValue hp h hlt) (.single (.attributeEnd (Nat.le_refl pos)))
  · exact .single (.attributeEnd (Nat.le_trans h hpos))

theorem reads_content (h : done ≤ start) (hpos : start ≤ pos) :
    (content name start).Reads .outside done pos := by
  rw [content]
  split <;> exact ⟨rfl, h, hpos⟩

theorem continues_inText (h : done ≤ start) (hpos : start ≤ pos) (hstop : pos < stop') :
    Continues .outside done stop' (inText start pos c) := by
  rw [inText]
  split
  · obtain ⟨done', hpath, hle⟩ := path_textSince h hpos
    exact ⟨.outside, done', hpath, rfl, hle, hstop⟩
  · exact .silent ⟨rfl, h, by omega⟩

theorem continues_inBeforeAttribute (h : done ≤ pos) (hstop : pos < stop') :
    Continues (.tag none) done stop' (inBeforeAttribute name pos c) := by
  rw [inBeforeAttribute]
  split
  · exact .emit (.openEnd h) (reads_content (Nat.le_refl _) hstop)
  split
  · exact .silent ⟨rfl, by omega⟩
  split
  · exact .silent ⟨rfl, by omega⟩
  · exact .silent ⟨rfl, h, hstop⟩

theorem continues_thenBeforeAttribute {ts : List Token} {done' : Nat}
    (hts : Path φ done ts (.tag none) done') (h : done' ≤ pos) (hstop : pos < stop') :
    Continues φ done stop' (thenBeforeAttribute ts name pos c) :=
  .append hts (continues_inBeforeAttribute h hstop)

theorem continues_inTagOpen (h : done ≤ start) (hpos : start < pos) (hstop : pos < stop') :
    Continues .outside done stop' (inTagOpen start pos c) := by
  rw [inTagOpen]
  split
  · exact .silent ⟨rfl, by omega⟩
  split
  · exact .silent ⟨rfl, by omega⟩
  split
  · exact .silent ⟨rfl, by omega, hstop⟩
  split
  · exact .silent ⟨rfl, h, by omega⟩
  · exact continues_inText h (by omega) hstop

theorem continues_inTagName (h : done < start) (hpos : start < pos) (hstop : pos < stop') :
    Continues .outside done stop' (inTagName start name pos c) := by
  rw [inTagName]
  split
  · exact continues_thenBeforeAttribute (.single (.openName h hpos)) (Nat.le_refl pos) hstop
  · exact .silent ⟨rfl, h, by omega⟩

theorem continues_inSelfClosing (h : done ≤ pos) (hstop : pos < stop') :
    Continues (.tag none) done stop' (inSelfClosing name pos c) := by
  rw [inSelfClosing]
  split
  · exact .emit (.selfClose h) ⟨rfl, Nat.le_refl _, hstop⟩
  split
  · exact .silent ⟨rfl, by omega⟩
  · exact continues_inBeforeAttribute h hstop

theorem continues_inEndTagOpen (h : done ≤ tag) (hpos : tag + 2 ≤ pos) (hstop : pos < stop') :
    Continues .outside done stop' (inEndTagOpen tag pos c) := by
  rw [inEndTagOpen]
  split
  · exact .silent ⟨rfl, h, by omega⟩
  split
  · exact .emit (.mistake (by omega)) ⟨rfl, by omega, hstop⟩
  · exact .silent ⟨rfl, h, hpos, hstop⟩

theorem continues_inEndTagName (h : done ≤ tag) (hstart : tag + 2 ≤ start) (hpos : start < pos)
    (hstop : pos < stop') : Continues .outside done stop' (inEndTagName tag start pos c) := by
  rw [inEndTagName]
  split
  · exact .emit (.close h hstart hpos (Nat.lt_succ_self pos)) ⟨rfl, Nat.le_refl _, hstop⟩
  split
  · exact .silent ⟨rfl, h, hstart, hpos, hstop⟩
  · exact .silent ⟨rfl, h, hstart, by omega⟩

theorem continues_inAfterEndTagName (h : done ≤ tag) (hstart : tag + 2 ≤ start)
    (hname : start < stop) (hpos : stop < pos) (hstop : pos < stop') :
    Continues .outside done stop' (inAfterEndTagName tag start stop pos c) := by
  rw [inAfterEndTagName]
  split
  · exact .emit (.close h hstart hname (by omega)) ⟨rfl, Nat.le_refl _, hstop⟩
  · exact .silent ⟨rfl, h, hstart, hname, by omega⟩

theorem continues_inAfterAttribute {p : Pending} {ts : List Token} {done' : Nat}
    (hp : p.value = none) (hts : Path φ done ts (.tag (some p)) done') (h : done' ≤ pos)
    (hstop : pos < stop') : Continues φ done stop' (inAfterAttribute ts name pos c) := by
  have hend : Path φ done (ts ++ [.attributeEnd .absent pos]) (.tag none) pos :=
    hts.append (.single (.attributeEnd h))
  rw [inAfterAttribute]
  split
  · exact ⟨_, _, hts, ⟨p, rfl, hp⟩, by omega⟩
  split
  · exact continues_thenBeforeAttribute hend (Nat.le_refl pos) hstop
  split
  · exact ⟨_, _, hts, ⟨p, rfl, hp⟩, by omega⟩
  · exact ⟨_, _, hend, rfl, Nat.le_refl pos, hstop⟩

theorem continues_inAttributeName (h : done ≤ start) (hpos : start < pos) (hstop : pos < stop') :
    Continues (.tag none) done stop' (inAttributeName name start pos c) := by
  rw [inAttributeName]
  split
  · exact continues_inAfterAttribute rfl (.single (.attributeName h hpos)) (Nat.le_refl pos) hstop
  · exact .silent ⟨rfl, h, by omega⟩

theorem continues_inUnquoted {p : Pending} (hp : p.value = none) (h : done ≤ start)
    (hpos : start ≤ pos) (hstop : pos < stop') :
    Continues (.tag (some p)) done stop' (inUnquoted name start pos c) := by
  rw [inUnquoted]
  split
  · exact continues_thenBeforeAttribute (path_valueSince hp h hpos) (Nat.le_refl pos) hstop
  · exact .silent ⟨⟨p, rfl, hp⟩, h, by omega⟩

theorem continues_inBeforeValue {p : Pending} (hp : p.value = none) (h : done ≤ pos)
    (hstop : pos < stop') :
    Continues (.tag (some p)) done stop' (inBeforeValue name pos c) := by
  rw [inBeforeValue]
  split
  · exact .silent ⟨⟨p, rfl, hp⟩, by omega, hstop⟩
  split
  · exact .silent ⟨⟨p, rfl, hp⟩, by omega, hstop⟩
  split
  · exact .silent ⟨⟨p, rfl, hp⟩, by omega⟩
  · exact continues_inUnquoted hp h (Nat.le_refl pos) hstop

theorem continues_inDeclaration (h : done ≤ pos) (hstop : pos < stop') :
    Continues .outside done stop' (inDeclaration pos c) := by
  rw [inDeclaration]
  split
  · exact .silent ⟨rfl, by omega, hstop⟩
  · exact .silent ⟨rfl, by omega⟩

theorem continues_inComment {rest : List Char} (h : done ≤ start) (hpos : start ≤ pos)
    (hstop : pos < stop') : Continues .outside done stop' (inComment start pos c rest) := by
  rw [inComment.eq_def]
  split
  · exact .emit (.comment h hpos) ⟨rfl, by omega⟩
  · exact .silent ⟨rfl, h, by omega⟩

theorem continues_inRawText {rest : List Char} (h : done ≤ start) (hpos : start ≤ pos)
    (hstop : pos < stop') : Continues .outside done stop' (inRawText name start pos c rest) := by
  rw [inRawText]
  split
  · obtain ⟨done', hpath, hle⟩ := path_textSince h hpos
    exact ⟨.outside, done', hpath, rfl, hle, hstop⟩
  · exact .silent ⟨rfl, h, by omega⟩

end Steps

/-- A step keeps the promise of the state that it is made in. -/
theorem State.Reads.step {s : State} {φ : Phase} {done pos : Nat} (h : s.Reads φ done pos) (c : Char)
    (rest : List Char) : Continues φ done (pos + c.utf8Size) (step s pos c rest) := by
  have hstop : pos < pos + c.utf8Size := Nat.lt_add_of_pos_right c.utf8Size_pos
  cases s with
  | text start =>
    obtain ⟨rfl, hdone, hpos⟩ := h
    exact continues_inText hdone hpos hstop
  | tagOpen start =>
    obtain ⟨rfl, hdone, hpos⟩ := h
    exact continues_inTagOpen hdone hpos hstop
  | tagName start name =>
    obtain ⟨rfl, hdone, hpos⟩ := h
    exact continues_inTagName hdone hpos hstop
  | selfClosing name =>
    obtain ⟨rfl, hdone⟩ := h
    exact continues_inSelfClosing hdone hstop
  | endTagOpen tag =>
    obtain ⟨rfl, hdone, hpos⟩ := h
    exact continues_inEndTagOpen hdone hpos hstop
  | endTagName tag start =>
    obtain ⟨rfl, hdone, hstart, hpos⟩ := h
    exact continues_inEndTagName hdone hstart hpos hstop
  | afterEndTagName tag start stop =>
    obtain ⟨rfl, hdone, hstart, hname, hpos⟩ := h
    exact continues_inAfterEndTagName hdone hstart hname hpos hstop
  | beforeAttribute name =>
    obtain ⟨rfl, hdone⟩ := h
    exact continues_inBeforeAttribute hdone hstop
  | attributeName name start =>
    obtain ⟨rfl, hdone, hpos⟩ := h
    exact continues_inAttributeName hdone hpos hstop
  | afterAttribute name =>
    obtain ⟨⟨p, rfl, hp⟩, hdone⟩ := h
    exact continues_inAfterAttribute hp .nil hdone hstop
  | beforeValue name =>
    obtain ⟨⟨p, rfl, hp⟩, hdone⟩ := h
    exact continues_inBeforeValue hp hdone hstop
  | doubleQuoted name start =>
    obtain ⟨⟨p, rfl, hp⟩, hdone, hpos⟩ := h
    rw [Markup.step]
    split
    · exact ⟨_, _, path_valueSince hp hdone hpos, rfl, hstop⟩
    · exact .silent ⟨⟨p, rfl, hp⟩, hdone, by omega⟩
  | singleQuoted name start =>
    obtain ⟨⟨p, rfl, hp⟩, hdone, hpos⟩ := h
    rw [Markup.step]
    split
    · exact ⟨_, _, path_valueSince hp hdone hpos, rfl, hstop⟩
    · exact .silent ⟨⟨p, rfl, hp⟩, hdone, by omega⟩
  | unquoted name start =>
    obtain ⟨⟨p, rfl, hp⟩, hdone, hpos⟩ := h
    exact continues_inUnquoted hp hdone (by omega) hstop
  | declarationOpen =>
    obtain ⟨rfl, hdone⟩ := h
    rw [Markup.step]
    split
    · exact .silent ⟨rfl, by omega⟩
    · exact continues_inDeclaration hdone hstop
  | declaration =>
    obtain ⟨rfl, hdone⟩ := h
    exact continues_inDeclaration hdone hstop
  | commentOpen =>
    obtain ⟨rfl, hdone⟩ := h
    rw [Markup.step]
    split
    · exact .silent ⟨rfl, by omega, hstop⟩
    · exact continues_inDeclaration hdone hstop
  | comment start =>
    obtain ⟨rfl, hdone, hpos⟩ := h
    exact continues_inComment hdone hpos hstop
  | commentDash =>
    obtain ⟨rfl, hdone⟩ := h
    exact .silent ⟨rfl, by omega⟩
  | commentBracket =>
    obtain ⟨rfl, hdone⟩ := h
    exact .silent ⟨rfl, by omega, hstop⟩
  | rawText name start =>
    obtain ⟨rfl, hdone, hpos⟩ := h
    exact continues_inRawText hdone hpos hstop

/-- The tokens at the end of a text follow those before it, and stay inside the text. -/
theorem State.Reads.atEnd {s : State} {φ : Phase} {done pos : Nat} (h : s.Reads φ done pos) :
    ∃ φ' done', Path φ done (atEnd s pos) φ' done' ∧ done' ≤ pos := by
  cases s with
  | text start =>
    obtain ⟨rfl, hdone, hpos⟩ := h
    exact ⟨_, path_textSince hdone hpos⟩
  | rawText name start =>
    obtain ⟨rfl, hdone, hpos⟩ := h
    exact ⟨_, path_textSince hdone hpos⟩
  | tagName start name =>
    obtain ⟨rfl, hdone, hpos⟩ := h
    exact ⟨_, _, .cons (.openName hdone hpos) (.single (.mistake (Nat.le_refl pos))), Nat.le_refl pos⟩
  | attributeName name start =>
    obtain ⟨rfl, hdone, hpos⟩ := h
    exact ⟨_, _, .cons (.attributeName hdone hpos) (.cons (.attributeEnd (Nat.le_refl pos))
      (.single (.mistake (Nat.le_refl pos)))), Nat.le_refl pos⟩
  | afterAttribute name =>
    obtain ⟨⟨p, rfl, hp⟩, hdone⟩ := h
    exact ⟨_, _, .cons (.attributeEnd hdone) (.single (.mistake (Nat.le_refl pos))), Nat.le_refl pos⟩
  | doubleQuoted name start =>
    obtain ⟨⟨p, rfl, hp⟩, hdone, hpos⟩ := h
    exact ⟨_, _, (path_valueSince hp hdone hpos).append (.single (.mistake (Nat.le_refl pos))),
      Nat.le_refl pos⟩
  | singleQuoted name start =>
    obtain ⟨⟨p, rfl, hp⟩, hdone, hpos⟩ := h
    exact ⟨_, _, (path_valueSince hp hdone hpos).append (.single (.mistake (Nat.le_refl pos))),
      Nat.le_refl pos⟩
  | unquoted name start =>
    obtain ⟨⟨p, rfl, hp⟩, hdone, hpos⟩ := h
    exact ⟨_, _, (path_valueSince hp hdone (Nat.le_of_lt hpos)).append
      (.single (.mistake (Nat.le_refl pos))), Nat.le_refl pos⟩
  | comment start =>
    obtain ⟨rfl, hdone, hpos⟩ := h
    exact ⟨_, _, .cons (.mistake (by omega)) (.single (.comment hdone hpos)), Nat.le_refl pos⟩
  | tagOpen start =>
    obtain ⟨rfl, hdone, hpos⟩ := h
    exact ⟨_, _, .nil, by omega⟩
  | endTagOpen tag =>
    obtain ⟨rfl, hdone, hpos⟩ := h
    exact ⟨_, _, .single (.mistake (by omega)), by omega⟩
  | endTagName tag start =>
    obtain ⟨rfl, hdone, hstart, hpos⟩ := h
    exact ⟨_, _, .single (.mistake (by omega)), by omega⟩
  | afterEndTagName tag start stop =>
    obtain ⟨rfl, hdone, hstart, hname, hpos⟩ := h
    exact ⟨_, _, .single (.mistake (by omega)), by omega⟩
  | selfClosing name => exact ⟨_, _, .single (.mistake h.2), h.2⟩
  | beforeAttribute name => exact ⟨_, _, .single (.mistake h.2), h.2⟩
  | beforeValue name => exact ⟨_, _, .single (.mistake h.2), h.2⟩
  | declarationOpen => exact ⟨_, _, .nil, h.2⟩
  | declaration => exact ⟨_, _, .nil, h.2⟩
  | commentOpen => exact ⟨_, _, .nil, h.2⟩
  | commentDash => exact ⟨_, _, .nil, h.2⟩
  | commentBracket => exact ⟨_, _, .nil, h.2⟩

/-! ## Runs -/

theorem State.Reads.scan {s : State} {φ : Phase} {done pos : Nat} (h : s.Reads φ done pos)
    (cs : List Char) :
    ∃ ts, Markup.scan s pos cs = ts ++ [.finish] ∧
      ∃ φ' done', Path φ done ts φ' done' ∧ done' ≤ pos + byteLength cs := by
  induction cs generalizing s φ done pos with
  | nil => exact ⟨_, rfl, h.atEnd⟩
  | cons c rest ih =>
    obtain ⟨φ', done', hpath, hnext⟩ := h.step c rest
    obtain ⟨ts, hscan, φ'', done'', hrest, hle⟩ := ih hnext
    refine ⟨(Markup.step s pos c rest).2 ++ ts, ?_, φ'', done'', hpath.append hrest, ?_⟩
    · rw [Markup.scan, hscan, List.append_assoc]
    · rw [byteLength_cons, ← Nat.add_assoc]
      exact hle

/-- The tokens of a text are a path to somewhere inside the text, and then the end. -/
theorem tokens_eq (text : String) :
    ∃ ts, tokens text = ts ++ [.finish] ∧
      ∃ φ done, Path .outside 0 ts φ done ∧ done ≤ text.utf8ByteSize := by
  have hstart : (State.text 0).Reads .outside 0 0 := ⟨rfl, Nat.le_refl 0, Nat.le_refl 0⟩
  have hscan := hstart.scan text.toList
  rw [Nat.zero_add, byteLength_toList] at hscan
  exact hscan

end Markup
end Inlay
