import Inlay.Standalone.HostToken
import Inlay.Proofs.Text.Bytes

/-!
# Steps of the reader of host source

While source is read, what is open changes in a few ways only: a token comes to the innermost
frame, a frame is opened inside it, and the innermost frame is closed and comes to the one around
it.  `Kept` collects what a property of open frames at a position has to do with these ways, and
`Kept.readTokens` says that such a property holds at the end of all source that is read.

A hole begins at a dollar sign, but only the brace behind that shows that it is one.  So behind a
dollar sign a property is asked for at the place of the sign as well.
-/

namespace Inlay
namespace Standalone
namespace HostReader

/-- What is open, the innermost frame first. -/
def Reader.frames (r : Reader) : List Frame := r.top :: r.outer

/-- A property of open frames before a position that every step of the reader keeps. -/
structure Kept (source : String) (P : Nat → List Frame → Prop) : Prop where
  later : ∀ {pos stop fs}, P pos fs → pos ≤ stop → P stop fs
  leaf : ∀ {pos f fs}, P pos (f :: fs) → ∀ span kind, P pos (f.add (.leaf span kind) :: fs)
  openGroup : ∀ {pos stop fs}, P pos fs → pos < stop → ∀ b, P stop (.group pos b [] :: fs)
  openTemplate : ∀ {pos fs}, P pos fs → IsBoundary source (pos + 1) →
    P (pos + 1) (.template pos [] :: fs)
  openHole : ∀ {start stop fs}, P start fs → IsBoundary source start → start < stop →
    P stop (.hole start [] :: fs)
  closeGroup : ∀ {pos stop start b read f fs}, P pos (.group start b read :: f :: fs) →
    pos < stop → P stop (f.add (.group (Span.of start stop) b read.reverse) :: fs)
  closeHole : ∀ {pos stop start read outer holes fs},
    P pos (.hole start read :: .template outer holes :: fs) → pos < stop →
    IsBoundary source stop →
    P stop (.template outer ((Span.of start stop, read.reverse) :: holes) :: fs)
  closeTemplate : ∀ {pos start holes f fs}, P pos (.template start holes :: f :: fs) →
    IsBoundary source pos →
    P (pos + 1) (f.add (.template (Span.of start (pos + 1)) holes.reverse) :: fs)

/-- At a position, what is open has a property, and it had it at the dollar sign that may begin
a hole. -/
structure Reader.Holds (source : String) (P : Nat → List Frame → Prop) (pos : Nat) (r : Reader) :
    Prop where
  frames : P pos r.frames
  dollar : ∀ start, r.state = .templateDollar start →
    start < pos ∧ IsBoundary source start ∧ P start r.frames

section Steps

variable {source : String} {P : Nat → List Frame → Prop} {pos stop : Nat} {r r' : Reader}
  {c : Char}

/-- A step that goes on leads to a reader whose frames have the property. -/
def Leads (source : String) (P : Nat → List Frame → Prop) (pos : Nat) (next : Option Reader) :
    Prop :=
  ∀ r, next = some r → r.Holds source P pos

/-- Only the state behind a dollar sign asks for the property at another place. -/
theorem leads_of_frames (hr : P pos r.frames) (hs : ∀ start, r.state ≠ .templateDollar start) :
    Leads source P pos (some r) := by
  rintro r' hr'
  rw [← Option.some.inj hr']
  exact ⟨hr, fun start hstart => absurd hstart (hs start)⟩

theorem leads_none : Leads source P pos none := fun _ h => absurd h.symm (Option.some_ne_none _)

theorem Leads.ite {p : Prop} [Decidable p] {x y : Option Reader} (hx : p → Leads source P pos x)
    (hy : ¬ p → Leads source P pos y) : Leads source P pos (if p then x else y) := by
  split
  · next hp => exact hx hp
  · next hp => exact hy hp

namespace Kept

/-- Staying among the same frames. -/
theorem goOn (h : Kept source P) (hr : P pos r.frames) (hle : pos ≤ stop) {s : State}
    (hs : ∀ start, s ≠ .templateDollar start) :
    Leads source P stop (some { r with state := s }) :=
  leads_of_frames (r := { r with state := s }) (h.later hr hle) hs

theorem emit (h : Kept source P) (hr : P pos r.frames) (span : Span) (kind : Leaf) :
    P pos (r.emit (.leaf span kind)).frames :=
  h.leaf hr span kind

theorem emits (h : Kept source P) (hr : P pos r.frames) (hle : pos ≤ stop) (span : Span)
    (kind : Leaf) : Leads source P stop (some (r.emit (.leaf span kind))) :=
  leads_of_frames (r := r.emit (.leaf span kind)) (h.emit (h.later hr hle) span kind) nofun

theorem enterGroup (h : Kept source P) (hr : P pos r.frames) (hlt : pos < stop) (b : Bracket) :
    Leads source P stop (some (r.enter .code (.group pos b []))) :=
  leads_of_frames (r := r.enter .code (.group pos b [])) (h.openGroup hr hlt b) nofun

theorem close (h : Kept source P) (hr : P pos r.frames) (hlt : pos < stop) (b : Bracket) :
    Leads source P stop (r.close b stop) := by
  rw [Reader.close.eq_def]
  split
  · next start b' read f rest htop houter =>
    refine .ite (fun hb => ?_) fun _ => leads_none
    rw [Reader.frames, htop, houter, ← hb] at hr
    exact leads_of_frames (h.closeGroup hr hlt) nofun
  · exact leads_none

theorem closeCurly (h : Kept source P) (hr : P pos r.frames) (hlt : pos < stop)
    (hstop : IsBoundary source stop) : Leads source P stop (r.closeCurly stop) := by
  rw [Reader.closeCurly.eq_def]
  split
  · next start read outer holes rest htop houter =>
    refine .ite (fun _ => leads_none) fun _ => ?_
    rw [Reader.frames, htop, houter] at hr
    exact leads_of_frames (h.closeHole hr hlt hstop) nofun
  · exact h.close hr hlt _

theorem closesTemplate (h : Kept source P) (hr : P pos r.frames) (hpos : IsBoundary source pos) :
    Leads source P (pos + 1) (r.closeTemplate (pos + 1)) := by
  rw [Reader.closeTemplate.eq_def]
  split
  · next start holes f rest htop houter =>
    rw [Reader.frames, htop, houter] at hr
    exact leads_of_frames (h.closeTemplate hr hpos) nofun
  · exact leads_none

theorem code (h : Kept source P) (hr : P pos r.frames)
    (hstop : IsBoundary source (pos + c.utf8Size)) :
    Leads source P (pos + c.utf8Size) (r.code pos c) := by
  have hlt : pos < pos + c.utf8Size := Nat.lt_add_of_pos_right c.utf8Size_pos
  have hle := Nat.le_of_lt hlt
  rw [Reader.code]
  refine .ite (fun _ => h.goOn hr hle nofun) fun _ => ?_
  refine .ite (fun _ => h.goOn hr hle nofun) fun _ => ?_
  refine .ite (fun _ => h.goOn hr hle nofun) fun _ => ?_
  refine .ite (fun hquote => ?_) fun _ => ?_
  · obtain rfl : c = '\x60' := eq_of_beq hquote
    exact leads_of_frames (r := r.enter .template (.template pos [])) (h.openTemplate hr hstop) nofun
  refine .ite (fun _ => h.enterGroup hr hlt _) fun _ => ?_
  refine .ite (fun _ => h.enterGroup hr hlt _) fun _ => ?_
  refine .ite (fun _ => h.enterGroup hr hlt _) fun _ => ?_
  refine .ite (fun _ => h.close hr hlt _) fun _ => ?_
  refine .ite (fun _ => h.close hr hlt _) fun _ => ?_
  refine .ite (fun _ => h.closeCurly hr hlt hstop) fun _ => ?_
  refine .ite (fun _ => h.goOn hr hle nofun) fun _ => ?_
  refine .ite (fun _ => h.goOn hr hle nofun) fun _ => ?_
  refine .ite (fun _ => h.emits hr hle _ _) fun _ => ?_
  refine .ite (fun _ => h.goOn hr hle nofun) fun _ => ?_
  refine .ite (fun _ => h.goOn hr hle nofun) fun _ => ?_
  exact .ite (fun _ => h.goOn hr hle nofun) fun _ => h.emits hr hle _ _

theorem foldl_emit_dot (h : Kept source P) (hr : P pos r.frames) (start : Nat) (is : List Nat) :
    P pos (is.foldl
      (fun r i => r.emit (.leaf (Span.of (start + i) (start + i + 1)) .dot)) r).frames := by
  induction is generalizing r with
  | nil => exact hr
  | cons i rest ih => exact ih (h.emit hr _ _)

theorem flush (h : Kept source P) (hr : P pos r.frames) (hflush : r.flush pos = some r') :
    P pos r'.frames := by
  rw [Reader.flush.eq_def] at hflush
  split at hflush
  case h_8 start count _ =>
    rw [← Option.some.inj hflush]
    exact h.foldl_emit_dot hr start _
  case h_9 => cases hflush
  all_goals rw [← Option.some.inj hflush]
  · exact hr
  · exact hr
  all_goals exact h.emit hr _ _

theorem next (h : Kept source P) (hr : P pos r.frames)
    (hstop : IsBoundary source (pos + c.utf8Size)) :
    Leads source P (pos + c.utf8Size) (r.next pos c) := by
  intro r'' hnext
  obtain ⟨r', hflush, hcode⟩ := Option.bind_eq_some_iff.mp hnext
  exact h.code (h.flush hr hflush) hstop r'' hcode

theorem templateChar (h : Kept source P) (hr : P pos r.frames) (hpos : IsBoundary source pos) :
    Leads source P (pos + c.utf8Size) (r.templateChar pos c) := by
  have hlt : pos < pos + c.utf8Size := Nat.lt_add_of_pos_right c.utf8Size_pos
  have hle := Nat.le_of_lt hlt
  rw [Reader.templateChar]
  refine .ite (fun _ => h.goOn hr hle nofun) fun _ => ?_
  refine .ite (fun hquote => ?_) fun _ => ?_
  · obtain rfl : c = '\x60' := eq_of_beq hquote
    exact h.closesTemplate hr hpos
  refine .ite (fun _ => ?_) fun _ => h.goOn hr hle nofun
  rintro r' hr'
  rw [← Option.some.inj hr']
  refine ⟨h.later hr hle, fun start hs => ?_⟩
  obtain rfl : pos = start := State.templateDollar.inj hs
  exact ⟨hlt, hpos, hr⟩

theorem step (h : Kept source P) (hr : r.Holds source P pos) (hpos : IsBoundary source pos)
    (hstop : IsBoundary source (pos + c.utf8Size)) :
    Leads source P (pos + c.utf8Size) (r.step pos c) := by
  obtain ⟨hframes, hdollar⟩ := hr
  have hle : pos ≤ pos + c.utf8Size := Nat.le_add_right _ _
  have hsame : (∀ start, r.state ≠ .templateDollar start) →
      Leads source P (pos + c.utf8Size) (some r) := fun hs => h.goOn hframes hle hs
  rw [Reader.step.eq_def]
  split
  · exact h.code hframes hstop
  · exact .ite (fun _ => h.goOn hframes hle nofun) fun _ => h.next hframes hstop
  · next hs => exact .ite (fun _ => hsame (by simp [hs])) fun _ => h.next hframes hstop
  · exact .ite (fun _ => h.goOn hframes hle nofun) fun _ => h.next hframes hstop
  · next hs =>
    refine .ite (fun _ => h.emits hframes hle _ _) fun _ => ?_
    refine .ite (fun _ => h.goOn hframes hle nofun) fun _ => ?_
    exact .ite (fun _ => leads_none) fun _ => hsame (by simp [hs])
  · exact .ite (fun _ => h.goOn hframes hle nofun) fun _ => h.goOn hframes hle nofun
  · refine .ite (fun _ => h.goOn hframes hle nofun) fun _ => ?_
    refine .ite (fun _ => h.emits hframes hle _ _) fun _ => ?_
    refine .ite (fun _ => h.goOn hframes hle nofun) fun _ => ?_
    exact .ite (fun _ => leads_none) fun _ => h.goOn hframes hle nofun
  · refine .ite (fun _ => h.goOn hframes hle nofun) fun _ => ?_
    exact .ite (fun _ => h.goOn hframes hle nofun) fun _ => h.next hframes hstop
  · next hs => exact .ite (fun _ => h.goOn hframes hle nofun) fun _ => hsame (by simp [hs])
  · exact h.goOn hframes hle fun _ hs => by split at hs <;> cases hs
  · refine h.goOn hframes hle fun _ hs => ?_
    split at hs
    · cases hs
    · split at hs <;> cases hs
  · refine .ite (fun _ => ?_) fun _ => ?_
    · exact .ite (fun _ => h.emits hframes hle _ _) fun _ => h.goOn hframes hle nofun
    · exact .ite (fun _ => h.goOn hframes hle nofun) fun _ => h.next hframes hstop
  · exact .ite (fun _ => h.emits hframes hle _ _) fun _ => h.next hframes hstop
  · exact h.templateChar hframes hpos
  · exact h.goOn hframes hle nofun
  · next start hs =>
    -- The hole begins at the dollar sign, where what is around it has the property.
    obtain ⟨hlt, hboundary, hbefore⟩ := hdollar start hs
    refine .ite (fun _ => ?_) fun _ => h.templateChar hframes hpos
    exact leads_of_frames (r := r.enter .code (.hole start []))
      (h.openHole hbefore hboundary (Nat.lt_of_lt_of_le hlt hle)) nofun

/-- Reading on from a boundary keeps the property up to the end. -/
theorem run (h : Kept source P) {front cs : List Char} (hr : r.Holds source P (byteLength front))
    (hsplit : source.toList = front ++ cs) {tokens : List Token}
    (hrun : r.run (byteLength front) cs = some tokens) :
    ∃ outer, P source.utf8ByteSize (.source tokens.reverse :: outer) := by
  induction cs generalizing r front with
  | nil =>
    obtain ⟨r', hflush, htop⟩ := Option.bind_eq_some_iff.mp hrun
    have hframes := h.flush hr.frames hflush
    rw [List.append_nil] at hsplit
    rw [← hsplit, byteLength_toList, Reader.frames] at hframes
    split at htop
    · next read hread =>
      rw [← Option.some.inj htop, List.reverse_reverse, ← hread]
      exact ⟨r'.outer, hframes⟩
    · cases htop
  | cons c rest ih =>
    obtain ⟨r', hstep, hrest⟩ := Option.bind_eq_some_iff.mp hrun
    have hsplit' : source.toList = (front ++ [c]) ++ rest := by
      rw [hsplit, List.append_assoc, List.singleton_append]
    have hlength : byteLength (front ++ [c]) = byteLength front + c.utf8Size := by
      rw [byteLength_append, byteLength_cons, byteLength_nil, Nat.add_zero]
    have hpos : IsBoundary source (byteLength front) := ⟨front, _, hsplit, rfl⟩
    have hstop : IsBoundary source (byteLength front + c.utf8Size) := ⟨_, _, hsplit', hlength⟩
    have hnext := h.step hr hpos hstop r' hstep
    rw [← hlength] at hnext hrest
    exact ih hnext hsplit' hrest

/-- A property that holds before all source holds of the tokens that are read. -/
theorem readTokens (h : Kept source P) (hstart : P 0 [.source []]) {tokens : List Token}
    (hread : readTokens? source = some tokens) :
    ∃ outer, P source.utf8ByteSize (.source tokens.reverse :: outer) :=
  have holds : Reader.Holds source P (byteLength []) {} := ⟨hstart, nofun⟩
  h.run holds rfl hread

end Kept
end Steps
end HostReader
end Standalone
end Inlay
