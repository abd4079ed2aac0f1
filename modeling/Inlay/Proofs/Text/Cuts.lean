import Inlay.Proofs.Text.Bytes
import Inlay.Proofs.Text.Spans
import Mathlib.Logic.Basic

/-!
# Cuts of texts

`charsIn` lists the characters that begin in a range.  Of joined texts it is the list for the one
and the list for the other, while a cut by bytes has to be made in one text.  Where the ends
of the range do not lie inside a character the two are the same, which is `exists_mid`.

A piece can be cut again, and the piece of the piece is then a piece of the text:
`Span.slice?_slice?`.
-/

namespace Inlay

/-! ## Characters in a range -/

/-- The characters that begin in a range, of those that stand from `pos` on. -/
def charsIn (v : Span) (pos : Nat) : List Char → List Char
  | [] => []
  | c :: cs =>
    if v.contains pos then c :: charsIn v (pos + c.utf8Size) cs
    else charsIn v (pos + c.utf8Size) cs

/-- The offset lies between two of the characters that stand from `pos` on, or outside of them. -/
def FallsBetween (offset pos : Nat) : List Char → Prop
  | [] => True
  | c :: cs =>
    (offset ≤ pos ∨ pos + c.utf8Size ≤ offset) ∧ FallsBetween offset (pos + c.utf8Size) cs

section Chars

variable {v : Span} {offset pos : Nat} {cs front mid back : List Char}

theorem charsIn_append (v : Span) (pos : Nat) (xs ys : List Char) :
    charsIn v pos (xs ++ ys) = charsIn v pos xs ++ charsIn v (pos + byteLength xs) ys := by
  induction xs generalizing pos with
  | nil => rfl
  | cons c xs ih =>
    rw [List.cons_append, charsIn, charsIn, ih, byteLength_cons, ← Nat.add_assoc]
    split <;> rfl

theorem charsIn_before (h : pos + byteLength cs ≤ v.start) : charsIn v pos cs = [] := by
  induction cs generalizing pos with
  | nil => rfl
  | cons c cs ih =>
    have hc := c.utf8Size_pos
    rw [byteLength_cons] at h
    have houtside : ¬ v.contains pos = true := by
      rw [Span.contains_iff]
      omega
    rw [charsIn, if_neg houtside, ih (by omega)]

theorem charsIn_behind (h : v.stop ≤ pos) : charsIn v pos cs = [] := by
  induction cs generalizing pos with
  | nil => rfl
  | cons c cs ih =>
    have houtside : ¬ v.contains pos = true := by
      rw [Span.contains_iff]
      omega
    rw [charsIn, if_neg houtside, ih (by omega)]

theorem charsIn_inside (hstart : v.start ≤ pos) (hstop : pos + byteLength cs ≤ v.stop) :
    charsIn v pos cs = cs := by
  induction cs generalizing pos with
  | nil => rfl
  | cons c cs ih =>
    have hc := c.utf8Size_pos
    rw [byteLength_cons] at hstop
    have hinside : v.contains pos = true := Span.contains_iff.mpr ⟨hstart, by omega⟩
    rw [charsIn, if_pos hinside, ih (by omega) (by omega)]

theorem charsIn_mid (hfront : front = [] ∨ pos + byteLength front ≤ v.start)
    (hstart : v.start ≤ pos + byteLength front)
    (hstop : pos + byteLength front + byteLength mid ≤ v.stop)
    (hback : back = [] ∨ v.stop ≤ pos + byteLength front + byteLength mid) :
    charsIn v pos (front ++ mid ++ back) = mid := by
  have hbefore : charsIn v pos front = [] := by
    rcases hfront with rfl | hfront
    · rfl
    · exact charsIn_before hfront
  have hbehind : charsIn v (pos + byteLength front + byteLength mid) back = [] := by
    rcases hback with rfl | hback
    · rfl
    · exact charsIn_behind hback
  rw [charsIn_append, charsIn_append, hbefore, charsIn_inside hstart hstop, byteLength_append,
    ← Nat.add_assoc, hbehind, List.nil_append, List.append_nil]

theorem fallsBetween_append {xs ys : List Char} :
    FallsBetween offset pos (xs ++ ys) ↔
      FallsBetween offset pos xs ∧ FallsBetween offset (pos + byteLength xs) ys := by
  induction xs generalizing pos with
  | nil => simp [FallsBetween]
  | cons c xs ih =>
    rw [List.cons_append, FallsBetween, FallsBetween, ih, byteLength_cons, ← Nat.add_assoc,
      and_assoc]

theorem fallsBetween_before (h : pos + byteLength cs ≤ offset) : FallsBetween offset pos cs := by
  induction cs generalizing pos with
  | nil => trivial
  | cons c cs ih =>
    rw [byteLength_cons] at h
    exact ⟨.inr (by omega), ih (by omega)⟩

theorem fallsBetween_behind (h : offset ≤ pos) : FallsBetween offset pos cs := by
  induction cs generalizing pos with
  | nil => trivial
  | cons c cs ih => exact ⟨.inl h, ih (by omega)⟩

theorem IsBoundary.fallsBetween {text : String} (h : IsBoundary text offset) (pos : Nat) :
    FallsBetween (pos + offset) pos text.toList := by
  obtain ⟨front, rest, hsplit, hfront⟩ := h
  rw [hsplit, fallsBetween_append, hfront]
  exact ⟨fallsBetween_before (by omega), fallsBetween_behind (Nat.le_refl _)⟩

/-- An offset between characters cuts them in two. -/
theorem FallsBetween.exists_split (h : FallsBetween offset pos cs) (hstart : pos ≤ offset)
    (hstop : offset ≤ pos + byteLength cs) :
    ∃ front back, cs = front ++ back ∧ pos + byteLength front = offset := by
  induction cs generalizing pos with
  | nil => exact ⟨[], [], rfl, Nat.le_antisymm hstart hstop⟩
  | cons c cs ih =>
    rcases h with ⟨hle | hle, hrest⟩
    · exact ⟨[], c :: cs, rfl, Nat.le_antisymm hstart hle⟩
    · rw [byteLength_cons] at hstop
      obtain ⟨front, back, rfl, hfront⟩ := ih hrest hle (by omega)
      exact ⟨c :: front, back, rfl, by rw [byteLength_cons]; omega⟩

/-- What a range holds of characters that stand there from `pos` on can be cut out. -/
theorem exists_mid (hcs : FallsBetween v.start pos cs ∧ FallsBetween v.stop pos cs)
    {visible : Span} (hstart : visible.start = max pos v.start)
    (hstop : visible.stop = min (pos + byteLength cs) v.stop)
    (hle : visible.start ≤ visible.stop) :
    ∃ front mid back, cs = front ++ mid ++ back ∧ pos + byteLength front = visible.start ∧
      byteLength mid = visible.length ∧ charsIn v pos cs = mid := by
  have hbetweenStart : FallsBetween visible.start pos cs := by
    rcases Nat.le_total pos v.start with h | h
    · rw [hstart, Nat.max_eq_right h]
      exact hcs.1
    · rw [hstart, Nat.max_eq_left h]
      exact fallsBetween_behind (Nat.le_refl _)
  have hbetweenStop : FallsBetween visible.stop pos cs := by
    rcases Nat.le_total (pos + byteLength cs) v.stop with h | h
    · rw [hstop, Nat.min_eq_left h]
      exact fallsBetween_before (Nat.le_refl _)
    · rw [hstop, Nat.min_eq_right h]
      exact hcs.2
  obtain ⟨front, rest, hsplit, hfront⟩ := hbetweenStart.exists_split (by omega) (by omega)
  obtain ⟨front', back, hsplit', hfront'⟩ := hbetweenStop.exists_split (by omega) (by omega)
  obtain ⟨mid, rfl, -⟩ := exists_append_of_byteLength_le (hsplit.symm.trans hsplit') (by omega)
  rw [byteLength_append] at hfront'
  have hlength := congrArg byteLength hsplit'
  rw [byteLength_append, byteLength_append] at hlength
  have hmid : byteLength mid = visible.length := by
    rw [Span.length]
    omega
  refine ⟨front, mid, back, hsplit', hfront, hmid, ?_⟩
  rw [hsplit']
  refine charsIn_mid ?_ (by omega) (by omega) ?_
  · by_cases hempty : byteLength front = 0
    · exact .inl (eq_nil_of_byteLength_eq_zero hempty)
    · exact .inr (by omega)
  · by_cases hempty : byteLength back = 0
    · exact .inl (eq_nil_of_byteLength_eq_zero hempty)
    · exact .inr (by omega)

end Chars

/-! ## Cutting twice -/

theorem dropBytes?_append_add (xs ys : List Char) (n : Nat) :
    dropBytes? (xs ++ ys) (byteLength xs + n) = dropBytes? ys n := by
  induction xs with
  | nil => rw [byteLength_nil, Nat.zero_add, List.nil_append]
  | cons c xs ih =>
    rw [List.cons_append, byteLength_cons, Nat.add_assoc, dropBytes?_cons_add, ih]

theorem takeBytes?_append_of_le {xs : List Char} {n : Nat} (h : n ≤ byteLength xs)
    (ys : List Char) : takeBytes? (xs ++ ys) n = takeBytes? xs n := by
  induction xs generalizing n with
  | nil =>
    obtain rfl : n = 0 := Nat.le_zero.mp h
    cases ys <;> rfl
  | cons c xs ih =>
    cases n with
    | zero => rfl
    | succ n =>
      rw [byteLength_cons] at h
      rw [List.cons_append, takeBytes?, takeBytes?]
      split
      · rw [ih (by omega)]
      · rfl

theorem dropBytes?_append_of_le {xs : List Char} {n : Nat} (h : n ≤ byteLength xs)
    (ys : List Char) : dropBytes? (xs ++ ys) n = (dropBytes? xs n).map (· ++ ys) := by
  induction xs generalizing n with
  | nil =>
    obtain rfl : n = 0 := Nat.le_zero.mp h
    cases ys <;> rfl
  | cons c xs ih =>
    cases n with
    | zero => rfl
    | succ n =>
      rw [byteLength_cons] at h
      rw [List.cons_append, dropBytes?, dropBytes?]
      split
      · rw [ih (by omega)]
      · rfl

/-- A piece of a piece is a piece of the text. -/
theorem Span.slice?_slice? {r r' : Span} {text piece : String} (h : r.slice? text = some piece)
    (hstop : r'.stop ≤ r.length) : r'.slice? piece = (r'.shift r.start).slice? text := by
  obtain ⟨-, front, back, hsplit, hfront, hpiece⟩ := Span.slice?_eq_some_iff.mp h
  have hlength : (r'.shift r.start).stop - (r'.shift r.start).start = r'.stop - r'.start :=
    Nat.add_sub_add_right _ _ _
  have hordered : (r'.shift r.start).start ≤ (r'.shift r.start).stop ↔ r'.start ≤ r'.stop :=
    Nat.add_le_add_iff_right
  rw [slice?, slice?, hlength, if_congr hordered rfl rfl]
  split
  · next hle =>
    have hdrop : dropBytes? text.toList (r'.shift r.start).start =
        (dropBytes? piece.toList r'.start).map (· ++ back) := by
      have hstart : (r'.shift r.start).start = byteLength front + r'.start := by
        rw [hfront, Nat.add_comm]
        rfl
      rw [hsplit, hstart, List.append_assoc, dropBytes?_append_add,
        dropBytes?_append_of_le (by rw [hpiece]; rw [length] at hstop; omega)]
    rw [hdrop]
    cases hrest : dropBytes? piece.toList r'.start with
    | none => rfl
    | some rest =>
      obtain ⟨before, hbefore, hsize⟩ := dropBytes?_eq_some_iff.mp hrest
      have hroom := congrArg byteLength hbefore
      rw [byteLength_append, hpiece] at hroom
      rw [length] at hstop
      rw [Option.map_some, Option.bind_some, Option.bind_some,
        takeBytes?_append_of_le (by omega)]
  · rfl

end Inlay
