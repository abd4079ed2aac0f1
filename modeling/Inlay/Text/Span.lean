/-!
# Spans of text

A span is a half-open range of byte offsets into UTF-8 text.  Every position in
this library is a byte offset, because markup, stylesheets and the host source
that carries them share one coordinate system up to a single shift.

Cutting text by a span answers `none` unless both ends lie inside the text and
on character boundaries, so a cut never splits a character.
-/

namespace Inlay

/-- The bytes from `start` up to, but not including, `stop`. -/
structure Span where
  start : Nat
  stop : Nat
  deriving DecidableEq, Inhabited

namespace Span

/-- The span between two offsets; an end before the start is moved onto it. -/
def of (start stop : Nat) : Span :=
  { start := start, stop := max start stop }

/-- The span that holds no byte, at `offset`. -/
def empty (offset : Nat) : Span :=
  { start := offset, stop := offset }

def length (r : Span) : Nat := r.stop - r.start

def isEmpty (r : Span) : Bool := r.start == r.stop

/-- `offset` is the position of one of the bytes. -/
def contains (r : Span) (offset : Nat) : Bool :=
  r.start ≤ offset && offset < r.stop

/-- `offset` touches the span.  A cursor sits between characters, so the cursor
right behind the last one still belongs to the span. -/
def touches (r : Span) (offset : Nat) : Bool :=
  r.start ≤ offset && offset ≤ r.stop

def covers (r inner : Span) : Bool :=
  r.start ≤ inner.start && inner.stop ≤ r.stop

/-- The two spans share at least one byte. -/
def overlaps (a b : Span) : Bool :=
  a.start < b.stop && b.start < a.stop

/-- The bytes that both spans hold, if there are any. -/
def overlap? (a b : Span) : Option Span :=
  if a.overlaps b then some (of (max a.start b.start) (min a.stop b.stop)) else none

/-- Move the span `delta` bytes towards the end of the text. -/
def shift (r : Span) (delta : Nat) : Span :=
  { start := r.start + delta, stop := r.stop + delta }

/-- Move the span `delta` bytes towards the start of the text; neither end
passes zero. -/
def unshift (r : Span) (delta : Nat) : Span :=
  { start := r.start - delta, stop := r.stop - delta }

theorem start_le_stop_of (start stop : Nat) : (of start stop).start ≤ (of start stop).stop :=
  Nat.le_max_left start stop

end Span

/-! ## Cutting text -/

/-- The characters behind the first `n` bytes, when `n` is a character boundary
inside the text. -/
def dropBytes? : List Char → Nat → Option (List Char)
  | cs, 0 => some cs
  | [], _ + 1 => none
  | c :: cs, n + 1 =>
    if c.utf8Size ≤ n + 1 then dropBytes? cs (n + 1 - c.utf8Size) else none

/-- The characters that make up the first `n` bytes, when `n` is a character
boundary inside the text. -/
def takeBytes? : List Char → Nat → Option (List Char)
  | _, 0 => some []
  | [], _ + 1 => none
  | c :: cs, n + 1 =>
    if c.utf8Size ≤ n + 1 then (takeBytes? cs (n + 1 - c.utf8Size)).map (c :: ·) else none

def byteLength : List Char → Nat
  | [] => 0
  | c :: cs => c.utf8Size + byteLength cs

/-- The characters of a span, if it lies in the text and on character
boundaries. -/
def Span.slice? (r : Span) (text : String) : Option String :=
  if r.start ≤ r.stop then
    (dropBytes? text.toList r.start).bind fun rest =>
      (takeBytes? rest (r.stop - r.start)).map String.ofList
  else none

/-- The characters of a span, or nothing where it cannot be cut. -/
def Span.sliceD (r : Span) (text : String) : String :=
  (r.slice? text).getD ""

/-! ## What a cut is

Dropping and taking bytes split a text in two, and nothing is lost: a cut
succeeds exactly when the text has a first part of that many bytes.
-/

@[simp] theorem byteLength_nil : byteLength [] = 0 := rfl

@[simp] theorem byteLength_cons (c : Char) (cs : List Char) :
    byteLength (c :: cs) = c.utf8Size + byteLength cs := rfl

@[simp] theorem byteLength_append (xs ys : List Char) :
    byteLength (xs ++ ys) = byteLength xs + byteLength ys := by
  induction xs with
  | nil => simp
  | cons c cs ih => simp [ih, Nat.add_assoc]

/-- Cutting moves past a whole character. -/
theorem dropBytes?_cons_add (c : Char) (cs : List Char) (n : Nat) :
    dropBytes? (c :: cs) (c.utf8Size + n) = dropBytes? cs n := by
  obtain ⟨k, hk⟩ := Nat.exists_eq_add_of_le' c.utf8Size_pos
  rw [show c.utf8Size + n = (k + n) + 1 by omega, dropBytes?, if_pos (by omega)]
  congr 1
  omega

theorem takeBytes?_cons_add (c : Char) (cs : List Char) (n : Nat) :
    takeBytes? (c :: cs) (c.utf8Size + n) = (takeBytes? cs n).map (c :: ·) := by
  obtain ⟨k, hk⟩ := Nat.exists_eq_add_of_le' c.utf8Size_pos
  rw [show c.utf8Size + n = (k + n) + 1 by omega, takeBytes?, if_pos (by omega)]
  congr 2
  omega

/-- The bytes of a first part are dropped whole. -/
theorem dropBytes?_append (xs ys : List Char) :
    dropBytes? (xs ++ ys) (byteLength xs) = some ys := by
  induction xs with
  | nil => cases ys <;> rfl
  | cons c cs ih => rw [List.cons_append, byteLength_cons, dropBytes?_cons_add, ih]

/-- The bytes of a first part are that part. -/
theorem takeBytes?_append (xs ys : List Char) :
    takeBytes? (xs ++ ys) (byteLength xs) = some xs := by
  induction xs with
  | nil => cases ys <;> rfl
  | cons c cs ih => rw [List.cons_append, byteLength_cons, takeBytes?_cons_add, ih, Option.map_some]

/-- What a drop leaves is a last part of the text, behind exactly the dropped bytes. -/
theorem dropBytes?_eq_some_iff {cs rest : List Char} {n : Nat} :
    dropBytes? cs n = some rest ↔ ∃ front, cs = front ++ rest ∧ byteLength front = n := by
  constructor
  · intro h
    induction cs generalizing n with
    | nil =>
      cases n with
      | zero => exact ⟨[], by simpa [dropBytes?] using h⟩
      | succ n => simp [dropBytes?] at h
    | cons c cs ih =>
      cases n with
      | zero => exact ⟨[], by simpa [dropBytes?] using h⟩
      | succ n =>
        rw [dropBytes?] at h
        split at h
        · next fits =>
          obtain ⟨front, rfl, size⟩ := ih h
          exact ⟨c :: front, rfl, by rw [byteLength_cons, size]; omega⟩
        · cases h
  · rintro ⟨front, rfl, rfl⟩
    exact dropBytes?_append front rest

/-- What a cut keeps is a first part of the text, of exactly that many bytes. -/
theorem takeBytes?_eq_some_iff {cs front : List Char} {n : Nat} :
    takeBytes? cs n = some front ↔ ∃ rest, cs = front ++ rest ∧ byteLength front = n := by
  constructor
  · intro h
    induction cs generalizing n front with
    | nil =>
      cases n with
      | zero => simp_all [takeBytes?]
      | succ n => simp [takeBytes?] at h
    | cons c cs ih =>
      cases n with
      | zero => simp_all [takeBytes?]
      | succ n =>
        rw [takeBytes?] at h
        split at h
        · next fits =>
          obtain ⟨piece, taken, rfl⟩ := Option.map_eq_some_iff.1 h
          obtain ⟨rest, rfl, size⟩ := ih taken
          exact ⟨rest, rfl, by rw [byteLength_cons, size]; omega⟩
        · cases h
  · rintro ⟨rest, rfl, rfl⟩
    exact takeBytes?_append front rest

/-- A span is cut exactly where the text splits at both of its ends. -/
theorem Span.slice?_eq_some_iff {r : Span} {text piece : String} :
    r.slice? text = some piece ↔
      r.start ≤ r.stop ∧ ∃ front rest, text.toList = front ++ piece.toList ++ rest ∧
        byteLength front = r.start ∧ byteLength piece.toList = r.stop - r.start := by
  unfold slice?
  split
  · next ordered =>
    simp only [Option.bind_eq_some_iff, Option.map_eq_some_iff, dropBytes?_eq_some_iff,
      takeBytes?_eq_some_iff]
    constructor
    · rintro ⟨_, ⟨front, split, before⟩, _, ⟨rest, rfl, size⟩, rfl⟩
      exact ⟨ordered, front, rest, by simp [split], before, by simpa using size⟩
    · rintro ⟨-, front, rest, split, before, size⟩
      exact ⟨_, ⟨front, by rw [split, List.append_assoc], before⟩, _, ⟨rest, rfl, size⟩, by simp⟩
  · next ordered => simp [ordered]

end Inlay
