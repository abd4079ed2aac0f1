import Inlay.Text.Span

/-!
# Spans in order

`InOrder lo hi` says of a list of spans that they lie one behind the other between two
offsets.  There may be room between them, and before and behind them.
-/

namespace Inlay

theorem Span.contains_iff {r : Span} {offset : Nat} :
    r.contains offset = true ↔ r.start ≤ offset ∧ offset < r.stop := by
  simp only [Span.contains, Bool.and_eq_true, decide_eq_true_eq]

theorem Span.touches_iff {r : Span} {offset : Nat} :
    r.touches offset = true ↔ r.start ≤ offset ∧ offset ≤ r.stop := by
  simp only [Span.touches, Bool.and_eq_true, decide_eq_true_eq]

/-- The spans lie one behind the other, from `lo` on and up to `hi`. -/
def InOrder (lo hi : Nat) : List Span → Prop
  | [] => lo ≤ hi
  | s :: rest => lo ≤ s.start ∧ s.start ≤ s.stop ∧ InOrder s.stop hi rest

instance InOrder.decidable : (lo hi : Nat) → (spans : List Span) → Decidable (InOrder lo hi spans)
  | lo, hi, [] => inferInstanceAs (Decidable (lo ≤ hi))
  | lo, hi, s :: rest =>
    have := InOrder.decidable s.stop hi rest
    inferInstanceAs (Decidable (lo ≤ s.start ∧ s.start ≤ s.stop ∧ InOrder s.stop hi rest))

namespace InOrder

variable {lo mid hi : Nat} {xs ys : List Span}

theorem le (h : InOrder lo hi xs) : lo ≤ hi := by
  induction xs generalizing lo with
  | nil => exact h
  | cons s rest ih =>
    obtain ⟨hstart, hspan, hrest⟩ := h
    have := ih hrest
    omega

theorem mono_left {lo' : Nat} (h : InOrder lo hi xs) (hlo : lo' ≤ lo) : InOrder lo' hi xs := by
  cases xs with
  | nil => exact Nat.le_trans hlo h
  | cons s rest => exact ⟨Nat.le_trans hlo h.1, h.2⟩

theorem append (h : InOrder lo mid xs) (h' : InOrder mid hi ys) : InOrder lo hi (xs ++ ys) := by
  induction xs generalizing lo with
  | nil => exact h'.mono_left h
  | cons s rest ih =>
    obtain ⟨hstart, hspan, hrest⟩ := h
    exact ⟨hstart, hspan, ih hrest⟩

theorem mono_right {hi' : Nat} (h : InOrder lo hi xs) (hhi : hi ≤ hi') : InOrder lo hi' xs := by
  have hnil : InOrder hi hi' [] := hhi
  simpa using h.append hnil

theorem concat {s : Span} (h : InOrder lo s.start xs) (hs : s.start ≤ s.stop) :
    InOrder lo s.stop (xs ++ [s]) :=
  h.append ⟨Nat.le_refl _, hs, Nat.le_refl s.stop⟩

/-- Each of the spans lies between the offsets. -/
theorem mem {s : Span} (h : InOrder lo hi xs) (hs : s ∈ xs) :
    lo ≤ s.start ∧ s.start ≤ s.stop ∧ s.stop ≤ hi := by
  induction xs generalizing lo with
  | nil => exact absurd hs List.not_mem_nil
  | cons t rest ih =>
    obtain ⟨hstart, hspan, hrest⟩ := h
    rcases List.mem_cons.mp hs with rfl | hs
    · exact ⟨hstart, hspan, hrest.le⟩
    · obtain ⟨hlo, hmem⟩ := ih hrest hs
      exact ⟨by omega, hmem⟩

theorem pairwise (h : InOrder lo hi xs) : xs.Pairwise fun r s => r.stop ≤ s.start := by
  induction xs generalizing lo with
  | nil => exact .nil
  | cons r rest ih => exact .cons (fun s hs => (h.2.2.mem hs).1) (ih h.2.2)

theorem sublist (h : InOrder lo hi xs) (hys : ys.Sublist xs) : InOrder lo hi ys := by
  induction hys generalizing lo with
  | slnil => exact h
  | cons s _ ih =>
    obtain ⟨hstart, hspan, hrest⟩ := h
    exact (ih hrest).mono_left (Nat.le_trans hstart hspan)
  | cons_cons s _ ih =>
    obtain ⟨hstart, hspan, hrest⟩ := h
    exact ⟨hstart, hspan, ih hrest⟩

end InOrder

/-- Spans that hold a byte each fill the room between two offsets: each begins where the one
before it ends. -/
def Tiles (start stop : Nat) : List Span → Prop
  | [] => start = stop
  | s :: rest => s.start = start ∧ s.start < s.stop ∧ Tiles s.stop stop rest

namespace Tiles

variable {start mid stop : Nat} {xs ys : List Span}

theorem inOrder (h : Tiles start stop xs) : InOrder start stop xs := by
  induction xs generalizing start with
  | nil => exact Nat.le_of_eq h
  | cons s rest ih =>
    obtain ⟨hstart, hspan, hrest⟩ := h
    exact ⟨Nat.le_of_eq hstart.symm, Nat.le_of_lt hspan, ih hrest⟩

theorem append (h : Tiles start mid xs) (h' : Tiles mid stop ys) : Tiles start stop (xs ++ ys) := by
  induction xs generalizing start with
  | nil =>
    obtain rfl : start = mid := h
    exact h'
  | cons s rest ih =>
    obtain ⟨hstart, hspan, hrest⟩ := h
    exact ⟨hstart, hspan, ih hrest⟩

end Tiles
end Inlay
