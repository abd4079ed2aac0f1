import Inlay.Number.Shortest
import Inlay.Text.Blank
import Mathlib.Data.List.TakeWhile

/-!
# Texts of whole numbers

A whole number below `wholeLimit` is written with digits alone, behind a minus where it is negative
(`exists_text_eq`).  Such a text has no blanks around it and can be read as a number.
-/

namespace Inlay

/-! ## Digits -/

theorem isBlank_eq_false_of_isDigit {c : Char} (h : c.isDigit = true) : isBlank c = false := by
  rw [Char.isDigit_iff_toNat] at h
  have hlow : 48 ≤ c.toNat := h.1
  have hhigh : c.toNat ≤ 57 := h.2
  simp only [isBlank, Bool.or_eq_false_iff, Bool.and_eq_false_iff, decide_eq_false_iff_not,
    beq_eq_false_iff_ne]
  omega

theorem trimStart_eq_self {cs : List Char} (h : ∀ c ∈ cs, isBlank c = false) :
    trimStart cs = cs := by
  cases cs with
  | nil => rfl
  | cons c rest =>
    exact List.dropWhile_cons_of_neg (Bool.eq_false_iff.mp (h c List.mem_cons_self))

theorem trim_ofList_eq_self {cs : List Char} (h : ∀ c ∈ cs, isBlank c = false) :
    trim (String.ofList cs) = String.ofList cs := by
  have hreverse : ∀ c ∈ cs.reverse, isBlank c = false := fun c hc => h c (List.mem_reverse.mp hc)
  rw [trim, String.toList_ofList, trimStart_eq_self h, trimStart_eq_self hreverse,
    List.reverse_reverse]

namespace Decimal

/-- A run of digits is read as it is. -/
theorem read?_of_digits {ds : List Char} (hne : ds ≠ []) (h : ∀ c ∈ ds, c.isDigit = true) :
    read? ds = some { digits := ofDigits ds, exponent := 0 } := by
  have htake : ds.takeWhile Char.isDigit = ds := List.takeWhile_eq_self_iff.mpr h
  have hdrop : ds.dropWhile Char.isDigit = [] := List.dropWhile_eq_nil_iff.mpr h
  have hempty : ds.isEmpty = false := List.isEmpty_eq_false_iff.mpr hne
  rw [read?, htake, hdrop]
  simp [hempty, readExponent?]

end Decimal

namespace Number

section Signed

variable {negative : Bool} {ds : List Char}

theorem takeSign_of_digits (h : ∀ c ∈ ds, c.isDigit = true) :
    Decimal.takeSign ds = (false, ds) := by
  unfold Decimal.takeSign
  split
  · next cs => exact absurd (h '-' List.mem_cons_self) (by decide)
  · next cs => exact absurd (h '+' List.mem_cons_self) (by decide)
  · rfl

theorem toList_signText_append (negative : Bool) (ds : List Char) :
    (signText negative ++ String.ofList ds).toList = (if negative then ['-'] else []) ++ ds := by
  rw [String.toList_append, String.toList_ofList]
  cases negative <;> rfl

theorem takeSign_signText_append (h : ∀ c ∈ ds, c.isDigit = true) :
    Decimal.takeSign (signText negative ++ String.ofList ds).toList = (negative, ds) := by
  rw [toList_signText_append]
  cases negative with
  | true => rfl
  | false => exact takeSign_of_digits h

theorem isSome_read?_of_digits (hne : ds ≠ []) (h : ∀ c ∈ ds, c.isDigit = true) :
    (read? (signText negative ++ String.ofList ds)).isSome = true := by
  rw [read?, takeSign_signText_append h]
  dsimp only
  rw [Decimal.read?_of_digits hne h]
  split
  · rfl
  split
  · rfl
  · rfl

theorem trim_signText_append (h : ∀ c ∈ ds, c.isDigit = true) :
    trim (signText negative ++ String.ofList ds) = signText negative ++ String.ofList ds := by
  have hofList : signText negative ++ String.ofList ds =
      String.ofList ((if negative then ['-'] else []) ++ ds) := by
    rw [← toList_signText_append, String.ofList_toList]
  rw [hofList]
  refine trim_ofList_eq_self fun c hc => ?_
  rcases List.mem_append.mp hc with hc | hc
  · cases negative with
    | true => exact List.mem_singleton.mp hc ▸ rfl
    | false => exact absurd hc List.not_mem_nil
  · exact isBlank_eq_false_of_isDigit (h c hc)

theorem signText_append_ne_empty (hne : ds ≠ []) : signText negative ++ String.ofList ds ≠ "" := by
  intro h
  have hlist := congrArg String.toList h
  rw [toList_signText_append] at hlist
  exact hne (List.append_eq_nil_iff.mp hlist).2

end Signed

/-- A whole number of few digits is written with digits alone, behind at most a minus. -/
theorem exists_text_eq {x : Number} {k : Nat} (hwhole : x.whole? = some k) (hk : k < wholeLimit) :
    ∃ negative, x.text = signText negative ++ String.ofList (Nat.toDigits 10 k) := by
  cases x with
  | nan => cases hwhole
  | infinite negative => cases hwhole
  | finite negative s e =>
    rw [text, hwhole]
    simp only [hk, if_true]
    split
    · next hzero =>
      refine ⟨false, ?_⟩
      rw [hzero]
      rfl
    · exact ⟨negative, rfl⟩

/-- The text of a whole number of few digits is not empty, has no blanks around it and reads as a
number. -/
theorem reads_text {x : Number} {k : Nat} (hwhole : x.whole? = some k) (hk : k < wholeLimit) :
    x.text ≠ "" ∧ trim x.text = x.text ∧ (read? x.text).isSome = true := by
  obtain ⟨negative, htext⟩ := exists_text_eq hwhole hk
  have hdigits : ∀ c ∈ Nat.toDigits 10 k, c.isDigit = true := fun c hc =>
    Nat.isDigit_of_mem_toDigits (by decide) (by decide) hc
  rw [htext]
  exact ⟨signText_append_ne_empty Nat.toDigits_ne_nil, trim_signText_append hdigits,
    isSome_read?_of_digits Nat.toDigits_ne_nil hdigits⟩

end Number
end Inlay
