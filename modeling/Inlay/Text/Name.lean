/-!
# Names

Tag and attribute names do not distinguish ASCII case.  `lowerName` is the form
that every lookup uses as its key; the predicates below sort tag names into the
classes that markup treats specially.
-/

namespace Inlay

/-- A letter of `A` to `Z` in lower case; any other character as it is. -/
def lowerChar (c : Char) : Char :=
  if 'A' ≤ c ∧ c ≤ 'Z' then Char.ofNat (c.toNat + 32) else c

/-- A name with its ASCII letters in lower case. -/
def lowerName (name : String) : String := String.ofList (name.toList.map lowerChar)

/-- Two names are the same up to ASCII case. -/
def sameName (a b : String) : Bool := lowerName a == lowerName b

def isStartOf (start text : String) : Bool := start.toList.isPrefixOf text.toList

/-- Tags that never have content or an end tag. -/
def voidTags : List String :=
  ["area", "base", "br", "col", "embed", "hr", "img", "input",
   "link", "meta", "param", "source", "track", "wbr"]

/-- Tags whose content is text up to the matching end tag. -/
def rawTextTags : List String := ["script", "style", "textarea", "title"]

def isVoidTag (name : String) : Bool := voidTags.contains (lowerName name)

def isRawTextTag (name : String) : Bool := rawTextTags.contains (lowerName name)

/-- A custom element's name has a dash and starts with a lower-case letter. -/
def isCustomElementName (name : String) : Bool :=
  name.toList.contains '-' &&
    match name.toList with
    | c :: _ => 'a' ≤ c && c ≤ 'z'
    | [] => false

/-- Lower-case letters stand 32 behind those of `A` to `Z`. -/
theorem toNat_lowerChar {c : Char} (h : 'A' ≤ c ∧ c ≤ 'Z') :
    (lowerChar c).toNat = c.toNat + 32 := by
  have hlow : 65 ≤ c.toNat := h.1
  have hhigh : c.toNat ≤ 90 := h.2
  have hvalid : (c.toNat + 32).isValidChar := Or.inl (by omega)
  rw [lowerChar, if_pos h, Char.ofNat, dif_pos hvalid]
  rfl

/-- A letter that has been lowered is no longer one of `A` to `Z`. -/
theorem lowerChar_lowerChar (c : Char) : lowerChar (lowerChar c) = lowerChar c := by
  by_cases h : 'A' ≤ c ∧ c ≤ 'Z'
  · have hlow : 65 ≤ c.toNat := h.1
    have hlowered := toNat_lowerChar h
    have hout : ¬('A' ≤ lowerChar c ∧ lowerChar c ≤ 'Z') := by
      rintro ⟨-, hz⟩
      have hz' : (lowerChar c).toNat ≤ 90 := hz
      omega
    exact if_neg hout
  · have hlowered : lowerChar c = c := if_neg h
    rw [hlowered, hlowered]

/-- Lowering a key again changes nothing. -/
@[simp] theorem lowerName_lowerName (name : String) : lowerName (lowerName name) = lowerName name := by
  simp only [lowerName, String.toList_ofList, List.map_map]
  congr 2
  funext c
  exact lowerChar_lowerChar c

theorem sameName_refl (a : String) : sameName a a = true := by simp [sameName]

theorem sameName_comm (a b : String) : sameName a b = sameName b a := by
  rw [Bool.eq_iff_iff]
  simp only [sameName, beq_iff_eq]
  exact eq_comm

theorem sameName_iff (a b : String) : sameName a b = true ↔ lowerName a = lowerName b := by
  simp [sameName]

end Inlay
