import Inlay.Text.Blank
import Inlay.Text.Name
import Inlay.Proofs.Text.Bytes

/-!
# ASCII in bytes

A reader of bytes finds ASCII characters without decoding: a character is one of ASCII exactly if
the first byte of its encoding is, and no byte of a longer encoding is one.  So a test of a byte
against an ASCII character is the same test of the character that the byte begins, which is what
`LeadByte` and its lemmas say.  `take_encode_lower_iff` is the comparison of a name with what stands at
a place, ignoring case.
-/

namespace Inlay

/-! ## Encodings -/

/-- Characters in UTF-8. -/
def encode (cs : List Char) : List UInt8 := cs.flatMap String.utf8EncodeChar

@[simp] theorem encode_nil : encode [] = [] := rfl

@[simp] theorem encode_cons (c : Char) (cs : List Char) :
    encode (c :: cs) = String.utf8EncodeChar c ++ encode cs := List.flatMap_cons

@[simp] theorem encode_append (xs ys : List Char) : encode (xs ++ ys) = encode xs ++ encode ys :=
  List.flatMap_append

@[simp] theorem length_encode (cs : List Char) : (encode cs).length = byteLength cs :=
  length_flatMap_utf8EncodeChar cs

theorem bytesOf_eq_encode (text : String) : bytesOf text = encode text.toList := by
  rw [← String.ofList_toList (s := text), bytesOf_ofList, String.toList_ofList, encode]

/-- Encoded characters can be read back. -/
theorem fromUTF8?_encode (cs : List Char) :
    String.fromUTF8? (encode cs).toByteArray = some (String.ofList cs) := by
  have hvalid : (encode cs).toByteArray.IsValidUTF8 := ⟨cs, rfl⟩
  rw [String.fromUTF8?, dif_pos hvalid]
  rfl

/-- The byte begins the encoding of the character, or it begins no ASCII character and neither does
the encoding. -/
def LeadByte (b : UInt8) (c : Char) : Prop :=
  c.toNat < 128 ∧ b = c.toUInt8 ∨ 128 ≤ c.toNat ∧ 128 ≤ b.toNat

theorem toNat_toUInt8 {c : Char} (h : c.toNat < 128) : c.toUInt8.toNat = c.toNat := by
  show c.toNat % 256 = c.toNat
  omega

theorem exists_lead (c : Char) :
    ∃ b more, String.utf8EncodeChar c = b :: more ∧ LeadByte b c ∧ (∀ x ∈ more, 128 ≤ x.toNat) ∧
      (c.toNat < 128 → more = []) := by
  have hlarge : ∀ n : Nat, 128 ≤ n → n < 256 → 128 ≤ (UInt8.ofNat n).toNat := by
    intro n hn hlt
    rw [UInt8.toNat_ofNat']
    omega
  have hval : c.val.toNat = c.toNat := rfl
  rw [String.utf8EncodeChar]
  split
  · exact ⟨_, [], rfl, .inl ⟨by omega, rfl⟩, List.forall_mem_nil _, fun _ => rfl⟩
  have hbig : 128 ≤ c.toNat := by omega
  have hlong : ∀ more : List UInt8, c.toNat < 128 → more = [] := fun _ hlt => absurd hlt (by omega)
  split
  · exact ⟨_, _, rfl, .inr ⟨hbig, hlarge _ (by omega) (by omega)⟩,
      List.forall_mem_singleton.mpr (hlarge _ (by omega) (by omega)), hlong _⟩
  split
  · refine ⟨_, _, rfl, .inr ⟨hbig, hlarge _ (by omega) (by omega)⟩, ?_, hlong _⟩
    exact List.forall_mem_cons.mpr ⟨hlarge _ (by omega) (by omega),
      List.forall_mem_singleton.mpr (hlarge _ (by omega) (by omega))⟩
  · refine ⟨_, _, rfl, .inr ⟨hbig, hlarge _ (by omega) (by omega)⟩, ?_, hlong _⟩
    exact List.forall_mem_cons.mpr ⟨hlarge _ (by omega) (by omega), List.forall_mem_cons.mpr
      ⟨hlarge _ (by omega) (by omega),
        List.forall_mem_singleton.mpr (hlarge _ (by omega) (by omega))⟩⟩

/-! ## Tests of bytes -/

/-- A blank of markup. -/
def isBlankByte (b : UInt8) : Bool :=
  b == ' '.toUInt8 || b == '\n'.toUInt8 || b == '\t'.toUInt8 || b == '\x0c'.toUInt8 ||
    b == '\r'.toUInt8

/-- A byte with its letters of `A` to `Z` in lower case. -/
def lowerByte (b : UInt8) : UInt8 :=
  if 'A'.toUInt8 ≤ b ∧ b ≤ 'Z'.toUInt8 then b + 32 else b

namespace LeadByte

variable {b : UInt8} {c k : Char}

theorem beq_eq (h : LeadByte b c) (hk : k.toNat < 128) : (b == k.toUInt8) = (c == k) := by
  rw [Bool.eq_iff_iff, beq_iff_eq, beq_iff_eq, ← UInt8.toNat_inj, ← Char.toNat_inj,
    toNat_toUInt8 hk]
  rcases h with ⟨hc, rfl⟩ | ⟨hc, hb⟩
  · rw [toNat_toUInt8 hc]
  · omega

theorem le_iff (h : LeadByte b c) (hk : k.toNat < 128) : k.toUInt8 ≤ b ↔ k ≤ c := by
  have hchar : k ≤ c ↔ k.toNat ≤ c.toNat := Iff.rfl
  rw [UInt8.le_iff_toNat_le, hchar, toNat_toUInt8 hk]
  rcases h with ⟨hc, rfl⟩ | ⟨hc, hb⟩
  · rw [toNat_toUInt8 hc]
  · omega

theorem ge_iff (h : LeadByte b c) (hk : k.toNat < 128) : b ≤ k.toUInt8 ↔ c ≤ k := by
  have hchar : c ≤ k ↔ c.toNat ≤ k.toNat := Iff.rfl
  rw [UInt8.le_iff_toNat_le, hchar, toNat_toUInt8 hk]
  rcases h with ⟨hc, rfl⟩ | ⟨hc, hb⟩
  · rw [toNat_toUInt8 hc]
  · omega

theorem isBlankByte_eq (h : LeadByte b c) : isBlankByte b = isMarkupBlank c := by
  simp (disch := decide) only [isBlankByte, isMarkupBlank, h.beq_eq]

end LeadByte

/-- A byte of no ASCII character. -/
theorem leadByte_of_large {b : UInt8} (h : 128 ≤ b.toNat) : LeadByte b '\x80' := .inr ⟨by decide, h⟩

/-! ## Names without case -/

section Lower

variable {b : UInt8} {c x : Char} {cs name : List Char}

theorem toNat_lowerByte (b : UInt8) :
    (lowerByte b).toNat = if 65 ≤ b.toNat ∧ b.toNat ≤ 90 then b.toNat + 32 else b.toNat := by
  have hletter : 'A'.toUInt8 ≤ b ∧ b ≤ 'Z'.toUInt8 ↔ 65 ≤ b.toNat ∧ b.toNat ≤ 90 := Iff.rfl
  by_cases h : 65 ≤ b.toNat ∧ b.toNat ≤ 90
  · rw [lowerByte, if_pos (hletter.mpr h), if_pos h, UInt8.toNat_add]
    show (b.toNat + 32) % 256 = b.toNat + 32
    omega
  · rw [lowerByte, if_neg (mt hletter.mp h), if_neg h]

theorem toNat_lowerChar_eq (c : Char) :
    (lowerChar c).toNat = if 65 ≤ c.toNat ∧ c.toNat ≤ 90 then c.toNat + 32 else c.toNat := by
  have hletter : 'A' ≤ c ∧ c ≤ 'Z' ↔ 65 ≤ c.toNat ∧ c.toNat ≤ 90 := Iff.rfl
  by_cases h : 65 ≤ c.toNat ∧ c.toNat ≤ 90
  · rw [if_pos h, toNat_lowerChar (hletter.mpr h)]
  · rw [lowerChar, if_neg (mt hletter.mp h), if_neg h]

/-- Two characters of which one is of ASCII are the same up to case if their first bytes are. -/
theorem LeadByte.lower_eq_iff (h : LeadByte b c) (hx : x.toNat < 128) :
    lowerByte b = lowerByte x.toUInt8 ↔ lowerChar c = lowerChar x := by
  rw [← UInt8.toNat_inj, ← Char.toNat_inj, toNat_lowerByte, toNat_lowerByte, toNat_lowerChar_eq,
    toNat_lowerChar_eq, toNat_toUInt8 hx]
  rcases h with ⟨hc, rfl⟩ | ⟨hc, hb⟩
  · rw [toNat_toUInt8 hc]
  · split <;> split <;> split <;> omega

theorem ascii_of_lowerChar_eq (h : lowerChar c = lowerChar x) (hx : x.toNat < 128) :
    c.toNat < 128 := by
  have hnat := congrArg Char.toNat h
  rw [toNat_lowerChar_eq, toNat_lowerChar_eq] at hnat
  split at hnat <;> split at hnat <;> omega

theorem utf8Size_of_ascii (h : c.toNat < 128) : c.utf8Size = 1 := by
  rw [Char.utf8Size_eq_one_iff, UInt32.le_iff_toNat_le]
  exact Nat.le_of_lt_succ h

theorem encode_of_ascii (h : c.toNat < 128) : String.utf8EncodeChar c = [c.toUInt8] :=
  String.utf8EncodeChar_eq_singleton (utf8Size_of_ascii h)

theorem byteLength_of_ascii (h : ∀ c ∈ cs, c.toNat < 128) : byteLength cs = cs.length := by
  induction cs with
  | nil => rfl
  | cons c cs ih =>
    obtain ⟨hc, hcs⟩ := List.forall_mem_cons.mp h
    rw [byteLength_cons, ih hcs, utf8Size_of_ascii hc, List.length_cons, Nat.add_comm]

/-- A word of ASCII is found in the bytes where it is in the characters. -/
theorem isPrefixOf_encode (hname : ∀ x ∈ name, x.toNat < 128) (cs : List Char) :
    (encode name).isPrefixOf (encode cs) = name.isPrefixOf cs := by
  induction name generalizing cs with
  | nil => rfl
  | cons x name ih =>
    obtain ⟨hx, hname⟩ := List.forall_mem_cons.mp hname
    cases cs with
    | nil => rw [encode_cons, encode_of_ascii hx]; rfl
    | cons c cs =>
      obtain ⟨b, more, hencode, hleads, -, hmore⟩ := exists_lead c
      rw [encode_cons, encode_cons, encode_of_ascii hx, hencode, List.singleton_append,
        List.cons_append, List.isPrefixOf, List.isPrefixOf, BEq.comm, hleads.beq_eq hx,
        BEq.comm (a := x)]
      cases hsame : c == x with
      | false => rfl
      | true =>
        rw [beq_iff_eq] at hsame
        rw [hmore (by rw [hsame]; exact hx), List.nil_append, ih hname cs]

/-- The bytes in front are a name of ASCII up to case if the characters in front are. -/
theorem take_encode_lower_iff (hname : ∀ x ∈ name, x.toNat < 128) (cs : List Char) :
    ((encode cs).take name.length).map lowerByte = (encode name).map lowerByte ↔
      (cs.take name.length).map lowerChar = name.map lowerChar := by
  induction name generalizing cs with
  | nil => exact iff_of_true rfl rfl
  | cons x name ih =>
    obtain ⟨hx, hname⟩ := List.forall_mem_cons.mp hname
    cases cs with
    | nil => simp [encode_of_ascii hx]
    | cons c cs =>
      obtain ⟨b, more, hencode, hleads, -, hmore⟩ := exists_lead c
      rw [encode_cons, encode_cons, encode_of_ascii hx, hencode, List.length_cons, List.cons_append,
        List.take_succ_cons, List.singleton_append, List.map_cons, List.map_cons, List.cons.injEq,
        List.take_succ_cons, List.map_cons, List.map_cons, List.cons.injEq, hleads.lower_eq_iff hx]
      refine and_congr_right fun hlower => ?_
      rw [hmore (ascii_of_lowerChar_eq hlower hx), List.nil_append]
      exact ih hname cs

theorem ascii_of_map_lowerChar_eq (h : cs.map lowerChar = name.map lowerChar)
    (hname : ∀ x ∈ name, x.toNat < 128) : ∀ c ∈ cs, c.toNat < 128 := by
  intro c hc
  have hmem : lowerChar c ∈ name.map lowerChar := h ▸ List.mem_map_of_mem hc
  obtain ⟨x, hx, heq⟩ := List.mem_map.mp hmem
  exact ascii_of_lowerChar_eq heq.symm (hname x hx)

/-- The names of raw text are of ASCII. -/
theorem ascii_of_isRawTextTag (h : isRawTextTag (String.ofList name) = true) :
    ∀ x ∈ name, x.toNat < 128 := by
  have hplain : ∀ tag ∈ rawTextTags, tag.toList.all (fun x => x.toNat < 128) = true := by decide
  have htag := hplain _ (List.contains_iff_mem.mp h)
  rw [lowerName, String.toList_ofList, String.toList_ofList, List.all_eq_true] at htag
  intro x hx
  have hlow := of_decide_eq_true (htag _ (List.mem_map_of_mem hx))
  exact ascii_of_lowerChar_eq (lowerChar_lowerChar x).symm hlow

end Lower
end Inlay
