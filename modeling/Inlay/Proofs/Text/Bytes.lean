import Inlay.Text.Span

/-!
# Bytes of texts

Offsets count bytes, and `bytesOf` lists them.  The bytes of a text are those of its
characters one behind the other, so the byte length of the characters is the size of
the text.  Between two character boundaries a text can be cut, and the bytes of the piece are
those that the text has there.
-/

namespace Inlay

/-- The bytes of a text in UTF-8. -/
def bytesOf (text : String) : List UInt8 := text.toByteArray.data.toList

theorem bytesOf_ofList (cs : List Char) :
    bytesOf (String.ofList cs) = cs.flatMap String.utf8EncodeChar := by
  rw [bytesOf, String.toByteArray_ofList, List.utf8Encode, List.data_toByteArray]

theorem length_flatMap_utf8EncodeChar (cs : List Char) :
    (cs.flatMap String.utf8EncodeChar).length = byteLength cs := by
  induction cs with
  | nil => rfl
  | cons c rest ih =>
    rw [List.flatMap_cons, List.length_append, String.length_utf8EncodeChar, ih, byteLength_cons]

theorem byteLength_toList (text : String) : byteLength text.toList = text.utf8ByteSize := by
  rw [← length_flatMap_utf8EncodeChar, ← List.size_toByteArray, ← List.utf8Encode,
    String.utf8Encode_toList, String.size_toByteArray]

/-! ## Boundaries -/

/-- A character of the text begins at the offset, or the text ends there. -/
def IsBoundary (text : String) (offset : Nat) : Prop :=
  ∃ front rest, text.toList = front ++ rest ∧ byteLength front = offset

theorem IsBoundary.le {text : String} {offset : Nat} (h : IsBoundary text offset) :
    offset ≤ text.utf8ByteSize := by
  obtain ⟨front, rest, hsplit, hfront⟩ := h
  rw [← byteLength_toList, hsplit, byteLength_append]
  omega

theorem isBoundary_iff {text : String} {offset : Nat} :
    IsBoundary text offset ↔ (dropBytes? text.toList offset).isSome = true := by
  simp only [IsBoundary, Option.isSome_iff_exists, dropBytes?_eq_some_iff]
  exact exists_comm

instance (text : String) (offset : Nat) : Decidable (IsBoundary text offset) :=
  decidable_of_iff _ isBoundary_iff.symm

theorem eq_nil_of_byteLength_eq_zero {cs : List Char} (h : byteLength cs = 0) : cs = [] := by
  cases cs with
  | nil => rfl
  | cons c rest =>
    have hpos := c.utf8Size_pos
    rw [byteLength_cons] at h
    omega

/-- Of two first parts of a text, the shorter one is a first part of the other. -/
theorem exists_append_of_byteLength_le {front front' rest rest' : List Char}
    (h : front ++ rest = front' ++ rest') (hle : byteLength front ≤ byteLength front') :
    ∃ piece, front' = front ++ piece ∧ rest = piece ++ rest' := by
  rcases List.append_eq_append_iff.mp h with ⟨piece, hfront, hrest⟩ | ⟨piece, hfront, hrest⟩
  · exact ⟨piece, hfront, hrest⟩
  · have hpiece : piece = [] := by
      apply eq_nil_of_byteLength_eq_zero
      rw [hfront, byteLength_append] at hle
      omega
    subst hpiece
    exact ⟨[], by simpa using hfront.symm, by simpa using hrest.symm⟩

theorem exists_slice? {text : String} {r : Span} (hstart : IsBoundary text r.start)
    (hstop : IsBoundary text r.stop) (hle : r.start ≤ r.stop) :
    ∃ piece, r.slice? text = some piece := by
  obtain ⟨front, rest, hsplit, hfront⟩ := hstart
  obtain ⟨front', rest', hsplit', hfront'⟩ := hstop
  obtain ⟨piece, hpiece, -⟩ := exists_append_of_byteLength_le (hsplit.symm.trans hsplit')
    (by omega)
  refine ⟨String.ofList piece, Span.slice?_eq_some_iff.mpr ⟨hle, front, rest', ?_, hfront, ?_⟩⟩
  · rw [hsplit', hpiece, String.toList_ofList]
  · rw [String.toList_ofList]
    rw [hpiece, byteLength_append] at hfront'
    omega

/-- The range lies in the text and begins and ends between characters. -/
structure Span.IsIn (r : Span) (text : String) : Prop where
  ordered : r.start ≤ r.stop
  start : IsBoundary text r.start
  stop : IsBoundary text r.stop

/-- What lies in a text can be cut out, and more than nothing where there is something. -/
theorem Span.IsIn.exists_cut {r : Span} {text : String} (h : r.IsIn text) :
    ∃ piece, r.slice? text = some piece ∧ (r.start < r.stop → piece ≠ "") := by
  obtain ⟨piece, hpiece⟩ := exists_slice? h.start h.stop h.ordered
  refine ⟨piece, hpiece, fun hlt => ?_⟩
  rintro rfl
  obtain ⟨-, _, _, -, -, hlength⟩ := Span.slice?_eq_some_iff.mp hpiece
  have hnothing : byteLength "".toList = 0 := rfl
  omega

theorem Span.IsIn.slice?_eq {r : Span} {text : String} (h : r.IsIn text) :
    r.slice? text = some (r.sliceD text) := by
  obtain ⟨piece, hpiece, -⟩ := h.exists_cut
  rw [sliceD, hpiece, Option.getD_some]

theorem Span.IsIn.of {start stop : Nat} {text : String} (hle : start ≤ stop)
    (hstart : IsBoundary text start) (hstop : IsBoundary text stop) :
    (Span.of start stop).IsIn text := by
  rw [Span.of, Nat.max_eq_right hle]
  exact ⟨hle, hstart, hstop⟩

theorem slice?_whole (text : String) :
    Span.slice? { start := 0, stop := text.utf8ByteSize } text = some text := by
  refine Span.slice?_eq_some_iff.mpr ⟨Nat.zero_le _, [], [], ?_, rfl, byteLength_toList text⟩
  rw [List.nil_append, List.append_nil]

/-- The bytes of a piece are those of the text at its place. -/
theorem getElem?_bytesOf_slice? {text piece : String} {r : Span}
    (h : r.slice? text = some piece) {i : Nat} (hi : i < r.length) :
    (bytesOf piece)[i]? = (bytesOf text)[r.start + i]? := by
  obtain ⟨hle, front, rest, hsplit, hfront, hpiece⟩ := Span.slice?_eq_some_iff.mp h
  have htext : text = String.ofList (front ++ piece.toList ++ rest) := by
    rw [← hsplit, String.ofList_toList]
  have hbytes : bytesOf piece = piece.toList.flatMap String.utf8EncodeChar := by
    rw [← bytesOf_ofList, String.ofList_toList]
  rw [htext, bytesOf_ofList, List.flatMap_append, List.flatMap_append, List.append_assoc,
    List.getElem?_append_right, List.getElem?_append_left, hbytes]
  · rw [length_flatMap_utf8EncodeChar, hfront, Nat.add_sub_cancel_left]
  · rw [length_flatMap_utf8EncodeChar, length_flatMap_utf8EncodeChar, hfront, hpiece,
      Nat.add_sub_cancel_left]
    exact hi
  · rw [length_flatMap_utf8EncodeChar, hfront]
    exact Nat.le_add_right _ _

end Inlay
