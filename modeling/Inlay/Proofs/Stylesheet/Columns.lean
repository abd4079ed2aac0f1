import Inlay.Lint.StylesheetRule
import Inlay.Proofs.Lint.Placement
import Mathlib.Data.List.Induction
import Mathlib.Data.List.TakeWhile

/-!
# Where errors of stylesheets are reported

A reader of stylesheets says where an error is by the line and by a column that counts units of
UTF-16.  The rule about stylesheets finds the line, but takes the column for a number of bytes.  A
character has no more units than bytes, and as many only if it is ASCII.  So the reported place is
on the right line and never behind the error, and it is in front of the error as soon as there is
another character than an ASCII one between the start of the line and the error:
`InvalidCss.checkWith_start`.
-/

namespace Inlay
namespace Stylesheet

/-! ## Units and bytes -/

/-- The number of UTF-16 units of characters. -/
def units : List Char → Nat
  | [] => 0
  | c :: cs => unitsOf c + units cs

theorem utf8Size_eq (c : Char) : c.utf8Size =
    if c.toNat < 0x80 then 1 else if c.toNat < 0x800 then 2 else if c.toNat < 0x10000 then 3
    else 4 := by
  have h (n : UInt32) : c.val ≤ n ↔ c.toNat < n.toNat + 1 := by
    rw [UInt32.le_iff_toNat_le]
    exact Nat.lt_succ_iff.symm
  simp only [Char.utf8Size, h]
  rfl

theorem unitsOf_le_utf8Size (c : Char) : unitsOf c ≤ c.utf8Size := by
  rw [unitsOf, utf8Size_eq]
  split_ifs <;> omega

theorem unitsOf_eq_utf8Size_iff (c : Char) : unitsOf c = c.utf8Size ↔ c.toNat < 0x80 := by
  rw [unitsOf, utf8Size_eq]
  split_ifs <;> omega

theorem units_le_byteLength (cs : List Char) : units cs ≤ byteLength cs := by
  induction cs with
  | nil => exact Nat.le_refl 0
  | cons c rest ih =>
    have hc := unitsOf_le_utf8Size c
    rw [units, byteLength_cons]
    omega

/-- Characters have as many units as bytes if all of them are ASCII. -/
theorem units_eq_byteLength_iff (cs : List Char) :
    units cs = byteLength cs ↔ ∀ c ∈ cs, c.toNat < 0x80 := by
  induction cs with
  | nil => exact iff_of_true rfl (List.forall_mem_nil _)
  | cons c rest ih =>
    have hc := unitsOf_le_utf8Size c
    have hrest := units_le_byteLength rest
    rw [List.forall_mem_cons, ← ih, ← unitsOf_eq_utf8Size_iff, units, byteLength_cons]
    omega

/-! ## Lines -/

/-- The part of some characters that is behind the last line feed. -/
def lastLine (cs : List Char) : List Char := (cs.reverse.takeWhile (· != '\n')).reverse

theorem lastLine_concat (cs : List Char) (c : Char) :
    lastLine (cs ++ [c]) = if c = '\n' then [] else lastLine cs ++ [c] := by
  rw [lastLine, List.reverse_append, List.reverse_singleton, List.singleton_append,
    List.takeWhile_cons]
  by_cases hc : c = '\n'
  · simp [hc]
  · simp [hc, lastLine]

theorem forall_mem_lastLine (cs : List Char) : ∀ c ∈ lastLine cs, (c != '\n') = true := by
  intro c hc
  exact List.mem_takeWhile_imp (p := fun c => c != '\n') (List.mem_reverse.mp hc)

/-- Behind as many line feeds as there are in front of a line feed, and that one. -/
theorem fromLine_append (front more : List Char) :
    fromLine (front.count '\n' + 1) (front ++ '\n' :: more) = more := by
  induction front with
  | nil => simp [fromLine]
  | cons c front ih =>
    by_cases hc : c = '\n'
    · rw [hc, List.count_cons_self, List.cons_append, fromLine, if_pos (beq_self_eq_true _), ih]
    · have hne : ¬ (c == '\n') = true := fun h => hc (beq_iff_eq.mp h)
      rw [List.count_cons_of_ne hc, List.cons_append, fromLine, if_neg hne, ih]

/-- What is read behind the line feeds of the characters before a place is their last line, with
what follows the place. -/
theorem fromLine_count (before rest : List Char) :
    fromLine (before.count '\n') (before ++ rest) = lastLine before ++ rest := by
  -- From the end, since the last character tells whether a line begins behind it.
  induction before using List.reverseRecOn generalizing rest with
  | nil => simp [fromLine, lastLine]
  | append_singleton before c ih =>
    rw [lastLine_concat, List.append_assoc, List.singleton_append, List.count_append]
    by_cases hc : c = '\n'
    · rw [hc, List.count_singleton_self, if_pos rfl, List.nil_append, fromLine_append]
    · have hcount : List.count '\n' [c] = 0 := by simp [hc]
      rw [hcount, Nat.add_zero, ih, if_neg hc, List.append_assoc, List.singleton_append]

/-- The place behind some characters, with the column in units of UTF-16. -/
def Mark.behind (before : List Char) : Mark :=
  { line := before.count '\n', column := units (lastLine before) }

/-- The offset of a place falls short of its bytes by as much as the units of its line do. -/
theorem offsetOf_behind {text : String} {before rest : List Char}
    (h : text.toList = before ++ rest) :
    offsetOf text (Mark.behind before) + byteLength (lastLine before) =
      byteLength before + units (lastLine before) := by
  have hsize : text.utf8ByteSize = byteLength before + byteLength rest := by
    rw [← byteLength_toList, h, byteLength_append]
  have hline : byteLength (lastLine before) ≤ byteLength before := by
    have hle := byteLength_fromLine_le (before.count '\n') (before ++ [])
    rwa [fromLine_count, List.append_nil, List.append_nil] at hle
  have hunits := units_le_byteLength (lastLine before)
  have hoffset : offsetOf text (Mark.behind before) =
      text.utf8ByteSize - byteLength (lastLine before ++ rest) +
        min (units (lastLine before))
          (byteLength (lastLine before ++ rest.takeWhile (· != '\n'))) := by
    rw [offsetOf, h]
    show (text.utf8ByteSize - byteLength (fromLine (before.count '\n') (before ++ rest)) +
      min (units (lastLine before))
        (byteLength ((fromLine (before.count '\n') (before ++ rest)).takeWhile (· != '\n')))) = _
    rw [fromLine_count, List.takeWhile_append_of_pos (forall_mem_lastLine before)]
  rw [hoffset, byteLength_append, byteLength_append]
  omega

end Stylesheet

namespace InvalidCss

open Stylesheet

/-- The error of a stylesheet that is reported by the line and the column of a place gives one
diagnostic.  It begins before the place by as many bytes as the line up to there has more bytes than
units, so that it begins at the place exactly if everything between the start of the line and the
place is ASCII. -/
theorem checkWith_start {s : Settings} {severity : Severity} {d : Document}
    {error? : Stylesheet.Parser} {e : Stylesheet.Error} {before rest : List Char}
    (hon : s.severity? info = some severity) (htext : d.text.toList = before ++ rest)
    (herror : error? d.text = some e) (hmark : e.mark = .behind before) :
    ∃ x, checkWith error? s d = [x] ∧
      x.finding.span.start + byteLength (lastLine before) =
        byteLength before + units (lastLine before) ∧
      (x.finding.span.start = byteLength before ↔ ∀ c ∈ lastLine before, c.toNat < 0x80) ∧
      (x.finding.span.start = byteLength before → IsBoundary d.text x.finding.span.start) ∧
      x.hostSpan.start = d.toHost x.finding.span.start := by
  have hoffset := offsetOf_behind htext
  refine ⟨{ rule := info.name, kind := .stylesheet, severity := severity, fileName := d.fileName,
            location := d.location, finding := finding d.text e }, ?_, ?_, ?_,
          fun hstart => ⟨before, rest, htext, hstart.symm⟩, rfl⟩
  · rw [checkWith, hon, herror]
    rfl
  · show offsetOf d.text e.mark + _ = _
    rw [hmark]
    exact hoffset
  · show offsetOf d.text e.mark = _ ↔ _
    rw [hmark, ← units_eq_byteLength_iff]
    omega

/-- A stylesheet in a host file. -/
def sheet (text : String) : Document :=
  { fileName := "a.ts", dialect := .stylesheet, location := ⟨4, 4 + text.utf8ByteSize⟩
    parts := [.text { text := text, span := ⟨4, 4 + text.utf8ByteSize⟩ }] }

/-- A parser that finds an error in one stylesheet. -/
def parserOf (known : String) (e : Stylesheet.Error) : Stylesheet.Parser :=
  fun text => if text = known then some e else none

/-- On the second line a comma stands where a selector belongs. -/
theorem checkWith_start_of_second_line :
    let text := "a\x7b\x7d\r\n ,b\x7b\x7d"
    let d := sheet text
    let before := "a\x7b\x7d\r\n ".toList
    let e : Stylesheet.Error :=
      { message := "Invalid empty selector", location := some { line := 1, column := 2 } }
    d.text.toList = before ++ ",b\x7b\x7d".toList ∧ parserOf text e d.text = some e ∧
      e.mark = .behind before ∧
      (checkWith (parserOf text e) {} d).map (fun x => (x.finding.span.start, x.hostSpan.start)) =
        [(6, 10)] := by
  intro text d before e
  have htext : d.text.toList = before ++ ",b\x7b\x7d".toList := by decide +kernel
  have herror : parserOf text e d.text = some e := by decide +kernel
  have hmark : e.mark = .behind before := by decide +kernel
  have hon : ({} : Settings).severity? info = some .warning := by decide
  have hline : lastLine before = [' '] := by decide +kernel
  have hascii : ∀ c ∈ lastLine before, c.toNat < 0x80 := by
    rw [hline]
    exact List.forall_mem_singleton.mpr (by decide)
  have hbytes : byteLength before = 6 := by decide +kernel
  refine ⟨htext, herror, hmark, ?_⟩
  obtain ⟨x, hx, -, hstart, -, hhost⟩ := checkWith_start hon htext herror hmark
  have hsix : x.finding.span.start = 6 := (hstart.mpr hascii).trans hbytes
  rw [hx, List.map_singleton, hhost, hsix]
  rfl

/-- The comma has seven characters before it on its line, and ten bytes.  The reported place is
inside a character. -/
theorem comma_reported_before :
    let text := "/*ééé*/,b\x7b\x7d"
    let d := sheet text
    let before := "/*ééé*/".toList
    let e : Stylesheet.Error :=
      { message := "Invalid empty selector", location := some { line := 0, column := 8 } }
    d.text.toList = before ++ ",b\x7b\x7d".toList ∧
      (parserOf text e d.text).map (·.mark) = some (.behind before) ∧
      byteLength before = 10 ∧
      (checkWith (parserOf text e) {} d).map (fun x => x.finding.span.start) = [7] ∧
      ¬IsBoundary d.text 7 := by
  decide +kernel

end InvalidCss
end Inlay
