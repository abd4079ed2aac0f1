import Inlay.Lint.Security
import Mathlib.Data.List.Perm.Basic

/-!
# Explicit allow-lists over those of a system

Which allow-list holds for an attribute of a tag is decided in two steps.  Putting explicit lists over
those of a system settles each place by itself: a tag and an attribute, or an attribute of all tags.  The
lookup then reads the place of the tag before that of all tags.  So a list of the system for the tag goes
before an explicit list for all tags (`lookup?_overlay_explicit_iff`), and explicit lists do not simply go
first.  They do when the tag has an explicit list or the system has none for it.

The order in which explicit lists are put in does not matter as long as their keys are distinct in any
case.
-/

namespace Inlay

namespace Entries

variable {α : Type}

/-- The value of the first entry whose key is a name, in any case. -/
def named? (entries : List (String × α)) (name : String) : Option α :=
  (entries.find? fun e => sameName e.1 name).map (·.2)

/-- No two keys are the same, in any case. -/
def KeysDistinct (entries : List (String × α)) : Prop := (entries.map fun e => lowerName e.1).Nodup

/-- All keys are in lower case. -/
def KeysLowered (entries : List (String × α)) : Prop := ∀ e ∈ entries, lowerName e.1 = e.1

variable {entries more : List (String × α)}

theorem named?_cons (e : String × α) (rest : List (String × α)) (name : String) :
    named? (e :: rest) name = if lowerName e.1 = lowerName name then some e.2 else named? rest name := by
  by_cases h : lowerName e.1 = lowerName name
  · have hsame : sameName e.1 name = true := (sameName_iff _ _).mpr h
    rw [named?, List.find?_cons, hsame, if_pos h]
    rfl
  · have hsame : sameName e.1 name = false := Bool.eq_false_iff.mpr (mt (sameName_iff _ _).mp h)
    rw [named?, List.find?_cons, hsame, if_neg h, named?]

/-- In any case, or with all keys in lower case: a name is found alike. -/
theorem lookup_lowered (entries : List (String × α)) (name : String) :
    (Security.lowered entries).lookup (lowerName name) = named? entries name := by
  induction entries with
  | nil => rfl
  | cons e rest ih =>
    rw [named?_cons, ← ih]
    by_cases h : lowerName e.1 = lowerName name
    · rw [if_pos h, ← h]
      exact List.lookup_cons_self
    · have hne : (lowerName name == lowerName e.1) = false := beq_eq_false_iff_ne.mpr (Ne.symm h)
      rw [if_neg h]
      show List.lookup _ ((lowerName e.1, e.2) :: Security.lowered rest) = _
      rw [List.lookup_cons, hne]

theorem KeysLowered.lookup (h : KeysLowered entries) (name : String) :
    entries.lookup (lowerName name) = named? entries name := by
  have hsame : Security.lowered entries = entries := by
    refine (List.map_congr_left fun e he => ?_).trans (List.map_id _)
    rw [h e he]
    rfl
  rw [← lookup_lowered, hsame]

theorem named?_of_notMem {name : String} (h : lowerName name ∉ entries.map fun e => lowerName e.1) :
    named? entries name = none := by
  rw [named?, Option.map_eq_none_iff, List.find?_eq_none]
  intro e he hsame
  exact h (List.mem_map.mpr ⟨e, he, (sameName_iff _ _).mp hsame⟩)

theorem named?_eq_some_iff (h : KeysDistinct entries) {name : String} {value : α} :
    named? entries name = some value ↔
      ∃ e ∈ entries, lowerName e.1 = lowerName name ∧ e.2 = value := by
  induction entries with
  | nil => simp [named?]
  | cons e rest ih =>
    rw [KeysDistinct, List.map_cons, List.nodup_cons] at h
    rw [named?_cons, List.exists_mem_cons_iff]
    split
    · next hkey =>
      have hrest : ¬ ∃ e' ∈ rest, lowerName e'.1 = lowerName name ∧ e'.2 = value := by
        rintro ⟨e', he', hkey', -⟩
        exact h.1 (List.mem_map.mpr ⟨e', he', hkey'.trans hkey.symm⟩)
      rw [or_iff_left hrest, and_iff_right hkey, Option.some.injEq]
    · next hkey => rw [ih h.2, or_iff_right fun hboth => hkey hboth.1]

/-- Of distinct keys, the order does not matter. -/
theorem named?_perm (h : KeysDistinct entries) (hperm : entries.Perm more) (name : String) :
    named? more name = named? entries name := by
  have hmore : KeysDistinct more := (hperm.map _).nodup_iff.mp h
  refine Option.ext fun value => ?_
  rw [named?_eq_some_iff h, named?_eq_some_iff hmore]
  simp only [hperm.mem_iff]

theorem lookup_setAll (h : KeysDistinct more) (entries : List (String × α)) (name : String) :
    (setAll entries (Security.lowered more)).lookup (lowerName name) =
      (named? more name).or (entries.lookup (lowerName name)) := by
  induction more generalizing entries with
  | nil => rfl
  | cons e rest ih =>
    rw [KeysDistinct, List.map_cons, List.nodup_cons] at h
    show (setAll (set (lowerName e.1) e.2 entries) (Security.lowered rest)).lookup (lowerName name) = _
    rw [ih h.2, named?_cons]
    by_cases hkey : lowerName e.1 = lowerName name
    · have hrest : named? rest name = none := named?_of_notMem (hkey ▸ h.1)
      rw [if_pos hkey, hrest, hkey, lookup_set_self]
      rfl
    · rw [if_neg hkey, lookup_set_ne (Ne.symm hkey)]

end Entries

namespace Security

open Entries

/-- The list for an attribute that is given for a tag. -/
def tagList? (s : Security) (tag attributeName : String) : Option (List String) :=
  (named? s.tags tag).bind fun lists => named? lists attributeName

/-- The list for an attribute that is given for all tags. -/
def globalList? (s : Security) (attributeName : String) : Option (List String) :=
  named? s.global attributeName

/-- No tag, and no attribute of one tag or of all tags, is named twice. -/
structure Distinct (s : Security) : Prop where
  tags : KeysDistinct s.tags
  attributes : ∀ e ∈ s.tags, KeysDistinct e.2
  global : KeysDistinct s.global

/-- All tags and attributes are named in lower case. -/
structure Lowered (s : Security) : Prop where
  tags : KeysLowered s.tags
  attributes : ∀ e ∈ s.tags, KeysLowered e.2
  global : KeysLowered s.global

/-- Two entries for one tag have the same attributes, in some order. -/
def SameLists (a b : String × AllowLists) : Prop := a.1 = b.1 ∧ a.2.Perm b.2

/-- Two sets of lists differ in the order of their tags and attributes only. -/
structure Reordered (s t : Security) : Prop where
  tags : ∃ entries, s.tags.Perm entries ∧ List.Forall₂ SameLists entries t.tags
  global : s.global.Perm t.global

theorem lowered_ofSystem (p : SecuritySystem) : (ofSystem p).Lowered := by
  cases p with
  | off => exact ⟨List.forall_mem_nil _, List.forall_mem_nil _, List.forall_mem_nil _⟩
  | closureSafeTypes => constructor <;> simp only [KeysLowered] <;> decide

/-! ## Looking up -/

/-- What is written in one place, given the keys of a tag and of an attribute. -/
def listAt? (tags : List (String × AllowLists)) (tagKey key : String) : Option (List String) :=
  (tags.lookup tagKey).bind fun lists => lists.lookup key

theorem mem_of_named? {α : Type} {entries : List (String × α)} {name : String} {value : α}
    (h : named? entries name = some value) : ∃ e ∈ entries, e.2 = value := by
  obtain ⟨e, he, rfl⟩ := Option.map_eq_some_iff.mp h
  exact ⟨e, List.mem_of_find?_eq_some he, rfl⟩

theorem Lowered.listAt? {s : Security} (h : s.Lowered) (tag attributeName : String) :
    listAt? s.tags (lowerName tag) (lowerName attributeName) = s.tagList? tag attributeName := by
  rw [Security.listAt?, h.tags.lookup, tagList?]
  refine Option.bind_congr fun lists hlists => ?_
  obtain ⟨e, he, rfl⟩ := mem_of_named? hlists
  exact (h.attributes e he).lookup attributeName

theorem lookup?_eq (s : Security) (tag attributeName : String) :
    s.lookup? tag attributeName =
      (listAt? s.tags (lowerName tag) (lowerName attributeName)).or
        (s.global.lookup (lowerName attributeName)) := by
  rw [lookup?, listAt?]
  exact Option.orElse_eq_or ..

/-! ## Putting lists over others -/

theorem listAt?_overlayTag (tags : List (String × AllowLists)) {lists : AllowLists}
    (h : KeysDistinct lists) (name tag attributeName : String) :
    listAt? (overlayTag tags name lists) (lowerName tag) (lowerName attributeName) =
      (if lowerName name = lowerName tag then named? lists attributeName else none).or
        (listAt? tags (lowerName tag) (lowerName attributeName)) := by
  rw [overlayTag, listAt?]
  by_cases hname : lowerName name = lowerName tag
  · rw [hname, lookup_set_self, if_pos rfl, Option.bind_some, lookup_setAll h, listAt?]
    cases tags.lookup (lowerName tag) <;> rfl
  · rw [lookup_set_ne (Ne.symm hname), if_neg hname]
    rfl

theorem listAt?_foldl_overlayTag {explicit : List (String × AllowLists)} (h : KeysDistinct explicit)
    (hlists : ∀ e ∈ explicit, KeysDistinct e.2) (tags : List (String × AllowLists))
    (tag attributeName : String) :
    listAt? (explicit.foldl (fun tags e => overlayTag tags e.1 e.2) tags) (lowerName tag)
        (lowerName attributeName) =
      ((named? explicit tag).bind fun lists => named? lists attributeName).or
        (listAt? tags (lowerName tag) (lowerName attributeName)) := by
  induction explicit generalizing tags with
  | nil => rfl
  | cons e rest ih =>
    obtain ⟨hkey, hrest⟩ := List.nodup_cons.mp h
    rw [List.forall_mem_cons] at hlists
    rw [List.foldl_cons, ih hrest hlists.2, listAt?_overlayTag tags hlists.1, named?_cons]
    by_cases htag : lowerName e.1 = lowerName tag
    · have hnone : named? rest tag = none := named?_of_notMem (htag ▸ hkey)
      rw [hnone, if_pos htag, if_pos htag]
      rfl
    · rw [if_neg htag, if_neg htag]
      rfl

/-- Each of the two places is settled by itself, and that of the tag is read first. -/
theorem lookup?_overlay {s e : Security} (hs : s.Lowered) (he : e.Distinct)
    (tag attributeName : String) :
    (s.overlay e).lookup? tag attributeName =
      ((e.tagList? tag attributeName).or (s.tagList? tag attributeName)).or
        ((e.globalList? attributeName).or (s.globalList? attributeName)) := by
  rw [lookup?_eq]
  congr 1
  · show listAt? (e.tags.foldl _ s.tags) _ _ = _
    rw [listAt?_foldl_overlayTag he.tags he.attributes, hs.listAt?]
    rfl
  · show (setAll s.global (lowered e.global)).lookup _ = _
    rw [lookup_setAll he.global, hs.global.lookup]
    rfl

/-! ## The order of explicit lists -/

section Order

variable {entries more : List (String × AllowLists)} {s t : Security}

theorem keysDistinct_of_sameLists (h : List.Forall₂ SameLists entries more)
    (hdistinct : KeysDistinct entries) : KeysDistinct more := by
  have hkeys : entries.map (fun e => lowerName e.1) = more.map fun e => lowerName e.1 := by
    clear hdistinct
    induction h with
    | nil => rfl
    | cons hab _ ih => rw [List.map_cons, List.map_cons, hab.1, ih]
  rw [KeysDistinct, ← hkeys]
  exact hdistinct

theorem attributes_of_sameLists (h : List.Forall₂ SameLists entries more)
    (hlists : ∀ e ∈ entries, KeysDistinct e.2) : ∀ e ∈ more, KeysDistinct e.2 := by
  induction h with
  | nil => exact List.forall_mem_nil _
  | cons hab _ ih =>
    obtain ⟨ha, hrest⟩ := List.forall_mem_cons.mp hlists
    exact List.forall_mem_cons.mpr ⟨(hab.2.map _).nodup_iff.mp ha, ih hrest⟩

theorem bind_named?_of_sameLists (h : List.Forall₂ SameLists entries more)
    (hlists : ∀ e ∈ entries, KeysDistinct e.2) (tag attributeName : String) :
    ((named? more tag).bind fun lists => named? lists attributeName) =
      (named? entries tag).bind fun lists => named? lists attributeName := by
  induction h with
  | nil => rfl
  | cons hab _ ih =>
    obtain ⟨ha, hrest⟩ := List.forall_mem_cons.mp hlists
    rw [named?_cons, named?_cons, hab.1]
    split
    · exact named?_perm ha hab.2 attributeName
    · exact ih hrest

theorem Distinct.attributes_of_perm (hs : s.Distinct) (h : s.tags.Perm entries) :
    ∀ e ∈ entries, KeysDistinct e.2 :=
  fun e he => hs.attributes e (h.mem_iff.mpr he)

theorem Reordered.distinct (h : s.Reordered t) (hs : s.Distinct) : t.Distinct := by
  obtain ⟨entries, hperm, hsame⟩ := h.tags
  exact
    { tags := keysDistinct_of_sameLists hsame ((hperm.map _).nodup_iff.mp hs.tags)
      attributes := attributes_of_sameLists hsame (hs.attributes_of_perm hperm)
      global := (h.global.map _).nodup_iff.mp hs.global }

theorem Reordered.tagList? (h : s.Reordered t) (hs : s.Distinct) (tag attributeName : String) :
    t.tagList? tag attributeName = s.tagList? tag attributeName := by
  obtain ⟨entries, hperm, hsame⟩ := h.tags
  rw [Security.tagList?, bind_named?_of_sameLists hsame (hs.attributes_of_perm hperm), named?_perm hs.tags hperm,
    ← Security.tagList?]

theorem Reordered.globalList? (h : s.Reordered t) (hs : s.Distinct) (attributeName : String) :
    t.globalList? attributeName = s.globalList? attributeName :=
  named?_perm hs.global h.global attributeName

end Order

/-! ## Explicit lists first -/

/-- The list that holds if explicit lists, for the tag or for all tags, go before those of a
system. -/
def explicitFirst (s e : Security) (tag attributeName : String) : Option (List String) :=
  ((e.tagList? tag attributeName).or (e.globalList? attributeName)).or
    ((s.tagList? tag attributeName).or (s.globalList? attributeName))

/-- The two orders differ where the second list of one is the third of the other, and both are
there. -/
theorem or_or_comm_iff {α : Type} (a b c d : Option α) :
    (a.or b).or (c.or d) = (a.or c).or (b.or d) ↔
      a.isSome ∨ ∀ x y, b = some x → c = some y → x = y := by
  cases a <;> cases b <;> cases c <;> simp

/-- For a tag, explicit lists for the tag go first, then those of the system, and behind both the lists
for all tags, in this order.  So an explicit list for all tags gives way to a list that the system has
for the tag, and explicit lists go first everywhere else.  The order in which they are written does
not matter. -/
theorem lookup?_overlay_explicit_iff (p : SecuritySystem) {e : Security} (he : e.Distinct)
    (tag attributeName : String) :
    ((ofSystem p).overlay e).lookup? tag attributeName =
        ((e.tagList? tag attributeName).or ((ofSystem p).tagList? tag attributeName)).or
          ((e.globalList? attributeName).or ((ofSystem p).globalList? attributeName)) ∧
      (((ofSystem p).overlay e).lookup? tag attributeName =
          explicitFirst (ofSystem p) e tag attributeName ↔
        (e.tagList? tag attributeName).isSome ∨
          ∀ preset explicit, (ofSystem p).tagList? tag attributeName = some preset →
            e.globalList? attributeName = some explicit → preset = explicit) ∧
      ∀ e', e.Reordered e' → ((ofSystem p).overlay e').lookup? tag attributeName =
        ((ofSystem p).overlay e).lookup? tag attributeName := by
  have hlookup := lookup?_overlay (lowered_ofSystem p) he tag attributeName
  refine ⟨hlookup, ?_, fun e' hreordered => ?_⟩
  · rw [hlookup, explicitFirst]
    exact or_or_comm_iff _ _ _ _
  · rw [hlookup, lookup?_overlay (lowered_ofSystem p) (hreordered.distinct he),
      hreordered.tagList? he, hreordered.globalList? he]

/-- Explicit lists for a tag and for all tags, in odd spellings. -/
def oddSpellings : Security :=
  { tags := [("IFrame", [("SRC", ["string"]), ("Name", ["SafeUrl"])])]
    global := [("HREF", ["string"]), ("Data", ["SafeUrl"])] }

def oddSpellingsReordered : Security :=
  { tags := [("IFrame", [("Name", ["SafeUrl"]), ("SRC", ["string"])])]
    global := [("Data", ["SafeUrl"]), ("HREF", ["string"])] }

theorem lookup?_overlay_explicit_iff_of_odd_spellings :
    oddSpellings.Distinct ∧ oddSpellings.Reordered oddSpellingsReordered ∧
      ((ofSystem .closureSafeTypes).overlay oddSpellings).lookup? "iframe" "Src" = some ["string"] ∧
      ((ofSystem .closureSafeTypes).overlay oddSpellings).lookup? "iframe" "Src" =
        explicitFirst (ofSystem .closureSafeTypes) oddSpellings "iframe" "Src" ∧
      ((ofSystem .closureSafeTypes).overlay oddSpellingsReordered).lookup? "iframe" "Src" =
        some ["string"] := by
  have he : oddSpellings.Distinct := by
    constructor <;> simp only [KeysDistinct] <;> decide
  have hreordered : oddSpellings.Reordered oddSpellingsReordered :=
    ⟨⟨oddSpellings.tags, .refl _, .cons ⟨rfl, .swap _ _ _⟩ .nil⟩, .swap _ _ _⟩
  obtain ⟨hlookup, hfirst, horder⟩ :=
    lookup?_overlay_explicit_iff .closureSafeTypes he "iframe" "Src"
  have hstring : ((ofSystem .closureSafeTypes).overlay oddSpellings).lookup? "iframe" "Src" =
      some ["string"] := hlookup.trans (by decide)
  exact ⟨he, hreordered, hstring, hfirst.mpr (.inl (by decide)),
    (horder _ hreordered).trans hstring⟩

/-- An explicit list for `src` on all tags leaves the list of the system for frames. -/
theorem lookup?_overlay_not_explicit_first :
    let e : Security := { global := [("src", ["string"])] }
    e.Distinct ∧
      ((ofSystem .closureSafeTypes).overlay e).lookup? "iframe" "src" = some ["TrustedResourceUrl"] ∧
      explicitFirst (ofSystem .closureSafeTypes) e "iframe" "src" = some ["string"] := by
  intro e
  refine ⟨?_, by decide, by decide⟩
  constructor <;> simp only [KeysDistinct] <;> decide

end Security
end Inlay
