import Twrp.Base.Field
import Twrp.Base.Line
import Twrp.Fstab.Flags

/-! The lines of the fstab and the items of a line (`TWPartitionManager::Process_Fstab` and
`TWPartition::Process_Fstab_Line`).

A line is read into an array by `fgets`, gets a newline where it has none, is copied into another
array without the NUL behind it, and has its blanks outside of quotes made NULs, so that its items
are the strings between them. The newline is one of these blanks, and it is all that ends the last
item: where a quote is open it stays, and the item goes on with what is in the array behind the
line. The first array has a byte less than the longest line needs, and what is behind a newline
that is put there is what an earlier line left. `processFstab_iff` says of which files, and of
what in the arrays, the items are the fields of the lines. -/
namespace Twrp.Fstab.Entries
open Base

abbrev Bytes := List UInt8

/-! ### The code -/

/-- `char` is a type with a sign or without. -/
inductive CharType where
  | signed
  | unsigned
deriving DecidableEq

/-- `c <= 32` -/
def CharType.atMostSpace (c : CharType) (b : UInt8) : Bool := b ≤ 32 || (c = .signed && 128 ≤ b)

/-- The loop that turns blanks into NULs. -/
def mark (c : CharType) : (skip : Bool) → Bytes → Bytes
  | _, [] => []
  | skip, b :: rest =>
    let skip := if b = 34 then !skip else skip
    (if !skip && c.atMostSpace b then 0 else b) :: mark c skip rest

/-- The string at the front of an array; nothing where it has no end in there. -/
def cstring (array : Bytes) : Option Bytes := if 0 ∈ array then some (array.takeWhile (· ≠ 0)) else none

/-- What `ptr` is as a string, each time that one is found: `line` is what is left of the line, and
`behind` what the array has behind it. The index is in an item or before one. -/
def itemsFrom (behind : Bytes) : (inItem : Bool) → (line : Bytes) → List (Option Bytes)
  | _, [] => []
  | inItem, b :: rest =>
    if b = 0 then itemsFrom behind false rest
    else if inItem then itemsFrom behind true rest
    else cstring (b :: rest ++ behind) :: itemsFrom behind true rest

structure Taken where
  mountPoint : Bytes
  fileSystem : Option Bytes
  blockDevice : Option Bytes
  more : List Bytes
deriving DecidableEq

/-- `Invalid block device` -/
def refused (fileSystem blockDevice : Bytes) : Bool :=
  fileSystem ∉ [lit "mtd", lit "yaffs2", lit "bml"] && blockDevice.head? ≠ some 47

/-- The chain over `item_index`. -/
def takeItems (mountPoint : Bytes) : List (Option Bytes) → Option Taken
  | [] => some ⟨mountPoint, none, none, []⟩
  | fileSystem :: rest => do
    let fileSystem ← fileSystem
    match rest with
    | [] => return ⟨mountPoint, some fileSystem, none, []⟩
    | blockDevice :: rest =>
      let blockDevice ← blockDevice
      if refused fileSystem blockDevice then return ⟨mountPoint, some fileSystem, some blockDevice, []⟩
      else
        let more ← rest.mapM id
        return ⟨mountPoint, some fileSystem, some blockDevice, more⟩

/-- `Process_Fstab_Line`, with what is in `full_line` before; nothing where a string has no end or
the line is longer than the array. -/
def processFstabLine (c : CharType) (fullLine : Base.Field 2048) (line : Bytes) : Option Taken :=
  if 2048 < line.length then none
  else do
    let marked := mark c false line
    let behind := fullLine.bytes.drop line.length
    let mountPoint ← cstring (marked ++ behind)
    takeItems mountPoint (itemsFrom behind false (marked.drop mountPoint.length))

/-- `string line = fstab_line`, after a newline is put at the end of the string if it has none. -/
def handed (array : Bytes) : Option Bytes :=
  let text := array.takeWhile (· ≠ 0)
  if text.getLast? = some 10 then some text else cstring (array.set text.length 10)

/-- The loop of `Process_Fstab` over what `fgets` reads: what is handed over each time, and what is
taken from it. `calls` tells what `full_line` has in it at each call. -/
def fstabLoop (c : CharType) (calls : Nat → Base.Field 2048) : Nat → (array : Bytes) → List Bytes → Option (List (Bytes × Taken))
  | _, _, [] => some []
  | call, array, piece :: rest =>
    let array := piece ++ 0 :: array.drop (piece.length + 1)
    if array.head? ≠ some 47 then fstabLoop c calls call array rest
    else do
      let line ← handed array
      let taken ← processFstabLine c (calls call) line
      let more ← fstabLoop c calls (call + 1) (List.replicate 2048 0) rest
      return (line, taken) :: more

/-- `Process_Fstab`, with what is in `fstab_line` before. -/
def processFstab (c : CharType) (calls : Nat → Base.Field 2048) (fstabLine : Base.Field 2048) (file : Bytes) :
    Option (List (Bytes × Taken)) :=
  fstabLoop c calls 0 fstabLine.bytes (buffers 2047 file)

/-! ### What is asked of it -/

/-- The pieces of a text between the blanks outside of quotes; `field` is what was read of one. -/
def fieldsFrom (blank : UInt8 → Bool) : (quoted : Bool) → (field : Bytes) → Bytes → List Bytes
  | _, field, [] => if field = [] then [] else [field]
  | quoted, field, b :: rest =>
    let quoted := if b = 34 then !quoted else quoted
    if !quoted && blank b then (if field = [] then [] else [field]) ++ fieldsFrom blank quoted [] rest
    else fieldsFrom blank quoted (field ++ [b]) rest

/-- The fields of a line; a blank is a byte up to the space. -/
def fieldsOf (text : Bytes) : List Bytes := fieldsFrom (· ≤ 32) false [] text

/-- What is to be taken: the fields by their place. A block device that is refused is the last. -/
def Taken.ofFields : List Bytes → Taken
  | [] => ⟨[], none, none, []⟩
  | [mountPoint] => ⟨mountPoint, none, none, []⟩
  | [mountPoint, fileSystem] => ⟨mountPoint, some fileSystem, none, []⟩
  | mountPoint :: fileSystem :: blockDevice :: more =>
    ⟨mountPoint, some fileSystem, some blockDevice, if refused fileSystem blockDevice then [] else more⟩

def StartsWithSlash (text : Bytes) : Prop := text.head? = some 47

instance (text : Bytes) : Decidable (StartsWithSlash text) := inferInstanceAs (Decidable (_ = _))

/-- Each line that begins with a slash as one line, and its fields. -/
def expected (lines : List StreamLine) : List (Bytes × Taken) :=
  (lines.filter fun l => StartsWithSlash l.text).map fun l => (l.text ++ [10], Taken.ofFields (fieldsOf l.text))

/-! ### When it is so -/

/-- Whether a quote is open after a text. -/
def quotedAfter : Bool → Bytes → Bool
  | quoted, [] => quoted
  | quoted, b :: rest => quotedAfter (if b = 34 then !quoted else quoted) rest

/-- No byte outside of quotes counts as a blank that is none. -/
def Clean (c : CharType) : Bool → Bytes → Prop
  | _, [] => True
  | quoted, b :: rest =>
    let quoted := if b = 34 then !quoted else quoted
    (quoted = false → c.atMostSpace b = true → b ≤ 32) ∧ Clean c quoted rest

/-- A field that closes its quotes and where `char` has a sign has only ASCII outside of them. -/
structure Plain (c : CharType) (field : Bytes) : Prop where
  closed : quotedAfter false field = false
  clean : Clean c false field

/-- The fields that are looked at: up to a block device that is refused. -/
def looked : List Bytes → List Bytes
  | mountPoint :: fileSystem :: blockDevice :: more =>
    if refused fileSystem blockDevice then [mountPoint, fileSystem, blockDevice]
    else mountPoint :: fileSystem :: blockDevice :: more
  | fields => fields

/-- What an array has in it after a piece that was read and passed over. -/
def overlay (array piece : Bytes) : Bytes := piece ++ 0 :: array.drop (piece.length + 1)

/-- A line with a slash in front has no NUL, fits with its newline, finds a NUL behind the newline
that it lacks, and has plain fields; of any other line no later piece begins with a slash. -/
def Fine (c : CharType) : (array : Bytes) → List StreamLine → Prop
  | _, [] => True
  | array, l :: rest =>
    if StartsWithSlash l.text then
      0 ∉ l.text ∧ l.text.length ≤ 2046 ∧ (l.ended = false → array[l.text.length + 1]? = some 0) ∧
        (∀ field ∈ looked (fieldsOf l.text), Plain c field) ∧ Fine c (List.replicate 2048 0) rest
    else
      (∀ piece ∈ buffers 2047 l.bytes, ¬StartsWithSlash piece) ∧
        Fine c ((buffers 2047 l.bytes).foldl overlay array) rest

/-! ### The items -/

theorem quotedAfter_append (quoted : Bool) (a b : Bytes) : quotedAfter quoted (a ++ b) = quotedAfter (quotedAfter quoted a) b := by
  induction a generalizing quoted with
  | nil => rfl
  | cons x a ih => exact ih _

theorem clean_append (c : CharType) (quoted : Bool) (a b : Bytes) :
    Clean c quoted (a ++ b) ↔ Clean c quoted a ∧ Clean c (quotedAfter quoted a) b := by
  induction a generalizing quoted with
  | nil => simp [Clean, quotedAfter]
  | cons x a ih => simp only [List.cons_append, Clean, quotedAfter, ih, and_assoc]

theorem cstring_append {w rest : Bytes} (hw : 0 ∉ w) : cstring (w ++ 0 :: rest) = some w := by
  have hbytes : ∀ b ∈ w, decide (b ≠ 0) = true := by
    intro b hb
    exact decide_eq_true fun h => hw (h ▸ hb)
  rw [cstring, if_pos (by simp), List.takeWhile_append_of_pos hbytes]
  simp

section Items
variable (behind : Bytes)

theorem itemsFrom_word {w : Bytes} (hw : 0 ∉ w) (rest : Bytes) :
    itemsFrom behind true (w ++ rest) = itemsFrom behind true rest := by
  induction w with
  | nil => rfl
  | cons b w ih =>
    have hb : b ≠ 0 := fun h => hw (h ▸ List.mem_cons_self)
    rw [List.cons_append, itemsFrom, if_neg hb, if_pos rfl, ih (List.not_mem_of_not_mem_cons hw)]

/-- An item is found where it starts. -/
theorem itemsFrom_start {w : Bytes} (hw : 0 ∉ w) (hne : w ≠ []) (rest : Bytes) :
    itemsFrom behind false (w ++ rest) = cstring (w ++ rest ++ behind) :: itemsFrom behind true rest := by
  obtain ⟨b, w, rfl⟩ := List.exists_cons_of_ne_nil hne
  have hb : b ≠ 0 := fun h => hw (h ▸ List.mem_cons_self)
  rw [List.cons_append, itemsFrom, if_neg hb, if_neg Bool.false_ne_true, itemsFrom_word behind (List.not_mem_of_not_mem_cons hw)]

/-- What a field is as a string: with an open quote the newline stays behind it. -/
def asItem (field : Bytes) : Option Bytes :=
  if quotedAfter false field then cstring (field ++ 10 :: behind) else some field

/-- The items of a line are the pieces between what the loop takes for blanks. -/
theorem itemsFrom_mark (c : CharType) {quoted : Bool} {field text : Bytes} (hquoted : quotedAfter false field = quoted)
    (hfield : 0 ∉ field) (htext : 0 ∉ text) :
    itemsFrom behind false (field ++ mark c quoted (text ++ [10])) =
      (fieldsFrom c.atMostSpace quoted field text).map (asItem behind) := by
  induction text generalizing quoted field with
  | nil =>
    have hspace : c.atMostSpace 10 = true := by cases c <;> rfl
    have hnot : ¬(10 : UInt8) = 34 := by decide
    by_cases hne : field = []
    · subst hne
      obtain rfl : false = quoted := hquoted
      simp [mark, hspace, itemsFrom, fieldsFrom]
    · cases quoted with
      | false =>
        rw [List.nil_append, mark, if_neg hnot, hspace, itemsFrom_start behind hfield hne]
        simp [mark, itemsFrom, fieldsFrom, hne, asItem, hquoted, cstring_append hfield]
      | true =>
        rw [List.nil_append, mark, if_neg hnot, itemsFrom_start behind hfield hne]
        simp [mark, itemsFrom, fieldsFrom, hne, asItem, hquoted]
  | cons b text ih =>
    obtain ⟨hb, htext⟩ := not_or.mp (List.mem_cons.not.mp htext)
    have hb : b ≠ 0 := fun h => hb h.symm
    rw [List.cons_append, mark, fieldsFrom]
    set next := if b = 34 then !quoted else quoted with hnext
    by_cases hblank : (!next && c.atMostSpace b) = true
    · have hclosed : next = false := by
        rw [Bool.and_eq_true, Bool.not_eq_true'] at hblank
        exact hblank.1
      have hrest : itemsFrom behind false ([] ++ mark c next (text ++ [10])) = _ := ih hclosed.symm List.not_mem_nil htext
      rw [List.nil_append] at hrest
      -- a blank is no quote
      have hsame : quoted = false := by
        by_cases hmark : b = 34
        · subst hmark
          rw [Bool.and_eq_true] at hblank
          exact absurd hblank.2 (by cases c <;> decide)
        · rw [if_neg hmark] at hnext
          rw [← hnext, hclosed]
      simp only [hblank, if_true]
      by_cases hne : field = []
      · subst hne
        rw [List.nil_append, itemsFrom, if_pos rfl, hrest]
        simp
      · rw [itemsFrom_start behind hfield hne, itemsFrom, if_pos rfl, hrest, List.append_assoc, List.cons_append,
          cstring_append hfield]
        simp [hne, asItem, hquoted, hsame]
    · have hgrown : quotedAfter false (field ++ [b]) = next := by
        rw [quotedAfter_append, hquoted]
        rfl
      have hfree : 0 ∉ field ++ [b] := by
        rw [List.mem_append, List.mem_singleton]
        exact not_or.mpr ⟨hfield, fun h => hb h.symm⟩
      have hrest := ih hgrown hfree htext
      rw [List.append_assoc, List.singleton_append] at hrest
      simp only [hblank]
      exact hrest

end Items

/-! ### The fields -/

section Fields
variable {blank : UInt8 → Bool}

/-- What was read of a field is its beginning. -/
theorem fieldsFrom_head (quoted : Bool) {field : Bytes} (hne : field ≠ []) (text : Bytes) :
    ∃ first more, fieldsFrom blank quoted field text = first :: more ∧ field <+: first := by
  induction text generalizing quoted field with
  | nil => exact ⟨field, [], by simp [fieldsFrom, hne], List.prefix_rfl⟩
  | cons b text ih =>
    rw [fieldsFrom]
    by_cases hblank : (!(if b = 34 then !quoted else quoted) && blank b) = true
    · simp only [hblank, if_true, hne, if_false]
      exact ⟨field, _, rfl, List.prefix_rfl⟩
    · simp only [hblank]
      have hgrown : field ++ [b] ≠ [] := List.append_ne_nil_of_right_ne_nil field (List.cons_ne_nil b [])
      obtain ⟨first, more, heq, hpre⟩ := ih (if b = 34 then !quoted else quoted) hgrown
      exact ⟨first, more, heq, (List.prefix_append field [b]).trans hpre⟩

theorem fieldsFrom_subset {quoted : Bool} {field text p : Bytes} (h : p ∈ fieldsFrom blank quoted field text) :
    p ⊆ field ++ text := by
  induction text generalizing quoted field with
  | nil =>
    rw [fieldsFrom] at h
    split at h
    · cases h
    · rw [List.mem_singleton.mp h, List.append_nil]
      exact List.Subset.refl field
  | cons b text ih =>
    rw [fieldsFrom] at h
    by_cases hblank : (!(if b = 34 then !quoted else quoted) && blank b) = true
    · simp only [hblank, if_true] at h
      obtain h | h := List.mem_append.mp h
      · split at h
        · cases h
        · rw [List.mem_singleton.mp h]
          exact List.subset_append_left field _
      · exact List.Subset.trans (ih h) (by simp)
    · simp only [hblank] at h
      have hsub := ih h
      rwa [List.append_assoc, List.singleton_append] at hsub

end Fields

section Line
variable {c : CharType}

theorem atMostSpace_of_le {b : UInt8} (h : b ≤ 32) : c.atMostSpace b = true := by simp [CharType.atMostSpace, h]

/-- The pieces of the loop are clean. -/
theorem fieldsFrom_clean {quoted : Bool} {field text : Bytes} (hquoted : quotedAfter false field = quoted)
    (hfield : Clean c false field) : ∀ p ∈ fieldsFrom c.atMostSpace quoted field text, Clean c false p := by
  induction text generalizing quoted field with
  | nil =>
    intro p hp
    rw [fieldsFrom] at hp
    split at hp
    · cases hp
    · rw [List.mem_singleton.mp hp]
      exact hfield
  | cons b text ih =>
    intro p hp
    rw [fieldsFrom] at hp
    set next := if b = 34 then !quoted else quoted with hnext
    by_cases hblank : (!next && c.atMostSpace b) = true
    · simp only [hblank, if_true] at hp
      rw [Bool.and_eq_true, Bool.not_eq_true'] at hblank
      obtain hp | hp := List.mem_append.mp hp
      · split at hp
        · cases hp
        · rw [List.mem_singleton.mp hp]
          exact hfield
      · have hstart : quotedAfter false [] = next := hblank.1.symm
        exact ih hstart trivial p hp
    · simp only [hblank] at hp
      have hgrown : quotedAfter false (field ++ [b]) = next := by
        rw [quotedAfter_append, hquoted]
        rfl
      have hclean : Clean c false (field ++ [b]) := by
        rw [clean_append, hquoted]
        refine ⟨hfield, ?_, trivial⟩
        intro hclosed hspace
        rw [← hnext] at hclosed
        exact absurd (by simp [hclosed, hspace]) hblank
      exact ih hgrown hclean p hp

/-- As long as the fields are plain the loop finds the same. -/
theorem fieldsFrom_agree {n : Nat} {quoted : Bool} {field text : Bytes} (hquoted : quotedAfter false field = quoted)
    (h : ∀ f ∈ (fieldsFrom (· ≤ 32) quoted field text).take n, Plain c f) :
    (fieldsFrom c.atMostSpace quoted field text).take n = (fieldsFrom (· ≤ 32) quoted field text).take n := by
  induction text generalizing n quoted field with
  | nil => rfl
  | cons b text ih =>
    cases n with
    | zero => rfl
    | succ n =>
      rw [fieldsFrom] at h ⊢
      conv_rhs => rw [fieldsFrom]
      set next := if b = 34 then !quoted else quoted with hnext
      cases hclosed : next with
      | true =>
        have hgrown : quotedAfter false (field ++ [b]) = true := by
          rw [quotedAfter_append, hquoted]
          exact hclosed
        rw [hclosed] at h
        exact ih hgrown h
      | false =>
        rw [hclosed] at h
        by_cases hblank : b ≤ 32
        · simp only [atMostSpace_of_le hblank, hblank, decide_true, Bool.not_false, Bool.and_self, if_true] at h ⊢
          by_cases hne : field = []
          · simp only [hne, if_true, List.nil_append] at h ⊢
            exact ih rfl h
          · simp only [hne, if_false, List.singleton_append, List.take_succ_cons, List.mem_cons] at h ⊢
            have hstart : quotedAfter false [] = false := rfl
            rw [ih hstart fun f hf => h f (Or.inr hf)]
        · simp only [hblank, decide_false, Bool.and_false, Bool.not_false, Bool.true_and] at h ⊢
          have hgrown : quotedAfter false (field ++ [b]) = false := by
            rw [quotedAfter_append, hquoted]
            exact hclosed
          -- the field would not be plain
          have hspace : c.atMostSpace b = false := by
            by_contra hspace
            have hne : field ++ [b] ≠ [] := List.append_ne_nil_of_right_ne_nil field (List.cons_ne_nil b [])
            obtain ⟨first, more, heq, hpre⟩ := @fieldsFrom_head (fun x => decide (x ≤ 32)) false _ hne text
            have hplain := h first (by simp [heq])
            obtain ⟨rest, rfl⟩ := hpre
            have hclean := ((clean_append c false (field ++ [b]) rest).mp hplain.clean).1
            rw [clean_append, hquoted] at hclean
            exact hblank (hclean.2.1 hclosed (by simpa using hspace))
          simp only [hspace] at h ⊢
          exact ih hgrown h

/-! ### A line -/

theorem itemsFrom_false {behind line : Bytes} (h : ∀ b ∈ line.head?, b = 0) :
    itemsFrom behind true line = itemsFrom behind false line := by
  cases line with
  | nil => rfl
  | cons b line =>
    have hb : b = 0 := h b rfl
    rw [itemsFrom, itemsFrom, if_pos hb, if_pos hb]

/-- The mount point is the first item, and the index is behind it. -/
theorem itemsFrom_mountPoint {behind line mountPoint : Bytes} {b : UInt8} (hb : line.head? = some b) (hne : b ≠ 0)
    (h : cstring (line ++ behind) = some mountPoint) :
    itemsFrom behind false line = some mountPoint :: itemsFrom behind false (line.drop mountPoint.length) := by
  obtain ⟨w, rest, hline, hw, hrest⟩ : ∃ w rest, line = w ++ rest ∧ 0 ∉ w ∧ ∀ x ∈ rest.head?, x = 0 := by
    refine ⟨line.takeWhile (· ≠ 0), line.dropWhile (· ≠ 0), List.takeWhile_append_dropWhile.symm, ?_, ?_⟩
    · intro hmem
      simpa using List.mem_takeWhile_imp hmem
    · intro x hx
      have hnot := List.head?_dropWhile_not (· ≠ 0) line
      rw [Option.mem_def.mp hx] at hnot
      simpa using hnot
  have hwne : w ≠ [] := by
    rintro rfl
    rw [List.nil_append] at hline
    subst hline
    exact hne (hrest b hb)
  subst hline
  have hitem := itemsFrom_start behind hw hwne rest
  rw [h] at hitem
  rw [hitem, itemsFrom_false hrest]
  congr 1
  cases rest with
  | nil =>
    -- the string goes on behind the line
    have hlong : w.length ≤ mountPoint.length := by
      rw [List.append_nil, cstring] at h
      split at h
      · obtain rfl := Option.some.inj h
        have hbytes : ∀ x ∈ w, decide (x ≠ 0) = true := fun x hx => decide_eq_true fun hx' => hw (hx' ▸ hx)
        rw [List.takeWhile_append_of_pos hbytes, List.length_append]
        exact Nat.le_add_right _ _
      · cases h
    rw [List.append_nil, List.drop_eq_nil_of_le hlong]
  | cons x rest =>
    obtain rfl : x = 0 := hrest x rfl
    rw [List.append_assoc, List.cons_append, cstring_append hw] at h
    obtain rfl := Option.some.inj h
    rw [List.drop_left]

/-- The first item is the mount point. -/
def takeAll : List (Option Bytes) → Option Taken
  | [] => none
  | mountPoint :: rest => mountPoint.bind fun mountPoint => takeItems mountPoint rest

theorem processFstabLine_items (fullLine : Base.Field 2048) {text : Bytes} (hslash : StartsWithSlash text) (hnul : 0 ∉ text)
    (hlen : text.length ≤ 2046) :
    processFstabLine c fullLine (text ++ [10]) =
      takeAll ((fieldsFrom c.atMostSpace false [] text).map (asItem (fullLine.bytes.drop (text ++ [10]).length))) := by
  have hfits : ¬2048 < (text ++ [10]).length := by
    rw [List.length_append, List.length_singleton]
    omega
  have hitems : itemsFrom (fullLine.bytes.drop (text ++ [10]).length) false ([] ++ mark c false (text ++ [10])) = _ :=
    itemsFrom_mark _ c rfl List.not_mem_nil hnul
  rw [List.nil_append] at hitems
  obtain ⟨rest, rfl⟩ : ∃ rest, text = 47 :: rest := by
    cases text with
    | nil => cases hslash
    | cons b rest =>
      obtain rfl := Option.some.inj hslash
      exact ⟨rest, rfl⟩
  have hhead : (mark c false (47 :: rest ++ [10])).head? = some 47 := by
    have hspace : c.atMostSpace 47 = false := by cases c <;> rfl
    simp [mark, hspace]
  rw [processFstabLine, if_neg hfits, ← hitems]
  cases hmount : cstring (mark c false (47 :: rest ++ [10]) ++ fullLine.bytes.drop (47 :: rest ++ [10]).length) with
  | none =>
    obtain ⟨more, hmore⟩ := List.head?_eq_some_iff.mp hhead
    rw [hmore] at hmount ⊢
    rw [itemsFrom, if_neg (by decide), if_neg Bool.false_ne_true, hmount]
    simp only [hmount]
    rfl
  | some mountPoint =>
    rw [itemsFrom_mountPoint hhead (by decide) hmount]
    simp only [hmount]
    rfl

theorem mapM_some (l : List Bytes) : (l.map some).mapM id = some l := by
  induction l with
  | nil => rfl
  | cons x l ih =>
    rw [List.map_cons, List.mapM_cons, ih]
    rfl

theorem mapM_eq_some {items : List (Option Bytes)} {l : List Bytes} (h : items.mapM id = some l) : items = l.map some := by
  induction items generalizing l with
  | nil =>
    obtain rfl := Option.some.inj h
    rfl
  | cons item items ih =>
    rw [List.mapM_cons] at h
    cases item with
    | none => cases h
    | some x =>
      cases hrest : items.mapM id with
      | none =>
        rw [hrest] at h
        cases h
      | some more =>
        rw [hrest] at h
        obtain rfl := Option.some.inj h
        rw [ih hrest]
        rfl

/-- Fields that are all found are taken by their place. -/
theorem takeAll_fields {fields : List Bytes} (hne : fields ≠ []) : takeAll (fields.map some) = some (Taken.ofFields fields) := by
  match fields with
  | [] => exact absurd rfl hne
  | [_] => rfl
  | [_, _] => rfl
  | mountPoint :: fileSystem :: blockDevice :: more =>
    by_cases hrefused : refused fileSystem blockDevice = true
    · simp [takeAll, takeItems, Taken.ofFields, hrefused]
    · have hmore := mapM_some more
      simp only [takeAll, takeItems, Taken.ofFields, List.map_cons, Option.bind_some, Option.bind_eq_bind, hrefused, hmore]
      rfl

/-- Behind a block device that is refused nothing is looked at. -/
theorem takeAll_refused {mountPoint fileSystem blockDevice : Bytes} (h : refused fileSystem blockDevice = true)
    (items : List (Option Bytes)) (more : List Bytes) :
    takeAll (some mountPoint :: some fileSystem :: some blockDevice :: items) =
      some (Taken.ofFields (mountPoint :: fileSystem :: blockDevice :: more)) := by
  simp [takeAll, takeItems, Taken.ofFields, h]

/-- All that is taken, in its order. -/
def Taken.list (t : Taken) : List Bytes := t.mountPoint :: (t.fileSystem.toList ++ t.blockDevice.toList ++ t.more)

theorem list_ofFields {fields : List Bytes} (hne : fields ≠ []) : (Taken.ofFields fields).list = looked fields := by
  match fields with
  | [] => exact absurd rfl hne
  | [_] => rfl
  | [_, _] => rfl
  | mountPoint :: fileSystem :: blockDevice :: more =>
    by_cases hrefused : refused fileSystem blockDevice = true <;> simp [Taken.list, Taken.ofFields, looked, hrefused]

/-- What is taken is what is found, from the front. -/
theorem takeAll_prefix {items : List (Option Bytes)} {t : Taken} (h : takeAll items = some t) :
    t.list.map some <+: items := by
  match items with
  | [] => cases h
  | none :: _ => cases h
  | [some mountPoint] =>
    obtain rfl := Option.some.inj h
    exact List.prefix_rfl
  | some mountPoint :: none :: _ => cases h
  | [some mountPoint, some fileSystem] =>
    obtain rfl := Option.some.inj h
    exact List.prefix_rfl
  | some mountPoint :: some fileSystem :: none :: _ => cases h
  | some mountPoint :: some fileSystem :: some blockDevice :: rest =>
    by_cases hrefused : refused fileSystem blockDevice = true
    · simp only [takeAll, takeItems, Option.bind_some, Option.bind_eq_bind, hrefused, if_true] at h
      obtain rfl := Option.some.inj h
      exact List.prefix_append [some mountPoint, some fileSystem, some blockDevice] rest
    · simp only [takeAll, takeItems, Option.bind_some, Option.bind_eq_bind, hrefused] at h
      cases hmore : rest.mapM id with
      | none =>
        rw [hmore] at h
        cases h
      | some more =>
        rw [hmore] at h
        obtain rfl := Option.some.inj h
        rw [mapM_eq_some hmore]
        exact List.prefix_rfl

theorem asItem_eq_some {behind p f : Bytes} (hp : 0 ∉ p) (hf : 10 ∉ f) (h : asItem behind p = some f) :
    p = f ∧ quotedAfter false p = false := by
  rw [asItem] at h
  cases hopen : quotedAfter false p with
  | false =>
    rw [hopen, if_neg Bool.false_ne_true] at h
    exact ⟨Option.some.inj h, rfl⟩
  | true =>
    rw [hopen, if_pos rfl, cstring] at h
    split at h
    · obtain rfl := Option.some.inj h
      have hbytes : ∀ b ∈ p, decide (b ≠ 0) = true := fun b hb => decide_eq_true fun hb' => hp (hb' ▸ hb)
      rw [List.takeWhile_append_of_pos hbytes] at hf
      exact absurd (by simp) hf
    · cases h

/-- From a line exactly its fields are taken where those that are looked at are plain. -/
theorem processFstabLine_iff (fullLine : Base.Field 2048) {text : Bytes} (hslash : StartsWithSlash text) (hnul : 0 ∉ text)
    (hline : 10 ∉ text) (hlen : text.length ≤ 2046) :
    processFstabLine c fullLine (text ++ [10]) = some (Taken.ofFields (fieldsOf text)) ↔
      ∀ f ∈ looked (fieldsOf text), Plain c f := by
  have hne : fieldsOf text ≠ [] := by
    obtain ⟨rest, rfl⟩ := List.head?_eq_some_iff.mp hslash
    obtain ⟨first, more, heq, -⟩ := @fieldsFrom_head (fun x => decide (x ≤ 32)) false [47] (by simp) rest
    have hstep : fieldsOf (47 :: rest) = fieldsFrom (fun x => decide (x ≤ 32)) false [47] rest := rfl
    rw [hstep, heq]
    exact List.cons_ne_nil first more
  have hsub : ∀ f ∈ fieldsOf text, f ⊆ text := fun f hf => fieldsFrom_subset hf
  have hlooked : ∀ f ∈ looked (fieldsOf text), f ∈ fieldsOf text := by
    intro f hf
    rw [looked.eq_def] at hf
    split at hf
    · rename_i mountPoint fileSystem blockDevice more heq
      rw [heq]
      split at hf
      · exact List.mem_of_mem_take (i := 3) hf
      · exact hf
    · exact hf
  rw [processFstabLine_items fullLine hslash hnul hlen]
  constructor
  · intro h f hf
    have hfound := takeAll_prefix h
    rw [list_ofFields hne] at hfound
    obtain ⟨p, hp, hitem⟩ := List.mem_map.mp (hfound.subset (List.mem_map_of_mem hf))
    have hp0 : 0 ∉ p := fun hmem => hnul (fieldsFrom_subset hp hmem)
    have hf10 : 10 ∉ f := fun hmem => hline (hsub f (hlooked f hf) hmem)
    obtain ⟨rfl, hclosed⟩ := asItem_eq_some hp0 hf10 hitem
    have hstart : quotedAfter false [] = false := rfl
    have hclean : Clean c false [] := trivial
    exact ⟨hclosed, fieldsFrom_clean hstart hclean p hp⟩
  · intro h
    have hstart : quotedAfter false [] = false := rfl
    have hitem {behind p : Bytes} (hp : Plain c p) : asItem behind p = some p := by
      rw [asItem, hp.closed, if_neg Bool.false_ne_true]
    by_cases hall : looked (fieldsOf text) = fieldsOf text
    · rw [hall] at h
      have hsame : fieldsFrom c.atMostSpace false [] text = fieldsOf text := by
        have hagree := fieldsFrom_agree (c := c)
          (n := max (fieldsFrom c.atMostSpace false [] text).length (fieldsOf text).length) hstart
          fun f hf => h f (List.mem_of_mem_take hf)
        rw [List.take_of_length_le (Nat.le_max_left _ _)] at hagree
        rw [hagree]
        exact List.take_of_length_le (Nat.le_max_right _ _)
      rw [hsame, ← takeAll_fields hne]
      congr 1
      exact List.map_congr_left fun f hf => hitem (h f hf)
    · match hfields : fieldsOf text with
      | [] => exact absurd hfields hne
      | [_] => exact absurd (by rw [hfields]; rfl) hall
      | [_, _] => exact absurd (by rw [hfields]; rfl) hall
      | mountPoint :: fileSystem :: blockDevice :: more =>
        rw [hfields, looked] at h hall
        have hrefused : refused fileSystem blockDevice = true := by
          by_contra hno
          exact hall (if_neg hno)
        rw [if_pos hrefused] at h
        have htake : (fieldsFrom (· ≤ 32) false [] text).take 3 = [mountPoint, fileSystem, blockDevice] := by
          have hfields' : fieldsFrom (· ≤ 32) false [] text = _ := hfields
          rw [hfields']
          rfl
        have hagree := fieldsFrom_agree (c := c) (n := 3) hstart (by rw [htake]; exact h)
        rw [htake] at hagree
        obtain ⟨rest, hrest⟩ : ∃ rest, fieldsFrom c.atMostSpace false [] text = mountPoint :: fileSystem :: blockDevice :: rest :=
          ⟨_, ((List.take_append_drop 3 _).symm.trans (by rw [hagree]; rfl))⟩
        obtain ⟨hmount, hsystem, hdevice⟩ : Plain c mountPoint ∧ Plain c fileSystem ∧ Plain c blockDevice := by
          simpa using h
        rw [hrest, List.map_cons, List.map_cons, List.map_cons, hitem hmount, hitem hsystem, hitem hdevice]
        exact takeAll_refused hrefused _ more

end Line

/-! ### What is handed over -/

theorem handed_ended {text : Bytes} (htext : 0 ∉ text) (rest : Bytes) :
    handed (text ++ [10] ++ 0 :: rest) = some (text ++ [10]) := by
  have hbytes : ∀ b ∈ text ++ [10], decide (b ≠ 0) = true := by
    intro b hb
    refine decide_eq_true ?_
    rintro rfl
    simp [htext] at hb
  have htake : (text ++ [10] ++ 0 :: rest).takeWhile (· ≠ 0) = text ++ [10] := by
    rw [List.takeWhile_append_of_pos hbytes]
    simp
  simp only [handed, htake, List.getLast?_concat, if_true]

/-- The newline that is put behind a text takes the place of its NUL. -/
theorem handed_open {text : Bytes} (htext : 0 ∉ text) (hline : 10 ∉ text) (rest : Bytes) :
    handed (text ++ 0 :: rest) = cstring (text ++ 10 :: rest) := by
  have hbytes : ∀ b ∈ text, decide (b ≠ 0) = true := fun b hb => decide_eq_true fun h => htext (h ▸ hb)
  have htake : (text ++ 0 :: rest).takeWhile (· ≠ 0) = text := by
    rw [List.takeWhile_append_of_pos hbytes]
    simp
  have hlast : ¬text.getLast? = some 10 := fun h => hline (List.mem_of_getLast? h)
  simp only [handed, htake, if_neg hlast, List.set_append_right _ _ (le_refl _), Nat.sub_self, List.set_cons_zero]

theorem handed_noNul {array line : Bytes} (h : handed array = some line) : 0 ∉ line := by
  have htake (l : Bytes) : 0 ∉ l.takeWhile (· ≠ 0) := by
    intro hmem
    simpa using List.mem_takeWhile_imp hmem
  rw [handed] at h
  split at h
  · obtain rfl := Option.some.inj h
    exact htake _
  · rw [cstring] at h
    split at h
    · obtain rfl := Option.some.inj h
      exact htake _
    · cases h

/-- Only a NUL behind the newline ends the line there. -/
theorem cstring_newline {text rest : Bytes} (htext : 0 ∉ text) :
    cstring (text ++ 10 :: rest) = some (text ++ [10]) ↔ rest.head? = some 0 := by
  have hfree : 0 ∉ text ++ [10] := by simp [htext]
  have hbytes : ∀ b ∈ text ++ [10], decide (b ≠ 0) = true := fun b hb => decide_eq_true fun h => hfree (h ▸ hb)
  rw [← List.singleton_append, ← List.append_assoc]
  constructor
  · intro h
    rw [cstring] at h
    split at h
    · rename_i hmem
      cases rest with
      | nil =>
        rw [List.append_nil] at hmem
        exact absurd hmem hfree
      | cons b rest =>
        have hlen := congrArg List.length (Option.some.inj h)
        by_cases hb : b = 0
        · rw [hb]
          rfl
        · rw [List.takeWhile_append_of_pos hbytes, List.takeWhile_cons_of_pos (by simpa using hb)] at hlen
          simp at hlen
    · cases h
  · intro h
    obtain ⟨more, rfl⟩ := List.head?_eq_some_iff.mp h
    exact cstring_append hfree

/-! ### The loop -/

section Loop
variable {c : CharType} {calls : Nat → Base.Field 2048}

theorem overlay_head (array piece : Bytes) : (overlay array piece).head? = some 47 ↔ StartsWithSlash piece := by
  cases piece with
  | nil => simp [overlay, StartsWithSlash]
  | cons b piece => simp [overlay, StartsWithSlash]

theorem length_overlay {array piece : Bytes} (harray : array.length = 2048) (hpiece : piece.length ≤ 2047) :
    (overlay array piece).length = 2048 := by
  rw [overlay, List.length_append, List.length_cons, List.length_drop]
  omega

theorem length_foldl_overlay {array : Bytes} (harray : array.length = 2048) {pieces : List Bytes}
    (h : ∀ p ∈ pieces, p.length ≤ 2047) : (pieces.foldl overlay array).length = 2048 := by
  induction pieces generalizing array with
  | nil => exact harray
  | cons p pieces ih =>
    obtain ⟨hp, hrest⟩ := List.forall_mem_cons.mp h
    exact ih (length_overlay harray hp) hrest

/-- Pieces that do not begin with a slash are passed over. -/
theorem fstabLoop_pass {pieces : List Bytes} (h : ∀ p ∈ pieces, ¬StartsWithSlash p) (call : Nat) (array : Bytes)
    (rest : List Bytes) :
    fstabLoop c calls call array (pieces ++ rest) = fstabLoop c calls call (pieces.foldl overlay array) rest := by
  induction pieces generalizing array with
  | nil => rfl
  | cons p pieces ih =>
    obtain ⟨hp, hrest⟩ := List.forall_mem_cons.mp h
    have hhead : (p ++ 0 :: array.drop (p.length + 1)).head? ≠ some 47 := fun hslash => hp ((overlay_head array p).mp hslash)
    rw [List.cons_append, fstabLoop]
    simp only [if_pos hhead]
    exact ih hrest _

/-- One that does is handed over, if it ends. -/
theorem fstabLoop_slash {piece : Bytes} (h : StartsWithSlash piece) (call : Nat) (array : Bytes) (rest : List Bytes) :
    fstabLoop c calls call array (piece :: rest) =
      (handed (overlay array piece)).bind fun line =>
        (processFstabLine c (calls call) line).bind fun taken =>
          (fstabLoop c calls (call + 1) (List.replicate 2048 0) rest).bind fun more => some ((line, taken) :: more) := by
  have hhead : ¬(piece ++ 0 :: array.drop (piece.length + 1)).head? ≠ some 47 :=
    not_not.mpr ((overlay_head array piece).mpr h)
  rw [fstabLoop]
  simp only [if_neg hhead]
  rfl

/-- One line is handed over for each. -/
theorem fstabLoop_length {call : Nat} {array : Bytes} {pieces : List Bytes} {result : List (Bytes × Taken)}
    (h : fstabLoop c calls call array pieces = some result) :
    result.length = pieces.countP fun p => decide (StartsWithSlash p) := by
  induction pieces generalizing call array result with
  | nil =>
    obtain rfl := Option.some.inj h
    rfl
  | cons p pieces ih =>
    by_cases hp : StartsWithSlash p
    · rw [fstabLoop_slash hp] at h
      obtain ⟨line, -, h⟩ := Option.bind_eq_some_iff.mp h
      obtain ⟨taken, -, h⟩ := Option.bind_eq_some_iff.mp h
      obtain ⟨more, hmore, h⟩ := Option.bind_eq_some_iff.mp h
      obtain rfl := Option.some.inj h
      rw [List.countP_cons_of_pos (by simpa using hp), List.length_cons, ih hmore]
    · have hone : ∀ q ∈ [p], ¬StartsWithSlash q := by simpa using hp
      have hpass : fstabLoop c calls call array ([p] ++ pieces) = _ := fstabLoop_pass hone call array pieces
      rw [List.singleton_append] at hpass
      rw [hpass] at h
      rw [List.countP_cons_of_neg (by simpa using hp), ih h]

theorem fgets_head {n : Nat} {b : UInt8} {rest : Bytes} : (fgets (n + 1) (b :: rest)).1.head? = some b := by
  by_cases hb : b = 10 <;> simp [fgets, hb]

theorem length_of_mem_buffers {n : Nat} (hn : 0 < n) {stream p : Bytes} (h : p ∈ buffers n stream) : p.length ≤ n := by
  have hfgets (n : Nat) (stream : Bytes) : (fgets n stream).1.length ≤ n := by
    induction n generalizing stream with
    | zero => exact le_refl _
    | succ n ih =>
      cases stream with
      | nil => exact Nat.zero_le _
      | cons b rest =>
        by_cases hb : b = 10
        · simp [fgets, hb]
        · simpa [fgets, hb] using ih rest
  induction hlen : stream.length using Nat.strong_induction_on generalizing stream with
  | _ len ih =>
    subst hlen
    by_cases hs : stream = []
    · rw [hs] at h
      cases h
    · rw [buffers_cons hn hs] at h
      obtain rfl | h := List.mem_cons.mp h
      · exact hfgets n stream
      · exact ih _ (fgets_shorter hn hs) h rfl

/-- The first piece of a stream begins as the stream. -/
theorem buffers_slash {text tail : Bytes} (h : StartsWithSlash text) :
    ∃ piece rest, buffers 2047 (text ++ tail) = piece :: rest ∧ StartsWithSlash piece ∧
      (10 ∉ text → 2047 ≤ text.length → piece = text.take 2047) := by
  have hne : text ++ tail ≠ [] := by
    rintro hnil
    rw [List.append_eq_nil_iff] at hnil
    rw [hnil.1] at h
    cases h
  refine ⟨_, _, buffers_cons (by decide) hne, ?_, ?_⟩
  · obtain ⟨rest, rfl⟩ := List.head?_eq_some_iff.mp h
    exact fgets_head
  · intro hline hlen
    have hcut : 10 ∉ text.take 2047 := fun hmem => hline (List.mem_of_mem_take hmem)
    have htake : (text.take 2047).length = 2047 := by
      rw [List.length_take]
      omega
    have hsplit : text ++ tail = text.take 2047 ++ (text.drop 2047 ++ tail) := by
      rw [← List.append_assoc, List.take_append_drop]
    rw [hsplit, fgets_cut hcut htake]

/-- A line with a slash in front that has a NUL or does not fit is not handed over. -/
theorem fstabLoop_bad {text tail : Bytes} (hslash : StartsWithSlash text) (hline : 10 ∉ text)
    (hbad : ¬(0 ∉ text ∧ text.length ≤ 2046)) {array : Bytes} (harray : array.length = 2048) (call : Nat) (taken : Taken)
    (more : List (Bytes × Taken)) :
    fstabLoop c calls call array (buffers 2047 (text ++ tail)) ≠ some ((text ++ [10], taken) :: more) := by
  intro h
  obtain ⟨piece, rest, hbuffers, hpiece, hcut⟩ := @buffers_slash _ tail hslash
  rw [hbuffers, fstabLoop_slash hpiece] at h
  obtain ⟨line, hhanded, h⟩ := Option.bind_eq_some_iff.mp h
  obtain ⟨_, -, h⟩ := Option.bind_eq_some_iff.mp h
  obtain ⟨_, -, h⟩ := Option.bind_eq_some_iff.mp h
  have heq : line = text ++ [10] := congrArg Prod.fst (List.cons.inj (Option.some.inj h)).1
  by_cases hnul : 0 ∈ text
  · apply handed_noNul hhanded
    rw [heq]
    exact List.mem_append_left _ hnul
  · have hlen : 2047 ≤ text.length := by
      by_contra hshort
      exact hbad ⟨hnul, by omega⟩
    have hfree : 0 ∉ text.take 2047 := fun hmem => hnul (List.mem_of_mem_take hmem)
    have hfree' : 10 ∉ text.take 2047 := fun hmem => hline (List.mem_of_mem_take hmem)
    have htake : (text.take 2047).length = 2047 := by
      rw [List.length_take]
      omega
    have hnone : ¬0 ∈ text.take 2047 ++ [10] := by simp [hfree]
    rw [hcut hline hlen, overlay, htake, List.drop_eq_nil_of_le (by omega), handed_open hfree hfree', cstring,
      if_neg hnone] at hhanded
    cases hhanded

/-- No more lines are asked for than pieces begin with a slash. -/
theorem length_expected_le (file : Bytes) :
    (expected (linesOf file)).length ≤ (buffers 2047 file).countP fun p => decide (StartsWithSlash p) := by
  have hfirst (tail : Bytes) {text : Bytes} (h : StartsWithSlash text) :
      0 < (buffers 2047 (text ++ tail)).countP fun p => decide (StartsWithSlash p) := by
    obtain ⟨piece, rest, hbuffers, hpiece, -⟩ := @buffers_slash _ tail h
    rw [hbuffers, List.countP_cons_of_pos (by simpa using hpiece)]
    exact Nat.succ_pos _
  induction file using lines_induction with
  | nil => exact le_refl _
  | last line hline hne =>
    rw [linesOf_last hline hne]
    by_cases hslash : StartsWithSlash line
    · have hpos := hfirst [] hslash
      rw [List.append_nil] at hpos
      simpa [expected, hslash] using hpos
    · simp [expected, hslash]
  | ended line rest hline ih =>
    rw [linesOf_ended hline, buffers_ended (by decide) hline, List.countP_append]
    by_cases hslash : StartsWithSlash line
    · have hpos := hfirst [10] hslash
      have hone : expected (⟨line, true⟩ :: linesOf rest) =
          (line ++ [10], Taken.ofFields (fieldsOf line)) :: expected (linesOf rest) := by
        simp [expected, hslash]
      rw [hone, List.length_cons]
      omega
    · have hskip : expected (⟨line, true⟩ :: linesOf rest) = expected (linesOf rest) := by
        simp [expected, hslash]
      rw [hskip]
      omega

/-- A line without a slash in front, and the rest of the file. -/
theorem fstabLoop_other {l : StreamLine} (h : ¬StartsWithSlash l.text) {rest : Bytes} {call : Nat} {array : Bytes}
    (harray : array.length = 2048)
    (ih : ∀ array : Bytes, array.length = 2048 →
      (fstabLoop c calls call array (buffers 2047 rest) = some (expected (linesOf rest)) ↔ Fine c array (linesOf rest))) :
    fstabLoop c calls call array (buffers 2047 l.bytes ++ buffers 2047 rest) = some (expected (l :: linesOf rest)) ↔
      Fine c array (l :: linesOf rest) := by
  have hskip : expected (l :: linesOf rest) = expected (linesOf rest) := by simp [expected, h]
  rw [hskip, Fine, if_neg h]
  by_cases hpieces : ∀ p ∈ buffers 2047 l.bytes, ¬StartsWithSlash p
  · rw [fstabLoop_pass hpieces, ih _ (length_foldl_overlay harray fun p hp => length_of_mem_buffers (by decide) hp)]
    exact (and_iff_right hpieces).symm
  · constructor
    · intro hrun
      have hcount := fstabLoop_length hrun
      have hbound := length_expected_le rest
      have hpos : 0 < (buffers 2047 l.bytes).countP fun p => decide (StartsWithSlash p) := by
        rw [List.countP_pos_iff]
        simpa using hpieces
      rw [List.countP_append] at hcount
      omega
    · intro hfine
      exact absurd hfine.1 hpieces

theorem some_cons_iff {line line' : Bytes} {read : Option Taken} {taken : Taken} {run : Option (List (Bytes × Taken))}
    {more : List (Bytes × Taken)} :
    (read.bind fun t => run.bind fun rest => some ((line, t) :: rest)) = some ((line', taken) :: more) ↔
      line = line' ∧ read = some taken ∧ run = some more := by
  cases read with
  | none => simp
  | some t =>
    cases run with
    | none => simp
    | some rest => simp [and_assoc]

theorem fstabLoop_iff (file : Bytes) (call : Nat) {array : Bytes} (harray : array.length = 2048) :
    fstabLoop c calls call array (buffers 2047 file) = some (expected (linesOf file)) ↔ Fine c array (linesOf file) := by
  have hzero : (List.replicate 2048 (0 : UInt8)).length = 2048 := List.length_replicate
  induction file using lines_induction generalizing call array with
  | nil => simp [Fine, expected, linesOf, buffers, buffersUpTo, fstabLoop]
  | last line hline hne =>
    rw [linesOf_last hline hne]
    by_cases hslash : StartsWithSlash line
    · have hone : expected [⟨line, false⟩] = [(line ++ [10], Taken.ofFields (fieldsOf line))] := by
        simp [expected, hslash]
      rw [hone, Fine, if_pos hslash]
      by_cases hgood : 0 ∉ line ∧ line.length ≤ 2046
      · obtain ⟨hnul, hlen⟩ := hgood
        have hhead : (array.drop (line.length + 1)).head? = array[line.length + 1]? := List.head?_drop
        rw [buffers_last (by decide) hline hne (by omega), fstabLoop_slash hslash, overlay, handed_open hnul hline]
        by_cases hbehind : array[line.length + 1]? = some 0
        · rw [(cstring_newline hnul).mpr (hhead.trans hbehind), Option.bind_some, some_cons_iff,
            processFstabLine_iff (calls call) hslash hnul hline hlen]
          simp [hnul, hlen, hbehind, fstabLoop, Fine]
        · constructor
          · intro hrun
            obtain ⟨handedLine, hhanded, hrun⟩ := Option.bind_eq_some_iff.mp hrun
            obtain ⟨rfl, -⟩ := some_cons_iff.mp hrun
            exact absurd (hhead.symm.trans ((cstring_newline hnul).mp hhanded)) hbehind
          · intro hfine
            exact absurd (hfine.2.2.1 rfl) hbehind
      · constructor
        · intro hrun
          have hbad : fstabLoop c calls call array (buffers 2047 (line ++ [])) ≠ _ :=
            fstabLoop_bad hslash hline hgood harray call (Taken.ofFields (fieldsOf line)) []
          rw [List.append_nil] at hbad
          exact absurd hrun hbad
        · intro hfine
          exact absurd ⟨hfine.1, hfine.2.1⟩ hgood
    · have hother : ¬StartsWithSlash (StreamLine.mk line false).text := hslash
      have hnil : ∀ array : Bytes, array.length = 2048 →
          (fstabLoop c calls call array (buffers 2047 []) = some (expected (linesOf [])) ↔ Fine c array (linesOf [])) := by
        intro array _
        simp [Fine, expected, linesOf, buffers, buffersUpTo, fstabLoop]
      have hend := fstabLoop_other hother harray hnil
      simpa [StreamLine.bytes, linesOf, buffers, buffersUpTo] using hend
  | ended line rest hline ih =>
    rw [linesOf_ended hline]
    by_cases hslash : StartsWithSlash line
    · have hone : expected (⟨line, true⟩ :: linesOf rest) =
          (line ++ [10], Taken.ofFields (fieldsOf line)) :: expected (linesOf rest) := by
        simp [expected, hslash]
      rw [hone, Fine, if_pos hslash]
      by_cases hgood : 0 ∉ line ∧ line.length ≤ 2046
      · obtain ⟨hnul, hlen⟩ := hgood
        have hrest : fstabLoop c calls (call + 1) (List.replicate 2048 0) (buffers 2047 rest) = some (expected (linesOf rest)) ↔
          Fine c (List.replicate 2048 0) (linesOf rest) := ih (call + 1) hzero
        have hpiece : StartsWithSlash (line ++ [10]) := by
          obtain ⟨more, rfl⟩ := List.head?_eq_some_iff.mp hslash
          rfl
        rw [buffers_ended (by decide) hline, buffers_fits (by decide) hline (by omega), List.singleton_append,
          fstabLoop_slash hpiece, overlay, handed_ended hnul, Option.bind_some, some_cons_iff,
          processFstabLine_iff (calls call) hslash hnul hline hlen, hrest]
        constructor
        · intro hrun
          exact ⟨hnul, hlen, fun hend => Bool.noConfusion hend, hrun.2⟩
        · intro hfine
          exact ⟨rfl, hfine.2.2.2⟩
      · constructor
        · intro hrun
          exact absurd hrun (fstabLoop_bad hslash hline hgood harray call _ _)
        · intro hfine
          exact absurd ⟨hfine.1, hfine.2.1⟩ hgood
    · rw [buffers_ended (by decide) hline]
      have hother : ¬StartsWithSlash (StreamLine.mk line true).text := hslash
      exact fstabLoop_other hother harray fun array harray => ih call harray

end Loop

/-- Each line with a slash in front is handed over as one, and its fields are taken, exactly where the
lines are fine, whatever the calls find in their array. -/
theorem processFstab_iff (c : CharType) (calls : Nat → Base.Field 2048) (fstabLine : Base.Field 2048) (file : Bytes) :
    processFstab c calls fstabLine file = some (expected (linesOf file)) ↔ Fine c fstabLine.bytes (linesOf file) :=
  fstabLoop_iff file 0 fstabLine.length_eq

/-- A comment, and a line that lacks its newline: the newline that it gets has the end of the comment
behind it. -/
theorem not_expected_comment :
    processFstab .unsigned (fun _ => Base.Field.zero 2048) (Base.Field.zero 2048) (lit "#two words\n/a b /c") ≠
      some (expected (linesOf (lit "#two words\n/a b /c"))) := by
  intro h
  have hlines : linesOf (lit "#two words\n/a b /c") = [⟨lit "#two words", true⟩, ⟨lit "/a b /c", false⟩] := by decide
  have hfine := (fstabLoop_iff _ 0 (Base.Field.zero 2048).length_eq).mp h
  have hcomment : ¬StartsWithSlash (lit "#two words") := by decide
  have hslash : StartsWithSlash (lit "/a b /c") := by decide
  have hpieces : buffers 2047 (StreamLine.mk (lit "#two words") true).bytes = [lit "#two words\n"] :=
    buffers_fits (by decide) (by decide) (by decide)
  rw [hlines, Fine, if_neg hcomment, hpieces, Fine, if_pos hslash] at hfine
  have hbehind := hfine.2.2.2.1 rfl
  rw [List.foldl_cons, List.foldl_nil, overlay, List.getElem?_append_left (by decide)] at hbehind
  exact absurd hbehind (by decide)

end Twrp.Fstab.Entries
