import Twrp.Base.Line
import Twrp.Base.Scanf

/-! The devices of MTD partitions (`Find_MTD_Block_Device` and its use in `Process_Fstab_Line`,
`Process_Extra_Boot_Partitions` and `Setup_Extra_Boot`).

All of them look a name up in `/proc/mtd` and make the paths of two devices out of the index of its
line: read as a number for the block device of an fstab line, by the last byte of that path for
its character device, and by the byte after `mtd` for both devices of an extra boot partition. The
last two are the index where it has one digit, and the first comes about where the arrays for
the words of a line hold each label in front of it (`mtdDevices_iff`). -/
namespace Twrp.Fstab.Mtd
open Base Scanf

abbrev Bytes := List UInt8

def txt (s : String) : Bytes := s.toUTF8.data.toList

/-! ### The code -/

/-- What a line of `/proc/mtd` comes to: the next line, the number of the device, or an array that
is overrun or read without having been filled. -/
inductive LineResult where
  | next
  | found (deviceId : Int)
  | wild
deriving DecidableEq

/-- The `label` of `"%s %lx %*s %*c%s"`, after `device`. -/
def scanLabel (rest : Bytes) : Option Bytes := do
  let rest ← afterHex rest
  let (_, rest) ← nextWord rest
  let (_, rest) ← nextChar rest
  let (label, _) ← nextWord rest
  return label

/-- `"mtd%d"` -/
def scanDevice (device : Bytes) : Option Int := if device.take 3 = txt "mtd" then nextInt (device.drop 3) else none

/-- The body of the loop of `Find_MTD_Block_Device`. -/
def mtdLine (mtdName line : Bytes) : LineResult :=
  let line := line.takeWhile (· ≠ 0)
  match nextWord line with
  -- whatever `device` still holds
  | none => if line.length < 8 then .next else .wild
  | some (device, rest) =>
    if 32 ≤ device.length then .wild
    else
      match scanLabel rest with
      | none => if device = txt "dev:" ∨ line.length < 8 then .next else .wild
      | some label =>
        if 32 ≤ label.length then .wild
        else if device = txt "dev:" ∨ line.length < 8 then .next
        else if label.dropLast = mtdName then
          match scanDevice device.dropLast with
          | some deviceId => .found deviceId
          | none => .next
        else .next

/-- The loop. -/
def mtdLines (mtdName : Bytes) : List Bytes → LineResult
  | [] => .next
  | line :: rest =>
    match mtdLine mtdName line with
    | .next => mtdLines mtdName rest
    | result => result

/-- `Find_MTD_Block_Device`, on what `/proc/mtd` holds. -/
def findMTDBlockDevice (procMtd mtdName : Bytes) : LineResult := mtdLines mtdName (buffers 254 procMtd)

structure Devices where
  mtdName : Bytes
  primaryBlockDevice : Bytes
  mtdDev : Bytes
deriving DecidableEq

/-- What `Process_Fstab_Line` does with the block device `ptr` of an `mtd` or `yaffs2` partition;
nothing where the search goes wild. -/
def mtdDevices (procMtd ptr : Bytes) (p : Devices) : Option Devices :=
  let finish (primary : Bytes) : Devices :=
    { mtdName := ptr
      primaryBlockDevice := primary
      mtdDev := if primary = [] then p.mtdDev else txt "/dev/mtd/mtd" ++ primary.drop (primary.length - 1) }
  match findMTDBlockDevice procMtd ptr with
  | .wild => none
  | .found deviceId => some (finish (txt "/dev/block/mtdblock" ++ intBytes deviceId))
  | .next => some (finish p.primaryBlockDevice)

structure BootPartition where
  orsMark : Bytes
  displayName : Bytes
  mountPoint : Bytes
  primaryBlockDevice : Bytes
  mtdDev : Bytes
  mtdName : Bytes
deriving DecidableEq

/-- The fields that `Setup_Extra_Boot` fills in. -/
def bootPartition (name mtdNum : Bytes) : BootPartition where
  orsMark := if name.take 1 = txt "s" then txt "U" else name.take 1
  displayName := name.take 1 ++ txt "Boot"
  mountPoint := txt "/" ++ name
  primaryBlockDevice := txt "/dev/block/mtdblock" ++ mtdNum
  mtdDev := txt "/dev/mtd/mtd" ++ mtdNum
  mtdName := name

/-- `Setup_Extra_Boot`, where `present` tells of a device whether it is there: the partition, when
0 is returned. -/
def setupExtraBoot (present : Bytes → Bool) (partitions : List BootPartition) (name mtdNum : Bytes) :
    Option BootPartition :=
  if partitions.any (·.mountPoint = txt "/" ++ name) then none
  else if present (bootPartition name mtdNum).primaryBlockDevice then some (bootPartition name mtdNum)
  else none

def extraBootNames : List String := ["sboot", "tboot", "vboot", "wboot", "xboot", "yboot", "zboot"]

/-- The body of the loop of `Process_Extra_Boot_Partitions`; nothing where it throws, or reads beyond
the parts of the line. -/
def extraBootLine (present : Bytes → Bool) (partitions : List BootPartition) (line : Bytes) : Option (List BootPartition) :=
  match splitString 32 line with
  | [] => some partitions
  | first :: more =>
    if first.length < 3 then none
    else
      match more[2]? with
      | none => none
      | some label =>
        match extraBootNames.find? (fun name => label = txt "\"" ++ txt name ++ txt "\"") with
        | none => some partitions
        | some name => some (partitions ++ (setupExtraBoot present partitions (txt name) ((first.drop 3).take 1)).toList)

/-- `Process_Extra_Boot_Partitions` -/
def processExtraBootPartitions (present : Bytes → Bool) (procMtd : Bytes) : Option (List BootPartition) :=
  let lines := ((linesOf procMtd).map (·.text)).filter (· ≠ [])
  (lines.drop 1).foldlM (extraBootLine present) []

/-! ### What is asked of it -/

/-- A line of `/proc/mtd`. -/
structure Entry where
  index : Nat
  size : Bytes
  eraseSize : Bytes
  label : Bytes
  index_lt : index < 2147483648
  size_hex : size ≠ [] ∧ size.length ≤ 16 ∧ ∀ b ∈ size, isHex b = true
  eraseSize_hex : eraseSize ≠ [] ∧ eraseSize.length ≤ 16 ∧ ∀ b ∈ eraseSize, isHex b = true
  label_word : ∀ b ∈ label, b ≠ 0 ∧ isSpace b = false

/-- The line, with `tail` behind the quote in front of the label. -/
def Entry.text (e : Entry) (tail : Bytes) : Bytes :=
  txt "mtd" ++ (decimalBytes e.index ++ (58 :: 32 :: (e.size ++ (32 :: (e.eraseSize ++ (32 :: 34 :: tail))))))

def Entry.line (e : Entry) : Bytes := e.text (e.label ++ [34])

def headerLine : Bytes := txt "dev:    size   erasesize  name"

/-- A listing, and the one line in it that has a name. -/
structure Listing where
  before : List Entry
  entry : Entry
  after : List Entry
  only : ∀ e ∈ before ++ after, e.label ≠ entry.label

namespace Listing
variable (l : Listing)

def entries : List Entry := l.before ++ l.entry :: l.after

def procMtd : Bytes := headerLine ++ 10 :: l.entries.flatMap fun e => e.line ++ [10]

/-- Both devices of the fstab line with that name have the index. -/
def NamedRight : Prop :=
  mtdDevices l.procMtd l.entry.label ⟨[], [], []⟩ =
    some ⟨l.entry.label, txt "/dev/block/mtdblock" ++ decimalBytes l.entry.index, txt "/dev/mtd/mtd" ++ decimalBytes l.entry.index⟩

/-- The extra boot partition of that name is set up on the devices with the index, and is one of the
partitions if that block device is there. -/
def ExtraRight : Prop :=
  ∀ present, ∃ partitions, processExtraBootPartitions present l.procMtd = some partitions ∧
    partitions.filter (·.mountPoint = txt "/" ++ l.entry.label) =
      if present (txt "/dev/block/mtdblock" ++ decimalBytes l.entry.index) then
        [bootPartition l.entry.label (decimalBytes l.entry.index)]
      else []

end Listing

/-! ### Reading a line -/

theorem solid_digits {w : Bytes} (hw : ∀ b ∈ w, IsDigit b) : ∀ b ∈ w, isSpace b = false := by
  intro b hb
  obtain ⟨hspace, -⟩ := (hw b hb).not_sign
  exact hspace

theorem nextInt_decimalBytes {n : Nat} (hn : n < 2147483648) : nextInt (decimalBytes n) = some (n : Int) := by
  obtain ⟨b, rest, heq, hdigit⟩ := exists_cons_decimalBytes n
  obtain ⟨hspace, hminus, hplus⟩ := hdigit.not_sign
  have hzero : (0 : UInt8) ∉ decimalBytes n := not_mem_decimalBytes (by decide)
  have hatoi : (CString.ofBytes (decimalBytes n)).atoi = n := by
    have hend : ∀ c ∈ ([] : Bytes).head?, ¬IsDigit c := fun c hc => by cases hc
    apply atoi_intBytes (i := n) (by omega) (by omega) hend
    rw [List.append_nil]
    refine List.takeWhile_eq_self_iff.mpr ?_
    intro c hc
    exact bne_iff_ne.mpr fun h => hzero (h ▸ hc)
  rw [heq] at hatoi ⊢
  have hspace' : isSpace b = false := hspace
  simp [nextInt, hspace', hminus, hplus, hdigit, hatoi]

namespace Entry
variable (e : Entry)

/-- The first word of a line. -/
def device : Bytes := txt "mtd" ++ (decimalBytes e.index ++ [58])

theorem txt_mtd : txt "mtd" = [109, 116, 100] := by decide

theorem text_device (tail : Bytes) :
    e.text tail = [] ++ (e.device ++ (32 :: (e.size ++ (32 :: (e.eraseSize ++ (32 :: 34 :: tail)))))) := by
  simp [text, device]

theorem device_solid : Solid e.device := by
  constructor
  · simp [device, txt_mtd]
  · intro b hb
    simp only [device, txt_mtd, List.mem_append, List.mem_cons, List.not_mem_nil, or_false] at hb
    obtain (rfl | rfl | rfl) | hb | rfl := hb
    · decide
    · decide
    · decide
    · exact solid_digits (fun c hc => isDigit_of_mem_decimalBytes hc) b hb
    · decide

theorem decimalBytes_length : 0 < (decimalBytes e.index).length ∧ (decimalBytes e.index).length ≤ 10 := by
  refine ⟨List.length_pos_of_ne_nil (decimalBytes_ne_nil e.index), (length_decimalBytes_le (by decide)).mpr ?_⟩
  have := e.index_lt
  omega

theorem device_length : e.device.length ≤ 14 := by
  have := e.decimalBytes_length
  simp [device, txt_mtd]
  omega

theorem scanDevice_device : scanDevice e.device.dropLast = some (e.index : Int) := by
  have hlast : e.device.dropLast = txt "mtd" ++ decimalBytes e.index := by
    rw [device, ← List.append_assoc, List.dropLast_concat]
  have htake : (txt "mtd" ++ decimalBytes e.index).take 3 = txt "mtd" := List.take_left' (by decide)
  have hdrop : (txt "mtd" ++ decimalBytes e.index).drop 3 = decimalBytes e.index := List.drop_left' (by decide)
  rw [hlast, scanDevice, htake, hdrop, if_pos rfl, nextInt_decimalBytes e.index_lt]

theorem size_word {w : Bytes} (h : w ≠ [] ∧ w.length ≤ 16 ∧ ∀ b ∈ w, isHex b = true) : Solid w :=
  ⟨h.1, fun b hb => not_isSpace_of_isHex (h.2.2 b hb)⟩

theorem gap_space : ∀ b ∈ [(32 : UInt8)], isSpace b = true := by
  intro b hb
  rw [List.mem_singleton.mp hb]
  decide

theorem blank_cons (rest : Bytes) : Blank (32 :: rest) := by
  intro b hb
  rw [List.head?_cons, Option.mem_some_iff] at hb
  subst hb
  decide

/-- What is scanned of a line. -/
theorem scanLabel_text {w rest : Bytes} (hw : Solid w) (hrest : Blank rest) :
    scanLabel (32 :: (e.size ++ (32 :: (e.eraseSize ++ (32 :: 34 :: (w ++ rest)))))) = some w := by
  have hsize := afterHex_digits gap_space e.size_hex.1 e.size_hex.2.2 (blank_cons (e.eraseSize ++ 32 :: 34 :: (w ++ rest)))
  have herase := nextWord_solid gap_space (size_word e.eraseSize_hex) (blank_cons (34 :: (w ++ rest)))
  have hmark : isSpace 34 = false := by decide
  have hquote : nextChar ([32] ++ 34 :: (w ++ rest)) = some (34, w ++ rest) := nextChar_cons gap_space hmark
  have hlabel : nextWord ([] ++ (w ++ rest)) = some (w, rest) := nextWord_solid (by simp) hw hrest
  simp only [List.cons_append, List.nil_append] at hsize herase hquote hlabel
  simp [scanLabel, hsize, herase, hquote, hlabel]

theorem text_noNul {tail : Bytes} (h : 0 ∉ tail) : 0 ∉ e.text tail := by
  have hhex : ∀ w : Bytes, (∀ b ∈ w, isHex b = true) → 0 ∉ w := fun w hw hmem => absurd (hw 0 hmem) (by decide)
  have hdigits : 0 ∉ decimalBytes e.index := not_mem_decimalBytes (by decide)
  simp [text, txt_mtd, h, hhex _ e.size_hex.2.2, hhex _ e.eraseSize_hex.2.2, hdigits]

theorem text_length (tail : Bytes) : 8 ≤ (e.text tail).length ∧ (e.text tail).length ≤ tail.length + 50 := by
  have hdigits := e.decimalBytes_length
  have hsize := List.length_pos_of_ne_nil e.size_hex.1
  have herase := List.length_pos_of_ne_nil e.eraseSize_hex.1
  have hsize' := e.size_hex.2.1
  have herase' := e.eraseSize_hex.2.1
  simp [text, txt_mtd]
  omega

/-- A line that has a word behind its quote. -/
theorem mtdLine_text (mtdName : Bytes) {w rest : Bytes} (hw : Solid w) (hrest : Blank rest) (hnul : 0 ∉ w ++ rest) :
    mtdLine mtdName (e.text (w ++ rest)) =
      if 32 ≤ w.length then .wild else if w.dropLast = mtdName then .found e.index else .next := by
  have hline : (e.text (w ++ rest)).takeWhile (· ≠ 0) = e.text (w ++ rest) := by
    refine List.takeWhile_eq_self_iff.mpr ?_
    intro b hb
    exact decide_eq_true fun h => e.text_noNul hnul (h ▸ hb)
  have hdevice : nextWord (e.text (w ++ rest)) =
      some (e.device, 32 :: (e.size ++ (32 :: (e.eraseSize ++ (32 :: 34 :: (w ++ rest)))))) := by
    rw [text_device]
    exact nextWord_solid (by simp) e.device_solid (blank_cons _)
  have hshort : ¬32 ≤ e.device.length := by
    have := e.device_length
    omega
  have hheader : ¬(e.device = txt "dev:" ∨ (e.text (w ++ rest)).length < 8) := by
    intro h
    obtain h | h := h
    · have hfirst := congrArg List.head? h
      have hbytes : ¬some (109 : UInt8) = (txt "dev:").head? := by decide
      rw [device, txt_mtd] at hfirst
      exact hbytes hfirst
    · have := (e.text_length (w ++ rest)).1
      omega
  rw [mtdLine]
  simp only [hline, hdevice, if_neg hshort, e.scanLabel_text hw hrest, if_neg hheader, e.scanDevice_device]

/-- The word behind the quote: the label and the quote that closes it. -/
theorem label_solid : Solid (e.label ++ [34]) := by
  refine ⟨by simp, ?_⟩
  intro b hb
  obtain hb | hb := List.mem_append.mp hb
  · exact (e.label_word b hb).2
  · rw [List.mem_singleton.mp hb]
    decide

theorem label_noNul : 0 ∉ e.label ++ [34] := by
  intro h
  obtain h | h := List.mem_append.mp h
  · exact (e.label_word 0 h).1 rfl
  · exact absurd (List.mem_singleton.mp h) (by decide)

theorem line_noNewline : 10 ∉ e.line := by
  have hsolid : ∀ w : Bytes, Solid w → 10 ∉ w := fun w hw hmem => absurd (hw.2 10 hmem) (by decide)
  have hsize := hsolid _ (size_word e.size_hex)
  have herase := hsolid _ (size_word e.eraseSize_hex)
  have hlabel : 10 ∉ e.label := fun hmem => absurd (e.label_word 10 hmem).2 (by decide)
  have hdigits : 10 ∉ decimalBytes e.index := not_mem_decimalBytes (by decide)
  simp [line, text, txt_mtd, hsize, herase, hlabel, hdigits]

theorem text_append (tail more : Bytes) : e.text tail ++ more = e.text (tail ++ more) := by
  simp [text]

/-- The pieces that `fgets` makes of a line: it is found by its label, unless its label is too long. -/
theorem mtdLines_line (mtdName : Bytes) :
    mtdLines mtdName (buffers 254 (e.line ++ [10])) =
      if 30 < e.label.length then .wild else if e.label = mtdName then .found e.index else .next := by
  have hone (result : LineResult) : (match result with | .next => mtdLines mtdName [] | r => r) = result := by
    cases result <;> rfl
  by_cases hfits : e.line.length < 254
  · have hnul : 0 ∉ e.label ++ [34] ++ [10] := by
      intro h
      obtain h | h := List.mem_append.mp h
      · exact e.label_noNul h
      · exact absurd (List.mem_singleton.mp h) (by decide)
    have hblank : Blank [10] := by
      intro b hb
      rw [List.head?_cons, Option.mem_some_iff] at hb
      rw [← hb]
      decide
    rw [buffers_fits (by decide) e.line_noNewline hfits, mtdLines, line, text_append,
      e.mtdLine_text mtdName e.label_solid hblank hnul, List.dropLast_concat, hone, List.length_append]
    by_cases hlong : 30 < e.label.length
    · rw [if_pos hlong, if_pos (by simp; omega)]
    · rw [if_neg hlong, if_neg (by simp; omega)]
  · have hlen := (e.text_length (e.label ++ [34])).2
    rw [List.length_append, List.length_singleton] at hlen
    rw [line] at hfits
    -- the first piece has 32 bytes of the label at least
    obtain ⟨k, hk, hcut⟩ : ∃ k, 32 ≤ k ∧ (e.text (e.label ++ [34])).take 254 = e.text ((e.label ++ [34]).take k) := by
      have hfront : e.text (e.label ++ [34]) = e.text [] ++ (e.label ++ [34]) := by rw [text_append, List.nil_append]
      have hbound := (e.text_length []).2
      rw [List.length_nil] at hbound
      refine ⟨254 - (e.text []).length, by omega, ?_⟩
      rw [hfront, List.take_append, List.take_of_length_le (by omega), text_append, List.nil_append]
    have hsolid : Solid ((e.label ++ [34]).take k) := by
      constructor
      · intro hnil
        have hlen := congrArg List.length hnil
        simp at hlen
        omega
      · intro b hb
        exact e.label_solid.2 b (List.mem_of_mem_take hb)
    have hnul : 0 ∉ (e.label ++ [34]).take k ++ [] := by
      rw [List.append_nil]
      exact fun h => e.label_noNul (List.mem_of_mem_take h)
    have hfree : 10 ∉ (e.text (e.label ++ [34])).take 254 := fun h => e.line_noNewline (List.mem_of_mem_take h)
    have hsplit : e.line ++ [10] = (e.text (e.label ++ [34])).take 254 ++ ((e.text (e.label ++ [34])).drop 254 ++ [10]) := by
      rw [← List.append_assoc, List.take_append_drop, line]
    have hend : Blank [] := by
      intro b hb
      cases hb
    have hpiece := e.mtdLine_text mtdName hsolid hend hnul
    rw [List.append_nil] at hpiece
    have hwide : 32 ≤ ((e.label ++ [34]).take k).length := by
      rw [List.length_take, List.length_append, List.length_singleton]
      omega
    rw [hsplit, buffers_cut (by decide) hfree (by rw [List.length_take]; omega), mtdLines, hcut, hpiece, if_pos hwide,
      if_pos (by omega)]

end Entry

/-! ### The search -/

theorem mtdLines_append (mtdName : Bytes) (a b : List Bytes) :
    mtdLines mtdName (a ++ b) = if mtdLines mtdName a = .next then mtdLines mtdName b else mtdLines mtdName a := by
  induction a with
  | nil => rfl
  | cons line a ih =>
    rw [List.cons_append, mtdLines, mtdLines]
    cases h : mtdLine mtdName line with
    | next => exact ih
    | found deviceId => rfl
    | wild => rfl

theorem mtdLine_header (mtdName : Bytes) : mtdLine mtdName (headerLine ++ [10]) = .next := by
  have hline : (headerLine ++ [10]).takeWhile (· ≠ 0) = headerLine ++ [10] := by decide
  have hword : nextWord (headerLine ++ [10]) = some (txt "dev:", txt "    size   erasesize  name" ++ [10]) := by decide
  have hlabel : scanLabel (txt "    size   erasesize  name" ++ [10]) = none := by decide
  have hshort : ¬32 ≤ (txt "dev:").length := by decide
  rw [mtdLine]
  simp only [hline, hword, if_neg hshort, hlabel, true_or, if_true]

/-- The pieces of lines that come one after the other. -/
theorem buffers_entries (entries : List Entry) :
    buffers 254 (entries.flatMap fun e => e.line ++ [10]) = entries.flatMap fun e => buffers 254 (e.line ++ [10]) := by
  induction entries with
  | nil => rfl
  | cons e entries ih =>
    rw [List.flatMap_cons, List.flatMap_cons, List.append_assoc, List.singleton_append,
      buffers_ended (by decide) e.line_noNewline, ih]

/-- Lines with other labels are passed over, unless one is too long. -/
theorem mtdLines_before {mtdName : Bytes} {entries : List Entry} (h : ∀ e ∈ entries, e.label ≠ mtdName) :
    mtdLines mtdName (entries.flatMap fun e => buffers 254 (e.line ++ [10])) =
      if ∀ e ∈ entries, e.label.length ≤ 30 then .next else .wild := by
  induction entries with
  | nil => rfl
  | cons e entries ih =>
    obtain ⟨he, hrest⟩ := List.forall_mem_cons.mp h
    rw [List.flatMap_cons, mtdLines_append, e.mtdLines_line, ih hrest, if_neg he]
    by_cases hlong : 30 < e.label.length
    · have hnot : ¬∀ x ∈ e :: entries, x.label.length ≤ 30 := by
        intro hall
        have := hall e List.mem_cons_self
        omega
      rw [if_pos hlong, if_neg hnot]
      rfl
    · have hiff : (∀ x ∈ e :: entries, x.label.length ≤ 30) ↔ ∀ x ∈ entries, x.label.length ≤ 30 := by
        rw [List.forall_mem_cons]
        exact and_iff_right (Nat.not_lt.mp hlong)
      simp only [if_neg hlong, if_true, hiff]

namespace Listing
variable (l : Listing)

theorem findMTDBlockDevice_procMtd :
    findMTDBlockDevice l.procMtd l.entry.label =
      if ∀ e ∈ l.before ++ [l.entry], e.label.length ≤ 30 then .found l.entry.index else .wild := by
  have hheader : 10 ∉ headerLine := by decide
  have hother : ∀ e ∈ l.before, e.label ≠ l.entry.label := fun e he => l.only e (List.mem_append_left _ he)
  rw [findMTDBlockDevice, procMtd, buffers_ended (by decide) hheader, buffers_fits (by decide) hheader (by decide),
    mtdLines_append, mtdLines, mtdLine_header]
  simp only [mtdLines, if_true]
  rw [buffers_entries, entries, List.flatMap_append, mtdLines_append, mtdLines_before hother, List.flatMap_cons,
    mtdLines_append, l.entry.mtdLines_line, if_pos rfl]
  by_cases hbefore : ∀ e ∈ l.before, e.label.length ≤ 30
  · by_cases hlong : 30 < l.entry.label.length
    · have hnot : ¬∀ e ∈ l.before ++ [l.entry], e.label.length ≤ 30 := by
        intro hall
        have := hall l.entry (by simp)
        omega
      simp only [if_pos hbefore, if_pos hlong, if_neg hnot, reduceCtorEq, if_true, if_false]
    · have hall : ∀ e ∈ l.before ++ [l.entry], e.label.length ≤ 30 := by
        intro e he
        obtain he | he := List.mem_append.mp he
        · exact hbefore e he
        · rw [List.mem_singleton.mp he]
          exact Nat.not_lt.mp hlong
      simp only [if_pos hbefore, if_neg hlong, if_pos hall, reduceCtorEq, if_true, if_false]
  · have hnot : ¬∀ e ∈ l.before ++ [l.entry], e.label.length ≤ 30 := by
      intro hall
      exact hbefore fun e he => hall e (List.mem_append_left _ he)
    simp only [if_neg hbefore, if_neg hnot, reduceCtorEq, if_false]

/-- The last digit alone is the index where it has one digit. -/
theorem last_decimalBytes (n : Nat) :
    (decimalBytes n).drop ((decimalBytes n).length - 1) = decimalBytes n ↔ n < 10 := by
  have hpos := List.length_pos_of_ne_nil (decimalBytes_ne_nil n)
  have hone : (decimalBytes n).length ≤ 1 ↔ n < 10 := length_decimalBytes_le (by decide)
  rw [← hone]
  constructor
  · intro h
    have hlen := congrArg List.length h
    rw [List.length_drop] at hlen
    omega
  · intro h
    rw [show (decimalBytes n).length - 1 = 0 by omega, List.drop_zero]

theorem namedRight_iff : l.NamedRight ↔ l.entry.index < 10 ∧ ∀ e ∈ l.before ++ [l.entry], e.label.length ≤ 30 := by
  rw [NamedRight, mtdDevices, l.findMTDBlockDevice_procMtd]
  by_cases hfits : ∀ e ∈ l.before ++ [l.entry], e.label.length ≤ 30
  · have hdigits := List.length_pos_of_ne_nil (decimalBytes_ne_nil l.entry.index)
    have hne : txt "/dev/block/mtdblock" ++ decimalBytes l.entry.index ≠ [] :=
      List.append_ne_nil_of_right_ne_nil _ (decimalBytes_ne_nil l.entry.index)
    have hlast : (txt "/dev/block/mtdblock" ++ decimalBytes l.entry.index).drop
        ((txt "/dev/block/mtdblock" ++ decimalBytes l.entry.index).length - 1) =
          (decimalBytes l.entry.index).drop ((decimalBytes l.entry.index).length - 1) := by
      rw [List.length_append, Nat.add_sub_assoc hdigits, List.drop_length_add_append]
    rw [if_pos hfits, ← last_decimalBytes l.entry.index]
    simp only [intBytes, hne, if_false, hlast, Option.some.injEq, Devices.mk.injEq, true_and,
      List.append_cancel_left_eq]
    exact (and_iff_left hfits).symm
  · rw [if_neg hfits]
    constructor
    · intro h
      cases h
    · intro h
      exact absurd h.2 hfits

end Listing

/-! ### The extra boot partitions -/

namespace Entry
variable (e : Entry)

theorem splitString_line :
    splitString 32 e.line = [e.device, e.size, e.eraseSize, 34 :: (e.label ++ [34])] := by
  have hfree : ∀ w : Bytes, Solid w → 32 ∉ w := fun w hw hmem => absurd (hw.2 32 hmem) (by decide)
  have hlabel : 32 ∉ 34 :: (e.label ++ [34]) := by
    intro h
    obtain h | h := List.mem_cons.mp h
    · exact absurd h (by decide)
    · exact hfree _ e.label_solid h
  rw [line, text_device, List.nil_append, splitString_word 32 e.device_solid.1 (hfree _ e.device_solid),
    splitString_word 32 e.size_hex.1 (hfree _ (size_word e.size_hex)),
    splitString_word 32 e.eraseSize_hex.1 (hfree _ (size_word e.eraseSize_hex)),
    splitString_last 32 (List.cons_ne_nil _ _) hlabel]

/-- The byte that is taken for the index. -/
def firstDigit : Bytes := (decimalBytes e.index).take 1

theorem substr_device : (e.device.drop 3).take 1 = e.firstDigit := by
  have hdrop : e.device.drop 3 = decimalBytes e.index ++ [58] := by
    rw [device, txt_mtd]
    rfl
  rw [hdrop, firstDigit, List.take_append_of_le_length e.decimalBytes_length.1]

/-- What a line adds to the partitions. -/
theorem extraBootLine_line (present : Bytes → Bool) (partitions : List BootPartition) :
    extraBootLine present partitions e.line =
      some (match extraBootNames.find? fun name => e.label = txt name with
        | none => partitions
        | some name => partitions ++ (setupExtraBoot present partitions (txt name) e.firstDigit).toList) := by
  have hlong : ¬e.device.length < 3 := by
    have := e.decimalBytes_length
    simp [device, txt_mtd]
  have hquoted : (fun name : String => decide (34 :: (e.label ++ [34]) = txt "\"" ++ txt name ++ txt "\"")) =
      fun name => decide (e.label = txt name) := by
    funext name
    have hmark : txt "\"" = [34] := by decide
    simp [hmark]
  rw [extraBootLine, e.splitString_line]
  simp only [if_neg hlong, List.getElem?_cons_succ, List.getElem?_cons_zero, hquoted, e.substr_device]
  cases extraBootNames.find? fun name => decide (e.label = txt name) <;> rfl

end Entry

section Loop
variable (present : Bytes → Bool) (label : Bytes)

/-- The partitions that carry a name. -/
def carrying (partitions : List BootPartition) : List BootPartition :=
  partitions.filter (·.mountPoint = txt "/" ++ label)

theorem setupExtraBoot_mountPoint {partitions : List BootPartition} {name mtdNum : Bytes} {p : BootPartition}
    (h : p ∈ setupExtraBoot present partitions name mtdNum) : p = bootPartition name mtdNum := by
  rw [setupExtraBoot] at h
  split at h
  · cases h
  · split at h
    · exact (Option.mem_some_iff.mp h).symm
    · cases h

/-- A line with another label leaves them alone. -/
theorem extraBootLine_other {e : Entry} (he : e.label ≠ label) (partitions : List BootPartition) :
    ∃ result, extraBootLine present partitions e.line = some result ∧ carrying label result = carrying label partitions := by
  refine ⟨_, e.extraBootLine_line present partitions, ?_⟩
  cases hfind : extraBootNames.find? fun name => decide (e.label = txt name) with
  | none => rfl
  | some name =>
    have hname : e.label = txt name := by simpa using List.find?_some hfind
    have hnone : (setupExtraBoot present partitions (txt name) e.firstDigit).toList.filter
        (·.mountPoint = txt "/" ++ label) = [] := by
      rw [List.filter_eq_nil_iff]
      intro p hp
      rw [Option.mem_toList] at hp
      rw [setupExtraBoot_mountPoint present hp, bootPartition, ← hname]
      simpa using he
    simp only [carrying, List.filter_append]
    rw [hnone, List.append_nil]

/-- So do any lines with other labels. -/
theorem extraBootLines_other {entries : List Entry} (h : ∀ e ∈ entries, e.label ≠ label) (partitions : List BootPartition) :
    ∃ result, (entries.map Entry.line).foldlM (extraBootLine present) partitions = some result ∧
      carrying label result = carrying label partitions := by
  induction entries generalizing partitions with
  | nil => exact ⟨partitions, rfl, rfl⟩
  | cons e entries ih =>
    obtain ⟨he, hrest⟩ := List.forall_mem_cons.mp h
    obtain ⟨first, hfirst, hsame⟩ := extraBootLine_other present label he partitions
    obtain ⟨result, hresult, hsame'⟩ := ih hrest first
    refine ⟨result, ?_, hsame'.trans hsame⟩
    rw [List.map_cons, List.foldlM_cons, hfirst]
    exact hresult

/-- The line of an extra boot partition adds it, if it is there. -/
theorem extraBootLine_named {e : Entry} (he : e.label ∈ extraBootNames.map txt) {partitions : List BootPartition}
    (hnone : carrying e.label partitions = []) :
    ∃ result, extraBootLine present partitions e.line = some result ∧ carrying e.label result =
      if present (txt "/dev/block/mtdblock" ++ e.firstDigit) then [bootPartition e.label e.firstDigit] else [] := by
  refine ⟨_, e.extraBootLine_line present partitions, ?_⟩
  have hfree : ¬(partitions.any (·.mountPoint = txt "/" ++ e.label)) = true := by
    intro hany
    obtain ⟨p, hp, hmount⟩ := List.any_eq_true.mp hany
    exact List.filter_eq_nil_iff.mp hnone p hp hmount
  cases hfind : extraBootNames.find? fun name => decide (e.label = txt name) with
  | none =>
    obtain ⟨name, hname, heq⟩ := List.mem_map.mp he
    have hnot := List.find?_eq_none.mp hfind name hname
    exact absurd heq.symm (by simpa using hnot)
  | some name =>
    have hname : e.label = txt name := by simpa using List.find?_some hfind
    simp only [carrying, List.filter_append] at hnone ⊢
    rw [hnone, List.nil_append, ← hname, setupExtraBoot, if_neg hfree, bootPartition]
    by_cases hpresent : present (txt "/dev/block/mtdblock" ++ e.firstDigit)
    · rw [if_pos hpresent, if_pos hpresent]
      simp
    · rw [if_neg hpresent, if_neg hpresent]
      rfl

end Loop

theorem linesOf_entries (entries : List Entry) :
    linesOf (entries.flatMap fun e => e.line ++ [10]) = entries.map fun e => ⟨e.line, true⟩ := by
  induction entries with
  | nil => rfl
  | cons e entries ih =>
    rw [List.flatMap_cons, List.append_assoc, List.singleton_append, linesOf_ended e.line_noNewline, ih, List.map_cons]

namespace Listing
variable (l : Listing)

theorem lines_procMtd :
    (((linesOf l.procMtd).map (·.text)).filter (· ≠ [])).drop 1 = l.entries.map Entry.line := by
  have hheader : 10 ∉ headerLine := by decide
  have hne : headerLine ≠ [] := by decide
  have hlines : (l.entries.map Entry.line).filter (· ≠ []) = l.entries.map Entry.line := by
    rw [List.filter_eq_self]
    intro line hline
    obtain ⟨e, -, rfl⟩ := List.mem_map.mp hline
    refine decide_eq_true (List.ne_nil_of_length_pos ?_)
    have := (e.text_length (e.label ++ [34])).1
    rw [Entry.line]
    omega
  have htexts : (linesOf l.procMtd).map (·.text) = headerLine :: l.entries.map Entry.line := by
    rw [procMtd, linesOf_ended hheader, linesOf_entries, List.map_cons, List.map_map]
    rfl
  rw [htexts, List.filter_cons_of_pos (by simpa using hne), List.drop_succ_cons, List.drop_zero]
  exact hlines

/-- What the scan makes of the line with the name. -/
theorem carrying_procMtd (h : l.entry.label ∈ extraBootNames.map txt) (present : Bytes → Bool) :
    ∃ partitions, processExtraBootPartitions present l.procMtd = some partitions ∧ carrying l.entry.label partitions =
      if present (txt "/dev/block/mtdblock" ++ l.entry.firstDigit) then [bootPartition l.entry.label l.entry.firstDigit]
      else [] := by
  obtain ⟨front, hfront, hnone⟩ := extraBootLines_other present l.entry.label
    (fun e he => l.only e (List.mem_append_left _ he)) []
  obtain ⟨named, hnamed, hcarry⟩ := extraBootLine_named present h hnone
  obtain ⟨result, hresult, hsame⟩ := extraBootLines_other present l.entry.label
    (fun e he => l.only e (List.mem_append_right _ he)) named
  refine ⟨result, ?_, hsame.trans hcarry⟩
  simp only [processExtraBootPartitions]
  rw [l.lines_procMtd, entries, List.map_append, List.map_cons, List.foldlM_append, hfront, Option.bind_eq_bind, Option.bind_some,
    List.foldlM_cons, hnamed]
  exact hresult

theorem extraRight_iff (h : l.entry.label ∈ extraBootNames.map txt) : l.ExtraRight ↔ l.entry.index < 10 := by
  have hdigit : l.entry.firstDigit = decimalBytes l.entry.index ↔ l.entry.index < 10 := by
    rw [Entry.firstDigit, List.take_eq_self_iff]
    exact length_decimalBytes_le (by decide)
  constructor
  · intro hright
    obtain ⟨partitions, hrun, hcarry⟩ := l.carrying_procMtd h fun _ => true
    obtain ⟨_, hrun', hcarry'⟩ := hright fun _ => true
    obtain rfl := Option.some.inj (hrun.symm.trans hrun')
    have heq : bootPartition l.entry.label l.entry.firstDigit = bootPartition l.entry.label (decimalBytes l.entry.index) :=
      List.singleton_inj.mp (hcarry.symm.trans hcarry')
    exact hdigit.mp (List.append_cancel_left (congrArg BootPartition.mtdDev heq))
  · intro hlt present
    obtain ⟨partitions, hrun, hcarry⟩ := l.carrying_procMtd h present
    rw [hdigit.mpr hlt] at hcarry
    exact ⟨partitions, hrun, hcarry⟩

/-- Both devices of a name have its index exactly where it has one digit and, for a line of the
fstab, no label up to its line has more than 30 bytes. -/
theorem mtdDevices_iff :
    (l.NamedRight ↔ l.entry.index < 10 ∧ ∀ e ∈ l.before ++ [l.entry], e.label.length ≤ 30) ∧
      (l.entry.label ∈ extraBootNames.map txt → (l.ExtraRight ↔ l.entry.index < 10)) :=
  ⟨l.namedRight_iff, l.extraRight_iff⟩

set_option maxRecDepth 2000 in
def entryOf (index : Fin 11) (label : String) (h : ∀ b ∈ txt label, b ≠ 0 ∧ isSpace b = false) : Entry where
  index := index
  size := txt "00500000"
  eraseSize := txt "00020000"
  label := txt label
  index_lt := by omega
  size_hex := by decide
  eraseSize_hex := by decide
  label_word := h

set_option maxRecDepth 2000 in
/-- An extra boot partition that comes after ten others. -/
def eleventh : Listing where
  before := (List.finRange 10).map fun i => entryOf i.castSucc "data" (by decide)
  entry := entryOf 10 "sboot" (by decide)
  after := []
  only := by
    intro e he
    rw [List.append_nil] at he
    obtain ⟨i, -, rfl⟩ := List.mem_map.mp he
    show txt "data" ≠ txt "sboot"
    decide

theorem not_right_eleventh : ¬(eleventh.NamedRight ∧ eleventh.ExtraRight) := by
  intro h
  exact absurd (eleventh.namedRight_iff.mp h.1).1 (by decide)

end Listing

end Twrp.Fstab.Mtd
