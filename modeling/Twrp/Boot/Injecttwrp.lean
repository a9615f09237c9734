import Twrp.Base.Number

/-! The second ramdisk of a boot image (`injecttwrp`).

The image holds the length of the ramdisk, in units of 512 bytes, as text behind `recovery_len=`, and the
ramdisk itself from a given place on. One function puts a new ramdisk there, the other copies the ramdisk
out. The files are taken to be readable and writable; what the functions do with their buffers is not
taken for granted. -/
namespace Twrp.Boot.Injecttwrp
open Base

/-- How a function fails: there is no length in the image, or it leaves its buffers. -/
inductive Fault where
  | notFound | outside
deriving DecidableEq

/-- `"recovery_len="` -/
def needle : List UInt8 := [114, 101, 99, 111, 118, 101, 114, 121, 95, 108, 101, 110, 61]

/-- The place of the first occurrence. -/
def memmem (needle : List UInt8) : List UInt8 → Option Nat
  | [] => if needle = [] then some 0 else none
  | b :: rest => if needle <+: b :: rest then some 0 else (memmem needle rest).map (· + 1)

/-- `scan_file_for_data`, from the start of the file: the place behind the data. -/
def scanFileForData (file data : List UInt8) : Option Nat := (memmem data file).map (· + data.length)

/-- `fwrite` at a place of a file; what lies between its end and that place becomes zero. -/
def writeAt (file : List UInt8) (pos : Nat) (data : List UInt8) : List UInt8 :=
  if data = [] then file else file.take pos ++ List.replicate (pos - file.length) 0 ++ data ++ file.drop (pos + data.length)

/-- The length for the offset table. -/
def ramdiskLen (ramdisk : List UInt8) : Nat := ramdisk.length / 512 + if ramdisk.length % 512 ≠ 0 then 1 else 0

/-- `"%lu;\n\n"` -/
def lengthText (ramdisk : List UInt8) : List UInt8 := decimalBytes (ramdiskLen ramdisk) ++ [59, 10, 10]

/-- `write_new_ramdisk`: the new image. The buffer for the ramdisk is as large as the boot image. -/
def writeNewRamdisk (boot ramdisk : List UInt8) (start : Nat) : Except Fault (List UInt8) :=
  match scanFileForData boot needle with
  | none => .error .notFound
  | some offset =>
    if boot.length < ramdisk.length then .error .outside
    else if start = 0 ∨ boot.length < start - 1 then .error .outside
    else .ok (writeAt (writeAt (boot.take (start - 1)) start ramdisk) offset (lengthText ramdisk))

/-- `atoi` on an array: `none` where it reads past the end. -/
def atoi (lens : List UInt8) : Option Nat :=
  let text := lens.dropWhile fun b => b == 32 || (9 ≤ b && b ≤ 13)
  let (negative, digits) := match text with
    | 45 :: rest => (true, rest)
    | 43 :: rest => (false, rest)
    | rest => (false, rest)
  if ∀ b ∈ digits, IsDigit b then none
  else some (if negative then (4294967296 - CString.digits digits 0) % 4294967296 else CString.digits digits 0)

/-- `backup_recovery_ramdisk`: the ramdisk of an image. -/
def backupRecoveryRamdisk (boot : List UInt8) (start : Nat) : Except Fault (List UInt8) :=
  match scanFileForData boot needle with
  | none => .error .notFound
  | some offset =>
    if boot.length < offset + 4 then .error .outside
    else
      match atoi (((boot.drop offset).take 4).map fun b => if b = 59 then 0 else b) with
      | none => .error .outside
      | some len =>
        let len := len * 512 % 4294967296
        if len ≠ 0 ∧ boot.length < start + len then .error .outside else .ok ((boot.drop start).take len)

/-- A boot image whose length field stands before the ramdisk. -/
structure BootImage where
  bytes : List UInt8
  start : Nat
  offset : Nat
  found : scanFileForData bytes needle = some offset
  before : offset ≤ start

/-- The ramdisk that is put into the image comes out again, filled up to 512 bytes, and the image is the
same before it but for the length. -/
def RoundTrip (image : BootImage) (ramdisk : List UInt8) : Prop :=
  ∃ img out, writeNewRamdisk image.bytes ramdisk image.start = .ok img ∧ backupRecoveryRamdisk img image.start = .ok out ∧
    ramdisk <+: out ∧ out.length = 512 * ramdiskLen ramdisk ∧
    ∀ i, i < image.start → i < image.bytes.length →
      ¬ (image.offset ≤ i ∧ i < image.offset + (lengthText ramdisk).length) → img[i]? = image.bytes[i]?

/-- The images and ramdisks the two functions are right for. -/
structure Injectable (image : BootImage) (ramdisk : List UInt8) : Prop where
  /-- The ramdisk fits into a buffer of the size of the image. -/
  room : ramdisk.length ≤ image.bytes.length
  /-- The image reaches up to the ramdisk. -/
  reach : image.start ≤ image.bytes.length + 1
  /-- The ramdisk needs no filling up. -/
  whole : 512 ∣ ramdisk.length
  /-- Its length has at most three digits. -/
  short : ramdisk.length ≤ 512 * 999
  /-- The new length does not reach into the ramdisk, or only repeats it. -/
  apart : ramdisk ≠ [] → (lengthText ramdisk).drop (image.start - image.offset) <+: ramdisk
  /-- The byte before the ramdisk is zero or belongs to the length. -/
  last : image.start - 1 < image.bytes.length →
    (image.offset < image.start ∧ image.start ≤ image.offset + (lengthText ramdisk).length) ∨
    (ramdisk ≠ [] ∧ image.bytes[image.start - 1]? = some 0)

/-! ### Searching -/

theorem memmem_eq_some {data file : List UInt8} {i : Nat} (h : memmem data file = some i) :
    data <+: file.drop i ∧ ∀ j < i, ¬ data <+: file.drop j := by
  induction file generalizing i with
  | nil =>
    rw [memmem] at h
    split at h
    · rename_i hnil
      obtain rfl := Option.some.inj h
      simp [hnil]
    · cases h
  | cons b rest ih =>
    rw [memmem] at h
    split at h
    · rename_i hpre
      obtain rfl := Option.some.inj h
      exact ⟨hpre, by simp⟩
    · rename_i hpre
      obtain ⟨i, hi, rfl⟩ := Option.map_eq_some_iff.mp h
      obtain ⟨hfound, hfirst⟩ := ih hi
      refine ⟨hfound, ?_⟩
      intro j hj
      cases j with
      | zero => exact hpre
      | succ j => exact hfirst j (by omega)

theorem memmem_of_first {data file : List UInt8} {i : Nat} (hne : data ≠ []) (hfound : data <+: file.drop i)
    (hfirst : ∀ j < i, ¬ data <+: file.drop j) : memmem data file = some i := by
  induction file generalizing i with
  | nil =>
    rw [List.drop_nil, List.prefix_nil] at hfound
    exact absurd hfound hne
  | cons b rest ih =>
    rw [memmem]
    cases i with
    | zero => exact if_pos hfound
    | succ i =>
      have hhead : ¬ data <+: b :: rest := hfirst 0 (by omega)
      rw [if_neg hhead, ih hfound fun j hj => hfirst (j + 1) (by omega)]
      rfl

/-- What stands at a place of a file, told byte by byte. -/
theorem prefix_drop_iff {data file : List UInt8} {i : Nat} : data <+: file.drop i ↔ ∀ j < data.length, file[i + j]? = data[j]? := by
  rw [List.prefix_iff_getElem?]
  constructor
  · intro h j hj
    rw [← List.getElem?_drop, h j hj, List.getElem?_eq_getElem hj]
  · intro h j hj
    rw [List.getElem?_drop, h j hj, List.getElem?_eq_getElem hj]

/-- The data is found where it was, when nothing changes before its end. -/
theorem scanFileForData_congr {file file' : List UInt8} {offset : Nat} (h : scanFileForData file needle = some offset)
    (heq : ∀ i < offset, file'[i]? = file[i]?) : scanFileForData file' needle = some offset := by
  obtain ⟨i, hi, rfl⟩ := Option.map_eq_some_iff.mp h
  obtain ⟨hfound, hfirst⟩ := memmem_eq_some hi
  have hsame (j : Nat) (hj : j ≤ i) : needle <+: file'.drop j ↔ needle <+: file.drop j := by
    rw [prefix_drop_iff, prefix_drop_iff]
    refine forall₂_congr fun k hk => ?_
    rw [heq (j + k) (by omega)]
  have hmem : memmem needle file' = some i :=
    memmem_of_first (by decide) ((hsame i le_rfl).mpr hfound) fun j hj => mt (hsame j hj.le).mp (hfirst j hj)
  rw [scanFileForData, hmem]
  rfl

theorem lt_of_scan {file : List UInt8} {offset : Nat} (h : scanFileForData file needle = some offset) :
    0 < offset ∧ offset ≤ file.length ∧ file[offset - 1]? = some 61 := by
  obtain ⟨i, hi, rfl⟩ := Option.map_eq_some_iff.mp h
  have hfound := (memmem_eq_some hi).1
  have hlast : file[i + 12]? = some 61 := prefix_drop_iff.mp hfound 12 (by decide)
  have hlength := (List.getElem?_eq_some_iff.mp hlast).1
  have hneedle : needle.length = 13 := rfl
  refine ⟨by omega, by omega, ?_⟩
  rwa [hneedle]

/-! ### Writing -/

theorem length_writeAt (file : List UInt8) (pos : Nat) {data : List UInt8} (h : data ≠ []) :
    (writeAt file pos data).length = max file.length (pos + data.length) := by
  simp only [writeAt, if_neg h, List.length_append, List.length_take, List.length_replicate, List.length_drop]
  omega

theorem getElem?_writeAt (file : List UInt8) (pos : Nat) {data : List UInt8} (h : data ≠ []) (i : Nat) :
    (writeAt file pos data)[i]? =
      if i < pos then (if i < file.length then file[i]? else some 0)
      else if i < pos + data.length then data[i - pos]? else file[i]? := by
  rw [writeAt, if_neg h]
  have hfront : (file.take pos ++ List.replicate (pos - file.length) 0).length = pos := by
    simp only [List.length_append, List.length_take, List.length_replicate]
    omega
  by_cases hi : i < pos
  · rw [if_pos hi, List.append_assoc, List.getElem?_append_left (by omega)]
    by_cases hfile : i < file.length
    · rw [if_pos hfile, List.getElem?_append_left (by rw [List.length_take]; omega), List.getElem?_take_of_lt hi]
    · rw [if_neg hfile, List.getElem?_append_right (by rw [List.length_take]; omega), List.getElem?_replicate, if_pos]
      rw [List.length_take]
      omega
  · rw [if_neg hi, List.append_assoc, List.getElem?_append_right (by omega), hfront]
    by_cases hdata : i < pos + data.length
    · rw [if_pos hdata, List.getElem?_append_left (by omega)]
    · rw [if_neg hdata, List.getElem?_append_right (by omega), List.getElem?_drop]
      congr 1
      omega

theorem lengthText_ne_nil (ramdisk : List UInt8) : lengthText ramdisk ≠ [] := by
  simp [lengthText]

theorem four_le_length_lengthText (ramdisk : List UInt8) : 4 ≤ (lengthText ramdisk).length := by
  have := List.length_pos_iff.mpr (decimalBytes_ne_nil (ramdiskLen ramdisk))
  simp only [lengthText, List.length_append, List.length_cons, List.length_nil]
  omega

/-- With three digits the text of the length has six bytes at most. -/
theorem length_lengthText_le {ramdisk : List UInt8} (h : ramdiskLen ramdisk < 1000) : (lengthText ramdisk).length ≤ 6 := by
  have := (length_decimalBytes_le (n := ramdiskLen ramdisk) (k := 3) (by decide)).mpr h
  simp only [lengthText, List.length_append, List.length_cons, List.length_nil]
  omega

section Image
variable {image : BootImage} {ramdisk : List UInt8}

/-- The image and the ramdisk, without the new length. -/
def base (image : BootImage) (ramdisk : List UInt8) : List UInt8 :=
  writeAt (image.bytes.take (image.start - 1)) image.start ramdisk

def newImage (image : BootImage) (ramdisk : List UInt8) : List UInt8 :=
  writeAt (base image ramdisk) image.offset (lengthText ramdisk)

theorem start_pos (image : BootImage) : 0 < image.start := lt_of_lt_of_le (lt_of_scan image.found).1 image.before

/-- The new image is written where the buffers suffice. -/
theorem writeNewRamdisk_eq (image : BootImage) (ramdisk : List UInt8) :
    writeNewRamdisk image.bytes ramdisk image.start =
      if ramdisk.length ≤ image.bytes.length ∧ image.start ≤ image.bytes.length + 1 then .ok (newImage image ramdisk)
      else .error .outside := by
  have hstart := start_pos image
  rw [writeNewRamdisk, image.found]
  dsimp only
  by_cases hroom : ramdisk.length ≤ image.bytes.length
  · rw [if_neg (by omega)]
    by_cases hreach : image.start ≤ image.bytes.length + 1
    · rw [if_neg (by omega), if_pos ⟨hroom, hreach⟩]
      rfl
    · rw [if_pos (by omega), if_neg fun h => hreach h.2]
  · rw [if_pos (by omega), if_neg fun h => hroom h.1]

theorem length_take_start (hreach : image.start ≤ image.bytes.length + 1) :
    (image.bytes.take (image.start - 1)).length = image.start - 1 := by
  rw [List.length_take]
  omega

theorem length_base (hreach : image.start ≤ image.bytes.length + 1) :
    (base image ramdisk).length = if ramdisk = [] then image.start - 1 else image.start + ramdisk.length := by
  split
  · rename_i hnil
    rw [base, writeAt, if_pos hnil, length_take_start hreach]
  · rename_i hne
    rw [base, length_writeAt _ _ hne, length_take_start hreach]
    omega

/-- Before the ramdisk stands the image, but for its last byte; behind it nothing. -/
theorem getElem?_base (hreach : image.start ≤ image.bytes.length + 1) (i : Nat) :
    (base image ramdisk)[i]? =
      if i < image.start - 1 then image.bytes[i]?
      else if i < image.start then (if ramdisk = [] then none else some 0)
      else ramdisk[i - image.start]? := by
  have hlength := length_take_start hreach
  by_cases hnil : ramdisk = []
  · have hbase : base image ramdisk = image.bytes.take (image.start - 1) := by rw [base, writeAt, if_pos hnil]
    rw [hbase, List.getElem?_take]
    simp [hnil]
  · have hstart := start_pos image
    rw [base, getElem?_writeAt _ _ hnil, hlength]
    by_cases hi : i < image.start - 1
    · rw [if_pos (by omega), if_pos hi, if_pos hi, List.getElem?_take_of_lt hi]
    · rw [if_neg hi]
      by_cases hlast : i < image.start
      · rw [if_pos hlast, if_neg hi, if_pos hlast, if_neg hnil]
      · rw [if_neg hlast, if_neg hlast]
        split
        · rfl
        · rw [List.getElem?_eq_none (by omega), List.getElem?_eq_none (by omega)]

/-- The new image is the old one with the ramdisk, but for the length. -/
theorem getElem?_newImage (hreach : image.start ≤ image.bytes.length + 1) (hlt : image.offset < image.start) (i : Nat) :
    (newImage image ramdisk)[i]? =
      if image.offset ≤ i ∧ i < image.offset + (lengthText ramdisk).length then (lengthText ramdisk)[i - image.offset]?
      else (base image ramdisk)[i]? := by
  have hlength := @length_base image ramdisk hreach
  have hpos : image.start - 1 ≤ (base image ramdisk).length := by
    rw [hlength]
    split <;> omega
  rw [newImage, getElem?_writeAt _ _ (lengthText_ne_nil ramdisk)]
  by_cases hi : i < image.offset
  · rw [if_pos hi, if_pos (by omega), if_neg (by omega)]
  · rw [if_neg hi]
    by_cases hfield : i < image.offset + (lengthText ramdisk).length
    · rw [if_pos hfield, if_pos (by omega)]
    · rw [if_neg hfield, if_neg (by omega)]

theorem length_newImage (hreach : image.start ≤ image.bytes.length + 1) :
    (newImage image ramdisk).length =
      max (if ramdisk = [] then image.start - 1 else image.start + ramdisk.length) (image.offset + (lengthText ramdisk).length) := by
  rw [newImage, length_writeAt _ _ (lengthText_ne_nil ramdisk), length_base hreach]

/-! ### Reading the length back -/

theorem getElem?_before (hreach : image.start ≤ image.bytes.length + 1) (hlt : image.offset < image.start) {i : Nat}
    (hi : i < image.offset) : (newImage image ramdisk)[i]? = image.bytes[i]? := by
  rw [getElem?_newImage hreach hlt, if_neg (by omega), getElem?_base hreach, if_pos (by omega)]

/-- The four bytes of the length that are read. -/
theorem lens_eq (hreach : image.start ≤ image.bytes.length + 1) (hlt : image.offset < image.start) :
    ((newImage image ramdisk).drop image.offset).take 4 = (lengthText ramdisk).take 4 := by
  have hfour := four_le_length_lengthText ramdisk
  apply List.ext_getElem?
  intro i
  rw [List.getElem?_take, List.getElem?_take]
  by_cases hi : i < 4
  · rw [if_pos hi, if_pos hi, List.getElem?_drop, getElem?_newImage hreach hlt, if_pos (by omega), Nat.add_sub_cancel_left]
  · rw [if_neg hi, if_neg hi]

/-- `atoi` of a text that starts with a digit. -/
theorem atoi_of_isDigit {b : UInt8} (hb : IsDigit b) (rest : List UInt8) :
    atoi (b :: rest) = if ∀ c ∈ b :: rest, IsDigit c then none else some (CString.digits (b :: rest) 0) := by
  have hge : 48 ≤ b.toNat := UInt8.le_iff_toNat_le.mp hb.1
  have hspace : (b :: rest).dropWhile (fun b => b == 32 || (9 ≤ b && b ≤ 13)) = b :: rest := by
    apply List.dropWhile_cons_of_neg
    simp only [Bool.or_eq_true, beq_iff_eq, Bool.and_eq_true, decide_eq_true_eq, not_or, not_and]
    refine ⟨?_, fun _ h => ?_⟩
    · rintro rfl
      exact absurd hge (by decide)
    · have := UInt8.le_iff_toNat_le.mp h
      have h13 : (13 : UInt8).toNat = 13 := rfl
      omega
  unfold atoi
  rw [hspace]
  dsimp only
  split
  · rename_i hsign
    obtain ⟨rfl, rfl⟩ := List.cons.inj hsign
    exact absurd hge (by decide)
  · rename_i hsign
    obtain ⟨rfl, rfl⟩ := List.cons.inj hsign
    exact absurd hge (by decide)
  · rfl

/-- Digits are copied as they are. -/
theorem map_lens_of_isDigit {l : List UInt8} (hl : ∀ b ∈ l, IsDigit b) : l.map (fun b => if b = 59 then 0 else b) = l := by
  conv_rhs => rw [← List.map_id l]
  apply List.map_congr_left
  intro b hb
  rw [if_neg]
  · rfl
  · rintro rfl
    exact absurd (hl 59 hb) (by decide)

/-- The length is read as it was written when it has at most three digits; else the end is not seen. -/
theorem atoi_lengthText (ramdisk : List UInt8) :
    atoi (((lengthText ramdisk).take 4).map fun b => if b = 59 then 0 else b) =
      if ramdiskLen ramdisk < 1000 then some (ramdiskLen ramdisk) else none := by
  have hdigit : ∀ b ∈ decimalBytes (ramdiskLen ramdisk), IsDigit b := fun b hb => isDigit_of_mem_decimalBytes hb
  have hlength := length_decimalBytes_le (n := ramdiskLen ramdisk) (k := 3) (by decide)
  obtain ⟨b, d, hd⟩ := List.exists_cons_of_ne_nil (decimalBytes_ne_nil (ramdiskLen ramdisk))
  have hb : IsDigit b := hdigit b (by simp [hd])
  by_cases hshort : ramdiskLen ramdisk < 1000
  · have hthree := hlength.mpr hshort
    obtain ⟨rest, hrest⟩ : ∃ rest, ((lengthText ramdisk).take 4).map (fun b => if b = 59 then 0 else b) =
        decimalBytes (ramdiskLen ramdisk) ++ 0 :: rest := by
      refine ⟨(([10, 10] : List UInt8).take (3 - (decimalBytes (ramdiskLen ramdisk)).length)).map fun b => if b = 59 then 0 else b, ?_⟩
      have htake : (4 - (decimalBytes (ramdiskLen ramdisk)).length) = (3 - (decimalBytes (ramdiskLen ramdisk)).length) + 1 := by
        omega
      rw [lengthText, List.take_append, List.take_of_length_le (by omega), List.map_append, map_lens_of_isDigit hdigit, htake]
      rfl
    rw [hrest, if_pos hshort]
    have hzero : ¬ ∀ c ∈ decimalBytes (ramdiskLen ramdisk) ++ 0 :: rest, IsDigit c := by
      intro h
      exact absurd (h 0 (by simp)) (by decide)
    have hvalue : CString.digits (decimalBytes (ramdiskLen ramdisk) ++ 0 :: rest) 0 = ramdiskLen ramdisk :=
      digits_decimalBytes _ (by simp [IsDigit])
    rw [hd, List.cons_append] at hzero hvalue ⊢
    rw [atoi_of_isDigit hb, if_neg hzero, hvalue]
  · have hfour : 4 ≤ (decimalBytes (ramdiskLen ramdisk)).length := by
      have := mt hlength.mp hshort
      omega
    have htake : (lengthText ramdisk).take 4 = (decimalBytes (ramdiskLen ramdisk)).take 4 := by
      rw [lengthText, List.take_append_of_le_length hfour]
    have hall : ∀ c ∈ (decimalBytes (ramdiskLen ramdisk)).take 4, IsDigit c := fun c hc => hdigit c (List.mem_of_mem_take hc)
    rw [htake, map_lens_of_isDigit hall, if_neg hshort]
    rw [hd, List.take_succ_cons] at hall ⊢
    rw [atoi_of_isDigit hb, if_pos hall]

/-- The ramdisk is copied out of the new image where its length can be read and all of it is there. -/
theorem backup_eq (hreach : image.start ≤ image.bytes.length + 1) (hlt : image.offset < image.start) :
    backupRecoveryRamdisk (newImage image ramdisk) image.start =
      if ramdiskLen ramdisk < 1000 ∧ (ramdisk = [] ∨ ramdisk.length = 512 * ramdiskLen ramdisk) then
        .ok (((newImage image ramdisk).drop image.start).take (512 * ramdiskLen ramdisk))
      else .error .outside := by
  have hscan : scanFileForData (newImage image ramdisk) needle = some image.offset :=
    scanFileForData_congr image.found fun i hi => getElem?_before hreach hlt hi
  have hfour := four_le_length_lengthText ramdisk
  have hlength := @length_newImage image ramdisk hreach
  rw [backupRecoveryRamdisk, hscan]
  dsimp only
  rw [if_neg (by omega), lens_eq hreach hlt, atoi_lengthText]
  by_cases hshort : ramdiskLen ramdisk < 1000
  · rw [if_pos hshort]
    have hmod : ramdiskLen ramdisk * 512 % 4294967296 = 512 * ramdiskLen ramdisk := by omega
    have hsix : (lengthText ramdisk).length ≤ 6 := length_lengthText_le hshort
    dsimp only
    rw [hmod]
    by_cases hnil : ramdisk = []
    · have hzero : 512 * ramdiskLen ramdisk = 0 := by simp [ramdiskLen, hnil]
      rw [if_neg (by simp [hzero]), if_pos ⟨hshort, .inl hnil⟩]
    · have hpos := List.length_pos_iff.mpr hnil
      have hround : ramdisk.length ≤ 512 * ramdiskLen ramdisk ∧ 0 < ramdiskLen ramdisk := by
        unfold ramdiskLen
        split <;> omega
      rw [if_neg hnil] at hlength
      by_cases hwhole : ramdisk.length = 512 * ramdiskLen ramdisk
      · rw [if_neg (by omega), if_pos ⟨hshort, .inr hwhole⟩]
      · rw [if_pos (by omega), if_neg]
        intro h
        exact h.2.elim hnil hwhole
  · rw [if_neg hshort, if_neg fun h => hshort h.1]

theorem whole_iff : 512 ∣ ramdisk.length ↔ ramdisk.length = 512 * ramdiskLen ramdisk := by
  unfold ramdiskLen
  split <;> omega

theorem short_iff : ramdisk.length ≤ 512 * 999 ↔ ramdiskLen ramdisk < 1000 := by
  unfold ramdiskLen
  split <;> omega

/-- The ramdisk is in the new image as it is, where the new length does not change it. -/
theorem ramdisk_eq (hreach : image.start ≤ image.bytes.length + 1) (hlt : image.offset < image.start)
    (hwhole : ramdisk.length = 512 * ramdiskLen ramdisk)
    (hapart : ramdisk ≠ [] → (lengthText ramdisk).drop (image.start - image.offset) <+: ramdisk) :
    ((newImage image ramdisk).drop image.start).take (512 * ramdiskLen ramdisk) = ramdisk := by
  apply List.ext_getElem?
  intro i
  rw [List.getElem?_take, ← hwhole]
  split
  · rename_i hi
    have hne : ramdisk ≠ [] := List.length_pos_iff.mp (by omega)
    rw [List.getElem?_drop, getElem?_newImage hreach hlt, getElem?_base hreach]
    split
    · rename_i hcover
      have hj : i < ((lengthText ramdisk).drop (image.start - image.offset)).length := by
        rw [List.length_drop]
        omega
      have hpre := List.prefix_iff_getElem?.mp (hapart hne) i hj
      rw [hpre, List.getElem_drop, List.getElem?_eq_getElem (by omega)]
      congr 2
      omega
    · rw [if_neg (by omega), if_neg (by omega), Nat.add_sub_cancel_left]
  · rename_i hi
    rw [List.getElem?_eq_none (by omega)]

theorem getElem?_last (hreach : image.start ≤ image.bytes.length + 1) (hlt : image.offset < image.start)
    (hfield : image.offset + (lengthText ramdisk).length < image.start) :
    (newImage image ramdisk)[image.start - 1]? = if ramdisk = [] then none else some 0 := by
  rw [getElem?_newImage hreach hlt, if_neg (by omega), getElem?_base hreach, if_neg (by omega), if_pos (by omega)]

theorem roundTrip_of_injectable (h : Injectable image ramdisk) : RoundTrip image ramdisk := by
  obtain ⟨hroom, hreach, hwhole, hshort, hapart, hlast⟩ := h
  obtain ⟨hpos, hle, hequals⟩ := lt_of_scan image.found
  have hlt : image.offset < image.start := by
    rcases Nat.lt_or_eq_of_le image.before with hlt | heq
    · exact hlt
    · rcases hlast (by omega) with hin | hzero
      · exact hin.1
      · rw [← heq, hequals] at hzero
        exact absurd hzero.2 (by decide)
  have hout := ramdisk_eq hreach hlt (whole_iff.mp hwhole) hapart
  refine ⟨newImage image ramdisk, ramdisk, ?_, ?_, List.prefix_rfl, whole_iff.mp hwhole, ?_⟩
  · rw [writeNewRamdisk_eq, if_pos ⟨hroom, hreach⟩]
  · rw [backup_eq hreach hlt, if_pos ⟨short_iff.mp hshort, .inr (whole_iff.mp hwhole)⟩, hout]
  · intro i hstart hboot hfield
    by_cases hi : i < image.start - 1
    · rw [getElem?_newImage hreach hlt, if_neg hfield, getElem?_base hreach, if_pos hi]
    · obtain rfl : i = image.start - 1 := by omega
      rcases hlast hboot with hin | ⟨hne, hzero⟩
      · exact absurd ⟨by omega, by omega⟩ hfield
      · rw [getElem?_last hreach hlt (by omega), if_neg hne, hzero]

theorem injectable_of_roundTrip (h : RoundTrip image ramdisk) : Injectable image ramdisk := by
  obtain ⟨img, out, hwrite, hbackup, hpre, hlength, hsame⟩ := h
  obtain ⟨hpos, hle, hequals⟩ := lt_of_scan image.found
  rw [writeNewRamdisk_eq] at hwrite
  split at hwrite
  case isFalse => cases hwrite
  rename_i hfits
  obtain ⟨hroom, hreach⟩ := hfits
  obtain rfl := Except.ok.inj hwrite
  have hlt : image.offset < image.start := by
    refine lt_of_le_of_ne image.before fun heq => ?_
    have hbyte := hsame (image.start - 1) (by omega) (by omega) (by omega)
    have hlast : (newImage image ramdisk)[image.start - 1]? = some 0 := by
      rw [newImage, getElem?_writeAt _ _ (lengthText_ne_nil ramdisk), if_pos (by omega), length_base hreach]
      by_cases hnil : ramdisk = []
      · rw [if_pos hnil, if_neg (by omega)]
      · rw [if_neg hnil, if_pos (by omega), getElem?_base hreach, if_neg (by omega), if_pos (by omega), if_neg hnil]
    rw [hlast, ← heq, hequals] at hbyte
    exact absurd hbyte (by decide)
  rw [backup_eq hreach hlt] at hbackup
  split at hbackup
  case isFalse => cases hbackup
  rename_i hread
  obtain ⟨hshort, hwhole⟩ := hread
  have hwhole : ramdisk.length = 512 * ramdiskLen ramdisk := by
    rcases hwhole with rfl | hwhole
    · rfl
    · exact hwhole
  obtain rfl := Except.ok.inj hbackup
  have hout : ((newImage image ramdisk).drop image.start).take (512 * ramdiskLen ramdisk) = ramdisk :=
    (hpre.eq_of_length (hwhole.trans hlength.symm)).symm
  refine ⟨hroom, hreach, whole_iff.mpr hwhole, short_iff.mpr hshort, ?_, ?_⟩
  · intro hne
    have hpos := List.length_pos_iff.mpr hne
    have hsix : (lengthText ramdisk).length ≤ 6 := length_lengthText_le hshort
    apply List.prefix_iff_getElem?.mpr
    intro j hj
    have hlong := hj
    rw [List.length_drop] at hlong
    have hbyte := congrArg (·[j]?) hout
    rw [List.getElem?_take_of_lt (by omega), List.getElem?_drop, getElem?_newImage hreach hlt, if_pos (by omega)] at hbyte
    rw [← hbyte, List.getElem_drop, List.getElem?_eq_getElem (by omega)]
    congr 2
    omega
  · intro hboot
    by_cases hfield : image.start ≤ image.offset + (lengthText ramdisk).length
    · exact .inl ⟨hlt, hfield⟩
    · right
      have hbyte := hsame (image.start - 1) (by omega) hboot (by omega)
      rw [getElem?_last hreach hlt (by omega)] at hbyte
      split at hbyte
      · rw [List.getElem?_eq_getElem hboot] at hbyte
        cases hbyte
      · rename_i hne
        exact ⟨hne, hbyte.symm⟩

end Image

/-- A ramdisk comes out as it was put in just where the two functions are right for it. -/
theorem roundTrip_iff_injectable (image : BootImage) (ramdisk : List UInt8) : RoundTrip image ramdisk ↔ Injectable image ramdisk :=
  ⟨injectable_of_roundTrip, roundTrip_of_injectable⟩

/-- An image of 20 bytes, with the ramdisk at its end, and a ramdisk of one byte. -/
def smallImage : BootImage where
  bytes := needle ++ [48, 59, 10, 10, 0, 0, 0]
  start := 20
  offset := 13
  found := by decide
  before := by decide

theorem not_roundTrip_byte : ¬ ∀ image ramdisk, RoundTrip image ramdisk := by
  intro h
  obtain ⟨img, out, hwrite, hbackup, _⟩ := h smallImage [31]
  have himg : writeNewRamdisk smallImage.bytes [31] smallImage.start =
      .ok (needle ++ [49, 59, 10, 10, 0, 0, 0, 31]) := by decide
  have hout : backupRecoveryRamdisk (needle ++ [49, 59, 10, 10, 0, 0, 0, 31]) smallImage.start = .error .outside := by decide
  obtain rfl := Except.ok.inj (hwrite.symm.trans himg)
  rw [hout] at hbackup
  cases hbackup

end Twrp.Boot.Injecttwrp
