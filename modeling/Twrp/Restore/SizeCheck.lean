import Twrp.Base.Line
import Twrp.Base.Number
import Twrp.Restore.Archives

/-! The size check before a restore.

Before an archive is unpacked over `/system`, `/data`, `/sd-ext` or `/sdext2`, `Run_Restore`
works out how large the partition must be: the bytes of the tar archive, which for a compressed
one are read off the listing of `pigz`, and the bytes of the dalvik-cache that the backup left
out, which are in a file of the folder. Sizes are `unsigned long long` where they are added up,
but 32 bits wide in `Get_File_Size`, `RoundUpSize`, `atoi` and in the `off_t` of `pigz`. -/
namespace Twrp.Restore.SizeCheck
open Base

/-! ### The listing of `pigz` -/

/-- Wrapped to an `int` or `off_t`. -/
def wrap (i : Int) : Int := (i + 2147483648) % 4294967296 - 2147483648

/-- As an `unsigned long long`. -/
def unsigned (i : Int) : Nat := (i % 18446744073709551616).toNat

def text (s : String) : List UInt8 := (CString.ofString s).bytes

/-- `split[i]`, with what `atoi` makes of it -/
def number (word : List UInt8) : Int := (CString.ofBytes word).atoi

/-- How the tar archive is stored. -/
inductive Form where
  | plain
  /-- `counted` is what `list_info` takes for the compressed size, `reduced` is the reduction as
  `%.1f` prints it, `tag` is the name at the end of the line -/
  | gzip (counted : Nat) (reduced tag : List UInt8)
  | encrypted
deriving DecidableEq

/-- `show_info` prints no reduction where the compressed data seem too long for `len`. -/
def TooLong (original counted : Nat) : Prop :=
  wrap (wrap original + wrap original / 1024 + 12) < counted

instance (original counted : Nat) : Decidable (TooLong original counted) := inferInstanceAs (Decidable (_ < _))

/-- What holds of the output of `pigz`: compressed data are hardly longer than what was compressed,
and the reduction is a per cent value. -/
def Form.Fits (original : Nat) : Form → Prop
  | .gzip counted reduced _ =>
    counted < 2147483648 ∧ counted ≤ original + original / 1024 + 12 ∧ 32 ∉ reduced ∧
      (1000000000 ≤ counted → -100 ≤ number (reduced ++ text "%") ∧ number (reduced ++ text "%") ≤ 100)
  | _ => True

structure Archive where
  /-- the bytes of the tar archive -/
  original : Nat
  form : Form
  original_pos : 0 < original
  fits : form.Fits original

/-- `%*s` -/
def field (width : Nat) (word : List UInt8) : List UInt8 := List.replicate (width - word.length) 32 ++ word

def showInfo (original counted : Nat) (reduced tag : List UInt8) : List UInt8 :=
  text "compressed   original reduced  name\n" ++
    (field 10 (intBytes counted) ++ 32 ::
      (field 10 (intBytes (wrap original)) ++
        if TooLong original counted then text "?  unk    " ++ (tag ++ text "\n")
        else 32 :: (field 6 reduced ++ (text "%  " ++ (tag ++ text "\n")))))

/-- What the command `pigz -l fn` writes. The shell takes a name with a blank for several names, none
of them that of the archive; an encrypted file is skipped. -/
def pigzList (fn : Path) (a : Archive) : List UInt8 :=
  if ' ' ∈ fn then []
  else
    match a.form with
    | .gzip counted reduced tag => showInfo a.original counted reduced tag
    | _ => []

/-- `uncompressedSize` of a file that is there. -/
def uncompressedSize (fn : Path) (a : Archive) : Nat :=
  match a.form with
  | .plain => a.original % 4294967296
  | _ =>
    let result := pigzList fn a
    if result = [] then 0
    else
      let split := splitString 32 result
      if 4 < split.length then unsigned (number (split.getD 5 [])) else 0

/-- The size as it is read. -/
def Archive.read (a : Archive) (fn : Path) : Int :=
  match a.form with
  | .plain => a.original % 4294967296
  | .gzip counted reduced _ =>
    if ' ' ∈ fn then 0
    else if counted < 1000000000 then wrap a.original
    else if TooLong a.original counted then 0
    else number (reduced ++ text "%")
  | .encrypted => 0

/-- The listing shows the size where the code looks for it. -/
def Archive.Listed (a : Archive) (fn : Path) : Prop :=
  match a.form with
  | .plain => True
  | .gzip counted _ _ => ' ' ∉ fn ∧ counted < 1000000000
  | .encrypted => False

/-! #### The words of the listing -/

section Words

theorem splitString_field {width : Nat} {word : List UInt8} (hne : word ≠ []) (hword : 32 ∉ word) (rest : List UInt8) :
    splitString 32 (field width word ++ 32 :: rest) = word :: splitString 32 rest := by
  rw [field, List.append_assoc, splitString_replicate, splitString_word 32 hne hword]

/-- What the listing starts with, up to the first number. -/
theorem splitString_header (rest : List UInt8) :
    splitString 32 (text "compressed   original reduced  name\n" ++ rest) =
      text "compressed" :: text "original" :: text "reduced" :: splitString 32 (text "name\n" ++ rest) := by
  have hheader : text "compressed   original reduced  name\n" ++ rest =
      text "compressed" ++ 32 :: 32 :: 32 :: (text "original" ++ 32 :: (text "reduced" ++ 32 :: 32 :: (text "name\n" ++ rest))) := rfl
  rw [hheader, splitString_word 32 (by decide) (by decide), splitString_skip, splitString_skip,
    splitString_word 32 (by decide) (by decide), splitString_word 32 (by decide) (by decide), splitString_skip]

variable (original counted : Nat) (reduced tag : List UInt8)

/-- The end of the line, after the size. -/
def ending : List UInt8 :=
  if TooLong original counted then text "?  unk    " ++ (tag ++ text "\n")
  else 32 :: (field 6 reduced ++ (text "%  " ++ (tag ++ text "\n")))

/-- The word the size stands in, and the one after it. -/
def sizeWord : List UInt8 := intBytes (wrap original) ++ if TooLong original counted then text "?" else []
def nextWord : List UInt8 := if TooLong original counted then text "unk" else reduced ++ text "%"

variable {reduced} in
theorem splitString_ending (hreduced : 32 ∉ reduced) : ∃ rest,
    splitString 32 (field 10 (intBytes (wrap original)) ++ ending original counted reduced tag) =
      sizeWord original counted :: nextWord original counted reduced :: rest := by
  have hsize : 32 ∉ intBytes (wrap original) := not_mem_intBytes (by decide) (by decide)
  unfold ending sizeWord nextWord
  split_ifs
  · refine ⟨splitString 32 (32 :: 32 :: 32 :: (tag ++ text "\n")), ?_⟩
    have hline : field 10 (intBytes (wrap original)) ++ (text "?  unk    " ++ (tag ++ text "\n")) =
        List.replicate (10 - (intBytes (wrap original)).length) 32 ++
          ((intBytes (wrap original) ++ text "?") ++ 32 :: 32 :: (text "unk" ++ 32 :: 32 :: 32 :: 32 :: (tag ++ text "\n"))) := by
      rw [field, List.append_assoc, List.append_assoc]
      rfl
    rw [hline, splitString_replicate, splitString_word 32 (by simp [intBytes_ne_nil]), splitString_skip,
      splitString_word 32 (by decide) (by decide)]
    rw [List.mem_append]
    exact not_or.mpr ⟨hsize, by decide⟩
  · refine ⟨splitString 32 (32 :: (tag ++ text "\n")), ?_⟩
    have hline : field 6 reduced ++ (text "%  " ++ (tag ++ text "\n")) =
        List.replicate (6 - reduced.length) 32 ++ ((reduced ++ text "%") ++ 32 :: 32 :: (tag ++ text "\n")) := by
      rw [field, List.append_assoc, List.append_assoc]
      rfl
    rw [splitString_field (intBytes_ne_nil _) hsize, hline, splitString_replicate, List.append_nil,
      splitString_word 32 (List.append_ne_nil_of_right_ne_nil _ (by decide))]
    rw [List.mem_append]
    exact not_or.mpr ⟨hreduced, by decide⟩

variable {reduced counted}

/-- A size of less than ten digits stands apart from the line before it; a longer one is taken
together with its last word, so that every word after it is one place nearer the front. -/
theorem split_showInfo (hreduced : 32 ∉ reduced) :
    4 < (splitString 32 (showInfo original counted reduced tag)).length ∧
      (splitString 32 (showInfo original counted reduced tag)).getD 5 [] =
        if counted < 1000000000 then sizeWord original counted else nextWord original counted reduced := by
  have hcounted : (32 : UInt8) ∉ decimalBytes counted := not_mem_decimalBytes (by decide)
  have hline : showInfo original counted reduced tag = text "compressed   original reduced  name\n" ++
      (field 10 (decimalBytes counted) ++ 32 ::
        (field 10 (intBytes (wrap original)) ++ ending original counted reduced tag)) := rfl
  have hdigits : (decimalBytes counted).length ≤ 9 ↔ counted < 1000000000 := by
    rw [length_decimalBytes_le (by decide)]
    norm_num
  obtain ⟨rest, hrest⟩ := splitString_ending original counted tag hreduced
  have hwords : splitString 32 (showInfo original counted reduced tag) =
      text "compressed" :: text "original" :: text "reduced" ::
        (if counted < 1000000000 then text "name\n" :: decimalBytes counted :: sizeWord original counted :: nextWord original counted reduced :: rest
          else (text "name\n" ++ decimalBytes counted) :: sizeWord original counted :: nextWord original counted reduced :: rest) := by
    rw [hline, splitString_header]
    split_ifs with hshort
    · have hlen : (decimalBytes counted).length ≤ 9 := hdigits.mpr hshort
      obtain ⟨k, hk⟩ : ∃ k, 10 - (decimalBytes counted).length = k + 1 := ⟨9 - (decimalBytes counted).length, by omega⟩
      rw [field, hk, List.replicate_succ, List.cons_append, List.cons_append, List.append_assoc,
        splitString_word 32 (by decide) (by decide), splitString_replicate, splitString_word 32 (decimalBytes_ne_nil _) hcounted, hrest]
    · have hlen : 10 - (decimalBytes counted).length = 0 := by
        have hlong := mt hdigits.mp hshort
        omega
      rw [field, hlen, List.replicate_zero, List.nil_append, ← List.append_assoc,
        splitString_word 32 (List.append_ne_nil_of_left_ne_nil (by decide) _), hrest]
      rw [List.mem_append]
      exact not_or.mpr ⟨by decide, hcounted⟩
  rw [hwords]
  split_ifs
  · simp only [List.length_cons, List.getD_cons_succ, List.getD_cons_zero, and_true]
    omega
  · simp only [List.length_cons, List.getD_cons_succ, List.getD_cons_zero, and_true]
    omega

end Words

/-- A number is read up to the `?` behind it. -/
theorem number_intBytes {i : Int} (hlo : -2147483648 ≤ i) (hhi : i ≤ 2147483647) {rest : List UInt8}
    (hdigit : ∀ b ∈ rest.head?, ¬ IsDigit b) (hnul : 0 ∉ rest) : number (intBytes i ++ rest) = i := by
  refine atoi_intBytes hlo hhi hdigit (List.takeWhile_eq_self_iff.mpr fun b hb => bne_iff_ne.mpr ?_)
  rintro rfl
  rcases List.mem_append.mp hb with hb | hb
  · exact not_mem_intBytes (by decide) (by decide) hb
  · exact hnul hb

theorem number_sizeWord (original counted : Nat) : number (sizeWord original counted) = wrap original := by
  have hrange : -2147483648 ≤ wrap original ∧ wrap original ≤ 2147483647 := by
    unfold wrap
    omega
  have hquestion : ∀ b ∈ (text "?").head?, ¬ IsDigit b := by
    intro b hb
    cases hb
    decide
  unfold sizeWord
  split_ifs
  · exact number_intBytes hrange.1 hrange.2 hquestion (by decide)
  · exact number_intBytes hrange.1 hrange.2 (by simp) List.not_mem_nil

theorem number_nextWord (original counted : Nat) (reduced : List UInt8) :
    number (nextWord original counted reduced) = if TooLong original counted then 0 else number (reduced ++ text "%") := by
  unfold nextWord
  split_ifs
  · decide
  · rfl

/-- What the code makes of the listing. -/
theorem uncompressedSize_eq (fn : Path) (a : Archive) : uncompressedSize fn a = unsigned (a.read fn) := by
  obtain ⟨original, form, hpos, hfits⟩ := a
  cases form with
  | plain =>
    simp only [uncompressedSize, Archive.read, unsigned]
    omega
  | encrypted =>
    simp only [uncompressedSize, Archive.read, pigzList, ite_self, if_true]
    rfl
  | gzip counted reduced tag =>
    obtain ⟨hlen, hword⟩ := @split_showInfo original counted reduced tag hfits.2.2.1
    have hne : showInfo original counted reduced tag ≠ [] := List.append_ne_nil_of_left_ne_nil (by decide) _
    simp only [uncompressedSize, Archive.read, pigzList]
    by_cases hblank : ' ' ∈ fn
    · rw [if_pos hblank, if_pos hblank, if_pos rfl]
      rfl
    · rw [if_neg hblank, if_neg hblank, if_neg hne, if_pos hlen, hword]
      split_ifs with hshort hlong
      · rw [number_sizeWord]
      · rw [number_nextWord, if_pos hlong]
      · rw [number_nextWord, if_neg hlong]

example : showInfo 179403776 95855838 (text "-1.3") (text "data.yaffs2.win") =
    text "compressed   original reduced  name\n  95855838  179403776   -1.3%  data.yaffs2.win\n" := by decide

/-! ### The backup -/

structure Folder where
  files : List Path
  archive : Path → Archive

def Folder.uncompressedSize (folder : Folder) (fn : Path) : Nat :=
  if fn ∈ folder.files then SizeCheck.uncompressedSize fn (folder.archive fn) else 0

inductive Mount where
  | system
  | data
  | sdExt
  | sdext2
deriving DecidableEq

def Mount.path : Mount → List UInt8
  | system => text "/system"
  | data => text "/data"
  | sdExt => text "/sd-ext"
  | sdext2 => text "/sdext2"

/-- White space, as `>>` skips it. -/
def isSpace (b : UInt8) : Bool := b == 32 || (9 ≤ b && b ≤ 13)

/-- A partition that was backed up without its dalvik-cache, of `size` bytes. -/
structure Recorded where
  host : List UInt8
  size : Nat
  host_ne : host ≠ []
  host_word : ∀ b ∈ host, b ≠ 58 ∧ isSpace b = false
  /-- `/system` keeps no dalvik-cache -/
  host_not_system : host ≠ Mount.system.path

structure Backup where
  mount : Mount
  restoreName : Path
  fileName : Path
  folder : Folder
  /-- the partitions that were backed up without their dalvik-cache, in the order of the backup -/
  recorded : List Recorded

namespace Backup
variable (b : Backup)

def file : Path := join b.restoreName b.fileName

/-- The file `.nodalvikcache` after the backup: each `echo` overwrites what is there. The shell does
not find the file where there is a blank in the path. -/
def nodalvikcache : Option (List UInt8) :=
  if ' ' ∈ b.restoreName then none
  else b.recorded.getLast?.map fun r => r.host ++ 58 :: (intBytes (wrap r.size) ++ [10])

/-- `ss >> dc_size` -/
def readSize : List UInt8 → Nat
  | 45 :: digits => unsigned (-(CString.digits digits 0 : Int))
  | digits => unsigned (CString.digits digits 0)

/-- `dalvik_host` and `dc_size` -/
def dalvik : List UInt8 × Nat :=
  match b.nodalvikcache with
  | none => ([], 0)
  | some content =>
    let split := splitString 58 ((content.dropWhile isSpace).takeWhile fun c => !isSpace c)
    if 0 < split.length then (split.getD 0 [], readSize (split.getD 1 [])) else ([], 0)

def roundUpSize (sz multiple : Nat) : Nat :=
  if multiple = 0 then sz
  else if sz % multiple = 0 then sz
  else (sz + multiple - sz % multiple) % 4294967296

/-- The loop over the numbered archives. -/
def addParts : Nat → Nat → Nat → Nat
  | 0, _, minSize => minSize
  | fuel + 1, index, minSize =>
    let fn := Tar.splitName b.file index
    if fn ∈ b.folder.files then addParts fuel (index + 1) (Tar.ull (minSize + b.folder.uncompressedSize fn))
    else minSize

def addDalvik (minSize : Nat) : Nat :=
  if b.dalvik.1 = b.mount.path then Tar.ull (minSize + b.dalvik.2) else minSize

/-- `min_size`, as it is compared with the size of the partition. -/
def minSize : Nat :=
  match b.mount with
  | .system => roundUpSize (b.folder.uncompressedSize b.file % 4294967296) 1048576
  | .data => b.addDalvik (roundUpSize (b.folder.uncompressedSize b.file % 4294967296) 1048576)
  | .sdExt | .sdext2 =>
    b.addDalvik (if b.file ∈ b.folder.files then b.folder.uncompressedSize b.file
      else b.addParts (b.folder.files.length + 1) 0 0)

/-- The size of the partition is found to be adequate. -/
def Adequate (size : Nat) : Prop := b.minSize < size

/-- The archives that are going to be unpacked. -/
def archives : List Path := Restore.archives b.folder.files b.file

def original (fn : Path) : Nat := (b.folder.archive fn).original
def read (fn : Path) : Int := (b.folder.archive fn).read fn

/-- The bytes of the tar archives. -/
def unpacked : Nat := (b.archives.map b.original).sum

/-- The dalvik-cache that was left out when this partition was backed up. -/
def leftOut : Nat := ((b.recorded.reverse.find? fun r => r.host = b.mount.path).map Recorded.size).getD 0

/-- What the partition must have room for. -/
def needed : Nat := b.unpacked + b.leftOut

/-! ### What the code adds up -/

theorem readSize_intBytes (i : Int) : readSize (intBytes i) = unsigned i := by
  cases i with
  | ofNat n =>
    obtain ⟨c, rest, heq, hdigit⟩ := exists_cons_decimalBytes n
    have hread : CString.digits (decimalBytes n) 0 = n := by
      have := @digits_decimalBytes n [] (by simp)
      rwa [List.append_nil] at this
    simp only [intBytes]
    rw [heq] at hread ⊢
    unfold readSize
    split
    · rename_i hcons
      exact absurd (List.cons.inj hcons).1 hdigit.not_sign.2.1
    · rw [hread]
      rfl
  | negSucc n =>
    have hread : CString.digits (decimalBytes (n + 1)) 0 = n + 1 := by
      have := @digits_decimalBytes (n + 1) [] (by simp)
      rwa [List.append_nil] at this
    simp only [intBytes, readSize, hread]
    rfl

theorem isSpace_intBytes {i : Int} {c : UInt8} (h : c ∈ intBytes i) : isSpace c = false := by
  cases i with
  | ofNat n => exact (isDigit_of_mem_decimalBytes h).not_sign.1
  | negSucc n =>
    rcases List.mem_cons.mp h with rfl | h
    · decide
    · exact (isDigit_of_mem_decimalBytes h).not_sign.1

/-- The partition and the size are read as they were written. -/
theorem readToken_recorded (r : Recorded) (i : Int) :
    splitString 58 (((r.host ++ 58 :: (intBytes i ++ [10])).dropWhile isSpace).takeWhile fun c => !isSpace c) =
      [r.host, intBytes i] := by
  obtain ⟨c, host, hcons⟩ := List.exists_cons_of_ne_nil r.host_ne
  have hfirst : isSpace c = false := (r.host_word c (by rw [hcons]; exact List.mem_cons_self)).2
  have hcontent : r.host ++ 58 :: (intBytes i ++ [10]) = (r.host ++ 58 :: intBytes i) ++ [10] := by simp
  have hword : ∀ d ∈ r.host ++ 58 :: intBytes i, (!isSpace d) = true := by
    intro d hd
    rcases List.mem_append.mp hd with hd | hd
    · simp [(r.host_word d hd).2]
    · rcases List.mem_cons.mp hd with rfl | hd
      · decide
      · simp [isSpace_intBytes hd]
  have hdrop : (r.host ++ 58 :: (intBytes i ++ [10])).dropWhile isSpace = r.host ++ 58 :: (intBytes i ++ [10]) := by
    rw [hcons, List.cons_append, List.dropWhile_cons_of_neg (by simp [hfirst])]
  have hend : [(10 : UInt8)].takeWhile (fun c => !isSpace c) = [] := by decide
  rw [hdrop, hcontent, List.takeWhile_append_of_pos hword, hend, List.append_nil,
    splitString_word 58 r.host_ne fun h => (r.host_word 58 h).1 rfl,
    splitString_last 58 (intBytes_ne_nil i) (not_mem_intBytes (by decide) (by decide))]

/-- What is added for the dalvik-cache. -/
def noted : Int :=
  if ' ' ∈ b.restoreName then 0
  else (b.recorded.getLast?.map fun r => if r.host = b.mount.path then wrap r.size else 0).getD 0

theorem addDalvik_eq (i : Int) : b.addDalvik (unsigned i) = unsigned (i + b.noted) := by
  have hempty : ([] : List UInt8) ≠ b.mount.path := by cases b.mount <;> decide
  have hnone : b.nodalvikcache = none → b.dalvik = ([], 0) := by
    intro h
    rw [dalvik, h]
  unfold addDalvik noted
  by_cases hblank : ' ' ∈ b.restoreName
  · rw [hnone (if_pos hblank), if_neg hempty, if_pos hblank, Int.add_zero]
  · rw [if_neg hblank]
    cases hlast : b.recorded.getLast? with
    | none =>
      have hfile : b.nodalvikcache = none := by rw [nodalvikcache, if_neg hblank, hlast]; rfl
      rw [hnone hfile, if_neg hempty, Option.map_none, Option.getD_none, Int.add_zero]
    | some r =>
      have hfile : b.nodalvikcache = some (r.host ++ 58 :: (intBytes (wrap r.size) ++ [10])) := by
        rw [nodalvikcache, if_neg hblank, hlast]
        rfl
      have hdalvik : b.dalvik = (r.host, unsigned (wrap r.size)) := by
        rw [dalvik, hfile]
        simp only [readToken_recorded]
        rw [if_pos (by simp), List.getD_cons_zero, List.getD_cons_succ, List.getD_cons_zero, readSize_intBytes]
      rw [hdalvik, Option.map_some, Option.getD_some]
      split_ifs
      · unfold Tar.ull unsigned
        omega
      · rw [Int.add_zero]

theorem folder_uncompressedSize {fn : Path} (h : fn ∈ b.folder.files) :
    b.folder.uncompressedSize fn = unsigned (b.read fn) := by
  rw [Folder.uncompressedSize, if_pos h, uncompressedSize_eq]
  rfl

/-- The loop adds up the numbered archives that are there one after the other. -/
theorem addParts_eq (fuel index : Nat) (i : Int) :
    b.addParts fuel index (unsigned i) =
      unsigned (i + ((List.range' index (countParts b.folder.files b.file fuel index)).map
        fun n => b.read (Tar.splitName b.file n)).sum) := by
  induction fuel generalizing index i with
  | zero => simp [addParts, countParts]
  | succ fuel ih =>
    unfold addParts countParts
    by_cases hfile : Tar.splitName b.file index ∈ b.folder.files
    · have hadd : Tar.ull (unsigned i + unsigned (b.read (Tar.splitName b.file index))) =
          unsigned (i + b.read (Tar.splitName b.file index)) := by
        unfold Tar.ull unsigned
        omega
      simp only [if_pos hfile]
      rw [folder_uncompressedSize b hfile, hadd, ih, List.range'_succ, List.map_cons, List.sum_cons, Int.add_assoc]
    · simp [if_neg hfile]

/-- The size as it is rounded up. -/
def single : Nat := if b.file ∈ b.folder.files then (b.read b.file % 4294967296).toNat else 0

/-- What is added up for the archives. -/
def tally : Int :=
  match b.mount with
  | .system | .data => roundUpSize b.single 1048576
  | .sdExt | .sdext2 => (b.archives.map b.read).sum

theorem single_eq : b.folder.uncompressedSize b.file % 4294967296 = b.single := by
  unfold single
  split_ifs with hfile
  · rw [folder_uncompressedSize b hfile, unsigned]
    omega
  · rw [Folder.uncompressedSize, if_neg hfile]

theorem sumArchives_eq :
    (if b.file ∈ b.folder.files then b.folder.uncompressedSize b.file
      else b.addParts (b.folder.files.length + 1) 0 0) = unsigned (b.archives.map b.read).sum := by
  unfold archives Restore.archives
  split_ifs with hfile
  · rw [folder_uncompressedSize b hfile]
    simp
  · have hzero : (0 : Nat) = unsigned 0 := rfl
    have hsum := addParts_eq b (b.folder.files.length + 1) 0 0
    rw [← hzero] at hsum
    rw [hsum, Int.zero_add, List.map_map, List.range_eq_range']
    rfl

theorem roundUpSize_lt {sz : Nat} (h : sz < 4294967296) : roundUpSize sz 1048576 < 4294967296 := by
  unfold roundUpSize
  split_ifs <;> omega

theorem minSize_eq : b.minSize = unsigned (b.tally + b.noted) := by
  have hround : roundUpSize b.single 1048576 = unsigned (roundUpSize b.single 1048576) := by
    have hsingle : b.single < 4294967296 := by
      unfold single
      split_ifs <;> omega
    have := roundUpSize_lt hsingle
    unfold unsigned
    omega
  unfold minSize
  cases hmount : b.mount with
  | system =>
    have hnoted : b.noted = 0 := by
      unfold noted
      split_ifs
      · rfl
      · cases hlast : b.recorded.getLast? with
        | none => rfl
        | some r =>
          rw [Option.map_some, Option.getD_some, hmount, if_neg r.host_not_system]
    simp only [tally, hmount, hnoted, Int.add_zero, single_eq]
    exact hround
  | data =>
    simp only [tally, hmount, single_eq]
    rw [hround, addDalvik_eq, ← hround]
  | sdExt =>
    simp only [tally, hmount]
    rw [sumArchives_eq, addDalvik_eq]
  | sdext2 =>
    simp only [tally, hmount]
    rw [sumArchives_eq, addDalvik_eq]

/-! ### Sizes that are read as they are -/

end Backup

section Read
variable (a : Archive) (fn : Path)

/-- One past the longest archive whose size is read as it is. -/
def Archive.limit : Nat :=
  match a.form with
  | .plain => 4294967296
  | _ => 2147483648

theorem Archive.read_le : a.read fn ≤ a.original ∧ -(a.original : Int) ≤ a.read fn := by
  obtain ⟨original, form, hpos, hfits⟩ := a
  cases form with
  | plain =>
    simp only [read]
    omega
  | encrypted =>
    simp only [read]
    omega
  | gzip counted reduced tag =>
    obtain ⟨-, hcounted, -, hreduced⟩ := hfits
    simp only [read]
    split_ifs with hblank hshort hlong
    · omega
    · unfold wrap
      omega
    · omega
    · have := hreduced (by omega)
      omega

theorem Archive.read_eq_iff : a.read fn = a.original ↔ a.Listed fn ∧ a.original < a.limit := by
  obtain ⟨original, form, hpos, hfits⟩ := a
  cases form with
  | plain =>
    simp only [read, Listed, limit, true_and]
    omega
  | encrypted =>
    simp only [read, Listed, false_and, iff_false]
    omega
  | gzip counted reduced tag =>
    obtain ⟨-, hcounted, -, hreduced⟩ := hfits
    simp only [read, Listed, limit]
    split_ifs with hblank hshort hlong
    · simp only [hblank, not_true_eq_false, false_and, iff_false]
      omega
    · simp only [hblank, hshort, not_false_eq_true, true_and]
      unfold wrap
      omega
    · simp only [hshort, and_false, false_and, iff_false]
      omega
    · have := hreduced (by omega)
      simp only [hshort, and_false, false_and, iff_false]
      omega

/-- What `RoundUpSize` is for. -/
def roundedUp (n : Nat) : Nat := (n + 1048575) / 1048576 * 1048576

theorem roundUpSize_eq {sz : Nat} (h : sz < 4294967296) :
    Backup.roundUpSize sz 1048576 = if sz ≤ 4293918720 then roundedUp sz else 0 := by
  have hdiv := Nat.div_add_mod sz 1048576
  unfold Backup.roundUpSize roundedUp
  rw [if_neg (by decide)]
  split_ifs
  · omega
  · omega
  · omega
  · omega

/-- The 32 bits of a size: those of the tar archive where the listing shows it, else none or those of a
percentage of something long. -/
theorem Archive.low_read : a.Listed fn ∧ a.read fn % 4294967296 = a.original % 4294967296 ∨
    ¬a.Listed fn ∧ (a.read fn = 0 ∨ 100000000 ≤ a.original ∧ -100 ≤ a.read fn ∧ a.read fn ≤ 100) := by
  obtain ⟨original, form, hpos, hfits⟩ := a
  cases form with
  | plain =>
    left
    simp only [read, Listed, true_and]
    omega
  | encrypted =>
    right
    exact ⟨not_false, .inl rfl⟩
  | gzip counted reduced tag =>
    obtain ⟨-, hcounted, -, hreduced⟩ := hfits
    simp only [read, Listed]
    split_ifs with hblank hshort hlong
    · right
      exact ⟨fun h => h.1 hblank, .inl rfl⟩
    · left
      refine ⟨⟨hblank, hshort⟩, ?_⟩
      unfold wrap
      omega
    · right
      exact ⟨fun h => hshort h.2, .inl rfl⟩
    · right
      have := hreduced (by omega)
      exact ⟨fun h => hshort h.2, .inr ⟨by omega, this⟩⟩

/-- As 32 bits the size need not be below `limit`, but there must be room to round it up. -/
theorem Archive.roundUpSize_read :
    (a.Listed fn ∧ a.original ≤ 4293918720 →
      Backup.roundUpSize (a.read fn % 4294967296).toNat 1048576 = roundedUp a.original) ∧
    (¬(a.Listed fn ∧ a.original ≤ 4293918720) →
      Backup.roundUpSize (a.read fn % 4294967296).toNat 1048576 < a.original) := by
  have hpos := a.original_pos
  rw [roundUpSize_eq (by omega)]
  rcases a.low_read fn with ⟨hlisted, hlow⟩ | ⟨hlisted, hread⟩
  · have hnat : (a.read fn % 4294967296).toNat = a.original % 4294967296 := by omega
    simp only [hlisted, hnat, true_and, not_le]
    constructor
    · intro hle
      rw [Nat.mod_eq_of_lt (by omega), if_pos hle]
    · intro hlt
      unfold roundedUp
      split_ifs <;> omega
  · refine ⟨fun h => absurd h.1 hlisted, fun _ => ?_⟩
    unfold roundedUp
    rcases hread with hread | ⟨hlong, hlo, hhi⟩
    · rw [hread, if_pos (by decide)]
      simpa using hpos
    · split_ifs <;> omega

end Read

namespace Backup
variable (b : Backup)

/-! ### When the size is large enough -/

/-- The size of an archive is read as it is, and for `/system` and `/data` it is the only one. -/
def Read (fn : Path) : Prop :=
  match b.mount with
  | .system | .data =>
    fn = b.file ∧ (b.folder.archive fn).Listed fn ∧ b.original fn ≤ 4293918720
  | .sdExt | .sdext2 => (b.folder.archive fn).Listed fn ∧ b.original fn < (b.folder.archive fn).limit

/-- The bytes of the archives, rounded up for `/system` and `/data`. -/
def allotted : Nat :=
  match b.mount with
  | .system | .data => roundedUp b.unpacked
  | .sdExt | .sdext2 => b.unpacked

/-- The dalvik-cache that is in the file is this partition's, and its size is an `int`. -/
def Noted : Prop :=
  ' ' ∉ b.restoreName ∧ b.leftOut < 2147483648 ∧ ∃ r ∈ b.recorded.getLast?, r.host = b.mount.path

/-- Every archive is read as it is, and the dalvik-cache is noted or there is room for it anyway. -/
structure Covered : Prop where
  read : ∀ fn ∈ b.archives, b.Read fn
  dalvik : b.Noted ∨ b.needed ≤ b.allotted
  fits : b.needed < 18446744073709551616

/-- Sizes of 2 GiB and more are read as negative numbers, and what is added up is negative. -/
structure Wraps : Prop where
  negative : b.tally + b.noted < 0
  large : b.needed - (b.tally + b.noted) ≤ 18446744073709551616

theorem unpacked_le_allotted : b.unpacked ≤ b.allotted ∧ b.allotted < b.unpacked + 1048576 := by
  unfold allotted roundedUp
  cases b.mount <;> dsimp only <;> omega

theorem leftOut_eq {r : Recorded} (hr : b.recorded.getLast? = some r) (hhost : r.host = b.mount.path) : b.leftOut = r.size := by
  obtain ⟨rest, hrest⟩ := List.getLast?_eq_some_iff.mp hr
  rw [leftOut, hrest, List.reverse_append, List.reverse_singleton, List.singleton_append,
    List.find?_cons_of_pos (by simpa using hhost)]
  rfl

theorem noted_spec : -(b.leftOut : Int) ≤ b.noted ∧ b.noted < 2147483648 ∧ (b.Noted → b.noted = b.leftOut) ∧
    (¬b.Noted → b.noted = 0 ∨ b.noted + 4294967296 ≤ b.leftOut) := by
  unfold noted Noted
  by_cases hblank : ' ' ∈ b.restoreName
  · simp [hblank]
  · rw [if_neg hblank]
    cases hlast : b.recorded.getLast? with
    | none => simp
    | some r =>
      rw [Option.map_some, Option.getD_some]
      by_cases hhost : r.host = b.mount.path
      · rw [if_pos hhost, leftOut_eq b hlast hhost]
        have hnoted : (' ' ∉ b.restoreName ∧ r.size < 2147483648 ∧ ∃ r' ∈ some r, r'.host = b.mount.path) ↔
            r.size < 2147483648 := by
          simp [hblank, hhost]
        rw [hnoted]
        unfold wrap
        omega
      · rw [if_neg hhost]
        refine ⟨by omega, by omega, ?_, fun _ => .inl rfl⟩
        rintro ⟨-, -, r', hr', hhost'⟩
        obtain rfl := Option.some.inj hr'
        exact absurd hhost' hhost

/-- What is read of archives, and the archives. -/
theorem sum_read (l : List Path) :
    (l.map b.read).sum ≤ (l.map b.original).sum ∧ -((l.map b.original).sum : Int) ≤ (l.map b.read).sum ∧
      ((l.map b.read).sum = (l.map b.original).sum ↔
        ∀ fn ∈ l, (b.folder.archive fn).Listed fn ∧ b.original fn < (b.folder.archive fn).limit) := by
  induction l with
  | nil => simp
  | cons fn l ih =>
    obtain ⟨hle, hge, hiff⟩ := ih
    have hread : b.read fn ≤ b.original fn ∧ -(b.original fn : Int) ≤ b.read fn := (b.folder.archive fn).read_le fn
    have heq : b.read fn = b.original fn ↔
        (b.folder.archive fn).Listed fn ∧ b.original fn < (b.folder.archive fn).limit := (b.folder.archive fn).read_eq_iff fn
    simp only [List.map_cons, List.sum_cons, List.forall_mem_cons, ← hiff, ← heq]
    rw [Nat.cast_add]
    omega

/-- The only archive of `/system` or `/data`, if it is there. -/
theorem single_spec :
    ((∀ fn ∈ b.archives, fn = b.file ∧ (b.folder.archive fn).Listed fn ∧ b.original fn ≤ 4293918720) →
      roundUpSize b.single 1048576 = roundedUp b.unpacked) ∧
    (¬(∀ fn ∈ b.archives, fn = b.file ∧ (b.folder.archive fn).Listed fn ∧ b.original fn ≤ 4293918720) →
      roundUpSize b.single 1048576 < b.unpacked) := by
  unfold single unpacked archives Restore.archives
  split_ifs with hfile
  · have hread := (b.folder.archive b.file).roundUpSize_read b.file
    simpa [original, read] using hread
  · have hzero : roundUpSize 0 1048576 = 0 := rfl
    rw [hzero]
    cases hcount : partCount b.folder.files b.file with
    | zero => simp [roundedUp]
    | succ n =>
      have hfirst : Tar.splitName b.file 0 ∈ (List.range (n + 1)).map (Tar.splitName b.file) :=
        List.mem_map_of_mem (List.mem_range.mpr (Nat.succ_pos n))
      have hne : Tar.splitName b.file 0 ≠ b.file := splitName_ne b.file 0
      have hpos : 0 < b.original (Tar.splitName b.file 0) := (b.folder.archive _).original_pos
      have hle := List.le_sum_of_mem (List.mem_map_of_mem (f := b.original) hfirst)
      refine ⟨fun h => absurd (h _ hfirst).1 hne, fun _ => ?_⟩
      omega

theorem tally_spec : -(b.unpacked : Int) ≤ b.tally ∧ ((∀ fn ∈ b.archives, b.Read fn) → b.tally = b.allotted) ∧
    (¬(∀ fn ∈ b.archives, b.Read fn) → b.tally < b.unpacked) := by
  have hsum := b.sum_read b.archives
  have hsingle := b.single_spec
  unfold tally allotted Read
  cases b.mount <;> dsimp only
  case system | data =>
    refine ⟨by omega, fun h => ?_, fun h => ?_⟩
    · rw [hsingle.1 h]
    · have := hsingle.2 h
      omega
  case sdExt | sdext2 =>
    obtain ⟨hle, hge, hiff⟩ := hsum
    rw [← hiff]
    change _ ≤ (b.unpacked : Int) at hle
    change -(b.unpacked : Int) ≤ _ at hge
    change _ ∧ (_ = (b.unpacked : Int) → _) ∧ (¬ _ = (b.unpacked : Int) → _)
    omega

/-- What is added up is no more than the archives, or an `unsigned long`. -/
theorem tally_bound : b.tally ≤ b.unpacked ∧ b.noted ≤ b.leftOut ∨ b.tally < 4294967296 := by
  have hle := (b.sum_read b.archives).1
  obtain ⟨-, -, hnoted, hunnoted⟩ := b.noted_spec
  have hdalvik : b.noted ≤ b.leftOut := by
    by_cases h : b.Noted
    · exact Int.le_of_eq (hnoted h)
    · rcases hunnoted h with h | h <;> omega
  have hsingle : b.single < 4294967296 := by
    unfold single
    split_ifs <;> omega
  have hround := roundUpSize_lt hsingle
  unfold tally
  cases b.mount <;> dsimp only
  case system | data =>
    right
    omega
  case sdExt | sdext2 => exact .inl ⟨hle, hdalvik⟩

/-- A sum that does not pass 64 bits from above is large enough as it is, or below zero. -/
theorem le_unsigned_iff {n : Nat} {i : Int} (hlo : -(n : Int) ≤ i) (hhi : i ≤ n ∨ i < 8589934592) :
    n ≤ unsigned i ↔ (n ≤ i ∧ n < 18446744073709551616) ∨ (i < 0 ∧ n - i ≤ 18446744073709551616) := by
  unfold unsigned
  omega

/-- The size is large enough for what is going to be unpacked and the dalvik-cache exactly when all of it
is read as it is, or so much as a negative number that the sum is. -/
theorem minSize_enough_iff :
    (b.needed ≤ b.minSize ∧ ∀ size, b.Adequate size → b.needed < size) ↔ b.Covered ∨ b.Wraps := by
  obtain ⟨htallyNeg, hread, hunread⟩ := b.tally_spec
  obtain ⟨hnotedNeg, hint, hnoted, hunnoted⟩ := b.noted_spec
  obtain ⟨hallotted, hslack⟩ := b.unpacked_le_allotted
  have hneeded : b.needed = b.unpacked + b.leftOut := rfl
  have hadequate : (b.needed ≤ b.minSize ∧ ∀ size, b.Adequate size → b.needed < size) ↔ b.needed ≤ b.minSize :=
    ⟨fun h => h.1, fun h => ⟨h, fun size hsize => Nat.lt_of_le_of_lt h hsize⟩⟩
  rw [hadequate, minSize_eq]
  have hcovered : b.needed ≤ b.tally + b.noted ↔ (∀ fn ∈ b.archives, b.Read fn) ∧ (b.Noted ∨ b.needed ≤ b.allotted) := by
    by_cases hall : ∀ fn ∈ b.archives, b.Read fn
    · have htally := hread hall
      by_cases hn : b.Noted
      · have := hnoted hn
        simp only [hn, true_or, and_true, iff_true_intro hall, iff_true]
        omega
      · simp only [hn, false_or, iff_true_intro hall, true_and]
        rcases hunnoted hn with h | h <;> omega
    · have htally := hunread hall
      simp only [hall, false_and, iff_false]
      by_cases hn : b.Noted
      · have := hnoted hn
        omega
      · rcases hunnoted hn with h | h <;> omega
  have hsum : b.tally + b.noted ≤ b.needed ∨ b.tally + b.noted < 8589934592 := by
    rcases b.tally_bound with h | h
    · left
      omega
    · right
      omega
  rw [le_unsigned_iff (by omega) hsum, hcovered]
  constructor
  · rintro (⟨⟨hall, hdalvik⟩, hfits⟩ | ⟨hnegative, hlarge⟩)
    · exact .inl ⟨hall, hdalvik, hfits⟩
    · exact .inr ⟨hnegative, hlarge⟩
  · rintro (h | h)
    · exact .inl ⟨⟨h.read, h.dalvik⟩, h.fits⟩
    · exact .inr ⟨h.negative, h.large⟩

/-- A part of a backup that was split. -/
def part : Archive := ⟨1610612736, .plain, by decide, trivial⟩

/-- A backup of `/data` in two archives. -/
def parted : Backup :=
  ⟨.data, "/b".toList, "data.win".toList, ⟨["/b/data.win000".toList, "/b/data.win001".toList], fun _ => part⟩, []⟩

/-- Numbered archives of `/data` are not looked for. -/
theorem not_minSize_enough :
    ¬(parted.needed ≤ parted.minSize ∧ ∀ size, parted.Adequate size → parted.needed < size) := by
  have hneeded : parted.needed = 3221225472 := by decide
  have hmin : parted.minSize = 0 := by decide
  rw [hneeded, hmin]
  exact fun h => absurd h.1 (by decide)

end Backup

end Twrp.Restore.SizeCheck
