import Twrp.Base.Memory
import Twrp.Zip.EarlyExit

/-! What `parseZipArchive` reads of the map, and what it lets through.

The archive is mapped at an address, and what is read is read through pointers into the map. The offset
of a local header is not trusted: its sum with the address is checked, but the end of the header is
not, and on a 32-bit device it can wrap around. The sizes of an entry are `long`s, there negative from
2^31 on, and the sum that is compared with the length of the map wraps around as well. -/
namespace Twrp.Zip
open Base

def CENTIM : Nat := 12
def CENCRC : Nat := 16

/-- Why the parser stops. -/
inductive Stop where
  /-- a byte is read that is not in the map -/
  | outside
  /-- it bails out -/
  | refused
deriving DecidableEq

/-- `ZipEntry`: where its name is, and its `long`s. -/
structure MapEntry where
  fileName : Nat
  name : List UInt8
  offset : Int
  compLen : Int
  uncompLen : Int
  compression : Nat
  versionMadeBy : Nat
  externalFileAttributes : Nat
deriving DecidableEq

/-- What is read of a record of the central directory. -/
structure Central where
  localHdrOffset : Nat
  name : List UInt8
  extraLen : Nat
  commentLen : Nat
  compLen : Nat
  uncompLen : Nat
  compression : Nat
  versionMadeBy : Nat
  externalFileAttributes : Nat

section Parser
variable {abi : Abi} (m : Memory abi)

/-- A little-endian number at a pointer. -/
def fetch (a n : Nat) : Except Stop Nat :=
  match m.read a n with
  | none => .error .outside
  | some bytes => .ok (fromLe bytes)

/-- The file name of a record, if it ends in the map. -/
def fetchName (ptr fileNameLen : Nat) : Except Stop (List UInt8) :=
  let fileName := m.plus ptr CENHDR
  if m.stop < m.plus fileName fileNameLen then .error .refused
  else
    match m.read fileName fileNameLen with
    | none => .error .outside
    | some name => if validFilename name then .ok name else .error .refused

/-- The version that made an entry is known. -/
def knownVersion (versionMadeBy : Nat) : Bool := versionMadeBy &&& 0xff00 = 0 || versionMadeBy &&& 0xff00 = CENVEM_UNIX

/-- A round of the loop over the central directory, up to the local header. -/
def readCentral (ptr : Nat) : Except Stop Central :=
  if m.stop < m.plus ptr CENHDR then .error .refused
  else do
    let sig ← fetch m ptr 4
    if sig ≠ CENSIG then .error .refused
    else do
      let localHdrOffset ← fetch m (m.plus ptr CENOFF) 4
      let fileNameLen ← fetch m (m.plus ptr CENNAM) 2
      let extraLen ← fetch m (m.plus ptr CENEXT) 2
      let commentLen ← fetch m (m.plus ptr CENCOM) 2
      let name ← fetchName m ptr fileNameLen
      let compLen ← fetch m (m.plus ptr CENSIZ) 4
      let uncompLen ← fetch m (m.plus ptr CENLEN) 4
      let compression ← fetch m (m.plus ptr CENHOW) 2
      let _modTime ← fetch m (m.plus ptr CENTIM) 4
      let _crc32 ← fetch m (m.plus ptr CENCRC) 4
      let versionMadeBy ← fetch m (m.plus ptr CENVEM) 2
      if !knownVersion versionMadeBy then .error .refused
      else do
        let externalFileAttributes ← fetch m (m.plus ptr CENATX) 4
        .ok ⟨localHdrOffset, name, extraLen, commentLen, compLen, uncompLen, compression, versionMadeBy, externalFileAttributes⟩

/-- The local header: where the data of the entry starts, as an `unsigned int`. -/
def readLocal (localHdrOffset : Nat) : Except Stop Nat :=
  -- `safe_add` of the address and the offset
  if abi.word ≤ m.addr + localHdrOffset then .error .refused
  else
    let localHdr := m.addr + localHdrOffset
    if m.stop < m.plus localHdr LOCHDR then .error .refused
    else do
      let sig ← fetch m localHdr 4
      if sig ≠ LOCSIG then .error .refused
      else do
        let fileNameLen ← fetch m (m.plus localHdr LOCNAM) 2
        let extraLen ← fetch m (m.plus localHdr LOCEXT) 2
        .ok ((localHdrOffset + LOCHDR + fileNameLen + extraLen) % 2 ^ 32)

/-- The entry of a record with data from `offset` on, if these end in the map. -/
def checkRange (ptr : Nat) (r : Central) (offset : Nat) : Except Stop MapEntry :=
  if !abi.safeAdd (abi.long offset) (abi.long r.compLen) then .error .refused
  else if m.bytes.length < abi.ofLong (abi.long offset + abi.long r.compLen) then .error .refused
  else .ok ⟨m.plus ptr CENHDR, r.name, abi.long offset, abi.long r.compLen, abi.long r.uncompLen, r.compression, r.versionMadeBy,
    r.externalFileAttributes⟩

/-- A round of the loop over the central directory: the entry, and where the next record is. -/
def readRecord (ptr : Nat) : Except Stop (MapEntry × Nat) := do
  let r ← readCentral m ptr
  let offset ← readLocal m r.localHdrOffset
  let e ← checkRange m ptr r offset
  .ok (e, m.plus ptr (CENHDR + r.name.length + r.extraLen + r.commentLen))

/-- The name alone, as the binary search looks at it. -/
def MapEntry.named (e : MapEntry) : ZipEntry := ⟨e.name, 0, 0, 0, 0, 0, 0, 0⟩

/-- Make some room, and put the entry there. -/
def insertRecord (entries : List MapEntry) (e : MapEntry) : List MapEntry :=
  let t := target (entries.map MapEntry.named) e.name
  entries.take t ++ e :: entries.drop t

/-- The loop over the central directory. -/
def readRecords : (numEntries : Nat) → (ptr : Nat) → List MapEntry → Except Stop (List MapEntry)
  | 0, _, entries => .ok entries
  | numEntries + 1, ptr, entries => do
    let (e, next) ← readRecord m ptr
    readRecords numEntries next (insertRecord entries e)

/-- The backward scan: `k` bytes into the map, and on down to its start. -/
def scanEnd : (k : Nat) → Except Stop Nat
  | 0 => do
    let b ← fetch m m.addr 1
    let sig ← if b = ENDSIG &&& 0xff then fetch m m.addr 4 else .ok 0
    if sig = ENDSIG then .ok m.addr else .error .refused
  | k + 1 => do
    let b ← fetch m (m.addr + (k + 1)) 1
    let sig ← if b = ENDSIG &&& 0xff then fetch m (m.addr + (k + 1)) 4 else .ok 0
    if sig = ENDSIG then .ok (m.addr + (k + 1)) else scanEnd k

/-- `parseZipArchive`, on a file that is not too small for `mzOpenZipArchive`. -/
def parseZipArchive : Except Stop (List MapEntry) :=
  if m.bytes.length < ENDHDR then .error .refused
  else do
    let val ← fetch m m.addr 4
    if val = ENDSIG then .error .refused
    else if val ≠ LOCSIG then .error .refused
    else do
      let ptr ← scanEnd m (m.bytes.length - ENDHDR)
      let numEntries ← fetch m (m.plus ptr ENDSUB) 2
      let cdOffset ← fetch m (m.plus ptr ENDOFF) 4
      if numEntries = 0 ∨ m.bytes.length ≤ cdOffset then .error .refused
      else readRecords m numEntries (m.plus m.addr cdOffset) []

end Parser

/-! ### The records of the directory -/

section Records
variable (bytes : List UInt8) (p : Nat)

def nameAt : List UInt8 := (bytes.drop (p + CENHDR)).take (get2LE bytes (p + CENNAM))

/-- The record at `p` as it stands in the file. -/
def centralAt : Central where
  localHdrOffset := get4LE bytes (p + CENOFF)
  name := nameAt bytes p
  extraLen := get2LE bytes (p + CENEXT)
  commentLen := get2LE bytes (p + CENCOM)
  compLen := get4LE bytes (p + CENSIZ)
  uncompLen := get4LE bytes (p + CENLEN)
  compression := get2LE bytes (p + CENHOW)
  versionMadeBy := get2LE bytes (p + CENVEM)
  externalFileAttributes := get4LE bytes (p + CENATX)

/-- There is a record at `p` that the parser takes, as far as the record itself goes. -/
structure Head : Prop where
  inside : p + CENHDR ≤ bytes.length
  sig : get4LE bytes p = CENSIG
  name : p + CENHDR + get2LE bytes (p + CENNAM) ≤ bytes.length
  valid : validFilename (nameAt bytes p) = true
  version : knownVersion (get2LE bytes (p + CENVEM)) = true

/-- Its local header is in the file. -/
structure Located : Prop extends Head bytes p where
  insideLocal : (centralAt bytes p).localHdrOffset + LOCHDR ≤ bytes.length
  sigLocal : get4LE bytes (centralAt bytes p).localHdrOffset = LOCSIG

/-- Where its data start, as the parser computes it in an `unsigned int`. -/
def dataStart : Nat :=
  let local' := (centralAt bytes p).localHdrOffset
  (local' + LOCHDR + get2LE bytes (local' + LOCNAM) + get2LE bytes (local' + LOCEXT)) % 2 ^ 32

def nextRecord : Nat :=
  p + CENHDR + (centralAt bytes p).name.length + (centralAt bytes p).extraLen + (centralAt bytes p).commentLen

end Records

theorem ok_bind {ε α β : Type} (a : α) (f : α → Except ε β) : (Except.ok a >>= f) = f a := rfl

theorem error_bind {ε α β : Type} (e : ε) (f : α → Except ε β) : (Except.error e >>= f) = .error e := rfl

section Account
variable {abi : Abi} {m : Memory abi} {p : Nat}

theorem fetch_inside {n : Nat} (h : p + n ≤ m.bytes.length) : fetch m (m.addr + p) n = .ok (fromLe ((m.bytes.drop p).take n)) := by
  rw [fetch, Memory.read_inside h]

theorem fetch_outside {a n : Nat} (h : m.stop < a + n) : fetch m a n = .error .outside := by
  rw [fetch, Memory.read_outside (.inr h)]

/-- A field of a header that is in the map. -/
theorem fetch_field {size k n : Nat} (h : p + size ≤ m.bytes.length) (hk : k + n ≤ size) :
    fetch m (m.plus (m.addr + p) k) n = .ok (fromLe ((m.bytes.drop (p + k)).take n)) := by
  rw [Memory.plus_near (by omega), fetch_inside (by omega)]

theorem fetchName_eq (h : p + CENHDR ≤ m.bytes.length) :
    fetchName m (m.addr + p) (get2LE m.bytes (p + CENNAM)) =
      if p + CENHDR + get2LE m.bytes (p + CENNAM) ≤ m.bytes.length ∧ validFilename (nameAt m.bytes p) = true then .ok (nameAt m.bytes p)
      else .error .refused := by
  have hlt := get2LE_lt m.bytes (p + CENNAM)
  unfold fetchName
  rw [Memory.plus_near (by unfold CENHDR at *; omega)]
  dsimp only
  rw [Memory.plus_near (by unfold CENHDR at *; omega)]
  by_cases hend : p + CENHDR + get2LE m.bytes (p + CENNAM) ≤ m.bytes.length
  · have hnot : ¬m.stop < m.addr + (p + CENHDR + get2LE m.bytes (p + CENNAM)) := by
      unfold Memory.stop
      omega
    rw [if_neg hnot, Memory.read_inside hend]
    by_cases hvalid : validFilename (nameAt m.bytes p) = true
    · rw [if_pos ⟨hend, hvalid⟩]
      exact if_pos hvalid
    · rw [if_neg (fun h => hvalid h.2)]
      exact if_neg hvalid
  · have hpast : m.stop < m.addr + (p + CENHDR + get2LE m.bytes (p + CENNAM)) := by
      unfold Memory.stop
      omega
    rw [if_pos hpast, if_neg (fun h => hend h.1)]

instance (bytes : List UInt8) (p : Nat) : Decidable (Head bytes p) :=
  decidable_of_iff (p + CENHDR ≤ bytes.length ∧ get4LE bytes p = CENSIG ∧ p + CENHDR + get2LE bytes (p + CENNAM) ≤ bytes.length ∧
      validFilename (nameAt bytes p) = true ∧ knownVersion (get2LE bytes (p + CENVEM)) = true)
    ⟨fun ⟨h₁, h₂, h₃, h₄, h₅⟩ => ⟨h₁, h₂, h₃, h₄, h₅⟩, fun h => ⟨h.inside, h.sig, h.name, h.valid, h.version⟩⟩

theorem readCentral_eq (hp : p < m.bytes.length + 2 ^ 20) :
    readCentral m (m.addr + p) = if Head m.bytes p then .ok (centralAt m.bytes p) else .error .refused := by
  unfold readCentral
  rw [Memory.plus_near (by unfold CENHDR; omega)]
  by_cases hinside : p + CENHDR ≤ m.bytes.length
  · have hnot : ¬m.stop < m.addr + (p + CENHDR) := by
      unfold Memory.stop
      omega
    have hsig : fetch m (m.addr + p) 4 = .ok (get4LE m.bytes p) := fetch_inside (by unfold CENHDR at hinside; omega)
    have hfield : ∀ k n, k + n ≤ CENHDR → fetch m (m.plus (m.addr + p) k) n = .ok (fromLe ((m.bytes.drop (p + k)).take n)) :=
      fun k n hk => fetch_field hinside hk
    have hname := fetchName_eq (m := m) hinside
    rw [if_neg hnot, hsig, ok_bind]
    by_cases hcensig : get4LE m.bytes p = CENSIG
    · rw [if_neg (not_not.mpr hcensig), hfield CENOFF 4 (by decide), ok_bind, hfield CENNAM 2 (by decide), ok_bind,
        hfield CENEXT 2 (by decide), ok_bind, hfield CENCOM 2 (by decide), ok_bind]
      show (fetchName m (m.addr + p) (get2LE m.bytes (p + CENNAM)) >>= _) = _
      rw [hname]
      by_cases hvalid : p + CENHDR + get2LE m.bytes (p + CENNAM) ≤ m.bytes.length ∧ validFilename (nameAt m.bytes p) = true
      · rw [if_pos hvalid, ok_bind, hfield CENSIZ 4 (by decide), ok_bind, hfield CENLEN 4 (by decide), ok_bind,
          hfield CENHOW 2 (by decide), ok_bind, hfield CENTIM 4 (by decide), ok_bind, hfield CENCRC 4 (by decide), ok_bind,
          hfield CENVEM 2 (by decide), ok_bind]
        by_cases hversion : knownVersion (get2LE m.bytes (p + CENVEM)) = true
        · have hknown : ¬(!knownVersion (fromLe ((m.bytes.drop (p + CENVEM)).take 2))) = true := by
            rw [Bool.not_eq_true', Bool.not_eq_false]
            exact hversion
          rw [if_neg hknown, hfield CENATX 4 (by decide), ok_bind, if_pos ⟨hinside, hcensig, hvalid.1, hvalid.2, hversion⟩]
          rfl
        · have hunknown : (!knownVersion (fromLe ((m.bytes.drop (p + CENVEM)).take 2))) = true := by
            rw [Bool.not_eq_true', ← Bool.not_eq_true]
            exact hversion
          rw [if_pos hunknown, if_neg (fun h => hversion h.version)]
      · rw [if_neg hvalid, error_bind, if_neg (fun h => hvalid ⟨h.name, h.valid⟩)]
    · rw [if_pos hcensig, if_neg (fun h => hcensig h.sig)]
  · have hpast : m.stop < m.addr + (p + CENHDR) := by
      unfold Memory.stop
      omega
    rw [if_pos hpast, if_neg (fun h => hinside h.inside)]

/-- The end of the local header wraps around, though its start does not. -/
def Stray (m : Memory abi) (p : Nat) : Prop :=
  m.addr + (centralAt m.bytes p).localHdrOffset < abi.word ∧ abi.word ≤ m.addr + (centralAt m.bytes p).localHdrOffset + LOCHDR

instance (bytes : List UInt8) (p : Nat) : Decidable (Located bytes p) :=
  decidable_of_iff (Head bytes p ∧ (centralAt bytes p).localHdrOffset + LOCHDR ≤ bytes.length ∧ get4LE bytes (centralAt bytes p).localHdrOffset = LOCSIG)
    ⟨fun ⟨h₁, h₂, h₃⟩ => ⟨h₁, h₂, h₃⟩, fun h => ⟨h.toHead, h.insideLocal, h.sigLocal⟩⟩

instance (m : Memory abi) (p : Nat) : Decidable (Stray m p) := inferInstanceAs (Decidable (_ ∧ _))

theorem readLocal_eq (hhead : Head m.bytes p) :
    readLocal m (centralAt m.bytes p).localHdrOffset =
      if Stray m p then .error .outside else if Located m.bytes p then .ok (dataStart m.bytes p) else .error .refused := by
  have hroom := m.room
  have hhdr : LOCHDR = 30 := rfl
  unfold readLocal
  generalize hoff : (centralAt m.bytes p).localHdrOffset = off
  by_cases hover : abi.word ≤ m.addr + off
  · have hstray : ¬Stray m p := fun h => absurd h.1 (by rw [hoff]; omega)
    have hlocated : ¬Located m.bytes p := fun h => absurd h.insideLocal (by rw [hoff]; omega)
    rw [if_pos hover, if_neg hstray, if_neg hlocated]
  rw [if_neg hover]
  dsimp only
  by_cases hwrap : abi.word ≤ m.addr + off + LOCHDR
  · -- the end of the header wraps around to the start of the address space
    have hend : m.plus (m.addr + off) LOCHDR = m.addr + off + LOCHDR - abi.word := by
      rw [Memory.plus, Nat.mod_eq_sub_mod hwrap, Nat.mod_eq_of_lt (by omega)]
    have hnot : ¬m.stop < m.addr + off + LOCHDR - abi.word := by
      have hlong := hhead.inside
      unfold CENHDR at hlong
      unfold Memory.stop
      omega
    have hfar : m.stop < m.addr + off + 4 := by
      unfold Memory.stop
      omega
    have hstray : Stray m p := ⟨by rw [hoff]; omega, by rw [hoff]; exact hwrap⟩
    rw [hend, if_neg hnot, fetch_outside hfar, error_bind, if_pos hstray]
  · have hstray : ¬Stray m p := fun h => absurd h.2 (by rw [hoff]; exact hwrap)
    have hend : m.plus (m.addr + off) LOCHDR = m.addr + (off + LOCHDR) := by
      rw [Memory.plus, Nat.mod_eq_of_lt (by omega), Nat.add_assoc]
    rw [hend, if_neg hstray]
    by_cases hinside : off + LOCHDR ≤ m.bytes.length
    · have hnot : ¬m.stop < m.addr + (off + LOCHDR) := by
        unfold Memory.stop
        omega
      have hsig : fetch m (m.addr + off) 4 = .ok (get4LE m.bytes off) := fetch_inside (by omega)
      rw [if_neg hnot, hsig, ok_bind]
      by_cases hlocsig : get4LE m.bytes off = LOCSIG
      · have hlocated : Located m.bytes p := ⟨hhead, by rw [hoff]; exact hinside, by rw [hoff]; exact hlocsig⟩
        rw [if_neg (not_not.mpr hlocsig), fetch_field hinside (by decide), ok_bind, fetch_field hinside (by decide), ok_bind,
          if_pos hlocated, dataStart, hoff]
        rfl
      · have hlocated : ¬Located m.bytes p := fun h => hlocsig (by rw [← hoff]; exact h.sigLocal)
        rw [if_pos hlocsig, if_neg hlocated]
    · have hpast : m.stop < m.addr + (off + LOCHDR) := by
        unfold Memory.stop
        omega
      have hlocated : ¬Located m.bytes p := fun h => absurd h.insideLocal (by rw [hoff]; exact hinside)
      rw [if_pos hpast, if_neg hlocated]

/-- The record is taken: the sum of its offset and its length, as it is computed, is not too large. -/
structure Taken (m : Memory abi) (p : Nat) : Prop extends Located m.bytes p where
  long : abi.safeAdd (abi.long (dataStart m.bytes p)) (abi.long (centralAt m.bytes p).compLen) = true
  range : (dataStart m.bytes p + (centralAt m.bytes p).compLen) % abi.word ≤ m.bytes.length

/-- Its data end in the file. -/
def Fits (bytes : List UInt8) (p : Nat) : Prop := dataStart bytes p + (centralAt bytes p).compLen ≤ bytes.length

/-- The parser leaves the map at this record. -/
def Loose (m : Memory abi) (p : Nat) : Prop := Head m.bytes p ∧ Stray m p

instance (m : Memory abi) (p : Nat) : Decidable (Taken m p) :=
  decidable_of_iff (Located m.bytes p ∧ abi.safeAdd (abi.long (dataStart m.bytes p)) (abi.long (centralAt m.bytes p).compLen) = true ∧
      (dataStart m.bytes p + (centralAt m.bytes p).compLen) % abi.word ≤ m.bytes.length)
    ⟨fun ⟨h₁, h₂, h₃⟩ => ⟨h₁, h₂, h₃⟩, fun h => ⟨h.toLocated, h.long, h.range⟩⟩

instance (m : Memory abi) (p : Nat) : Decidable (Loose m p) := inferInstanceAs (Decidable (_ ∧ _))

/-- The entry of the record at `p`. -/
def entryAt (m : Memory abi) (p : Nat) : MapEntry where
  fileName := m.addr + (p + CENHDR)
  name := nameAt m.bytes p
  offset := abi.long (dataStart m.bytes p)
  compLen := abi.long (centralAt m.bytes p).compLen
  uncompLen := abi.long (centralAt m.bytes p).uncompLen
  compression := (centralAt m.bytes p).compression
  versionMadeBy := (centralAt m.bytes p).versionMadeBy
  externalFileAttributes := (centralAt m.bytes p).externalFileAttributes

theorem Located.not_stray (h : Located m.bytes p) : ¬Stray m p := by
  have hroom := m.room
  have hinside := h.insideLocal
  intro hstray
  have := hstray.2
  omega

theorem Head.length_name {bytes : List UInt8} (h : Head bytes p) : (nameAt bytes p).length = get2LE bytes (p + CENNAM) := by
  have := h.name
  rw [nameAt, List.length_take, List.length_drop]
  omega

theorem Head.next_lt {bytes : List UInt8} (h : Head bytes p) : nextRecord bytes p < bytes.length + 2 ^ 17 := by
  have hname : p + CENHDR + (centralAt bytes p).name.length ≤ bytes.length := by
    show p + CENHDR + (nameAt bytes p).length ≤ _
    rw [h.length_name]
    exact h.name
  have hextra : (centralAt bytes p).extraLen < 65536 := get2LE_lt _ _
  have hcomment : (centralAt bytes p).commentLen < 65536 := get2LE_lt _ _
  unfold nextRecord
  omega

theorem checkRange_eq (hhead : Head m.bytes p) :
    checkRange m (m.addr + p) (centralAt m.bytes p) (dataStart m.bytes p) =
      if abi.safeAdd (abi.long (dataStart m.bytes p)) (abi.long (centralAt m.bytes p).compLen) = true ∧
        (dataStart m.bytes p + (centralAt m.bytes p).compLen) % abi.word ≤ m.bytes.length then .ok (entryAt m p)
      else .error .refused := by
  have hinside := hhead.inside
  unfold checkRange
  rw [Abi.ofLong_add, Memory.plus_near (by omega)]
  cases abi.safeAdd (abi.long (dataStart m.bytes p)) (abi.long (centralAt m.bytes p).compLen) with
  | false => rfl
  | true =>
    rw [if_neg (by simp)]
    by_cases hrange : (dataStart m.bytes p + (centralAt m.bytes p).compLen) % abi.word ≤ m.bytes.length
    · rw [if_neg (not_lt.mpr hrange), if_pos ⟨rfl, hrange⟩]
      rfl
    · rw [if_pos (not_le.mp hrange), if_neg (fun h => hrange h.2)]

/-- What a round of the loop does. -/
theorem readRecord_eq (hp : p < m.bytes.length + 2 ^ 20) :
    readRecord m (m.addr + p) =
      if Loose m p then .error .outside
      else if Taken m p then .ok (entryAt m p, m.addr + nextRecord m.bytes p)
      else .error .refused := by
  unfold readRecord
  rw [readCentral_eq hp]
  by_cases hhead : Head m.bytes p
  · rw [if_pos hhead, ok_bind, readLocal_eq hhead]
    by_cases hstray : Stray m p
    · rw [if_pos hstray, error_bind, if_pos ⟨hhead, hstray⟩]
    have hloose : ¬Loose m p := fun h => hstray h.2
    rw [if_neg hstray, if_neg hloose]
    by_cases hlocated : Located m.bytes p
    · rw [if_pos hlocated, ok_bind, checkRange_eq hhead]
      split_ifs with hrange htaken htaken
      · have hnext := hhead.next_lt
        have hsum : p + (CENHDR + (centralAt m.bytes p).name.length + (centralAt m.bytes p).extraLen + (centralAt m.bytes p).commentLen) =
            nextRecord m.bytes p := by
          unfold nextRecord
          omega
        rw [ok_bind, Memory.plus_near (by omega), hsum]
      · exact absurd ⟨hlocated, hrange.1, hrange.2⟩ htaken
      · exact absurd ⟨htaken.long, htaken.range⟩ hrange
      · rfl
    · rw [if_neg hlocated, error_bind, if_neg (fun h => hlocated h.toLocated)]
  · rw [if_neg hhead, error_bind, if_neg (fun h => hhead h.1), if_neg (fun h => hhead h.toHead)]

/-! ### The whole directory -/

/-- Where the records of a directory stand that starts at `p`. -/
def recordAt (bytes : List UInt8) (p : Nat) : Nat → Nat
  | 0 => p
  | i + 1 => recordAt bytes (nextRecord bytes p) i

theorem mem_insertRecord {entries : List MapEntry} {e e' : MapEntry} : e' ∈ insertRecord entries e ↔ e' = e ∨ e' ∈ entries := by
  unfold insertRecord
  rw [List.mem_append, List.mem_cons, or_left_comm, ← List.mem_append, List.take_append_drop]

/-- The loop leaves the map exactly where it comes to a record at which it does. -/
theorem readRecords_outside {numEntries : Nat} (hp : p < m.bytes.length + 2 ^ 17) (entries : List MapEntry) :
    readRecords m numEntries (m.addr + p) entries = .error .outside ↔
      ∃ i < numEntries, (∀ j < i, Taken m (recordAt m.bytes p j)) ∧ Loose m (recordAt m.bytes p i) := by
  induction numEntries generalizing p entries with
  | zero =>
    constructor
    · intro h
      cases h
    · rintro ⟨i, hi, -⟩
      exact absurd hi (Nat.not_lt_zero i)
  | succ n ih =>
    rw [readRecords, readRecord_eq (by omega)]
    by_cases hloose : Loose m p
    · rw [if_pos hloose, error_bind]
      exact iff_of_true rfl ⟨0, Nat.succ_pos n, fun j hj => absurd hj (Nat.not_lt_zero j), hloose⟩
    rw [if_neg hloose]
    by_cases htaken : Taken m p
    · rw [if_pos htaken, ok_bind]
      refine (ih htaken.next_lt _).trans ⟨?_, ?_⟩
      · rintro ⟨i, hi, hbefore, hi'⟩
        refine ⟨i + 1, Nat.succ_lt_succ hi, fun j hj => ?_, hi'⟩
        cases j with
        | zero => exact htaken
        | succ j => exact hbefore j (Nat.lt_of_succ_lt_succ hj)
      · rintro ⟨i, hi, hbefore, hi'⟩
        cases i with
        | zero => exact absurd hi' hloose
        | succ i => exact ⟨i, Nat.lt_of_succ_lt_succ hi, fun j hj => hbefore (j + 1) (Nat.succ_lt_succ hj), hi'⟩
    · rw [if_neg htaken, error_bind]
      refine iff_of_false (fun h => by cases h) ?_
      rintro ⟨i, -, hbefore, hi'⟩
      cases i with
      | zero => exact hloose hi'
      | succ i => exact htaken (hbefore 0 (Nat.succ_pos i))

/-- The loop succeeds exactly if it takes every record, and then has their entries. -/
theorem readRecords_ok {numEntries : Nat} (hp : p < m.bytes.length + 2 ^ 17) (entries : List MapEntry) :
    if ∀ i < numEntries, Taken m (recordAt m.bytes p i) then
      ∃ es, readRecords m numEntries (m.addr + p) entries = .ok es ∧
        ∀ e, e ∈ es ↔ e ∈ entries ∨ ∃ i < numEntries, e = entryAt m (recordAt m.bytes p i)
    else ∀ es, readRecords m numEntries (m.addr + p) entries ≠ .ok es := by
  induction numEntries generalizing p entries with
  | zero =>
    rw [if_pos (fun i hi => absurd hi (Nat.not_lt_zero i))]
    exact ⟨entries, rfl, by simp⟩
  | succ n ih =>
    rw [readRecords, readRecord_eq (by omega)]
    by_cases htaken : Taken m p
    · have hloose : ¬Loose m p := fun h => htaken.not_stray h.2
      have hall : (∀ i < n + 1, Taken m (recordAt m.bytes p i)) ↔ ∀ i < n, Taken m (recordAt m.bytes (nextRecord m.bytes p) i) := by
        constructor
        · intro h i hi
          exact h (i + 1) (Nat.succ_lt_succ hi)
        · intro h i hi
          cases i with
          | zero => exact htaken
          | succ i => exact h i (Nat.lt_of_succ_lt_succ hi)
      have hrest := ih htaken.next_lt (insertRecord entries (entryAt m p))
      rw [if_neg hloose, if_pos htaken, ok_bind]
      simp only [hall]
      split_ifs at hrest ⊢ with hn
      · obtain ⟨es, hes, hmem⟩ := hrest
        refine ⟨es, hes, fun e => ?_⟩
        rw [hmem, mem_insertRecord]
        constructor
        · rintro ((rfl | he) | ⟨i, hi, rfl⟩)
          · exact .inr ⟨0, Nat.succ_pos n, rfl⟩
          · exact .inl he
          · exact .inr ⟨i + 1, Nat.succ_lt_succ hi, rfl⟩
        · rintro (he | ⟨i, hi, rfl⟩)
          · exact .inl (.inr he)
          · cases i with
            | zero => exact .inl (.inl rfl)
            | succ i => exact .inr ⟨i, Nat.lt_of_succ_lt_succ hi, rfl⟩
      · exact hrest
    · rw [if_neg (fun h => htaken (h 0 (Nat.succ_pos n)))]
      intro es
      split_ifs
      · exact fun h => by cases h
      · exact fun h => by cases h

/-- An entry that lies in the map. -/
structure MapEntry.Inside (e : MapEntry) (m : Memory abi) : Prop where
  name : m.addr ≤ e.fileName ∧ e.fileName + e.name.length ≤ m.stop
  offset : 0 ≤ e.offset
  compLen : 0 ≤ e.compLen
  range : e.offset + e.compLen ≤ m.bytes.length

theorem get4LE_lt (map : List UInt8) (ptr : Nat) : get4LE map ptr < 2 ^ 32 :=
  Nat.lt_of_lt_of_le (fromLe_lt _) (Nat.pow_le_pow_right (by decide) (List.length_take_le 4 _))

/-- A number of 32 bits is not negative as a `long` exactly if it is the same number. -/
theorem long_nonneg {n : Nat} (h : n < 2 ^ 32) : 0 ≤ abi.long n ↔ abi.long n = n := by
  unfold Abi.long
  split
  · simp
  · have hword : (n : Int) < abi.word := by
      cases abi with
      | ilp32 => exact Int.ofNat_lt.mpr h
      | lp64 => exact Int.ofNat_lt.mpr (h.trans (by decide))
    constructor
    · intro hle
      omega
    · intro heq
      omega

theorem inside_entryAt (h : Taken m p) : (entryAt m p).Inside m ↔ Fits m.bytes p := by
  have hoffset : dataStart m.bytes p < 2 ^ 32 := Nat.mod_lt _ (by decide)
  have hcomp : (centralAt m.bytes p).compLen < 2 ^ 32 := get4LE_lt _ _
  have hname := h.name
  constructor
  · intro hin
    have hoff := (long_nonneg hoffset).mp hin.offset
    have hlen := (long_nonneg hcomp).mp hin.compLen
    have hrange : abi.long (dataStart m.bytes p) + abi.long (centralAt m.bytes p).compLen ≤ m.bytes.length := hin.range
    rw [hoff, hlen] at hrange
    unfold Fits
    omega
  · intro hfits
    unfold Fits at hfits
    have hsize := m.size
    have hoff : abi.long (dataStart m.bytes p) = dataStart m.bytes p := if_pos (by omega)
    have hlen : abi.long (centralAt m.bytes p).compLen = (centralAt m.bytes p).compLen := if_pos (by omega)
    refine ⟨⟨by show m.addr ≤ m.addr + _; omega, ?_⟩, ?_, ?_, ?_⟩
    · show m.addr + (p + CENHDR) + (nameAt m.bytes p).length ≤ m.addr + m.bytes.length
      rw [h.toHead.length_name]
      omega
    · show 0 ≤ abi.long (dataStart m.bytes p)
      omega
    · show 0 ≤ abi.long (centralAt m.bytes p).compLen
      omega
    · show abi.long (dataStart m.bytes p) + abi.long (centralAt m.bytes p).compLen ≤ m.bytes.length
      omega

/-! ### The parser -/

/-- The test of the backward scan. -/
theorem scanTest_eq {α : Type} {q : Nat} (hq : q + 4 ≤ m.bytes.length) (yes no : Except Stop α) :
    (do
      let b ← fetch m (m.addr + q) 1
      let sig ← if b = ENDSIG &&& 0xff then fetch m (m.addr + q) 4 else .ok 0
      if sig = ENDSIG then yes else no) = if isEnd m.bytes q then yes else no := by
  have hlt : q < m.bytes.length := by omega
  have hbyte : fromLe ((m.bytes.drop q).take 1) = m.bytes[q].toNat := by
    rw [List.drop_eq_getElem_cons (by omega), List.take_succ_cons, List.take_zero, fromLe, fromLe]
    rfl
  have htest : isEnd m.bytes q = (decide (m.bytes[q].toNat = ENDSIG &&& 0xff) && decide (get4LE m.bytes q = ENDSIG)) := by
    unfold isEnd
    congr 1
    rw [List.getElem?_eq_getElem (by omega), decide_eq_decide, Option.some.injEq, ← UInt8.toNat_inj]
    exact Iff.rfl
  rw [fetch_inside (by omega), ok_bind, hbyte, htest]
  by_cases hb : m.bytes[q].toNat = ENDSIG &&& 0xff
  · have hsig : fetch m (m.addr + q) 4 = .ok (get4LE m.bytes q) := fetch_inside hq
    rw [if_pos hb, hsig, ok_bind, decide_eq_true hb, Bool.true_and]
    simp only [decide_eq_true_eq]
  · rw [if_neg hb, ok_bind, decide_eq_false hb, Bool.false_and]
    rfl

theorem scanEnd_eq {k : Nat} (hk : k + 4 ≤ m.bytes.length) :
    scanEnd m k = match findEnd m.bytes k with
      | none => .error .refused
      | some ptr => .ok (m.addr + ptr) := by
  induction k with
  | zero =>
    rw [scanEnd, findEnd]
    refine (scanTest_eq (q := 0) hk _ _).trans ?_
    cases isEnd m.bytes 0 <;> rfl
  | succ k ih =>
    rw [scanEnd, findEnd, scanTest_eq hk, ih (by omega)]
    cases isEnd m.bytes (k + 1) <;> rfl

theorem findEnd_le {map : List UInt8} {k ptr : Nat} (h : findEnd map k = some ptr) : ptr ≤ k := by
  induction k with
  | zero =>
    rw [findEnd] at h
    split_ifs at h
    exact (Option.some.inj h).ge
  | succ k ih =>
    rw [findEnd] at h
    split_ifs at h
    · exact (Option.some.inj h).ge
    · exact (ih h).trans (Nat.le_succ k)

/-- The parser goes through the directory from where the end record says that it starts. -/
theorem parseZipArchive_eq :
    parseZipArchive m = match openEnd m.bytes with
      | none => .error .refused
      | some e => readRecords m e.numEntries (m.addr + e.cdOffset) [] := by
  have hhdr : ENDHDR = 22 := rfl
  have hroom := m.room
  unfold parseZipArchive openEnd
  split_ifs with hshort
  · rfl
  have hval : fetch m m.addr 4 = .ok (get4LE m.bytes 0) := fetch_inside (p := 0) (by omega)
  rw [hval, ok_bind, scanEnd_eq (by omega)]
  unfold readEnd
  split_ifs with hend hloc
  · rfl
  · rfl
  cases hfind : findEnd m.bytes (m.bytes.length - ENDHDR) with
  | none => rfl
  | some ptr =>
    have hle := findEnd_le hfind
    have hinside : ptr + ENDHDR ≤ m.bytes.length := by omega
    have hnum : fetch m (m.plus (m.addr + ptr) ENDSUB) 2 = .ok (get2LE m.bytes (ptr + ENDSUB)) := fetch_field hinside (by decide)
    have hoff : fetch m (m.plus (m.addr + ptr) ENDOFF) 4 = .ok (get4LE m.bytes (ptr + ENDOFF)) := fetch_field hinside (by decide)
    simp only [ok_bind, hnum, hoff]
    split_ifs with hbad
    · rfl
    · have hplus := Memory.plus_near (m := m) (p := 0) (n := get4LE m.bytes (ptr + ENDOFF)) (by omega)
      rw [Nat.add_zero, Nat.zero_add] at hplus
      rw [hplus]

theorem cdOffset_lt {map : List UInt8} {e : EndRecord} (h : openEnd map = some e) : e.cdOffset < map.length := by
  unfold openEnd readEnd at h
  split_ifs at h
  split at h
  · cases h
  · dsimp only at h
    split_ifs at h with hbad
    obtain rfl := Option.some.inj h
    exact not_le.mp fun hle => hbad (.inr hle)

/-- Only bytes of the map are read, and every entry of an archive that is accepted lies in it. -/
def Contained (m : Memory abi) : Prop :=
  parseZipArchive m ≠ .error .outside ∧ ∀ es, parseZipArchive m = .ok es → ∀ e ∈ es, e.Inside m

/-- No record that the parser comes to has a local header that wraps around, and if all records are taken,
then the data of each end in the file. -/
def Tame (m : Memory abi) (e : EndRecord) : Prop :=
  (∀ i < e.numEntries, (∀ j < i, Taken m (recordAt m.bytes e.cdOffset j)) → ¬Loose m (recordAt m.bytes e.cdOffset i)) ∧
    ((∀ i < e.numEntries, Taken m (recordAt m.bytes e.cdOffset i)) → ∀ i < e.numEntries, Fits m.bytes (recordAt m.bytes e.cdOffset i))

/-- The parser stays in the map, and the entries do, exactly for these archives. -/
theorem contained_iff (m : Memory abi) : Contained m ↔ ∀ e, openEnd m.bytes = some e → Tame m e := by
  unfold Contained
  rw [parseZipArchive_eq]
  cases hend : openEnd m.bytes with
  | none =>
    refine iff_of_true ⟨fun h => (by cases h), fun es h => (by cases h)⟩ ?_
    intro e he
    cases he
  | some e =>
    have hp : e.cdOffset < m.bytes.length + 2 ^ 17 := (cdOffset_lt hend).trans_le (Nat.le_add_right _ _)
    have hout := @readRecords_outside abi m e.cdOffset e.numEntries hp []
    have hok := @readRecords_ok abi m e.cdOffset e.numEntries hp []
    have houtside : readRecords m e.numEntries (m.addr + e.cdOffset) [] ≠ .error .outside ↔
        ∀ i < e.numEntries, (∀ j < i, Taken m (recordAt m.bytes e.cdOffset j)) → ¬Loose m (recordAt m.bytes e.cdOffset i) := by
      rw [ne_eq, hout]
      push Not
      rfl
    simp only [Option.some.injEq, forall_eq', Tame]
    rw [houtside]
    refine and_congr_right fun _ => ?_
    split_ifs at hok with hall
    · obtain ⟨es, hes, hmem⟩ := hok
      constructor
      · intro h _ i hi
        exact (inside_entryAt (hall i hi)).mp (h es hes _ ((hmem _).mpr (.inr ⟨i, hi, rfl⟩)))
      · intro h es' hes' entry hentry
        rw [hes] at hes'
        obtain rfl := Except.ok.inj hes'
        rcases (hmem entry).mp hentry with hnil | ⟨i, hi, rfl⟩
        · exact absurd hnil List.not_mem_nil
        · exact (inside_entryAt (hall i hi)).mpr (h hall i hi)
    · exact iff_of_true (fun es hes => absurd hes (hok es)) fun h => absurd h hall

/-- With 64 bits nothing wraps around, for a map in the lower half of the addresses. -/
theorem tame_lp64 (m : Memory .lp64) (hlow : m.addr < 2 ^ 63) (e : EndRecord) : Tame m e := by
  have hword : Abi.word .lp64 = 2 ^ 64 := rfl
  constructor
  · intro i _ _ ⟨_, hstray⟩
    have hoff : (centralAt m.bytes (recordAt m.bytes e.cdOffset i)).localHdrOffset < 2 ^ 32 := get4LE_lt _ _
    have hwrap := hstray.2
    have hhdr : LOCHDR = 30 := rfl
    omega
  · intro hall i hi
    have hrange := (hall i hi).range
    have hstart : dataStart m.bytes (recordAt m.bytes e.cdOffset i) < 2 ^ 32 := Nat.mod_lt _ (by decide)
    have hcomp : (centralAt m.bytes (recordAt m.bytes e.cdOffset i)).compLen < 2 ^ 32 := get4LE_lt _ _
    rwa [Nat.mod_eq_of_lt (by omega)] at hrange

end Account

/-- An archive with one entry, whose compressed length is given as 2^32 - 1. -/
def negative : List UInt8 :=
  le32 LOCSIG ++ List.replicate 22 0 ++ le16 1 ++ le16 0 ++ [0x61] ++
    le32 CENSIG ++ List.replicate 16 0 ++ le32 0xffffffff ++ le32 0 ++ le16 1 ++ le16 0 ++ le16 0 ++ List.replicate 8 0 ++ le32 0 ++ [0x61] ++
    le32 ENDSIG ++ List.replicate 4 0 ++ le16 1 ++ le16 1 ++ le32 47 ++ le32 31 ++ le16 0

theorem negative_pos : 0 < 0x40000000 := by decide

def negativeMap : Memory .ilp32 := ⟨0x40000000, negative, negative_pos, by decide, by decide⟩

/-- The length of its entry is -1. -/
theorem negative_not_contained : ¬Contained negativeMap := by
  intro h
  have hparse : parseZipArchive negativeMap = .ok [⟨0x4000004d, [0x61], 31, -1, 0, 0, 0, 0⟩] := by decide
  exact absurd (h.2 _ hparse _ List.mem_cons_self).compLen (by decide)

end Twrp.Zip
