import Twrp.Base.Memory
import Twrp.Base.CString

/-! The masking of prelinked libraries (`Retouch.c`).

A library ends with the list of its relocations, each the offset of a word and what it was before it was
retouched, in a delta code of records of 2, 3 and 8 bytes. Masking puts one shift on all of these words,
in the buffer that the list is read from. -/
namespace Twrp.Patch.Retouch
open Base

inductive Fault where
  /-- a byte is touched that is not in the binary -/
  | outside
  | hang
deriving DecidableEq

inductive RetouchData where
  | ERROR
  | MATCHED
  | MISMATCHED
  | NOTAPPLICABLE
deriving DecidableEq

/-- An entry of the list, and what the decoder keeps of it: `offs_prev` and `cont_prev`. -/
structure Entry where
  offset : BitVec 32
  contents : BitVec 32
deriving DecidableEq

/-- A byte as an `int`. -/
def octet (b : UInt8) : BitVec 32 := b.toBitVec.setWidth 32

/-- `decode_bytes`; the number of bytes is the size of the record. -/
def decodeBytes (prev : Entry) : List UInt8 → Entry
  | [b₀, b₁] =>
    let tmp := ((octet b₀ &&& 0x1f) <<< 8) ||| octet b₁
    ⟨prev.offset + (((octet b₀ &&& 0x60) >>> 5) + 1) * 4, prev.contents + if tmp &&& 0x1000 ≠ 0 then 0xffffe000 ||| tmp else tmp⟩
  | [b₀, b₁, b₂] =>
    let tmp := ((octet b₀ &&& 0x0f) <<< 16) ||| (octet b₁ <<< 8) ||| octet b₂
    ⟨prev.offset + (((octet b₀ &&& 0x30) >>> 4) + 1) * 4, prev.contents + if tmp &&& 0x80000 ≠ 0 then 0xfff00000 ||| tmp else tmp⟩
  | [b₀, b₁, b₂, b₃, b₄, b₅, b₆, b₇] =>
    let offset := (octet b₀ <<< 24) ||| (octet b₁ <<< 16) ||| (octet b₂ <<< 8) ||| octet b₃
    ⟨if offset = 0x3fffffff then -1 else offset, (octet b₄ <<< 24) ||| (octet b₅ <<< 16) ||| (octet b₆ <<< 8) ||| octet b₇⟩
  | _ => prev

/-- The size of a record, by its first byte. -/
def inputSize (first : UInt8) : Nat := if first &&& 0x80 ≠ 0 then 2 else if first &&& 0x40 ≠ 0 then 3 else 8

section Code
variable {abi : Abi}

def load (m : Memory abi) (a n : Nat) : Except Fault (List UInt8) :=
  match m.read a n with
  | none => .error .outside
  | some bytes => .ok bytes

def store (m : Memory abi) (a : Nat) (bytes : List UInt8) : Except Fault (Memory abi) :=
  match m.write a bytes with
  | none => .error .outside
  | some m => .ok m

/-- `decode_in_memory`: the pointer behind the record, and the entry. -/
def decodeInMemory (m : Memory abi) (encodedBytes : Nat) (prev : Entry) : Except Fault (Nat × Entry) := do
  let first ← load m encodedBytes 1
  let inputSize := inputSize (first.headD 0)
  let rest ← load m (m.plus encodedBytes 1) (inputSize - 1)
  .ok (m.plus encodedBytes inputSize, decodeBytes prev (first ++ rest))

/-- What has been inferred of the shift. -/
structure Inferred where
  offsetCandidate : BitVec 32
  offsetSet : Bool
  offsetMismatch : Bool

/-- Infer the shift of an entry, compare to previously inferred. -/
def Inferred.compare (s : Inferred) (offsetOfThisEntry : BitVec 32) : Inferred :=
  if !s.offsetSet then ⟨offsetOfThisEntry, true, s.offsetMismatch⟩
  else if s.offsetCandidate ≠ offsetOfThisEntry then ⟨s.offsetCandidate, true, true⟩
  else s

/-- A word of the binary. -/
def word (bytes : List UInt8) : BitVec 32 := BitVec.ofNat 32 (fromLe bytes)

/-- How the loop ends: at a bad offset, or with the pointer and what was inferred. -/
inductive LoopEnd (abi : Abi) where
  | bad (m : Memory abi)
  | done (bPtr : Nat) (s : Inferred) (m : Memory abi)

/-- The loop over the list, up to `r_info`. -/
def retouchLoop (pInfo rInfo : Nat) (bOffs : Int) (desired : Option (BitVec 32)) :
    (left : Nat) → Memory abi → (bPtr : Nat) → Entry → Inferred → Except Fault (LoopEnd abi)
  | 0, _, _, _, _ => .error .hang
  | left + 1, m, bPtr, prev, s =>
    if bPtr < rInfo then do
      let (bPtr, e) ← decodeInMemory m bPtr prev
      if e.offset.toInt < -1 ∨ bOffs ≤ e.offset.toInt then .ok (.bad m)
      else do
        -- the word of "-1" is the one in `prelink_info_t`
        let retouchEntry := if e.offset.toInt = -1 then pInfo else m.plus m.addr e.offset.toNat
        let m ←
          match desired with
          | some target => store m retouchEntry (le32 (e.contents + target).toNat)
          | none => .ok m
        let value ← load m retouchEntry 4
        retouchLoop pInfo rInfo bOffs desired left m bPtr e (s.compare (word value - e.contents))
    else .ok (.done bPtr s m)

/-- What a call leaves: the result, the shift that is given back, and the binary. -/
structure Masked (abi : Abi) where
  result : RetouchData
  retouchOffset : BitVec 32
  binary : Memory abi

/-- The result for a binary that is not retouched. -/
def untouched (desired : Option (BitVec 32)) : RetouchData :=
  match desired with
  | none => .NOTAPPLICABLE
  | some _ => .MATCHED

/-- What comes after the loop. -/
def conclude (rInfo : Nat) (target : BitVec 32) : LoopEnd abi → Masked abi
  | .bad m => ⟨.ERROR, target, m⟩
  | .done bPtr s m =>
    if rInfo < bPtr then ⟨.ERROR, target, m⟩
    else if s.offsetMismatch then ⟨.MISMATCHED, target, m⟩
    else ⟨.MATCHED, s.offsetCandidate, m⟩

/-- "PRE " -/
def prelinkTag : List UInt8 := [0x50, 0x52, 0x45, 0x20]

/-- "RETOUCH " -/
def retouchTag : List UInt8 := [0x52, 0x45, 0x54, 0x4f, 0x55, 0x43, 0x48, 0x20]

/-- `retouch_mask_data`; without a desired offset it is a query. The size of the binary is an `int32_t`. -/
def retouchMaskData (m : Memory abi) (desired : Option (BitVec 32)) : Except Fault (Masked abi) := do
  let target := desired.getD 0
  let pOffs : Int := (m.bytes.length : Int) - 8
  let rOffs : Int := pOffs - 12
  if rOffs < 0 then .ok ⟨untouched desired, target, m⟩
  else do
    let pInfo := m.plus m.addr pOffs.toNat
    let rInfo := m.plus m.addr rOffs.toNat
    let pTag ← load m (m.plus pInfo 4) 4
    let rTag ← load m rInfo 8
    if pTag ≠ prelinkTag ∨ rTag ≠ retouchTag then .ok ⟨untouched desired, target, m⟩
    else do
      let blobSize ← load m (m.plus rInfo 8) 4
      let bOffs := int (rOffs.toNat + 4294967296 - fromLe blobSize)
      if bOffs < 0 then .ok ⟨.ERROR, target, m⟩
      else do
        let r ← retouchLoop pInfo rInfo bOffs desired (m.bytes.length + 1) m (m.plus m.addr bOffs.toNat) ⟨0, 0⟩ ⟨target, false, false⟩
        .ok (conclude rInfo target r)

end Code

/-! ### What is masked -/

/-- The entries of a list that ends with its last record. -/
def decodeBlob : (left : Nat) → Entry → List UInt8 → Option (List Entry)
  | _, _, [] => some []
  | 0, _, _ :: _ => none
  | left + 1, prev, first :: rest =>
    if rest.length + 1 < inputSize first then none
    else
      let e := decodeBytes prev ((first :: rest).take (inputSize first))
      (decodeBlob left e ((first :: rest).drop (inputSize first))).map (e :: ·)

/-- Where the word of an entry is, in a binary of so many bytes. -/
def wordAt (length : Nat) (e : Entry) : Nat := if e.offset.toInt = -1 then length - 8 else e.offset.toNat

def blobSize (bytes : List UInt8) : Nat := fromLe ((bytes.drop (bytes.length - 12)).take 4)

def blobStart (bytes : List UInt8) : Nat := bytes.length - 20 - blobSize bytes

/-- A binary that is retouched. -/
structure Tagged (bytes : List UInt8) : Prop where
  room : 20 ≤ bytes.length
  prelink : (bytes.drop (bytes.length - 4)).take 4 = prelinkTag
  retouch : (bytes.drop (bytes.length - 20)).take 8 = retouchTag

/-- A retouched binary whose blob decodes to these entries, whose words overlap neither each other nor the
blob. -/
structure Tidy (bytes : List UInt8) (es : List Entry) : Prop extends Tagged bytes where
  fits : blobSize bytes ≤ bytes.length - 20
  decodes : decodeBlob (blobSize bytes) ⟨0, 0⟩ ((bytes.drop (blobStart bytes)).take (blobSize bytes)) = some es
  range : ∀ e ∈ es, -1 ≤ e.offset.toInt ∧ e.offset.toInt < blobStart bytes
  apart : es.Pairwise fun e e' => wordAt bytes.length e + 4 ≤ wordAt bytes.length e' ∨ wordAt bytes.length e' + 4 ≤ wordAt bytes.length e
  clear : ∀ e ∈ es, wordAt bytes.length e + 4 ≤ blobStart bytes ∨ bytes.length - 20 ≤ wordAt bytes.length e

/-! ### One entry -/

theorem ok_bind {α β : Type} (a : α) (f : α → Except Fault β) : (Except.ok a >>= f) = f a := rfl

theorem fromLe_le32 (n : Nat) : fromLe (le32 n) = n % 4294967296 := by
  simp only [le32, fromLe, UInt8.toNat_ofNat']
  omega

theorem word_le32 (x : BitVec 32) : word (le32 x.toNat) = x := by
  have hlt := x.isLt
  rw [word, fromLe_le32, Nat.mod_eq_of_lt hlt, BitVec.ofNat_toNat, BitVec.setWidth_eq]

theorem inputSize_range (first : UInt8) : 2 ≤ inputSize first ∧ inputSize first ≤ 8 := by
  unfold inputSize
  split_ifs <;> omega

theorem offset_nonneg {x : BitVec 32} (h : -1 ≤ x.toInt) (hne : x.toInt ≠ -1) : x.toInt = x.toNat := by
  have hcond := BitVec.toInt_eq_toNat_cond x
  split_ifs at hcond
  · exact hcond
  · have := x.isLt
    omega

/-- The size of the record at `p`. -/
def recordSize (bytes : List UInt8) (p : Nat) : Nat := inputSize ((bytes.drop p).headD 0)

/-- The entry of the record at `p`. -/
def entryAt (prev : Entry) (bytes : List UInt8) (p : Nat) : Entry := decodeBytes prev ((bytes.drop p).take (recordSize bytes p))

/-- The binary when the word of an entry has been masked. -/
def maskWord (desired : Option (BitVec 32)) (bytes : List UInt8) (e : Entry) : List UInt8 :=
  match desired with
  | some target => overwrite bytes (wordAt bytes.length e) (le32 (e.contents + target).toNat)
  | none => bytes

/-- The shift that is then inferred of it. -/
def shiftOf (desired : Option (BitVec 32)) (bytes : List UInt8) (e : Entry) : BitVec 32 :=
  match desired with
  | some target => target
  | none => word ((bytes.drop (wordAt bytes.length e)).take 4) - e.contents

theorem wordAt_room {length : Nat} {e : Entry} {b : Nat} (hroom : 20 ≤ length) (hb : b ≤ length - 20)
    (h : -1 ≤ e.offset.toInt ∧ e.offset.toInt < b) : wordAt length e + 4 ≤ length := by
  unfold wordAt
  split_ifs with hminus
  · omega
  · have := offset_nonneg h.1 hminus
    omega

section Steps
variable {abi : Abi} {m : Memory abi} {p b : Nat} {desired : Option (BitVec 32)}

theorem load_inside {n : Nat} (h : p + n ≤ m.bytes.length) : load m (m.addr + p) n = .ok ((m.bytes.drop p).take n) := by
  rw [load, Memory.read_inside h]

theorem plus_base {n : Nat} (h : n ≤ m.bytes.length) : m.plus m.addr n = m.addr + n := by
  have hnear : m.plus (m.addr + 0) n = m.addr + (0 + n) := Memory.plus_near (by omega)
  rwa [Nat.add_zero, Nat.zero_add] at hnear

theorem decodeInMemory_eq (prev : Entry) (h : p + 8 ≤ m.bytes.length) :
    decodeInMemory m (m.addr + p) prev = .ok (m.addr + (p + recordSize m.bytes p), entryAt prev m.bytes p) := by
  obtain ⟨hlow, hhigh⟩ := inputSize_range ((m.bytes.drop p).headD 0)
  have hhead : ((m.bytes.drop p).take 1).headD 0 = (m.bytes.drop p).headD 0 := by
    cases m.bytes.drop p <;> rfl
  have hjoin : (m.bytes.drop p).take 1 ++ (m.bytes.drop (p + 1)).take (inputSize ((m.bytes.drop p).headD 0) - 1) =
      (m.bytes.drop p).take (inputSize ((m.bytes.drop p).headD 0)) := by
    rw [← List.drop_drop, ← List.take_add]
    congr 1
    omega
  unfold decodeInMemory
  rw [load_inside (by omega), ok_bind]
  dsimp only
  rw [hhead, Memory.plus_near (by omega), load_inside (by omega), ok_bind, hjoin, Memory.plus_near (by omega)]
  rfl

/-- Where the code has the word of an entry. -/
theorem entryPtr_eq {e : Entry} (hroom : 20 ≤ m.bytes.length) (hb : b ≤ m.bytes.length - 20) (h : -1 ≤ e.offset.toInt ∧ e.offset.toInt < b) :
    (if e.offset.toInt = -1 then m.addr + (m.bytes.length - 8) else m.plus m.addr e.offset.toNat) = m.addr + wordAt m.bytes.length e := by
  unfold wordAt
  split_ifs with hminus
  · rfl
  · have := offset_nonneg h.1 hminus
    exact plus_base (by omega)

/-- An entry whose offset is bad ends the loop. -/
theorem retouchLoop_bad (left : Nat) (prev : Entry) (s : Inferred) (hp : p + 20 < m.bytes.length) 
    (h : ¬(-1 ≤ (entryAt prev m.bytes p).offset.toInt ∧ (entryAt prev m.bytes p).offset.toInt < b)) :
    retouchLoop (m.addr + (m.bytes.length - 8)) (m.addr + (m.bytes.length - 20)) b desired (left + 1) m (m.addr + p) prev s = .ok (.bad m) := by
  rw [retouchLoop, if_pos (by omega), decodeInMemory_eq prev (by omega), ok_bind]
  exact if_pos (by omega)

variable (desired) in
/-- Another is masked, and the loop goes on behind it. -/
theorem retouchLoop_go (left : Nat) (prev : Entry) (s : Inferred) (hp : p + 20 < m.bytes.length) (hb : b ≤ m.bytes.length - 20)
    (h : -1 ≤ (entryAt prev m.bytes p).offset.toInt ∧ (entryAt prev m.bytes p).offset.toInt < b) :
    ∃ m' : Memory abi, m'.addr = m.addr ∧ m'.bytes = maskWord desired m.bytes (entryAt prev m.bytes p) ∧
      retouchLoop (m.addr + (m.bytes.length - 8)) (m.addr + (m.bytes.length - 20)) b desired (left + 1) m (m.addr + p) prev s =
        retouchLoop (m.addr + (m.bytes.length - 8)) (m.addr + (m.bytes.length - 20)) b desired left m' (m.addr + (p + recordSize m.bytes p))
          (entryAt prev m.bytes p) (s.compare (shiftOf desired m.bytes (entryAt prev m.bytes p))) := by
  generalize he : entryAt prev m.bytes p = e at h
  have hword := wordAt_room (by omega) hb h
  have hptr := entryPtr_eq (by omega) hb h
  rw [retouchLoop, if_pos (by omega), decodeInMemory_eq prev (by omega), ok_bind, he]
  dsimp only
  rw [if_neg (by omega), hptr]
  cases desired with
  | none =>
    refine ⟨m, rfl, rfl, ?_⟩
    dsimp only
    rw [ok_bind, load_inside hword, ok_bind]
    rfl
  | some target =>
    obtain ⟨m', hwrite, haddr, hbytes⟩ := @Memory.write_inside abi m (wordAt m.bytes.length e) (le32 (e.contents + target).toNat) hword
    have hlength : m'.bytes.length = m.bytes.length := by
      rw [hbytes, length_overwrite hword]
    refine ⟨m', haddr, hbytes, ?_⟩
    dsimp only
    have hvalue : (m'.bytes.drop (wordAt m.bytes.length e)).take 4 = le32 (e.contents + target).toNat := by
      rw [hbytes]
      exact @slice_overwritten _ (le32 (e.contents + target).toNat) _ hword
    rw [store, hwrite]
    dsimp only
    rw [ok_bind, ← haddr, load_inside (by omega), ok_bind, hvalue, word_le32, BitVec.add_comm, BitVec.add_sub_cancel]
    rfl

theorem length_maskWord {e : Entry} {bytes : List UInt8} (h : wordAt bytes.length e + 4 ≤ bytes.length) :
    (maskWord desired bytes e).length = bytes.length := by
  cases desired with
  | none => rfl
  | some target => exact length_overwrite h

variable (desired) in
/-- The loop comes to its end, whatever the list is. -/
theorem retouchLoop_total {A L : Nat} (left : Nat) (prev : Entry) (s : Inferred) (hA : m.addr = A) (hL : m.bytes.length = L) (hroom : 20 ≤ L)
    (hb : b ≤ L - 20) (hleft : L - 20 - p < left) :
    ∃ r, retouchLoop (A + (L - 8)) (A + (L - 20)) b desired left m (A + p) prev s = .ok r := by
  induction left generalizing m p prev s with
  | zero => omega
  | succ left ih =>
    subst hA hL
    by_cases hp : p + 20 < m.bytes.length
    · by_cases hrange : -1 ≤ (entryAt prev m.bytes p).offset.toInt ∧ (entryAt prev m.bytes p).offset.toInt < b
      · obtain ⟨m', haddr, hbytes, hgo⟩ := retouchLoop_go desired left prev s hp hb hrange
        have hlength : m'.bytes.length = m.bytes.length := by
          rw [hbytes, length_maskWord (wordAt_room (by omega) hb hrange)]
        have hsize : 2 ≤ recordSize m.bytes p := (inputSize_range _).1
        rw [hgo]
        exact ih _ _ haddr hlength (by omega)
      · exact ⟨_, retouchLoop_bad left prev s hp hrange⟩
    · rw [retouchLoop, if_neg (by omega)]
      exact ⟨_, rfl⟩

theorem blobSize_lt (bytes : List UInt8) (h : 20 ≤ bytes.length) : blobSize bytes < 4294967296 := by
  have hlength : ((bytes.drop (bytes.length - 12)).take 4).length = 4 := by
    rw [List.length_take, List.length_drop]
    omega
  unfold blobSize
  match hfour : (bytes.drop (bytes.length - 12)).take 4, hlength with
  | [a, b, c, d], _ =>
    have := a.toNat_lt
    have := b.toNat_lt
    have := c.toNat_lt
    have := d.toNat_lt
    simp only [fromLe]
    omega

theorem retouchMaskData_untagged (h : ¬Tagged m.bytes) : retouchMaskData m desired = .ok ⟨untouched desired, desired.getD 0, m⟩ := by
  unfold retouchMaskData
  dsimp only
  by_cases hroom : 20 ≤ m.bytes.length
  · have hp : ((m.bytes.length : Int) - 8).toNat = m.bytes.length - 8 := by omega
    have hr : ((m.bytes.length : Int) - 8 - 12).toNat = m.bytes.length - 20 := by omega
    have hptag : m.bytes.length - 8 + 4 = m.bytes.length - 4 := by omega
    rw [if_neg (by omega), hp, hr, plus_base (by omega), plus_base (by omega), Memory.plus_near (by omega), load_inside (by omega),
      load_inside (by omega), hptag, ok_bind, ok_bind]
    apply if_pos
    by_contra hboth
    rw [not_or, not_not, not_not] at hboth
    exact h ⟨hroom, hboth.1, hboth.2⟩
  · exact if_pos (by omega)

theorem retouchMaskData_tagged (h : Tagged m.bytes) :
    retouchMaskData m desired =
      if int (m.bytes.length - 20 + 4294967296 - blobSize m.bytes) < 0 then .ok ⟨.ERROR, desired.getD 0, m⟩
      else
        retouchLoop (m.addr + (m.bytes.length - 8)) (m.addr + (m.bytes.length - 20)) (int (m.bytes.length - 20 + 4294967296 - blobSize m.bytes)) desired
          (m.bytes.length + 1) m (m.plus m.addr (int (m.bytes.length - 20 + 4294967296 - blobSize m.bytes)).toNat) ⟨0, 0⟩ ⟨desired.getD 0, false, false⟩ >>=
        fun r => .ok (conclude (m.addr + (m.bytes.length - 20)) (desired.getD 0) r) := by
  have hroom := h.room
  have hp : ((m.bytes.length : Int) - 8).toNat = m.bytes.length - 8 := by omega
  have hr : ((m.bytes.length : Int) - 8 - 12).toNat = m.bytes.length - 20 := by omega
  have hptag : m.bytes.length - 8 + 4 = m.bytes.length - 4 := by omega
  have hblob : m.bytes.length - 20 + 8 = m.bytes.length - 12 := by omega
  unfold retouchMaskData
  dsimp only
  rw [if_neg (by omega), hp, hr, plus_base (by omega), plus_base (by omega), Memory.plus_near (by omega), load_inside (by omega),
    load_inside (by omega), hptag, ok_bind, ok_bind, if_neg, Memory.plus_near (by omega), load_inside (by omega), hblob, ok_bind]
  · rfl
  · rw [not_or, not_not, not_not]
    exact ⟨h.prelink, h.retouch⟩

/-- The pointer to the blob goes around the end of the address space: its size is so large that the offset
of its start is positive again. -/
structure Strays (m : Memory abi) : Prop extends Tagged m.bytes where
  large : m.bytes.length - 20 < blobSize m.bytes
  wrapped : m.bytes.length - 20 + 4294967296 - blobSize m.bytes < 2147483648
  around : abi.word ≤ m.addr + (m.bytes.length - 20 + 4294967296 - blobSize m.bytes)

theorem start_fits (hsize : m.bytes.length < 2147483648) (hfits : blobSize m.bytes ≤ m.bytes.length - 20) :
    int (m.bytes.length - 20 + 4294967296 - blobSize m.bytes) = blobStart m.bytes := by
  have hsum : m.bytes.length - 20 + 4294967296 - blobSize m.bytes = blobStart m.bytes + 4294967296 := by
    unfold blobStart
    omega
  have hsmall : blobStart m.bytes < 2147483648 := by
    unfold blobStart
    omega
  rw [hsum, ← int_small hsmall]
  unfold int
  rw [Nat.add_mod_right]

/-- No call touches a byte outside, unless the pointer to the blob strays. -/
theorem retouchMaskData_total (hsize : m.bytes.length < 2147483648) (h : ¬Strays m) : ∃ r, retouchMaskData m desired = .ok r := by
  by_cases htagged : Tagged m.bytes
  · have hroom := htagged.room
    have hblob := blobSize_lt _ hroom
    rw [retouchMaskData_tagged htagged]
    rcases Nat.lt_or_ge (m.bytes.length - 20) (blobSize m.bytes) with hlarge | hfits
    · rcases Nat.lt_or_ge (m.bytes.length - 20 + 4294967296 - blobSize m.bytes) 2147483648 with hwrapped | hneg
      · have hnear : m.addr + (m.bytes.length - 20 + 4294967296 - blobSize m.bytes) < abi.word := by
          by_contra haround
          exact h ⟨htagged, hlarge, hwrapped, by omega⟩
        rw [int_small hwrapped, if_neg (by omega), Int.toNat_natCast, Memory.plus, Nat.mod_eq_of_lt hnear, retouchLoop, if_neg (by omega)]
        exact ⟨_, rfl⟩
      · rw [if_pos (int_large hneg (by omega))]
        exact ⟨_, rfl⟩
    · have hstart : blobStart m.bytes ≤ m.bytes.length - 20 := Nat.sub_le _ _
      obtain ⟨r, hr⟩ := retouchLoop_total desired (m.bytes.length + 1) ⟨0, 0⟩ ⟨desired.getD 0, false, false⟩
        rfl rfl hroom hstart (by omega)
      rw [start_fits hsize hfits, if_neg (by omega), Int.toNat_natCast, plus_base (by omega), hr]
      exact ⟨_, rfl⟩
  · exact ⟨_, retouchMaskData_untagged htagged⟩

/-- One that strays reads in front of the binary. -/
theorem strays_outside (h : Strays m) : retouchMaskData m desired = .error .outside := by
  have hroom := h.room
  have hlarge := h.large
  have hwrapped := h.wrapped
  have haround := h.around
  have hword := m.room
  have hblob := blobSize_lt _ hroom
  have hless : (m.addr + (m.bytes.length - 20 + 4294967296 - blobSize m.bytes)) % abi.word < m.addr := by
    have hbig : 4294967296 ≤ abi.word := by
      cases abi <;> decide
    rw [Nat.mod_eq_sub_mod haround, Nat.mod_eq_of_lt (by omega)]
    omega
  rw [retouchMaskData_tagged h.toTagged, int_small hwrapped, if_neg (by omega), Int.toNat_natCast, Memory.plus, retouchLoop, if_pos (by omega)]
  unfold decodeInMemory load
  rw [Memory.read_outside (.inl hless)]
  rfl

theorem shiftOf_maskWord (desired : Option (BitVec 32)) (bytes : List UInt8) (e e' : Entry) :
    shiftOf desired (maskWord desired bytes e) e' = shiftOf desired bytes e' := by
  cases desired <;> rfl

/-- A part of the binary that the word of an entry is not in. -/
theorem slice_maskWord {e : Entry} {bytes : List UInt8} {q n : Nat} (hword : wordAt bytes.length e + 4 ≤ bytes.length)
    (hq : q + n ≤ wordAt bytes.length e ∨ wordAt bytes.length e + 4 ≤ q) :
    ((maskWord desired bytes e).drop q).take n = (bytes.drop q).take n := by
  cases desired with
  | none => rfl
  | some target => exact @slice_overwrite _ (le32 (e.contents + target).toNat) _ _ _ hword hq

theorem headD_take {l : List UInt8} {n : Nat} (h : 0 < n) : (l.take n).headD 0 = l.headD 0 := by
  obtain ⟨k, rfl⟩ := Nat.exists_eq_succ_of_ne_zero (Nat.ne_of_gt h)
  cases l <;> rfl

/-- A list that decodes is empty, or a record and a list. -/
theorem decodeBlob_some {n : Nat} {prev : Entry} {region : List UInt8} {es : List Entry} (h : decodeBlob n prev region = some es) :
    (region = [] ∧ es = []) ∨
      ∃ n' es', inputSize (region.headD 0) ≤ region.length ∧ es = decodeBytes prev (region.take (inputSize (region.headD 0))) :: es' ∧
        decodeBlob n' (decodeBytes prev (region.take (inputSize (region.headD 0)))) (region.drop (inputSize (region.headD 0))) = some es' := by
  cases region with
  | nil =>
    unfold decodeBlob at h
    exact .inl ⟨rfl, (Option.some.inj h).symm⟩
  | cons first rest =>
    cases n with
    | zero => cases h
    | succ n =>
      unfold decodeBlob at h
      split_ifs at h with hshort
      obtain ⟨es', hrest, rfl⟩ := Option.map_eq_some_iff.mp h
      exact .inr ⟨n, es', Nat.le_of_not_lt hshort, rfl, hrest⟩

variable (desired) in
/-- The loop goes over the list, and masks one word after the other. -/
theorem retouchLoop_run {A L n : Nat} (left : Nat) (prev : Entry) (s : Inferred) {es : List Entry} (hA : m.addr = A) (hL : m.bytes.length = L)
    (hb : b ≤ L - 20) (hlow : b ≤ p) (hp : p + 20 ≤ L) (hleft : L - 20 - p < left)
    (hdecode : decodeBlob n prev ((m.bytes.drop p).take (L - 20 - p)) = some es)
    (hrange : ∀ e ∈ es, -1 ≤ e.offset.toInt ∧ e.offset.toInt < b)
    (hclear : ∀ e ∈ es, wordAt L e + 4 ≤ b ∨ L - 20 ≤ wordAt L e) :
    ∃ m' : Memory abi, m'.addr = A ∧ m'.bytes = es.foldl (maskWord desired) m.bytes ∧
      retouchLoop (A + (L - 8)) (A + (L - 20)) b desired left m (A + p) prev s =
        .ok (.done (A + (L - 20)) ((es.map (shiftOf desired m.bytes)).foldl Inferred.compare s) m') := by
  induction left generalizing m p n prev s es with
  | zero => omega
  | succ left ih =>
    subst hA hL
    have hlength : ((m.bytes.drop p).take (m.bytes.length - 20 - p)).length = m.bytes.length - 20 - p := by
      rw [List.length_take, List.length_drop]
      omega
    rcases decodeBlob_some hdecode with ⟨hnil, rfl⟩ | ⟨n', es', hfits, hes, hrest⟩
    · rw [hnil] at hlength
      have hdone : p = m.bytes.length - 20 := by
        have : m.bytes.length - 20 - p = 0 := hlength.symm
        omega
      subst hdone
      rw [retouchLoop, if_neg (by omega)]
      exact ⟨m, rfl, rfl, rfl⟩
    · have hsize := inputSize_range (((m.bytes.drop p).take (m.bytes.length - 20 - p)).headD 0)
      rw [hlength] at hfits
      have hhead : ((m.bytes.drop p).take (m.bytes.length - 20 - p)).headD 0 = (m.bytes.drop p).headD 0 := headD_take (by omega)
      have hrecord : inputSize (((m.bytes.drop p).take (m.bytes.length - 20 - p)).headD 0) = recordSize m.bytes p := by
        rw [hhead, recordSize]
      rw [hrecord] at hsize hfits hes hrest
      have hentry : decodeBytes prev (((m.bytes.drop p).take (m.bytes.length - 20 - p)).take (recordSize m.bytes p)) = entryAt prev m.bytes p := by
        rw [List.take_take, Nat.min_eq_left hfits, entryAt]
      rw [hentry] at hes hrest
      subst hes
      obtain ⟨hrange₀, hrange'⟩ := List.forall_mem_cons.mp hrange
      obtain ⟨hclear₀, hclear'⟩ := List.forall_mem_cons.mp hclear
      have hword := wordAt_room (by omega) hb hrange₀
      obtain ⟨m₁, haddr, hbytes, hgo⟩ := retouchLoop_go desired left prev s (by omega) hb hrange₀
      have hlength₁ : m₁.bytes.length = m.bytes.length := by
        rw [hbytes, length_maskWord hword]
      -- the rest of the list is still what it was
      have hrest₁ : (m₁.bytes.drop (p + recordSize m.bytes p)).take (m.bytes.length - 20 - (p + recordSize m.bytes p)) =
          ((m.bytes.drop p).take (m.bytes.length - 20 - p)).drop (recordSize m.bytes p) := by
        rw [hbytes, slice_maskWord hword (by omega), List.drop_take, List.drop_drop]
        congr 1
        omega
      rw [← hrest₁] at hrest
      obtain ⟨m', haddr', hbytes', hrun⟩ := ih (entryAt prev m.bytes p) (s.compare (shiftOf desired m.bytes (entryAt prev m.bytes p))) haddr hlength₁
        (hlow.trans (Nat.le_add_right _ _)) (by omega) (by omega) hrest hrange' hclear'
      refine ⟨m', haddr', ?_, ?_⟩
      · rw [hbytes', hbytes]
        rfl
      · rw [hgo, hrun, hbytes]
        have hshifts : es'.map (shiftOf desired (maskWord desired m.bytes (entryAt prev m.bytes p))) = es'.map (shiftOf desired m.bytes) :=
          List.map_congr_left fun e _ => shiftOf_maskWord desired m.bytes _ e
        rw [hshifts]
        rfl

end Steps

/-! ### The whole list -/

section Whole
variable {desired : Option (BitVec 32)} {bytes : List UInt8} {es : List Entry}

/-- A binary whose entries all have a word in it. -/
def Inside (length : Nat) (es : List Entry) : Prop := ∀ e ∈ es, wordAt length e + 4 ≤ length

theorem length_mask (h : Inside bytes.length es) : (es.foldl (maskWord desired) bytes).length = bytes.length := by
  induction es generalizing bytes with
  | nil => rfl
  | cons e es ih =>
    obtain ⟨he, hes⟩ := List.forall_mem_cons.mp h
    have hlength : (maskWord desired bytes e).length = bytes.length := length_maskWord he
    rw [List.foldl_cons, ih (hlength.symm ▸ hes), hlength]

variable (desired bytes) in
/-- A part of the binary that no word is in. -/
theorem slice_mask (q n : Nat) (h : Inside bytes.length es) (hq : ∀ e ∈ es, q + n ≤ wordAt bytes.length e ∨ wordAt bytes.length e + 4 ≤ q) :
    ((es.foldl (maskWord desired) bytes).drop q).take n = (bytes.drop q).take n := by
  induction es generalizing bytes with
  | nil => rfl
  | cons e es ih =>
    obtain ⟨he, hes⟩ := List.forall_mem_cons.mp h
    obtain ⟨hq₀, hq'⟩ := List.forall_mem_cons.mp hq
    have hlength : (maskWord desired bytes e).length = bytes.length := length_maskWord he
    rw [List.foldl_cons, ih _ (hlength.symm ▸ hes) (hlength.symm ▸ hq'), slice_maskWord he hq₀]

/-- Words that are apart all have the shift that was put on them. -/
theorem shiftOf_mask {d : BitVec 32} (h : Inside bytes.length es)
    (hapart : es.Pairwise fun e e' => wordAt bytes.length e + 4 ≤ wordAt bytes.length e' ∨ wordAt bytes.length e' + 4 ≤ wordAt bytes.length e) :
    ∀ e ∈ es, shiftOf none (es.foldl (maskWord (some d)) bytes) e = d := by
  intro e he
  show word (((es.foldl (maskWord (some d)) bytes).drop (wordAt (es.foldl (maskWord (some d)) bytes).length e)).take 4) - e.contents = d
  rw [length_mask h]
  induction es generalizing bytes with
  | nil => cases he
  | cons e₀ es ih =>
    obtain ⟨he₀, hes⟩ := List.forall_mem_cons.mp h
    obtain ⟨hapart₀, hapart'⟩ := List.pairwise_cons.mp hapart
    have hlength : (maskWord (some d) bytes e₀).length = bytes.length := length_maskWord he₀
    rw [List.foldl_cons]
    rcases List.mem_cons.mp he with rfl | hmem
    · have hslice := slice_mask (some d) (maskWord (some d) bytes e) (wordAt bytes.length e) 4 (hlength.symm ▸ hes) (by
        rw [hlength]
        exact hapart₀)
      have hover : ((maskWord (some d) bytes e).drop (wordAt bytes.length e)).take 4 = le32 (e.contents + d).toNat :=
        @slice_overwritten _ (le32 (e.contents + d).toNat) _ he₀
      rw [hslice, hover, word_le32, BitVec.add_comm, BitVec.add_sub_cancel]
    · have hrest := @ih (maskWord (some d) bytes e₀) (hlength.symm ▸ hes) (hlength.symm ▸ hapart') hmem
      rwa [hlength] at hrest

/-- Two binaries that differ in the words only are the same once these are masked. -/
theorem mask_congr {d : BitVec 32} {bytes' : List UInt8} (h : Inside bytes.length es) (hlength : bytes'.length = bytes.length)
    (hsame : ∀ j, (∀ e ∈ es, j < wordAt bytes.length e ∨ wordAt bytes.length e + 4 ≤ j) → bytes'[j]? = bytes[j]?) :
    es.foldl (maskWord (some d)) bytes' = es.foldl (maskWord (some d)) bytes := by
  induction es generalizing bytes bytes' with
  | nil =>
    apply List.ext_getElem?
    intro j
    exact hsame j fun e he => by cases he
  | cons e es ih =>
    obtain ⟨he, hes⟩ := List.forall_mem_cons.mp h
    have hmask : (maskWord (some d) bytes e).length = bytes.length := length_maskWord he
    have hmask' : (maskWord (some d) bytes' e).length = bytes.length := (length_maskWord (hlength.symm ▸ he)).trans hlength
    rw [List.foldl_cons, List.foldl_cons]
    refine ih (hmask.symm ▸ hes) (hmask'.trans hmask.symm) fun j hj => ?_
    rw [hmask] at hj
    show (overwrite bytes' (wordAt bytes'.length e) (le32 (e.contents + d).toNat))[j]? = (overwrite bytes (wordAt bytes.length e) (le32 (e.contents + d).toNat))[j]?
    rw [hlength]
    have he' : wordAt bytes.length e + 4 ≤ bytes'.length := by omega
    by_cases hin : j < wordAt bytes.length e ∨ wordAt bytes.length e + 4 ≤ j
    · rw [@getElem?_overwrite_outside bytes' (le32 (e.contents + d).toNat) _ _ he' hin, @getElem?_overwrite_outside bytes (le32 (e.contents + d).toNat) _ _ he hin]
      exact hsame j (List.forall_mem_cons.mpr ⟨hin, hj⟩)
    · rw [not_or, Nat.not_lt, Nat.not_le] at hin
      rw [@getElem?_overwrite_inside bytes' (le32 (e.contents + d).toNat) _ _ he' hin.1 hin.2,
        @getElem?_overwrite_inside bytes (le32 (e.contents + d).toNat) _ _ he hin.1 hin.2]

theorem mask_outside {j : Nat} (h : Inside bytes.length es) (hj : ∀ e ∈ es, j < wordAt bytes.length e ∨ wordAt bytes.length e + 4 ≤ j) :
    (es.foldl (maskWord desired) bytes)[j]? = bytes[j]? := by
  have hslice := slice_mask desired bytes j 1 h hj
  have hhead := congrArg (fun l : List UInt8 => l[0]?) hslice
  simpa only [List.getElem?_take_of_lt Nat.one_pos, List.getElem?_drop, Nat.add_zero] using hhead

theorem Tidy.place (h : Tidy bytes es) : ∀ e ∈ es, wordAt bytes.length e + 4 ≤ blobStart bytes ∨ wordAt bytes.length e = bytes.length - 8 := by
  intro e he
  rcases h.clear e he with hlow | hhigh
  · exact .inl hlow
  · refine .inr ?_
    have hstart : blobStart bytes ≤ bytes.length - 20 := Nat.sub_le _ _
    obtain ⟨hmin, hmax⟩ := h.range e he
    unfold wordAt at hhigh ⊢
    split_ifs at hhigh ⊢ with hminus
    · rfl
    · have := offset_nonneg hmin hminus
      omega

theorem Tidy.inside (h : Tidy bytes es) : Inside bytes.length es := by
  intro e he
  have hroom := h.room
  have hstart : blobStart bytes ≤ bytes.length - 20 := Nat.sub_le _ _
  have := h.place e he
  omega

/-- A binary that is masked has the same list. -/
theorem Tidy.mask (h : Tidy bytes es) (desired : Option (BitVec 32)) : Tidy (es.foldl (maskWord desired) bytes) es := by
  have hroom := h.room
  have hfits := h.fits
  have hlength : (es.foldl (maskWord desired) bytes).length = bytes.length := length_mask h.inside
  have hkept : ∀ q n, (blobStart bytes ≤ q ∧ q + n ≤ bytes.length - 8 ∨ bytes.length - 4 ≤ q) →
      ((es.foldl (maskWord desired) bytes).drop q).take n = (bytes.drop q).take n := by
    intro q n hq
    have hstart : blobStart bytes ≤ bytes.length - 20 := Nat.sub_le _ _
    refine slice_mask _ _ _ _ h.inside fun e he => ?_
    have := h.place e he
    omega
  have hstart : blobStart bytes + blobSize bytes = bytes.length - 20 := Nat.sub_add_cancel hfits
  have hblob : blobSize (es.foldl (maskWord desired) bytes) = blobSize bytes := by
    rw [blobSize, hlength, hkept _ _ (by omega)]
    rfl
  have hfrom : blobStart (es.foldl (maskWord desired) bytes) = blobStart bytes := by
    rw [blobStart, hlength, hblob]
    rfl
  refine ⟨⟨?_, ?_, ?_⟩, ?_, ?_, ?_, ?_, ?_⟩
  · rwa [hlength]
  · rw [hlength, hkept _ _ (by omega)]
    exact h.prelink
  · rw [hlength, hkept _ _ (by omega)]
    exact h.retouch
  · rwa [hlength, hblob]
  · rw [hblob, hfrom, hkept _ _ (by omega)]
    exact h.decodes
  · rw [hfrom]
    exact h.range
  · rw [hlength]
    exact h.apart
  · rw [hlength, hfrom]
    exact h.clear

theorem compare_all {d target : BitVec 32} {shifts : List (BitVec 32)} (h : ∀ x ∈ shifts, x = d) :
    shifts.foldl Inferred.compare ⟨target, false, false⟩ = if shifts = [] then ⟨target, false, false⟩ else ⟨d, true, false⟩ := by
  have hset : ∀ l : List (BitVec 32), (∀ x ∈ l, x = d) → l.foldl Inferred.compare ⟨d, true, false⟩ = ⟨d, true, false⟩ := by
    intro l hl
    induction l with
    | nil => rfl
    | cons x l ih =>
      obtain ⟨rfl, hl⟩ := List.forall_mem_cons.mp hl
      rw [List.foldl_cons]
      have hsame : Inferred.compare ⟨x, true, false⟩ x = ⟨x, true, false⟩ := by
        simp [Inferred.compare]
      rw [hsame]
      exact ih hl
  cases shifts with
  | nil => rfl
  | cons x shifts =>
    obtain ⟨rfl, hrest⟩ := List.forall_mem_cons.mp h
    rw [if_neg (List.cons_ne_nil _ _)]
    exact hset shifts hrest

variable (desired) in
/-- Where all words have, or are given, one shift, the result is a match. -/
theorem Tidy.matched {abi : Abi} {m : Memory abi} (d : BitVec 32) (h : Tidy m.bytes es) (hsize : m.bytes.length < 2147483648)
    (hshift : ∀ e ∈ es, shiftOf desired m.bytes e = d) :
    ∃ m' : Memory abi, m'.addr = m.addr ∧ m'.bytes = es.foldl (maskWord desired) m.bytes ∧
      retouchMaskData m desired = .ok ⟨.MATCHED, if es = [] then desired.getD 0 else d, m'⟩ := by
  have hroom := h.room
  have hfits := h.fits
  have hstart : blobStart m.bytes + blobSize m.bytes = m.bytes.length - 20 := Nat.sub_add_cancel hfits
  have hlist : m.bytes.length - 20 - blobStart m.bytes = blobSize m.bytes := by omega
  have hdecodes := h.decodes
  rw [← hlist] at hdecodes
  obtain ⟨m', haddr, hbytes, hrun⟩ := retouchLoop_run desired (m.bytes.length + 1) ⟨0, 0⟩ ⟨desired.getD 0, false, false⟩ rfl rfl
    (by omega : blobStart m.bytes ≤ m.bytes.length - 20) le_rfl (by omega) (by omega) hdecodes h.range h.clear
  refine ⟨m', haddr, hbytes, ?_⟩
  have hall : ∀ x ∈ es.map (shiftOf desired m.bytes), x = d := by
    intro x hx
    obtain ⟨e, he, rfl⟩ := List.mem_map.mp hx
    exact hshift e he
  rw [retouchMaskData_tagged h.toTagged, start_fits hsize hfits, if_neg (by omega), Int.toNat_natCast, plus_base (by omega), hrun, ok_bind,
    compare_all hall, conclude, if_neg (Nat.lt_irrefl _)]
  by_cases hnil : es = []
  · subst hnil
    rfl
  · have hcons : es.map (shiftOf desired m.bytes) ≠ [] := fun h => hnil (List.map_eq_nil_iff.mp h)
    rw [if_neg hcons, if_neg hnil]
    rfl

end Whole

/-- What is said of masking: the shift that was put on is found again, a mask hides the one before it, and
no byte outside is touched. -/
structure AsClaimed {abi : Abi} (m : Memory abi) (d e : BitVec 32) : Prop where
  canonical : ∀ es r, Tidy m.bytes es → retouchMaskData m (some d) = .ok r → r.result = .MATCHED →
    (∃ q, retouchMaskData r.binary none = .ok q ∧ q.result = .MATCHED ∧ q.retouchOffset = d) ∧
    ∃ r₁ r₂, retouchMaskData r.binary (some e) = .ok r₁ ∧ retouchMaskData m (some e) = .ok r₂ ∧ r₁.binary.bytes = r₂.binary.bytes
  inside : ∀ desired, ∃ r, retouchMaskData m desired = .ok r

/-- The trailer of a binary whose list is empty. -/
def emptyList : List UInt8 := retouchTag ++ le32 0 ++ le32 0 ++ prelinkTag

def emptyMap : Memory .ilp32 := ⟨0x40000000, emptyList, by decide, by decide, by decide⟩

theorem tidy_emptyList : Tidy emptyList [] :=
  ⟨⟨by decide, by decide, by decide⟩, by decide, by decide, by simp, .nil, by simp⟩

/-- A shift of an empty list is not found again. -/
theorem empty_not_found : ¬AsClaimed emptyMap 1 0 := by
  intro h
  obtain ⟨m', haddr, hbytes, hrun⟩ := @Tidy.matched (some 1) _ .ilp32 emptyMap 1 tidy_emptyList (by decide) (by simp)
  obtain ⟨⟨q, hq, -, hoffset⟩, -⟩ := h.canonical [] _ tidy_emptyList hrun rfl
  have hsame : m'.bytes = emptyList := hbytes
  obtain ⟨m'', -, -, hquery⟩ := @Tidy.matched none [] .ilp32 m' 0 (hsame ▸ tidy_emptyList) (by rw [hsame]; decide) (by simp)
  obtain rfl := Except.ok.inj (hquery.symm.trans hq)
  have hzero : (0 : BitVec 32) = 1 := hoffset
  exact absurd hzero (by decide)

/-- The shift that was put on is found again, if there is an entry that has it, and else 0 is given; a mask
hides the one before it; and no byte outside is touched if the pointer to the list does not go around the
end of the address space. -/
theorem masking_canonical {abi : Abi} (m : Memory abi) (d e : BitVec 32) (hsize : m.bytes.length < 2147483648) :
    (∀ es r, Tidy m.bytes es → retouchMaskData m (some d) = .ok r → r.result = .MATCHED →
      (∃ q, retouchMaskData r.binary none = .ok q ∧ q.result = .MATCHED ∧ q.retouchOffset = if es = [] then 0 else d) ∧
      ∃ r₁ r₂, retouchMaskData r.binary (some e) = .ok r₁ ∧ retouchMaskData m (some e) = .ok r₂ ∧ r₁.binary.bytes = r₂.binary.bytes) ∧
    (¬Strays m → ∀ desired, ∃ r, retouchMaskData m desired = .ok r) := by
  refine ⟨fun es r h hrun _ => ?_, fun hstrays desired => retouchMaskData_total hsize hstrays⟩
  obtain ⟨m', -, hbytes, hmatched⟩ := h.matched (some d) d hsize fun _ _ => rfl
  obtain rfl := Except.ok.inj (hmatched.symm.trans hrun)
  have h' : Tidy m'.bytes es := hbytes ▸ h.mask (some d)
  have hlength : m'.bytes.length = m.bytes.length := by
    rw [hbytes, length_mask h.inside]
  constructor
  · obtain ⟨m'', -, -, hquery⟩ := h'.matched none d (by omega) (by rw [hbytes]; exact shiftOf_mask h.inside h.apart)
    exact ⟨_, hquery, rfl, rfl⟩
  · obtain ⟨m₁, -, hbytes₁, hmask₁⟩ := h'.matched (some e) e (by omega) fun _ _ => rfl
    obtain ⟨m₂, -, hbytes₂, hmask₂⟩ := h.matched (some e) e hsize fun _ _ => rfl
    refine ⟨_, _, hmask₁, hmask₂, ?_⟩
    show m₁.bytes = m₂.bytes
    rw [hbytes₁, hbytes₂]
    refine mask_congr h.inside hlength fun j hj => ?_
    rw [hbytes]
    exact mask_outside h.inside hj

/-- A binary with one word, which its list has the value of. -/
def single : List UInt8 := le32 0x1234 ++ [0, 0, 0, 0, 0, 0, 0x12, 0x34] ++ retouchTag ++ le32 8 ++ le32 0 ++ prelinkTag

def singleMap : Memory .ilp32 := ⟨0x40000000, single, by decide, by decide, by decide⟩

theorem tidy_single : Tidy single [⟨0, 0x1234⟩] :=
  ⟨⟨by decide, by decide, by decide⟩, by decide, by decide, by decide, List.pairwise_singleton _ _, by decide⟩

theorem single_found : ∃ r q, retouchMaskData singleMap (some 5) = .ok r ∧ retouchMaskData r.binary none = .ok q ∧ q.retouchOffset = 5 := by
  obtain ⟨m', -, -, hrun⟩ := @Tidy.matched (some 5) _ .ilp32 singleMap 5 tidy_single (by decide) (by simp [shiftOf])
  obtain ⟨⟨q, hq, -, hoffset⟩, -⟩ := (masking_canonical singleMap 5 7 (by decide)).1 _ _ tidy_single hrun rfl
  exact ⟨_, q, hrun, hq, hoffset⟩

end Twrp.Patch.Retouch
