import Twrp.Base.Abi
import Twrp.Base.CString

/-! The partition table of an MMC device (`mmc_read_mbr`).

The four entries of the master boot record are read first. If the last of them is an extended partition, the
logical ones follow: each has a boot record of its own, which says where the partition is, from there on, and
where the next record is, from the first of them on. How far the chain goes is bounded by the table alone.

The positions are computed in `unsigned int`, and the product with the size of a sector wraps around from
sector 2^23 on; a position that does not fit `long`, or lies past the end of the device, is refused by `fseek`,
whose answer is not looked at, and the next sector is read instead. What the chain says is computed apart from
that, without bounds (`chain`). The table is what it says exactly on the disks where no such position is on the
way (`readsChain_iff`). -/
namespace Twrp.Mmc
open Base

/-! ### The table -/

/-- `MAX_PARTITIONS` -/
def maxPartitions : Nat := 64

structure Partition where
  deviceIndex : CString
  filesystem : Option CString
  name : Option CString
  dstatus : Nat
  dtype : Nat
  dfirstsec : Nat
  dsize : Nat

/-- The entries stored so far, the counters of the two kinds of names, and the offsets that `fseek` was given. -/
structure Table where
  partitions : List Partition
  ext3Count : Nat
  vfatCount : Nat
  seeks : List Int

def Table.empty : Table := ⟨[], 0, 0, []⟩

def ext3Partitions : List CString := ["system", "userdata", "cache"]

def vfatPartitions : List CString := ["modem"]

/-- `mmc_partition_name`: the name and the file system of a type, by how many of the type there were. -/
def partitionName (t : Table) (type : Nat) : Option CString × Option CString :=
  if type = 0x48 then (some (CString.ofString "boot"), none)
  else if type = 0x71 then (some (CString.ofString "recovery"), none)
  else if type = 0x83 then (ext3Partitions[t.ext3Count]?, some (CString.ofString "ext3"))
  else if type = 0x0c then (vfatPartitions[t.vfatCount]?, some (CString.ofString "vfat"))
  else (none, none)

/-- The counters behind `mmc_partition_name`; each stays where its names are used up. -/
def count (names : List CString) (n : Nat) : Nat := if n < names.length then n + 1 else n

/-- `GET_LWORD_FROM_BYTE` -/
def lword (buffer : List UInt8) (offset : Nat) : Nat := fromLe ((buffer.drop offset).take 4)

def byteAt (buffer : List UInt8) (offset : Nat) : Nat := (buffer.getD offset 0).toNat

/-- One more entry, with its first sector computed. -/
def Table.push (t : Table) (device : CString) (buffer : List UInt8) (entry dfirstsec : Nat) : Table :=
  let dtype := byteAt buffer (entry + 4)
  let (name, filesystem) := partitionName t dtype
  { partitions := t.partitions ++
      [{deviceIndex := device ++ "p" ++ CString.ofInt (t.partitions.length + 1), filesystem, name,
        dstatus := byteAt buffer entry, dtype, dfirstsec, dsize := lword buffer (entry + 12)}]
    ext3Count := if dtype = 0x83 then count ext3Partitions t.ext3Count else t.ext3Count
    vfatCount := if dtype = 0x0c then count vfatPartitions t.vfatCount else t.vfatCount
    seeks := t.seeks }

/-! ### The device -/

/-- `fread(buffer, 512, 1, fd)` at a position. -/
def readSector (disk : List UInt8) (pos : Nat) : Option (List UInt8) :=
  if pos + 512 ≤ disk.length then some ((disk.drop pos).take 512) else none

def isSigned (buffer : List UInt8) : Bool := buffer.getD 0x1fe 0 = 0x55 ∧ buffer.getD 0x1ff 0 = 0xaa

/-- An `unsigned int` as the `long` that `fseek` takes. -/
def asLong (abi : Abi) (n : Nat) : Int :=
  match abi with
  | .ilp32 => int n
  | .lp64 => n

/-- Where the stream is after `fseek(fd, offset, SEEK_SET)`. A device refuses what lies before its start or past
its end, and the stream is where it was. -/
def seek (disk : List UInt8) (pos : Nat) (offset : Int) : Nat :=
  if 0 ≤ offset ∧ offset ≤ disk.length then offset.toNat else pos

def Table.sought (t : Table) (offset : Int) : Table := {t with seeks := t.seeks ++ [offset]}

/-! ### The function -/

section Read
variable (abi : Abi) (device : CString) (disk : List UInt8)

/-- `fseek` to a sector and `fread`: the sector, and the position behind it. -/
def fetch (pos sector : Nat) : Option (List UInt8) × Nat :=
  let pos := seek disk pos (asLong abi (sector * 512 % 2 ^ 32))
  (readSector disk pos, pos + 512)

/-- What is done with an extended boot record, by what the rest of the loop does when there is one more. -/
def ebrEntry (ebrFirstSec : Nat) (visit : Nat → Nat → Table → Option (Table × Int)) (buffer : List UInt8)
    (pos ebrCurrentSec : Nat) (mbr : Table) : Option (Table × Int) :=
  if ¬ isSigned buffer then some (mbr, mbr.partitions.length)
  else
    let mbr := mbr.push device buffer 0x1be ((lword buffer (0x1be + 8) + ebrCurrentSec) % 2 ^ 32)
    if mbr.partitions.length = maxPartitions then some (mbr, mbr.partitions.length)
    else
      let dfirstsec := lword buffer (0x1ce + 8)
      -- the end of the tables
      if dfirstsec = 0 then some (mbr, mbr.partitions.length)
      else visit pos ((ebrFirstSec + dfirstsec) % 2 ^ 32) mbr

/-- `fseek` to an extended boot record, `fread`, and a turn of the loop with it; -1 where reading fails. -/
def ebrLoop (ebrFirstSec : Nat) : Nat → Nat → Nat → Table → Option (Table × Int)
  | 0, _, _, _ => none
  | fuel + 1, pos, ebrCurrentSec, mbr =>
    let mbr := mbr.sought (asLong abi (ebrCurrentSec * 512 % 2 ^ 32))
    match fetch abi disk pos ebrCurrentSec with
    | (none, _) => some (mbr, -1)
    | (some buffer, pos) => ebrEntry device ebrFirstSec (ebrLoop ebrFirstSec fuel) buffer pos ebrCurrentSec mbr

/-- The entries of the master boot record, which are fewer than the table holds. -/
def primaries (buffer : List UInt8) : Table :=
  (List.range 4).foldl (fun mbr i =>
    let entry := 0x1be + i * 16
    mbr.push device buffer entry (lword buffer (entry + 8))) Table.empty

/-- The boot record of the device, if it can be read and is signed. -/
def masterBootRecord : Option (List UInt8) := (readSector disk 0).filter isSigned

/-- The last of its entries: the type, and where the first extended boot record is. -/
def lastEntry (buffer : List UInt8) : Nat × Nat := (byteAt buffer (0x1ee + 4), lword buffer (0x1ee + 8))

/-- `mmc_read_mbr` on a device that can be opened. -/
def readMbr (fuel : Nat) : Option (Table × Int) :=
  match masterBootRecord disk with
  | none => some (.empty, -1)
  | some buffer =>
    let mbr := primaries device buffer
    let (dtype, dfirstsec) := lastEntry buffer
    if dtype ≠ 0x05 then some (mbr, mbr.partitions.length)
    else ebrLoop abi device disk dfirstsec fuel 512 dfirstsec mbr

end Read

/-! ### What the disk says -/

section Chain
variable (device : CString) (disk : List UInt8)

/-- The table as a chain from an extended boot record on says it; and, where the next record would lie past the
end of the device, the position behind the last sector that was read. -/
def chain (ebrFirstSec : Nat) : Nat → Nat → Nat → Table → Table × Option Nat
  | 0, _, _, mbr => (mbr, none)
  | fuel + 1, pos, base, mbr =>
    let mbr := mbr.sought (base * 512 : Nat)
    if disk.length < base * 512 then (mbr, some pos)
    else
      match readSector disk (base * 512) with
      | none => (mbr, none)
      | some buffer =>
        if ¬ isSigned buffer then (mbr, none)
        else
          let mbr := mbr.push device buffer 0x1be (lword buffer (0x1be + 8) + base)
          if mbr.partitions.length = maxPartitions then (mbr, none)
          else
            let next := lword buffer (0x1ce + 8)
            if next = 0 then (mbr, none) else chain ebrFirstSec fuel (base * 512 + 512) (ebrFirstSec + next) mbr

/-- The table of the disk: the four entries, and the chain if the last of them starts one. -/
def diskTable : Table × Option Nat :=
  match masterBootRecord disk with
  | none => (.empty, none)
  | some buffer =>
    let mbr := primaries device buffer
    let (dtype, dfirstsec) := lastEntry buffer
    if dtype ≠ 0x05 then (mbr, none) else chain device disk dfirstsec maxPartitions 512 dfirstsec mbr

end Chain

/-- The function comes to an end, with no more entries than the table holds, and its entries and the offsets
that it reads at are those of the disk. -/
def ReadsChain (abi : Abi) (device : CString) (disk : List UInt8) : Prop :=
  ∃ mbr ret, readMbr abi device disk maxPartitions = some (mbr, ret) ∧ mbr.partitions.length ≤ maxPartitions ∧
    mbr.partitions = (diskTable device disk).1.partitions ∧ mbr.seeks = (diskTable device disk).1.seeks

/-- One past the largest byte offset that the product and `fseek` can hold. -/
def seekEnd : Abi → Int
  | .ilp32 => 2 ^ 31
  | .lp64 => 2 ^ 32

/-- The disks whose chain stays where it can be followed. -/
structure InReach (abi : Abi) (device : CString) (disk : List UInt8) : Prop where
  offsets : ∀ s ∈ (diskTable device disk).1.seeks, s < seekEnd abi
  sectors : ∀ p ∈ (diskTable device disk).1.partitions, p.dfirstsec < 2 ^ 32
  /-- where the chain leads past the end of the device, the sector that is read instead is not signed -/
  past : ∀ pos, (diskTable device disk).2 = some pos → ∀ buffer, readSector disk pos = some buffer → isSigned buffer = false

/-! ### Steps -/

section Steps
variable (t : Table) (device : CString) (buffer : List UInt8) (entry first : Nat)

@[simp] theorem length_push : (t.push device buffer entry first).partitions.length = t.partitions.length + 1 := by
  simp [Table.push]

@[simp] theorem seeks_push : (t.push device buffer entry first).seeks = t.seeks := rfl

theorem last_push : ∃ p, (t.push device buffer entry first).partitions = t.partitions ++ [p] ∧ p.dfirstsec = first :=
  ⟨_, rfl, rfl⟩

@[simp] theorem partitions_sought (offset : Int) : (t.sought offset).partitions = t.partitions := rfl

@[simp] theorem seeks_sought (offset : Int) : (t.sought offset).seeks = t.seeks ++ [offset] := rfl

end Steps

theorem lword_lt (buffer : List UInt8) (offset : Nat) : lword buffer offset < 2 ^ 32 := by
  have hlength : ((buffer.drop offset).take 4).length ≤ 4 := List.length_take_le 4 _
  exact lt_of_lt_of_le (fromLe_lt _) (Nat.pow_le_pow_right (by decide) hlength |>.trans (by decide))

theorem asLong_lt (abi : Abi) {n : Nat} (h : n < 2 ^ 32) : asLong abi n < seekEnd abi := by
  cases abi with
  | ilp32 =>
    obtain hsmall | hlarge := Nat.lt_or_ge n 2147483648
    · show int n < 2 ^ 31
      rw [int_small hsmall]
      omega
    · exact (int_large hlarge h).trans (by decide)
  | lp64 =>
    show (n : Int) < 2 ^ 32
    omega

/-- An offset that fits is what `fseek` is given. -/
theorem asLong_fits {abi : Abi} {n : Nat} (h : (n : Int) < seekEnd abi) : asLong abi (n % 2 ^ 32) = n := by
  cases abi with
  | ilp32 =>
    change (n : Int) < 2 ^ 31 at h
    show int (n % 2 ^ 32) = n
    rw [Nat.mod_eq_of_lt (by omega), int_small (by omega)]
  | lp64 =>
    change (n : Int) < 2 ^ 32 at h
    show ((n % 2 ^ 32 : Nat) : Int) = n
    rw [Nat.mod_eq_of_lt (by omega)]

/-! ### The loop comes to an end -/

/-- What the function stores fits an `unsigned int`, and what it gives to `fseek` fits what that takes. -/
structure Table.Fits (abi : Abi) (t : Table) : Prop where
  partitions : ∀ p ∈ t.partitions, p.dfirstsec < 2 ^ 32
  seeks : ∀ s ∈ t.seeks, s < seekEnd abi

theorem Table.Fits.push {abi : Abi} {t : Table} (h : t.Fits abi) (device : CString) (buffer : List UInt8) (entry : Nat)
    {first : Nat} (hfirst : first < 2 ^ 32) : (t.push device buffer entry first).Fits abi where
  partitions := by
    obtain ⟨p, hp, hsector⟩ := last_push t device buffer entry first
    rw [hp, List.forall_mem_append]
    exact ⟨h.partitions, List.forall_mem_singleton.mpr (hsector ▸ hfirst)⟩
  seeks := h.seeks

theorem Table.Fits.sought {abi : Abi} {t : Table} (h : t.Fits abi) {n : Nat} (hn : n < 2 ^ 32) :
    (t.sought (asLong abi n)).Fits abi where
  partitions := h.partitions
  seeks := by
    rw [seeks_sought, List.forall_mem_append]
    exact ⟨h.seeks, List.forall_mem_singleton.mpr (asLong_lt abi hn)⟩

/-- The end of a run: a table that fits, with `n` entries or more. -/
def Ends (abi : Abi) (n : Nat) (r : Option (Table × Int)) : Prop :=
  ∃ mbr ret, r = some (mbr, ret) ∧ mbr.Fits abi ∧ n ≤ mbr.partitions.length ∧ mbr.partitions.length ≤ maxPartitions

section Ends
variable {abi : Abi} (device : CString) (disk : List UInt8) (ebrFirstSec : Nat) {mbr : Table}

/-- A signed record adds an entry; with room left, the rest of the loop ends as `visit` does. -/
theorem ends_ebrEntry {visit : Nat → Nat → Table → Option (Table × Int)} (hfits : mbr.Fits abi)
    (hroom : mbr.partitions.length < maxPartitions)
    (hvisit : ∀ pos next mbr', mbr'.Fits abi → mbr'.partitions.length = mbr.partitions.length + 1 →
      mbr'.partitions.length < maxPartitions → Ends abi mbr'.partitions.length (visit pos next mbr'))
    (buffer : List UInt8) (pos cur : Nat) :
    Ends abi (mbr.partitions.length + if isSigned buffer then 1 else 0)
      (ebrEntry device ebrFirstSec visit buffer pos cur mbr) := by
  rw [ebrEntry]
  by_cases hsigned : isSigned buffer = true
  · let mbr' := mbr.push device buffer 0x1be ((lword buffer (0x1be + 8) + cur) % 2 ^ 32)
    have hfits' : mbr'.Fits abi := hfits.push device buffer 0x1be (Nat.mod_lt _ (by decide))
    have hlength : mbr'.partitions.length = mbr.partitions.length + 1 := length_push ..
    have hstop : Ends abi (mbr.partitions.length + 1) (some (mbr', mbr'.partitions.length)) :=
      ⟨mbr', _, rfl, hfits', hlength.ge, by omega⟩
    rw [if_pos hsigned, if_neg (not_not.mpr hsigned)]
    show Ends abi _ (if mbr'.partitions.length = maxPartitions then _ else if _ then _ else _)
    split_ifs with hfull hnext
    · exact hstop
    · exact hstop
    · exact hlength ▸ hvisit _ _ mbr' hfits' hlength (by omega)
  · rw [if_neg hsigned, if_pos hsigned]
    exact ⟨mbr, _, rfl, hfits, le_rfl, hroom.le⟩

/-- Every turn adds an entry or is the last, so that the room left bounds them. -/
theorem ends_ebrLoop {fuel : Nat} (hfuel : maxPartitions ≤ mbr.partitions.length + fuel) (hfits : mbr.Fits abi)
    (hroom : mbr.partitions.length < maxPartitions) (pos cur : Nat) :
    Ends abi mbr.partitions.length (ebrLoop abi device disk ebrFirstSec fuel pos cur mbr) := by
  induction fuel generalizing mbr pos cur with
  | zero => omega
  | succ fuel ih =>
    rw [ebrLoop]
    have hsought := hfits.sought (n := cur * 512 % 2 ^ 32) (Nat.mod_lt _ (by decide))
    cases hfetch : fetch abi disk pos cur with
    | mk sector pos' =>
      cases sector with
      | none => exact ⟨_, -1, rfl, hsought, le_rfl, hroom.le⟩
      | some buffer =>
        have hrest : ∀ pos next mbr', mbr'.Fits abi → mbr'.partitions.length = mbr.partitions.length + 1 →
            mbr'.partitions.length < maxPartitions →
            Ends abi mbr'.partitions.length (ebrLoop abi device disk ebrFirstSec fuel pos next mbr') :=
          fun pos next mbr' hfits' hlength hroom' => ih (by omega) hfits' hroom' pos next
        obtain ⟨t, ret, ht, hfit, hge, hle⟩ := ends_ebrEntry device ebrFirstSec hsought hroom hrest buffer pos' cur
        exact ⟨t, ret, ht, hfit, le_trans (Nat.le_add_right _ _) hge, hle⟩

end Ends

theorem fits_primaries (abi : Abi) (device : CString) (buffer : List UInt8) :
    (primaries device buffer).Fits abi ∧ (primaries device buffer).partitions.length = 4 := by
  have hempty : Table.empty.Fits abi := ⟨nofun, nofun⟩
  refine ⟨?_, rfl⟩
  exact (((hempty.push _ _ _ (lword_lt _ _)).push _ _ _ (lword_lt _ _)).push _ _ _ (lword_lt _ _)).push _ _ _ (lword_lt _ _)

/-- On every disk the function comes to an end, with no more entries than the table holds. -/
theorem ends_readMbr (abi : Abi) (device : CString) (disk : List UInt8) : Ends abi 0 (readMbr abi device disk maxPartitions) := by
  rw [readMbr]
  cases masterBootRecord disk with
  | none => exact ⟨.empty, -1, rfl, ⟨nofun, nofun⟩, le_rfl, by decide⟩
  | some buffer =>
    obtain ⟨hfits, hlength⟩ := fits_primaries abi device buffer
    dsimp only
    split_ifs
    · exact ⟨_, _, rfl, hfits, Nat.zero_le _, by rw [hlength]; decide⟩
    · have hfuel : maxPartitions ≤ (primaries device buffer).partitions.length + maxPartitions := Nat.le_add_left _ _
      obtain ⟨t, ret, ht, hfit, _, hle⟩ := ends_ebrLoop device disk (lastEntry buffer).2 hfuel hfits
        (by rw [hlength]; decide) 512 (lastEntry buffer).2
      exact ⟨t, ret, ht, hfit, Nat.zero_le _, hle⟩

/-! ### Along the chain -/

section Along
variable (device : CString) (disk : List UInt8) (ebrFirstSec : Nat)

/-- What is in the table stays there. -/
theorem chain_extends (fuel pos base : Nat) (mbr : Table) :
    mbr.partitions <+: (chain device disk ebrFirstSec fuel pos base mbr).1.partitions ∧
      mbr.seeks <+: (chain device disk ebrFirstSec fuel pos base mbr).1.seeks := by
  induction fuel generalizing pos base mbr with
  | zero => exact ⟨List.prefix_rfl, List.prefix_rfl⟩
  | succ fuel ih =>
    have hsought : mbr.partitions <+: (mbr.sought (base * 512 : Nat)).partitions ∧
        mbr.seeks <+: (mbr.sought (base * 512 : Nat)).seeks := ⟨List.prefix_rfl, List.prefix_append _ _⟩
    rw [chain]
    dsimp only
    split_ifs
    · exact hsought
    · cases readSector disk (base * 512) with
      | none => exact hsought
      | some buffer =>
        dsimp only
        obtain ⟨p, hp, _⟩ := last_push (mbr.sought (base * 512 : Nat)) device buffer 0x1be (lword buffer (0x1be + 8) + base)
        have hpushed := hsought.1.trans (hp ▸ List.prefix_append _ [p])
        split_ifs
        · exact ⟨hpushed, hsought.2⟩
        · exact ⟨hpushed, hsought.2⟩
        · obtain ⟨hpartitions, hseeks⟩ := ih (base * 512 + 512) (ebrFirstSec + lword buffer (0x1ce + 8)) _
          exact ⟨hpushed.trans hpartitions, hsought.2.trans hseeks⟩
        · exact hsought

section Unfold
variable {device disk ebrFirstSec} {fuel pos base : Nat} {mbr : Table} {buffer : List UInt8}

/-- The table with the entry of a record on the chain. -/
def chained (device : CString) (base : Nat) (mbr : Table) (buffer : List UInt8) : Table :=
  (mbr.sought (base * 512 : Nat)).push device buffer 0x1be (lword buffer (0x1be + 8) + base)

theorem chain_past (h : disk.length < base * 512) :
    chain device disk ebrFirstSec (fuel + 1) pos base mbr = (mbr.sought (base * 512 : Nat), some pos) := if_pos h

theorem chain_unread (h : ¬ disk.length < base * 512) (hread : readSector disk (base * 512) = none) :
    chain device disk ebrFirstSec (fuel + 1) pos base mbr = (mbr.sought (base * 512 : Nat), none) := by
  rw [chain]
  dsimp only
  rw [if_neg h, hread]

theorem chain_unsigned (h : ¬ disk.length < base * 512) (hread : readSector disk (base * 512) = some buffer)
    (hsigned : ¬ isSigned buffer = true) :
    chain device disk ebrFirstSec (fuel + 1) pos base mbr = (mbr.sought (base * 512 : Nat), none) := by
  rw [chain]
  dsimp only
  rw [if_neg h, hread]
  exact if_pos hsigned

theorem chain_signed (h : ¬ disk.length < base * 512) (hread : readSector disk (base * 512) = some buffer)
    (hsigned : isSigned buffer = true) :
    chain device disk ebrFirstSec (fuel + 1) pos base mbr =
      if (chained device base mbr buffer).partitions.length = maxPartitions ∨ lword buffer (0x1ce + 8) = 0 then
        (chained device base mbr buffer, none)
      else
        chain device disk ebrFirstSec fuel (base * 512 + 512) (ebrFirstSec + lword buffer (0x1ce + 8))
          (chained device base mbr buffer) := by
  rw [chain]
  dsimp only
  rw [if_neg h, hread]
  dsimp only
  rw [if_neg (not_not.mpr hsigned)]
  show (if (chained device base mbr buffer).partitions.length = maxPartitions then _ else if _ then _ else _) = _
  split_ifs <;> first | rfl | tauto

end Unfold

/-- The first offset of a chain is among those of its table. -/
theorem chain_sought (fuel pos base : Nat) (mbr : Table) :
    ((base * 512 : Nat) : Int) ∈ (chain device disk ebrFirstSec (fuel + 1) pos base mbr).1.seeks := by
  have hmem : ((base * 512 : Nat) : Int) ∈ (mbr.sought (base * 512 : Nat)).seeks := List.mem_append_right _ List.mem_cons_self
  by_cases hpast : disk.length < base * 512
  · rwa [chain_past hpast]
  · cases hread : readSector disk (base * 512) with
    | none => rwa [chain_unread hpast hread]
    | some buffer =>
      by_cases hsigned : isSigned buffer = true
      · rw [chain_signed hpast hread hsigned]
        split_ifs
        · exact hmem
        · exact (chain_extends device disk ebrFirstSec _ _ _ _).2.subset hmem
      · rwa [chain_unsigned hpast hread hsigned]

variable (abi : Abi)

/-- A run of the loop against the chain: the same table, or one entry too many where the chain leads past the
end of the device and a signed sector is read in its place. -/
def Follows (c : Table × Option Nat) (r : Option (Table × Int)) : Prop :=
  ∃ mbr ret, r = some (mbr, ret) ∧ mbr.partitions.length ≤ maxPartitions ∧
    ((∃ pos buffer, c.2 = some pos ∧ readSector disk pos = some buffer ∧ isSigned buffer = true ∧
        c.1.partitions.length < mbr.partitions.length) ∨
      (∀ pos, c.2 = some pos → ∀ buffer, readSector disk pos = some buffer → isSigned buffer = false) ∧ mbr = c.1)

variable {abi}

theorem follows_ebrLoop {fuel pos base : Nat} {mbr : Table} (hfuel : maxPartitions ≤ mbr.partitions.length + fuel)
    (hroom : mbr.partitions.length < maxPartitions) (hfits : mbr.Fits abi)
    (hseeks : ∀ s ∈ (chain device disk ebrFirstSec fuel pos base mbr).1.seeks, s < seekEnd abi)
    (hsectors : ∀ p ∈ (chain device disk ebrFirstSec fuel pos base mbr).1.partitions, p.dfirstsec < 2 ^ 32) :
    Follows disk (chain device disk ebrFirstSec fuel pos base mbr) (ebrLoop abi device disk ebrFirstSec fuel pos base mbr) := by
  induction fuel generalizing pos base mbr with
  | zero => omega
  | succ fuel ih =>
    have hoffset : ((base * 512 : Nat) : Int) < seekEnd abi := hseeks _ (chain_sought device disk ebrFirstSec fuel pos base mbr)
    have hlong := asLong_fits hoffset
    let mbr₁ := mbr.sought (base * 512 : Nat)
    have hstop : mbr₁.partitions.length ≤ maxPartitions := hroom.le
    have hfits₁ : mbr₁.Fits abi := by
      have hsought : (mbr.sought (asLong abi (base * 512 % 2 ^ 32))).Fits abi := hfits.sought (Nat.mod_lt _ (by decide))
      rwa [hlong] at hsought
    rw [ebrLoop, hlong]
    by_cases hpast : disk.length < base * 512
    · -- `fseek` is refused, and the next sector is read
      have hfetch : fetch abi disk pos base = (readSector disk pos, pos + 512) := by
        rw [fetch, hlong, seek, if_neg (by omega)]
      rw [chain_past hpast, hfetch]
      cases hread : readSector disk pos with
      | none =>
        refine ⟨mbr₁, -1, rfl, hstop, .inr ⟨fun p hp buffer hb => ?_, rfl⟩⟩
        obtain rfl := Option.some.inj hp
        exact nomatch hread.symm.trans hb
      | some buffer =>
        by_cases hsigned : isSigned buffer = true
        · have hrest : ∀ pos next mbr', mbr'.Fits abi → mbr'.partitions.length = mbr₁.partitions.length + 1 →
              mbr'.partitions.length < maxPartitions →
              Ends abi mbr'.partitions.length (ebrLoop abi device disk ebrFirstSec fuel pos next mbr') := by
            intro pos next mbr' hfits' hlength hroom'
            have hone : mbr'.partitions.length = mbr.partitions.length + 1 := hlength
            exact ends_ebrLoop device disk ebrFirstSec (by omega) hfits' hroom' pos next
          obtain ⟨t, ret, ht, _, hge, hle⟩ := ends_ebrEntry device ebrFirstSec hfits₁ hroom hrest buffer (pos + 512) base
          rw [if_pos hsigned] at hge
          exact ⟨t, ret, ht, hle, .inl ⟨pos, buffer, rfl, hread, hsigned, hge⟩⟩
        · refine ⟨mbr₁, _, if_pos hsigned, hstop, .inr ⟨fun p hp b hb => ?_, rfl⟩⟩
          obtain rfl := Option.some.inj hp
          obtain rfl := Option.some.inj (hread.symm.trans hb)
          exact Bool.not_eq_true _ ▸ hsigned
    · have hfetch : fetch abi disk pos base = (readSector disk (base * 512), base * 512 + 512) := by
        rw [fetch, hlong, seek, if_pos (by omega)]
        rfl
      rw [hfetch]
      cases hread : readSector disk (base * 512) with
      | none =>
        rw [chain_unread hpast hread]
        exact ⟨mbr₁, -1, rfl, hstop, .inr ⟨nofun, rfl⟩⟩
      | some buffer =>
        by_cases hsigned : isSigned buffer = true
        · rw [chain_signed hpast hread hsigned] at hseeks hsectors ⊢
          obtain ⟨p, hp, hsector⟩ := last_push mbr₁ device buffer 0x1be (lword buffer (0x1be + 8) + base)
          have hpushed : p ∈ (chained device base mbr buffer).partitions := hp ▸ List.mem_concat_self
          have hlength : (chained device base mbr buffer).partitions.length = mbr.partitions.length + 1 := length_push ..
          have hfirst : lword buffer (0x1be + 8) + base < 2 ^ 32 := by
            rw [← hsector]
            apply hsectors
            split_ifs
            · exact hpushed
            · exact (chain_extends device disk ebrFirstSec _ _ _ _).1.subset hpushed
          have hentry : mbr₁.push device buffer 0x1be ((lword buffer (0x1be + 8) + base) % 2 ^ 32) = chained device base mbr buffer := by
            rw [Nat.mod_eq_of_lt hfirst]
            rfl
          show Follows disk _ (ebrEntry device ebrFirstSec _ buffer _ base mbr₁)
          rw [ebrEntry, if_neg (not_not.mpr hsigned), hentry]
          dsimp only
          by_cases hend : (chained device base mbr buffer).partitions.length = maxPartitions ∨ lword buffer (0x1ce + 8) = 0
          · rw [if_pos hend]
            refine ⟨chained device base mbr buffer, (chained device base mbr buffer).partitions.length, ?_, by omega,
              .inr ⟨nofun, rfl⟩⟩
            split_ifs with hfull hzero
            · rfl
            · rfl
            · exact absurd hend (not_or.mpr ⟨hfull, hzero⟩)
          · rw [if_neg hend] at hseeks hsectors ⊢
            obtain ⟨hfull, hzero⟩ := not_or.mp hend
            obtain ⟨fuel, rfl⟩ : ∃ n, fuel = n + 1 := ⟨fuel - 1, by omega⟩
            have hnext := hseeks _ (chain_sought device disk ebrFirstSec fuel _ _ _)
            have hend32 : seekEnd abi ≤ 2 ^ 32 := by cases abi <;> decide
            rw [if_neg hfull, if_neg hzero, Nat.mod_eq_of_lt (by omega)]
            exact ih (by omega) (by omega) (hfits₁.push device buffer 0x1be hfirst) hseeks hsectors
        · rw [chain_unsigned hpast hread hsigned]
          exact ⟨mbr₁, _, if_pos hsigned, hstop, .inr ⟨nofun, rfl⟩⟩

end Along

/-! ### The disks that are read as they say -/

theorem follows_readMbr {abi : Abi} {device : CString} {disk : List UInt8}
    (hseeks : ∀ s ∈ (diskTable device disk).1.seeks, s < seekEnd abi)
    (hsectors : ∀ p ∈ (diskTable device disk).1.partitions, p.dfirstsec < 2 ^ 32) :
    Follows disk (diskTable device disk) (readMbr abi device disk maxPartitions) := by
  rw [diskTable] at *
  rw [readMbr]
  cases hmaster : masterBootRecord disk with
  | none => exact ⟨.empty, -1, rfl, by decide, .inr ⟨nofun, rfl⟩⟩
  | some buffer =>
    rw [hmaster] at hseeks hsectors
    obtain ⟨hfits, hlength⟩ := fits_primaries abi device buffer
    dsimp only at hseeks hsectors ⊢
    split_ifs at hseeks hsectors ⊢ with htype
    · exact ⟨_, _, rfl, by rw [hlength]; decide, .inr ⟨nofun, rfl⟩⟩
    · have hfuel : maxPartitions ≤ (primaries device buffer).partitions.length + maxPartitions := Nat.le_add_left _ _
      exact follows_ebrLoop device disk (lastEntry buffer).2 hfuel (by rw [hlength]; decide) hfits hseeks hsectors

theorem ReadsChain.inReach {abi : Abi} {device : CString} {disk : List UInt8} (h : ReadsChain abi device disk) :
    InReach abi device disk := by
  obtain ⟨mbr, ret, hrun, hle, hpartitions, hseeks⟩ := h
  obtain ⟨mbr', ret', hrun', hfits, _, _⟩ := ends_readMbr abi device disk
  obtain ⟨rfl, rfl⟩ := Prod.mk.inj (Option.some.inj (hrun.symm.trans hrun'))
  have hoffsets : ∀ s ∈ (diskTable device disk).1.seeks, s < seekEnd abi := hseeks ▸ hfits.seeks
  have hsectors : ∀ p ∈ (diskTable device disk).1.partitions, p.dfirstsec < 2 ^ 32 := hpartitions ▸ hfits.partitions
  refine ⟨hoffsets, hsectors, ?_⟩
  obtain ⟨t, ret', ht, _, ⟨_, _, _, _, _, hmore⟩ | ⟨hpast, _⟩⟩ := follows_readMbr hoffsets hsectors
  · obtain ⟨rfl, _⟩ := Prod.mk.inj (Option.some.inj (hrun.symm.trans ht))
    rw [hpartitions] at hmore
    exact absurd hmore (Nat.lt_irrefl _)
  · exact hpast

theorem InReach.readsChain {abi : Abi} {device : CString} {disk : List UInt8} (h : InReach abi device disk) :
    ReadsChain abi device disk := by
  obtain ⟨mbr, ret, hrun, hle, ⟨pos, buffer, hpos, hread, hsigned, _⟩ | ⟨_, rfl⟩⟩ := follows_readMbr h.offsets h.sectors
  · exact absurd hsigned (by rw [h.past pos hpos buffer hread]; nofun)
  · exact ⟨_, ret, hrun, hle, rfl, rfl⟩

/-- The function reads the chain of a disk as it stands there exactly when the chain is in reach. -/
theorem readsChain_iff (abi : Abi) (device : CString) (disk : List UInt8) :
    ReadsChain abi device disk ↔ InReach abi device disk := ⟨ReadsChain.inReach, InReach.readsChain⟩

/-! ### Far away -/

/-- A boot record with the four entries given. -/
def bootRecord (entries : List UInt8) : List UInt8 := List.replicate 446 0 ++ entries ++ [0x55, 0xaa]

/-- The last entry is an extended partition from sector 2^23 on. -/
def farMaster : List UInt8 :=
  bootRecord (List.replicate 48 0 ++ [0, 0, 0, 0, 0x05, 0, 0, 0, 0x00, 0x00, 0x80, 0x00, 0x00, 0x10, 0x00, 0x00])

/-- A logical partition eight sectors behind its boot record, and no other. -/
def farExtended : List UInt8 :=
  bootRecord ([0, 0, 0, 0, 0x83, 0, 0, 0, 0x08, 0x00, 0x00, 0x00, 0xf8, 0x0f, 0x00, 0x00] ++ List.replicate 48 0)

set_option maxRecDepth 4000 in
theorem isSigned_farMaster : isSigned farMaster = true := by decide

set_option maxRecDepth 4000 in
theorem lastEntry_farMaster : lastEntry farMaster = (5, 0x800000) := by decide

section Far
variable (rest : List UInt8)

theorem masterBootRecord_far : masterBootRecord (farMaster ++ rest) = some farMaster := by
  have hlength : farMaster.length = 512 := by
    rw [farMaster, bootRecord, List.length_append, List.length_append, List.length_append, List.length_replicate,
      List.length_replicate]
    rfl
  have hread : readSector (farMaster ++ rest) 0 = some farMaster := by
    rw [readSector, if_pos, List.drop_zero, List.take_left' hlength]
    rw [List.length_append, hlength]
    exact Nat.le_add_right _ _
  rw [masterBootRecord, hread, Option.filter_some, if_pos isSigned_farMaster]

/-- The offset of the first extended boot record wraps around to the start of the disk. -/
theorem not_readsChain_far (abi : Abi) (device : CString) : ¬ ReadsChain abi device (farMaster ++ rest) := by
  intro h
  have htable : diskTable device (farMaster ++ rest) =
      chain device (farMaster ++ rest) 0x800000 maxPartitions 512 0x800000 (primaries device farMaster) := by
    rw [diskTable, masterBootRecord_far]
    dsimp only
    rw [lastEntry_farMaster]
    exact if_neg (not_not.mpr rfl)
  have hoffsets := h.inReach.offsets
  have hmax : maxPartitions = 63 + 1 := rfl
  rw [htable, hmax] at hoffsets
  have hwrap := hoffsets _ (chain_sought device (farMaster ++ rest) 0x800000 63 512 0x800000 _)
  cases abi with
  | ilp32 => exact absurd hwrap (by decide)
  | lp64 => exact absurd hwrap (by decide)

end Far

/-- Four gigabytes behind the start of this disk its extended boot record stands. -/
def farDisk : List UInt8 := farMaster ++ (List.replicate (2 ^ 32 - 512) 0 ++ farExtended)

theorem farDisk_not_read : ¬ ReadsChain .ilp32 "/dev/block/mmcblk0" farDisk ∧ ¬ ReadsChain .lp64 "/dev/block/mmcblk0" farDisk :=
  ⟨not_readsChain_far _ .ilp32 _, not_readsChain_far _ .lp64 _⟩

end Twrp.Mmc
