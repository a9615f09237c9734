import Twrp.Base.Blocks
import Twrp.Base.CString

/-! Partitions with replaced blocks (`bml_over_mtd`).

The boot loader of some devices keeps, for each bad block of a partition, a block of a reservoir partition
that stands in for it, and a table of these pairs near the end of the reservoir. The table is read and
checked (`createBlockMapping`); with it the partition is dumped and flashed as if it had no bad blocks. -/
namespace Twrp.Mtd.Bml
open Base

/-! ### The device -/

/-- One of the two partitions. -/
structure Part where
  blocks : Nat
  /-- The blocks marked bad, if the driver knows marks at all. -/
  marks : Option (Nat → Bool)

/-- `MEMGETBADBLOCK` does not answer zero. -/
def Part.bad (p : Part) (i : Nat) : Bool := !(i < p.blocks) || p.marks.elim true (· i)

/-- `MEMGETBADBLOCK` answers neither zero nor that it is not supported. -/
def Part.refused (p : Part) (i : Nat) : Bool := !(i < p.blocks) || p.marks.elim false (· i)

/-- The two partitions on the flash, which is addressed with 32 bits. -/
structure Device where
  erase : Nat
  src : Part
  res : Part
  /-- Both partitions have the same erase and write size. -/
  sameSizes : Bool
  srcPartStartBlock : Nat
  reservoirPartStartBlock : Nat
  erase_dvd : erase ∣ 4294967296
  src_fits : src.blocks * erase < 4294967296
  res_fits : (reservoirPartStartBlock + res.blocks) * erase ≤ 4294967296

section Mapping
variable (d : Device)

/-- The reservoir block that the offset of an entry falls on; the offset has 32 bits. -/
def target (entry : Nat) : Nat := entry * d.erase % 4294967296 / d.erase

/-! ### The table -/

/-- A 16 bit word of the table. -/
def word (block : Block UInt8 d.erase) (k : Nat) : Nat := fromLe ((block.val.drop (0x1000 + 2 * k)).take 2)

/-- The block holds the start of the table. -/
def hasTable (block : Block UInt8 d.erase) : Bool :=
  0x2000 ≤ d.erase && block.val.take 4 == [0x55, 0x50, 0x43, 0x48] && word d block 0 == 0 && word d block 1 == 0xffff

/-- The entries of the table from a word on, at most `n` of them. -/
def entriesFrom (block : Block UInt8 d.erase) : (n k : Nat) → List (Nat × Nat)
  | 0, _ => []
  | n + 1, k =>
    if word d block k = 0xffff then [] else (word d block k, word d block (k + 1)) :: entriesFrom block n (k + 2)

/-- The entries behind the first one, which is a dummy, within a hundred words. -/
def entries (block : Block UInt8 d.erase) : List (Nat × Nat) := entriesFrom d block 49 2

/-- The search for the table below a block; it ends at a good block that cannot be read. -/
def findTable (reads : Nat → Bool) (res : Nat → Block UInt8 d.erase) : Nat → Option Nat
  | 0 => none
  | i + 1 =>
    if d.res.bad i then findTable reads res i
    else if reads i = false then none
    else if hasTable d (res i) then some i
    else findTable reads res i

/-- The block of the reservoir with the table, looked for from the end. -/
def tableBlock (reads : Nat → Bool) (res : Nat → Block UInt8 d.erase) : Option Nat := findTable d reads res d.res.blocks

/-- The entries are taken over, later ones replacing earlier ones; `none` where one does not point below
the table. -/
def addEntries (table : Nat) : List (Nat × Nat) → (Nat → Nat) → Option (Nat → Nat)
  | [], mapping => some mapping
  | (rawSrcBlk, rawDstBlk) :: rest, mapping =>
    let resAbsoluteStartAddress := d.reservoirPartStartBlock * d.erase % 4294967296
    if rawDstBlk < d.reservoirPartStartBlock ∨
        (resAbsoluteStartAddress + table * d.erase) % 4294967296 ≤ rawDstBlk * d.erase % 4294967296 then none
    else if d.srcPartStartBlock ≤ rawSrcBlk ∧ rawSrcBlk < d.srcPartStartBlock + d.src.blocks then
      addEntries table rest
        (Function.update mapping (rawSrcBlk - d.srcPartStartBlock) (rawDstBlk - d.reservoirPartStartBlock))
    else addEntries table rest mapping

/-- The check of one block of the source. -/
def consistent (mapping : Nat → Nat) (i : Nat) : Bool :=
  if d.src.bad i then mapping i ≠ 0xffff && !d.res.bad (target d (mapping i)) else mapping i = 0xffff

/-- `CreateBlockMapping` -/
def createBlockMapping (opens : Bool) (reads : Nat → Bool) (res : Nat → Block UInt8 d.erase) : Option (Nat → Nat) :=
  if d.sameSizes = false ∨ opens = false then none
  else if d.res.blocks * d.erase < d.erase ∨ 2147483647 < d.res.blocks * d.erase then none
  else do
    let table ← tableBlock d reads res
    let mapping ← addEntries d table (entries d (res table)) fun _ => 0xffff
    if (List.range d.src.blocks).all (consistent d mapping) then pure mapping else none

/-! ### Dumping and flashing -/

/-- What the blocks of the two partitions hold. -/
structure Contents where
  src : Nat → Block UInt8 d.erase
  res : Nat → Block UInt8 d.erase

/-- How a dump goes. -/
structure DumpEnv where
  opens : Bool
  reads : Nat → Bool
  writes : Nat → Bool
  closes : Bool

variable (mapping : Nat → Nat)

/-- The block read for a block of the source. -/
def readBlock (s : Contents d) (i : Nat) : Option (Block UInt8 d.erase) :=
  if mapping i = 0xffff then some (s.src i)
  else if target d (mapping i) < d.res.blocks then some (s.res (target d (mapping i)))
  else none

def dumpLoop (env : DumpEnv) (s : Contents d) : (left i : Nat) → Option (List UInt8)
  | 0, _ => some []
  | left + 1, i => do
    let block ← readBlock d mapping s i
    if env.reads i ∧ env.writes i then
      let rest ← dumpLoop env s left (i + 1)
      pure (block.val ++ rest)
    else none

/-- `dump_bml_partition`: the file it leaves. -/
def dumpBmlPartition (env : DumpEnv) (s : Contents d) : Option (List UInt8) :=
  if env.opens ∧ env.closes then dumpLoop d mapping env s d.src.blocks 0 else none

/-- One round of the retry loop of `bml_over_mtd_write_block`, with what the block holds after it. -/
inductive Round (e : Nat) where
  | eraseFails (left : Block UInt8 e)
  | written (left : Block UInt8 e) (rereads : Bool)

/-- The block reads back as it should. -/
def Round.verified {e : Nat} (data : Block UInt8 e) : Round e → Bool
  | .eraseFails _ => false
  | .written left rereads => rereads && left = data

def Round.left {e : Nat} : Round e → Block UInt8 e
  | .eraseFails left => left
  | .written left _ => left

/-- `bml_over_mtd_write_block`: what the block holds, when it could be written. -/
def bmlOverMtdWriteBlock {e : Nat} (refused : Bool) (rounds : Round e × Round e) (data : Block UInt8 e) : Option (Block UInt8 e) :=
  if refused then none
  else if rounds.1.verified data then some rounds.1.left
  else if rounds.2.verified data then some rounds.2.left
  else none

/-- How flashing goes. -/
structure FlashEnv where
  opens : Bool
  reads : Nat → Bool
  rounds : Nat → Round d.erase × Round d.erase
  closes : Bool

/-- The bytes of a file that belong to a block, filled up with `0xFF`. -/
def chunk (file : List UInt8) (i : Nat) : Block UInt8 d.erase :=
  ⟨(file.drop (i * d.erase)).take d.erase ++ List.replicate (d.erase - ((file.drop (i * d.erase)).take d.erase).length) 0xff, by
    rw [List.length_append, List.length_replicate]
    have := List.length_take_le d.erase (file.drop (i * d.erase))
    omega⟩

/-- The block written for a block of the source. -/
def writeBlock (rounds : Round d.erase × Round d.erase) (data : Block UInt8 d.erase) (s : Contents d) (i : Nat) : Option (Contents d) :=
  if mapping i = 0xffff then do
    let block ← bmlOverMtdWriteBlock (d.src.refused i) rounds data
    pure { s with src := Function.update s.src i block }
  else do
    let block ← bmlOverMtdWriteBlock (d.res.refused (target d (mapping i))) rounds data
    pure { s with res := Function.update s.res (target d (mapping i)) block }

def flashLoop (env : FlashEnv d) (file : List UInt8) : (left i : Nat) → Contents d → Option (Contents d)
  | 0, _, s => some s
  | left + 1, i, s =>
    if env.reads i = false then none
    else do
      let s ← writeBlock d mapping (env.rounds i) (chunk d file i) s i
      flashLoop env file left (i + 1) s

/-- The blocks a file takes. -/
def numBlocks (file : List UInt8) : Nat := (file.length + d.erase - 1) / d.erase

/-- `flash_bml_partition`: what the partitions hold after it, when it succeeds. -/
def flashBmlPartition (env : FlashEnv d) (file : List UInt8) (s : Contents d) : Option (Contents d) :=
  if env.opens = false ∨ d.src.blocks * d.erase < file.length ∨ env.closes = false then none
  else flashLoop d mapping env file (numBlocks d file) 0 s

/-- A file filled up to whole blocks. -/
def padded (file : List UInt8) : List UInt8 := file ++ List.replicate (numBlocks d file * d.erase - file.length) 0xff

/-! ### What is asked of a mapping -/

/-- A mapping that can be trusted, made from the table in a given block. -/
structure Sound (table : Nat) : Prop where
  /-- There is an entry for the bad blocks, and for no others. -/
  exact : ∀ i < d.src.blocks, mapping i ≠ 0xffff ↔ d.src.bad i = true
  /-- It leads to a good block of the reservoir, below the table. -/
  good : ∀ i < d.src.blocks, d.src.bad i = true → target d (mapping i) < table ∧ d.res.bad (target d (mapping i)) = false
  /-- No two bad blocks share one. -/
  apart : ∀ i < d.src.blocks, ∀ j < d.src.blocks, d.src.bad i = true → d.src.bad j = true →
    target d (mapping i) = target d (mapping j) → i = j
  /-- What is flashed is dumped again, and the rest is as before. -/
  roundTrip : ∀ (before after : DumpEnv) (env : FlashEnv d) (s s' : Contents d) (file old new : List UInt8),
    file.length ≤ d.src.blocks * d.erase → dumpBmlPartition d mapping before s = some old →
    flashBmlPartition d mapping env file s = some s' → dumpBmlPartition d mapping after s' = some new →
    new = padded d file ++ old.drop (padded d file).length

/-- The last entry of the table for a block. -/
def listed : List (Nat × Nat) → Nat → Option Nat
  | [], _ => none
  | (rawSrcBlk, rawDstBlk) :: rest, block => (listed rest block).or (if rawSrcBlk = block then some rawDstBlk else none)

/-- The table does not name one block of the reservoir for two bad blocks of the source. -/
def Distinct (table : List (Nat × Nat)) : Prop :=
  ∀ i < d.src.blocks, ∀ j < d.src.blocks, d.src.bad i = true → d.src.bad j = true → ∀ a b,
    listed table (d.srcPartStartBlock + i) = some a → listed table (d.srcPartStartBlock + j) = some b →
    target d a = target d b → i = j

end Mapping

/-! ### The entries -/

section Entries
variable {d : Device} {table : Nat}

theorem erase_pos (d : Device) : 0 < d.erase := Nat.pos_of_dvd_of_pos d.erase_dvd (by decide)

/-- How many blocks 32 bits can address. -/
def reach (d : Device) : Nat := 4294967296 / d.erase

theorem reach_mul (d : Device) : reach d * d.erase = 4294967296 := Nat.div_mul_cancel d.erase_dvd

theorem mul_erase_mod (d : Device) (n : Nat) : n * d.erase % 4294967296 = n % reach d * d.erase := by
  rw [← reach_mul d, Nat.mul_mod_mul_right]

theorem target_eq (d : Device) (n : Nat) : target d n = n % reach d := by
  rw [target, mul_erase_mod, Nat.mul_div_cancel _ (erase_pos d)]

theorem res_le_reach (d : Device) : d.reservoirPartStartBlock + d.res.blocks ≤ reach d := by
  have h := d.res_fits
  rw [← reach_mul d] at h
  exact Nat.le_of_mul_le_mul_right h (erase_pos d)

theorem listed_mem {es : List (Nat × Nat)} {block a : Nat} (h : listed es block = some a) : (block, a) ∈ es := by
  induction es with
  | nil => cases h
  | cons e rest ih =>
    rw [listed, Option.or_eq_some_iff] at h
    rcases h with h | ⟨_, h⟩
    · exact List.mem_cons_of_mem _ (ih h)
    · split at h
      · rename_i heq
        obtain rfl := Option.some.inj h
        simp [← heq]
      · cases h

/-- An entry that is not taken for out of bounds. -/
def InRange (d : Device) (table : Nat) (e : Nat × Nat) : Prop :=
  d.reservoirPartStartBlock ≤ e.2 ∧
    e.2 * d.erase % 4294967296 < (d.reservoirPartStartBlock * d.erase % 4294967296 + table * d.erase) % 4294967296

/-- The mapping has the last entry for each block of the source. -/
theorem addEntries_spec {es : List (Nat × Nat)} {mapping mapping' : Nat → Nat} (h : addEntries d table es mapping = some mapping') :
    (∀ i < d.src.blocks,
      mapping' i = ((listed es (d.srcPartStartBlock + i)).map (· - d.reservoirPartStartBlock)).getD (mapping i)) ∧
    ∀ e ∈ es, InRange d table e := by
  induction es generalizing mapping with
  | nil =>
    obtain rfl := Option.some.inj h
    exact ⟨fun i _ => rfl, by simp⟩
  | cons e rest ih =>
    rw [addEntries] at h
    split at h
    · cases h
    rename_i hrange
    have hin : InRange d table e := by
      obtain ⟨hge, hlt⟩ := not_or.mp hrange
      exact ⟨Nat.le_of_not_lt hge, Nat.lt_of_not_le hlt⟩
    split at h
    · rename_i hsrc
      obtain ⟨hmap, hrest⟩ := ih h
      refine ⟨fun i hi => ?_, List.forall_mem_cons.mpr ⟨hin, hrest⟩⟩
      rw [hmap i hi, listed]
      cases hlist : listed rest (d.srcPartStartBlock + i) with
      | some a => rfl
      | none =>
        by_cases heq : e.1 = d.srcPartStartBlock + i
        · simp [heq]
        · have hne : i ≠ e.1 - d.srcPartStartBlock := by omega
          simp [heq, hne]
    · rename_i hsrc
      obtain ⟨hmap, hrest⟩ := ih h
      refine ⟨fun i hi => ?_, List.forall_mem_cons.mpr ⟨hin, hrest⟩⟩
      have hne : e.1 ≠ d.srcPartStartBlock + i := by omega
      rw [hmap i hi, listed, if_neg hne, Option.or_none]

/-- An entry in range that leads into the reservoir leads below the table. -/
theorem target_lt_table {e : Nat × Nat} (hrange : InRange d table e) (htable : table < d.res.blocks)
    (hin : target d (e.2 - d.reservoirPartStartBlock) < d.res.blocks) :
    target d (e.2 - d.reservoirPartStartBlock) < table := by
  obtain ⟨hge, hlt⟩ := hrange
  have hreach := res_le_reach d
  have hsum : (d.reservoirPartStartBlock * d.erase % 4294967296 + table * d.erase) % 4294967296 =
      (d.reservoirPartStartBlock + table) * d.erase := by
    rw [Nat.mod_add_mod, ← Nat.add_mul, mul_erase_mod, Nat.mod_eq_of_lt (by omega)]
  rw [hsum, mul_erase_mod] at hlt
  have hbelow : e.2 % reach d < d.reservoirPartStartBlock + table := Nat.lt_of_mul_lt_mul_right hlt
  rw [target_eq] at hin ⊢
  have hdiv := Nat.div_add_mod e.2 (reach d)
  by_cases hx : d.reservoirPartStartBlock ≤ e.2 % reach d
  · have hsub : e.2 - d.reservoirPartStartBlock = e.2 % reach d - d.reservoirPartStartBlock + reach d * (e.2 / reach d) := by
      omega
    rw [hsub, Nat.add_mul_mod_self_left, Nat.mod_eq_of_lt (by omega)]
    omega
  · -- the entry wraps around, past the end of the reservoir
    exfalso
    obtain ⟨q, hq⟩ : ∃ q, e.2 / reach d = q + 1 := by
      refine Nat.exists_eq_succ_of_ne_zero fun hzero => hx ?_
      rw [hzero, Nat.mul_zero] at hdiv
      omega
    have hsub : e.2 - d.reservoirPartStartBlock = (reach d + e.2 % reach d - d.reservoirPartStartBlock) + reach d * q := by
      rw [hq, Nat.mul_succ] at hdiv
      omega
    rw [hsub, Nat.add_mul_mod_self_left, Nat.mod_eq_of_lt (by omega)] at hin
    omega

/-- Entries name the same block before and after the start of the reservoir is taken off. -/
theorem target_sub_eq_iff {a b : Nat} (ha : d.reservoirPartStartBlock ≤ a) (hb : d.reservoirPartStartBlock ≤ b) :
    target d (a - d.reservoirPartStartBlock) = target d (b - d.reservoirPartStartBlock) ↔ target d a = target d b := by
  simp only [target_eq]
  constructor
  · intro h
    have hadd := Nat.ModEq.add_right d.reservoirPartStartBlock (show _ ≡ _ [MOD reach d] from h)
    rwa [Nat.sub_add_cancel ha, Nat.sub_add_cancel hb] at hadd
  · intro h
    refine Nat.ModEq.add_right_cancel' d.reservoirPartStartBlock ?_
    rwa [Nat.sub_add_cancel ha, Nat.sub_add_cancel hb]

end Entries

/-! ### Flashing, then dumping -/

section RoundTrip
variable {d : Device} {mapping : Nat → Nat}

/-- What stands in a block of the source, or in the one that replaces it. -/
def held (mapping : Nat → Nat) (s : Contents d) (i : Nat) : Block UInt8 d.erase :=
  if mapping i = 0xffff then s.src i else s.res (target d (mapping i))

theorem dumpLoop_eq {env : DumpEnv} {s : Contents d} {left i : Nat} {out : List UInt8}
    (h : dumpLoop d mapping env s left i = some out) : out = joined ((List.range' i left).map (held mapping s)) := by
  induction left generalizing i out with
  | zero =>
    obtain rfl := Option.some.inj h
    rfl
  | succ left ih =>
    rw [dumpLoop] at h
    obtain ⟨block, hblock, h⟩ := Option.bind_eq_some_iff.mp h
    split at h
    · obtain ⟨rest, hrest, h⟩ := Option.bind_eq_some_iff.mp h
      obtain rfl := Option.some.inj h
      have hheld : block = held mapping s i := by
        unfold readBlock at hblock
        unfold held
        split at hblock
        · rename_i hff
          rw [if_pos hff, Option.some.inj hblock]
        · rename_i hff
          rw [if_neg hff]
          split at hblock
          · exact (Option.some.inj hblock).symm
          · cases hblock
      rw [List.range'_succ, List.map_cons, joined_cons, ← ih hrest, hheld]
    · cases h

/-- A dump is the blocks of the source, or those that replace them, in order. -/
theorem dump_eq {env : DumpEnv} {s : Contents d} {out : List UInt8} (h : dumpBmlPartition d mapping env s = some out) :
    out = joined ((List.range' 0 d.src.blocks).map (held mapping s)) := by
  unfold dumpBmlPartition at h
  split at h
  · exact dumpLoop_eq h
  · cases h

theorem writeBlock_some {e : Nat} {refused : Bool} {rounds : Round e × Round e} {data block : Block UInt8 e}
    (h : bmlOverMtdWriteBlock refused rounds data = some block) : block = data := by
  have hleft {r : Round e} (hr : r.verified data = true) : r.left = data := by
    cases r with
    | eraseFails left => cases hr
    | written left rereads => exact of_decide_eq_true (Bool.and_eq_true_iff.mp hr).2
  unfold bmlOverMtdWriteBlock at h
  split at h
  · cases h
  split at h
  · rename_i hr
    rw [← Option.some.inj h, hleft hr]
  split at h
  · rename_i hr
    rw [← Option.some.inj h, hleft hr]
  · cases h

/-- No two blocks of the source are kept in one place. -/
def Apart (d : Device) (mapping : Nat → Nat) : Prop :=
  ∀ i < d.src.blocks, ∀ j < d.src.blocks, mapping i ≠ 0xffff → mapping j ≠ 0xffff →
    target d (mapping i) = target d (mapping j) → i = j

/-- A block that is written changes no other. -/
theorem held_writeBlock (hapart : Apart d mapping) {rounds : Round d.erase × Round d.erase} {data : Block UInt8 d.erase}
    {s s' : Contents d} {i : Nat} (hi : i < d.src.blocks) (h : writeBlock d mapping rounds data s i = some s') {j : Nat}
    (hj : j < d.src.blocks) : held mapping s' j = if j = i then data else held mapping s j := by
  unfold writeBlock at h
  split at h
  · rename_i hff
    obtain ⟨block, hblock, h⟩ := Option.bind_eq_some_iff.mp h
    obtain rfl := Option.some.inj h
    obtain rfl := writeBlock_some hblock
    unfold held
    by_cases hij : j = i
    · simp [hij, hff]
    · simp [hij]
  · rename_i hff
    obtain ⟨block, hblock, h⟩ := Option.bind_eq_some_iff.mp h
    obtain rfl := Option.some.inj h
    obtain rfl := writeBlock_some hblock
    unfold held
    by_cases hij : j = i
    · simp [hij, hff]
    · rw [if_neg hij]
      split
      · rfl
      · rename_i hjff
        have hne : target d (mapping j) ≠ target d (mapping i) := fun h => hij (hapart j hj i hi hjff hff h)
        simp [hne]

/-- The loop writes the blocks of the file, and only those. -/
theorem held_flashLoop (hapart : Apart d mapping) {env : FlashEnv d} {file : List UInt8} {left i : Nat} {s s' : Contents d}
    (hi : i + left ≤ d.src.blocks) (h : flashLoop d mapping env file left i s = some s') {j : Nat} (hj : j < d.src.blocks) :
    held mapping s' j = if i ≤ j ∧ j < i + left then chunk d file j else held mapping s j := by
  induction left generalizing i s with
  | zero =>
    obtain rfl := Option.some.inj h
    rw [if_neg (by omega)]
  | succ left ih =>
    rw [flashLoop] at h
    split at h
    · cases h
    obtain ⟨s₁, hs₁, h⟩ := Option.bind_eq_some_iff.mp h
    rw [ih (by omega) h, held_writeBlock hapart (by omega) hs₁ hj]
    by_cases hij : j = i
    · rw [if_neg (by omega), if_pos hij, if_pos (by omega), hij]
    · by_cases hrest : i + 1 ≤ j ∧ j < i + 1 + left
      · rw [if_pos hrest, if_pos (by omega)]
      · rw [if_neg hrest, if_neg hij, if_neg (by omega)]

/-- The first blocks of a file, filled up. -/
theorem joined_chunks (file : List UInt8) (n : Nat) :
    joined ((List.range' 0 n).map (chunk d file)) = file.take (n * d.erase) ++ List.replicate (n * d.erase - file.length) 0xff := by
  induction n with
  | zero => simp
  | succ n ih =>
    rw [List.range'_concat, List.map_append, joined_append, ih]
    simp only [Nat.zero_add, Nat.one_mul, List.map_cons, List.map_nil, joined_cons, joined_nil, List.append_nil, chunk]
    rw [Nat.succ_mul]
    by_cases hn : n * d.erase ≤ file.length
    · rw [Nat.sub_eq_zero_of_le hn, List.replicate_zero, List.append_nil, ← List.append_assoc, ← List.take_add,
        List.length_take, List.length_drop]
      congr 2
      omega
    · have hdrop : file.drop (n * d.erase) = [] := List.drop_eq_nil_of_le (by omega)
      rw [hdrop, List.take_nil, List.nil_append, List.length_nil, List.append_assoc, List.replicate_append_replicate,
        List.take_of_length_le (by omega), List.take_of_length_le (by omega)]
      congr 2
      omega

theorem numBlocks_le {file : List UInt8} (h : file.length ≤ d.src.blocks * d.erase) : numBlocks d file ≤ d.src.blocks := by
  unfold numBlocks
  have := erase_pos d
  apply Nat.le_of_lt_succ
  rw [Nat.div_lt_iff_lt_mul this, Nat.succ_mul]
  omega

theorem le_numBlocks (file : List UInt8) : file.length ≤ numBlocks d file * d.erase := by
  unfold numBlocks
  have hpos := erase_pos d
  have hdiv := Nat.div_add_mod (file.length + d.erase - 1) d.erase
  have hmod := Nat.mod_lt (file.length + d.erase - 1) hpos
  rw [Nat.mul_comm] at hdiv
  omega

/-- With blocks kept apart, what is flashed is what is dumped. -/
theorem dump_flash (hapart : Apart d mapping) {before after : DumpEnv} {env : FlashEnv d} {s s' : Contents d}
    {file old new : List UInt8} (hfile : file.length ≤ d.src.blocks * d.erase) (hold : dumpBmlPartition d mapping before s = some old)
    (hflash : flashBmlPartition d mapping env file s = some s') (hnew : dumpBmlPartition d mapping after s' = some new) :
    new = padded d file ++ old.drop (padded d file).length := by
  have hblocks := numBlocks_le hfile
  unfold flashBmlPartition at hflash
  split at hflash
  · cases hflash
  have hsplit (f : Nat → Block UInt8 d.erase) : (List.range' 0 d.src.blocks).map f =
      (List.range' 0 (numBlocks d file)).map f ++ (List.range' (numBlocks d file) (d.src.blocks - numBlocks d file)).map f := by
    rw [← List.map_append]
    congr 1
    have happend : List.range' 0 (numBlocks d file) ++ List.range' (0 + numBlocks d file) (d.src.blocks - numBlocks d file) = _ :=
      List.range'_append_1
    rw [Nat.zero_add, Nat.add_sub_cancel' hblocks] at happend
    exact happend.symm
  have hpadded : joined ((List.range' 0 (numBlocks d file)).map (held mapping s')) = padded d file := by
    have hchunks : (List.range' 0 (numBlocks d file)).map (held mapping s') = (List.range' 0 (numBlocks d file)).map (chunk d file) := by
      apply List.map_congr_left
      intro j hj
      have hj := List.mem_range'_1.mp hj
      rw [held_flashLoop hapart (by omega) hflash (by omega), if_pos hj]
    rw [hchunks, joined_chunks, List.take_of_length_le (le_numBlocks file)]
    rfl
  have hrest : (List.range' (numBlocks d file) (d.src.blocks - numBlocks d file)).map (held mapping s') =
      (List.range' (numBlocks d file) (d.src.blocks - numBlocks d file)).map (held mapping s) := by
    apply List.map_congr_left
    intro j hj
    have hj := List.mem_range'_1.mp hj
    rw [held_flashLoop hapart (by omega) hflash (by omega), if_neg (by omega)]
  have hlength : (padded d file).length = (joined ((List.range' 0 (numBlocks d file)).map (held mapping s))).length := by
    rw [← hpadded, length_joined, length_joined, List.length_map, List.length_map]
  rw [dump_eq hnew, dump_eq hold, hsplit, hsplit, joined_append, joined_append, hpadded, hrest, hlength, List.drop_left]

end RoundTrip

/-! ### The mapping that is returned -/

section Returned
variable {d : Device} {opens : Bool} {reads : Nat → Bool} {res : Nat → Block UInt8 d.erase} {mapping : Nat → Nat}

theorem findTable_lt {n table : Nat} (h : findTable d reads res n = some table) : table < n := by
  induction n with
  | zero => cases h
  | succ n ih =>
    rw [findTable] at h
    split at h
    · exact Nat.lt_succ_of_lt (ih h)
    split at h
    · cases h
    split at h
    · exact Option.some.inj h ▸ Nat.lt_succ_self n
    · exact Nat.lt_succ_of_lt (ih h)

/-- What is known of a mapping that is returned. -/
structure Returned (d : Device) (res : Nat → Block UInt8 d.erase) (mapping : Nat → Nat) (table : Nat) : Prop where
  below : table < d.res.blocks
  added : addEntries d table (entries d (res table)) (fun _ => 0xffff) = some mapping
  consistent : ∀ i < d.src.blocks, consistent d mapping i = true

theorem returned_of_create (h : createBlockMapping d opens reads res = some mapping) :
    ∃ table, tableBlock d reads res = some table ∧ Returned d res mapping table := by
  unfold createBlockMapping at h
  split at h
  · cases h
  split at h
  · cases h
  obtain ⟨table, htable, h⟩ := Option.bind_eq_some_iff.mp h
  obtain ⟨mapping', hadded, h⟩ := Option.bind_eq_some_iff.mp h
  split at h
  · rename_i hall
    obtain rfl := Option.some.inj h
    refine ⟨table, htable, findTable_lt htable, hadded, ?_⟩
    intro i hi
    exact List.all_eq_true.mp hall i (List.mem_range.mpr hi)
  · cases h

variable {table : Nat}

theorem Returned.exact (h : Returned d res mapping table) {i : Nat} (hi : i < d.src.blocks) :
    mapping i ≠ 0xffff ↔ d.src.bad i = true := by
  have hc := h.consistent i hi
  unfold Bml.consistent at hc
  split at hc
  · rename_i hbad
    exact iff_of_true (of_decide_eq_true (Bool.and_eq_true_iff.mp hc).1) hbad
  · rename_i hbad
    exact iff_of_false (not_not_intro (of_decide_eq_true hc)) hbad

/-- The entry of a bad block is the last one the table lists for it. -/
theorem Returned.listed (h : Returned d res mapping table) {i : Nat} (hi : i < d.src.blocks) (hbad : d.src.bad i = true) :
    ∃ a, Bml.listed (entries d (res table)) (d.srcPartStartBlock + i) = some a ∧ InRange d table (d.srcPartStartBlock + i, a) ∧
      mapping i = a - d.reservoirPartStartBlock := by
  obtain ⟨hmap, hrange⟩ := addEntries_spec h.added
  have hne := (h.exact hi).mpr hbad
  have hi := hmap i hi
  cases hlist : Bml.listed (entries d (res table)) (d.srcPartStartBlock + i) with
  | none =>
    rw [hlist] at hi
    exact absurd hi hne
  | some a =>
    rw [hlist] at hi
    exact ⟨a, rfl, hrange _ (listed_mem hlist), hi⟩

theorem Returned.good (h : Returned d res mapping table) {i : Nat} (hi : i < d.src.blocks) (hbad : d.src.bad i = true) :
    target d (mapping i) < table ∧ d.res.bad (target d (mapping i)) = false := by
  have hc := h.consistent i hi
  rw [Bml.consistent, if_pos hbad, Bool.and_eq_true_iff, Bool.not_eq_true'] at hc
  have hlt : target d (mapping i) < d.res.blocks := by
    have hgood := hc.2
    rw [Part.bad, Bool.or_eq_false_iff] at hgood
    simpa using hgood.1
  obtain ⟨a, _, hrange, ha⟩ := h.listed hi hbad
  rw [ha] at hlt ⊢
  exact ⟨target_lt_table hrange h.below hlt, ha ▸ hc.2⟩

/-- The reservoir blocks differ just where the table says so. -/
theorem Returned.apart_iff (h : Returned d res mapping table) :
    (∀ i < d.src.blocks, ∀ j < d.src.blocks, d.src.bad i = true → d.src.bad j = true →
      target d (mapping i) = target d (mapping j) → i = j) ↔ Distinct d (entries d (res table)) := by
  constructor
  · intro hapart i hi j hj hbi hbj a b ha hb htarget
    obtain ⟨a', ha', hra, hia⟩ := h.listed hi hbi
    obtain ⟨b', hb', hrb, hjb⟩ := h.listed hj hbj
    obtain rfl := Option.some.inj (ha.symm.trans ha')
    obtain rfl := Option.some.inj (hb.symm.trans hb')
    apply hapart i hi j hj hbi hbj
    rw [hia, hjb]
    exact (target_sub_eq_iff hra.1 hrb.1).mpr htarget
  · intro hdistinct i hi j hj hbi hbj htarget
    obtain ⟨a, ha, hra, hia⟩ := h.listed hi hbi
    obtain ⟨b, hb, hrb, hjb⟩ := h.listed hj hbj
    rw [hia, hjb] at htarget
    exact hdistinct i hi j hj hbi hbj a b ha hb ((target_sub_eq_iff hra.1 hrb.1).mp htarget)

/-- A mapping that is returned can be trusted just where the table names a block of the reservoir once. -/
theorem sound_iff_distinct (h : createBlockMapping d opens reads res = some mapping) :
    ∃ table, tableBlock d reads res = some table ∧ (Sound d mapping table ↔ Distinct d (entries d (res table))) := by
  obtain ⟨table, htable, hreturned⟩ := returned_of_create h
  refine ⟨table, htable, ?_⟩
  rw [← hreturned.apart_iff]
  constructor
  · intro hsound
    exact hsound.apart
  · intro hapart
    have hplaces : Apart d mapping := by
      intro i hi j hj hmi hmj
      exact hapart i hi j hj ((hreturned.exact hi).mp hmi) ((hreturned.exact hj).mp hmj)
    exact ⟨fun i hi => hreturned.exact hi, fun i hi hbad => hreturned.good hi hbad, hapart,
      fun before after env s s' file old new hfile hold hflash hnew => dump_flash hplaces hfile hold hflash hnew⟩

end Returned

/-- A reservoir of two blocks, one of them with the table, for some bad blocks. -/
def smallDevice (blocks : Nat) (h : blocks * 8192 < 4294967296) : Device where
  erase := 8192
  src := ⟨blocks, some fun _ => true⟩
  res := ⟨2, some fun _ => false⟩
  sameSizes := true
  srcPartStartBlock := 72
  reservoirPartStartBlock := 2004
  erase_dvd := by decide
  src_fits := h
  res_fits := by decide

/-- The block of a table, from its words behind the dummy entry. -/
def tableWith (words : List UInt8) (h : words.length ≤ 4092) : Block UInt8 8192 :=
  ⟨[0x55, 0x50, 0x43, 0x48] ++ List.replicate 4092 0 ++ [0, 0, 0xff, 0xff] ++ words ++ List.replicate (4092 - words.length) 0xff, by
    simp only [List.length_append, List.length_replicate, List.length_cons, List.length_nil]
    omega⟩

def reservoir (table : Block UInt8 8192) (i : Nat) : Block UInt8 8192 :=
  if i = 1 then table else ⟨List.replicate 8192 0xff, List.length_replicate⟩

/-- One entry, 72 to 2004. -/
def oneEntry : Block UInt8 8192 := tableWith [72, 0, 0xd4, 7] (by decide)

theorem sound_iff_distinct_one : ∃ mapping, createBlockMapping (smallDevice 1 (by decide)) true (fun _ => true) (reservoir oneEntry) = some mapping ∧
    ∃ table, tableBlock (smallDevice 1 (by decide)) (fun _ => true) (reservoir oneEntry) = some table ∧
      (Sound (smallDevice 1 (by decide)) mapping table ↔
        Distinct (smallDevice 1 (by decide)) (entries (smallDevice 1 (by decide)) (reservoir oneEntry table))) := by
  have hsome : (createBlockMapping (smallDevice 1 (by decide)) true (fun _ => true) (reservoir oneEntry)).isSome = true := by
    decide +kernel
  obtain ⟨mapping, hmapping⟩ := Option.isSome_iff_exists.mp hsome
  exact ⟨mapping, hmapping, sound_iff_distinct hmapping⟩

/-- Two entries, 72 to 2004 and 73 to 2004. -/
def sharedEntry : Block UInt8 8192 := tableWith [72, 0, 0xd4, 7, 73, 0, 0xd4, 7] (by decide)

theorem not_sound_shared : ¬ ∀ (d : Device) (opens : Bool) (reads : Nat → Bool) (res : Nat → Block UInt8 d.erase) (mapping : Nat → Nat),
    createBlockMapping d opens reads res = some mapping → ∀ table, tableBlock d reads res = some table → Sound d mapping table := by
  intro h
  have hboth : (createBlockMapping (smallDevice 2 (by decide)) true (fun _ => true) (reservoir sharedEntry)).map
      (fun mapping => (mapping 0, mapping 1)) = some (0, 0) := by decide +kernel
  have htable : tableBlock (smallDevice 2 (by decide)) (fun _ => true) (reservoir sharedEntry) = some 1 := by decide +kernel
  obtain ⟨mapping, hmapping, hentries⟩ := Option.map_eq_some_iff.mp hboth
  obtain ⟨h0, h1⟩ := Prod.mk.inj hentries
  have hsound := h _ _ _ _ mapping hmapping 1 htable
  exact absurd (hsound.apart 0 (by decide) 1 (by decide) rfl rfl (by rw [h0, h1])) (by decide)

end Twrp.Mtd.Bml
