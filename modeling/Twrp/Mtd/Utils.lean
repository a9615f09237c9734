import Twrp.Base.Abi
import Twrp.Base.Blocks

/-! Raw reading and writing of an MTD partition (`mtdutils.c`).

A flash is read, erased and written in blocks. A block can be marked bad, which the driver tells when
asked with `MEMGETBADBLOCK`, if it knows marks at all. Any other block can be worn out: it fails to
erase, or what is written to it does not read back, however often one tries. Reading a block may fail,
and may count ECC failures in the statistics of the device.

Seeks go to multiples of the erase size only, so that places are counted in blocks here. -/
namespace Twrp.Mtd
open Base

/-- `MtdPartition`, as `mtd_scan_partitions` fills it from `/proc/mtd`. -/
structure MtdPartition where
  size : Nat
  eraseSize : Nat
  size_lt : size < 4294967296
  eraseSize_gt : 1 < eraseSize
  /-- A buffer of one block can be allocated. -/
  eraseSize_lt : eraseSize < 2147483648
  /-- One block past the end is still an `off_t`. -/
  end_lt : size < 2147483648 → size + eraseSize < 2147483648
  /-- How many blocks pass the test `pos + size <= (int) partition->size`. -/
  blocks : Nat
  lt_blocks : ∀ pos : Nat, pos < blocks ↔ ((pos * eraseSize + eraseSize : Nat) : Int) ≤ int size

namespace MtdPartition
variable (p : MtdPartition)

/-- Every whole block of the partition. -/
def total : Nat := p.size / p.eraseSize

theorem blocks_small (h : p.size < 2147483648) : p.blocks = p.total := by
  have he := p.eraseSize_gt
  have hlt : ∀ pos, pos < p.blocks ↔ pos < p.total := by
    intro pos
    rw [p.lt_blocks, int_small h, Int.ofNat_le, total, Nat.lt_iff_add_one_le, Nat.le_div_iff_mul_le (by omega), Nat.add_mul,
      Nat.one_mul]
  exact le_antisymm (Nat.le_of_not_lt fun hcon => absurd ((hlt _).mp hcon) (lt_irrefl _))
    (Nat.le_of_not_lt fun hcon => absurd ((hlt _).mpr hcon) (lt_irrefl _))

/-- Of a partition of 2 GiB or more, no block passes the test. -/
theorem blocks_large (h : ¬p.size < 2147483648) : p.blocks = 0 := by
  apply Nat.eq_zero_of_not_pos
  rw [p.lt_blocks]
  have := int_large (Nat.le_of_not_lt h) p.size_lt
  omega

theorem blocks_le : p.blocks ≤ p.total := by
  by_cases h : p.size < 2147483648
  · rw [p.blocks_small h]
  · rw [p.blocks_large h]
    exact Nat.zero_le _

theorem blocks_mul_lt : p.blocks * p.eraseSize < 2147483648 := by
  by_cases h : p.size < 2147483648
  · rw [p.blocks_small h]
    exact Nat.lt_of_le_of_lt (Nat.div_mul_le_self _ _) h
  · rw [p.blocks_large h, Nat.zero_mul]
    decide

theorem total_lt : p.total < 2147483648 := by
  have := p.size_lt
  have he := p.eraseSize_gt
  rw [total, Nat.div_lt_iff_lt_mul (by omega)]
  omega

end MtdPartition

/-- How reading a block goes: whether `read` fails, and how many ECC failures it counts. -/
structure Reading where
  fails : Bool
  ecc : Nat
deriving DecidableEq

def Reading.clean : Reading := ⟨false, 0⟩

/-- Why a block cannot be written: erasing it fails, or what is programmed reads back as something
else. -/
inductive Fault (e : Nat) where
  | erase
  | verify (garble : Block UInt8 e → Block UInt8 e) (differs : ∀ b, garble b ≠ b)

/-- The state of a flash: what its blocks hold, the ECC failures counted so far, and the file offset,
in blocks. -/
structure Flash (e : Nat) where
  content : Nat → Block UInt8 e
  failed : Nat
  offset : Nat

/-- The flash behind a file just opened. -/
def Flash.rewound {e : Nat} (d : Flash e) : Flash e := { d with offset := 0 }

/-- A flash chip under one partition. -/
structure Chip extends MtdPartition where
  /-- The blocks marked bad, if the driver knows marks at all. -/
  marks : Option (Nat → Bool)
  reading : Nat → Reading
  fault : Nat → Option (Fault eraseSize)
  /-- A block that is neither marked nor worn out reads without failures. -/
  sound : ∀ i, marks.elim false (· i) = false → fault i = none → reading i = .clean

inductive Errno where
  | none
  | EOPNOTSUPP
deriving DecidableEq

/-- The content of an erased block. -/
def erased (e : Nat) : Block UInt8 e := ⟨List.replicate e 0xff, List.length_replicate⟩

namespace Chip
variable (c : Chip)

def marked (i : Nat) : Bool := c.marks.elim false (· i)

/-- `ioctl(fd, MEMGETBADBLOCK, &pos)`, with `errno`. -/
def memgetbadblock (i : Nat) : Int × Errno :=
  match c.marks with
  | none => (-1, .EOPNOTSUPP)
  | some bad => (if bad i then 1 else 0, .none)

/-- `lseek` to a block and `read` it. -/
def read (i : Nat) (d : Flash c.eraseSize) : Option (Block UInt8 c.eraseSize) × Flash c.eraseSize :=
  if (c.reading i).fails then (none, { d with failed := d.failed + (c.reading i).ecc, offset := i })
  else (some (d.content i), { d with failed := d.failed + (c.reading i).ecc, offset := i + 1 })

/-- `ioctl(fd, MEMERASE, &erase_info)`; whether it is done. -/
def memerase (i : Nat) (d : Flash c.eraseSize) : Bool × Flash c.eraseSize :=
  match c.fault i with
  | some .erase => (false, d)
  | _ => (true, { d with content := Function.update d.content i (erased c.eraseSize) })

/-- `lseek` to a block and `write` it. -/
def write (i : Nat) (b : Block UInt8 c.eraseSize) (d : Flash c.eraseSize) : Flash c.eraseSize :=
  match c.fault i with
  | some (.verify garble _) => { d with content := Function.update d.content i (garble b), offset := i + 1 }
  | _ => { d with content := Function.update d.content i b, offset := i + 1 }

/-- The loop of `read_block`: blocks that cannot be read, that count ECC failures or that are marked
are passed over. -/
def readBlockFrom (before pos : Nat) (d : Flash c.eraseSize) : Option (Block UInt8 c.eraseSize × Flash c.eraseSize) :=
  if pos < c.blocks then
    match c.read pos d with
    | (none, d) => readBlockFrom before (pos + 1) d
    | (some data, d) =>
      if d.failed ≠ before then
        -- the comparison baseline for the next read
        readBlockFrom d.failed (pos + 1) d
      else if (c.memgetbadblock pos).1 ≠ 0 then readBlockFrom before (pos + 1) d
      else some (data, d)
  else none
termination_by c.blocks - pos

/-- `read_block`. -/
def readBlock (d : Flash c.eraseSize) : Option (Block UInt8 c.eraseSize × Flash c.eraseSize) :=
  c.readBlockFrom d.failed d.offset d

/-- One round of the retry loop of `write_block`: erase, write, read again and compare. -/
def writeOnce (pos : Nat) (data : Block UInt8 c.eraseSize) (d : Flash c.eraseSize) : Bool × Flash c.eraseSize :=
  match c.memerase pos d with
  | (false, d) => (false, d)
  | (true, d) =>
    match c.read pos (c.write pos data d) with
    | (none, d) => (false, d)
    | (some verify, d) => (decide (data = verify), d)

/-- The loop of `write_block`: marked blocks are passed over, and so are those that fail twice, which
are erased once more. -/
def writeBlockFrom (pos : Nat) (data : Block UInt8 c.eraseSize) (d : Flash c.eraseSize) :
    Except (Flash c.eraseSize) (Flash c.eraseSize) :=
  if pos < c.blocks then
    if (c.memgetbadblock pos).1 ≠ 0 ∧ ¬((c.memgetbadblock pos).1 = -1 ∧ (c.memgetbadblock pos).2 = .EOPNOTSUPP) then
      writeBlockFrom (pos + 1) data d
    else
      match c.writeOnce pos data d with
      | (true, d) => .ok d
      | (false, d) =>
        match c.writeOnce pos data d with
        | (true, d) => .ok d
        | (false, d) => writeBlockFrom (pos + 1) data (c.memerase pos d).2
  else .error d
termination_by c.blocks - pos

/-- `write_block`; an error leaves the flash as it is then. -/
def writeBlock (data : Block UInt8 c.eraseSize) (d : Flash c.eraseSize) : Except (Flash c.eraseSize) (Flash c.eraseSize) :=
  c.writeBlockFrom d.offset data d

/-- `mtd_erase_blocks` on blocks `pos` to `pos + blocks - 1`, once the pending data is written. -/
def eraseFrom (pos : Nat) : (blocks : Nat) → Flash c.eraseSize → Flash c.eraseSize
  | 0, d => d
  | blocks + 1, d =>
    if (c.memgetbadblock pos).1 > 0 then eraseFrom (pos + 1) blocks d
    else eraseFrom (pos + 1) blocks (c.memerase pos d).2

end Chip

/-- `MtdReadContext`: one block, of which the first `consumed` bytes have been handed out. -/
structure MtdReadContext (e : Nat) where
  buffer : Block UInt8 e
  consumed : Nat
  consumed_le : consumed ≤ e

/-- `MtdWriteContext`: the `stored` bytes of its buffer. -/
structure MtdWriteContext (e : Nat) where
  buffer : List UInt8
  stored_le : buffer.length ≤ e

namespace MtdReadContext
variable {e : Nat}

/-- A context of `mtd_read_partition`: nothing is buffered. -/
def opened (e : Nat) : MtdReadContext e := ⟨erased e, e, le_refl e⟩

/-- What the buffer still holds. -/
def held (ctx : MtdReadContext e) : List UInt8 := ctx.buffer.val.drop ctx.consumed

/-- `copy`: as much of `want` bytes as the buffer has. -/
def copy (ctx : MtdReadContext e) (want : Nat) : Nat := min want (e - ctx.consumed)

def advance (ctx : MtdReadContext e) (want : Nat) : MtdReadContext e where
  buffer := ctx.buffer
  consumed := ctx.consumed + ctx.copy want
  consumed_le := by
    have := ctx.consumed_le
    unfold copy
    omega

def filled (b : Block UInt8 e) : MtdReadContext e := ⟨b, 0, Nat.zero_le e⟩

end MtdReadContext

namespace Chip
variable (c : Chip)

/-- The inner loop of `mtd_read_data`: complete blocks straight into the user's buffer. -/
def readWholes (want : Nat) (d : Flash c.eraseSize) : Option (List UInt8 × Flash c.eraseSize) :=
  if c.eraseSize ≤ want then
    match c.readBlock d with
    | none => none
    | some (b, d) => (readWholes (want - c.eraseSize) d).map fun (data, d) => (b.val ++ data, d)
  else some ([], d)
termination_by want
decreasing_by
  have := c.eraseSize_gt
  omega

/-- The loop of `mtd_read_data`, with `want` bytes still to read; `none` is the result -1. The buffer
is emptied first, and only then are blocks read: whole ones for the user, and one into the buffer for
what is less than a block. -/
def readLoop (ctx : MtdReadContext c.eraseSize) (want : Nat) (d : Flash c.eraseSize) :
    Option (List UInt8 × MtdReadContext c.eraseSize × Flash c.eraseSize) :=
  if (ctx.advance want).consumed = c.eraseSize then
    match c.readWholes (want - ctx.copy want) d with
    | none => none
    | some (whole, d) =>
      if _h : want - ctx.copy want - whole.length = 0 then some (ctx.held.take want ++ whole, ctx.advance want, d)
      else
        match c.readBlock d with
        | none => none
        | some (b, d) =>
          (readLoop (.filled b) (want - ctx.copy want - whole.length) d).map fun (data, ctx', d) =>
            (ctx.held.take want ++ whole ++ data, ctx', d)
  else some (ctx.held.take want, ctx.advance want, d)
termination_by 2 * want + (if ctx.consumed = c.eraseSize then 1 else 0)
decreasing_by
  have he := c.eraseSize_gt
  have hle := ctx.consumed_le
  have hfilled : (MtdReadContext.filled b).consumed = 0 := rfl
  rw [if_neg (by omega)]
  by_cases hconsumed : ctx.consumed = c.eraseSize
  · rw [if_pos hconsumed]
    omega
  · have hcopy : 0 < ctx.copy want := by
      unfold MtdReadContext.copy
      omega
    omega

/-- `mtd_read_data`. -/
def mtdReadData (ctx : MtdReadContext c.eraseSize) (len : Nat) (d : Flash c.eraseSize) :
    Option (List UInt8 × MtdReadContext c.eraseSize × Flash c.eraseSize) :=
  if int len ≤ 0 then some ([], ctx, d)
  else c.readLoop ctx len d

/-- What is left to read, at most. -/
def unread (ctx : MtdReadContext c.eraseSize) (d : Flash c.eraseSize) : Nat :=
  (c.blocks - d.offset) * c.eraseSize + (c.eraseSize - ctx.consumed)

variable {c}

theorem readBlockFrom_offset {before pos : Nat} {d d' : Flash c.eraseSize} {b : Block UInt8 c.eraseSize}
    (h : c.readBlockFrom before pos d = some (b, d')) : pos < d'.offset ∧ d'.offset ≤ c.blocks := by
  fun_induction c.readBlockFrom before pos d with
  | case1 before pos d hpos d₁ hread ih =>
    have := ih h
    omega
  | case2 before pos d hpos data d₁ hread hfailed ih =>
    have := ih h
    omega
  | case3 before pos d hpos data d₁ hread hfailed hbad ih =>
    have := ih h
    omega
  | case4 before pos d hpos data d₁ hread hfailed hbad =>
    obtain ⟨rfl, rfl⟩ := Prod.mk.inj (Option.some.inj h)
    unfold read at hread
    split at hread
    · exact absurd (congrArg Prod.fst hread) (by simp)
    · rw [← (Prod.mk.inj hread).2]
      exact ⟨Nat.lt_succ_self pos, hpos⟩
  | case5 => exact absurd h (by simp)

theorem readWholes_offset {want : Nat} {d d' : Flash c.eraseSize} {data : List UInt8}
    (h : c.readWholes want d = some (data, d')) :
    (c.blocks - d'.offset) * c.eraseSize + data.length ≤ (c.blocks - d.offset) * c.eraseSize := by
  fun_induction c.readWholes want d generalizing data with
  | case1 => exact absurd h (by simp)
  | case2 want d hle b d₁ hblock ih =>
    obtain ⟨⟨data', d₂⟩, hrest, heq⟩ := Option.map_eq_some_iff.mp h
    obtain ⟨rfl, rfl⟩ := Prod.mk.inj heq
    have hstep := readBlockFrom_offset hblock
    have hblocks : c.blocks - d.offset = c.blocks - d₁.offset + (d₁.offset - d.offset) := by omega
    have hone : 1 * c.eraseSize ≤ (d₁.offset - d.offset) * c.eraseSize := Nat.mul_le_mul_right _ (by omega)
    have := ih hrest
    rw [hblocks, Nat.add_mul, List.length_append, b.property]
    omega
  | case3 want d hlt =>
    obtain ⟨rfl, rfl⟩ := Prod.mk.inj (Option.some.inj h)
    exact le_refl _

/-- Every byte handed out comes off what is left to read. -/
theorem readLoop_unread {ctx ctx' : MtdReadContext c.eraseSize} {want : Nat} {d d' : Flash c.eraseSize} {data : List UInt8}
    (h : c.readLoop ctx want d = some (data, ctx', d')) : c.unread ctx' d' + data.length ≤ c.unread ctx d := by
  have hheld : ∀ (ctx : MtdReadContext c.eraseSize) (want : Nat),
      c.eraseSize - (ctx.advance want).consumed + (ctx.held.take want).length = c.eraseSize - ctx.consumed := by
    intro ctx want
    have hle := ctx.consumed_le
    simp only [MtdReadContext.advance, MtdReadContext.copy, MtdReadContext.held, List.length_take, List.length_drop, ctx.buffer.property]
    omega
  fun_induction c.readLoop ctx want d generalizing data with
  | case1 => exact absurd h (by simp)
  | case2 ctx want d hempty whole d₁ hwhole hzero =>
    obtain ⟨rfl, heq⟩ := Prod.mk.inj (Option.some.inj h)
    obtain ⟨rfl, rfl⟩ := Prod.mk.inj heq
    have := readWholes_offset hwhole
    have := hheld ctx want
    simp only [unread, List.length_append]
    omega
  | case3 => exact absurd h (by simp)
  | case4 ctx want d hempty whole d₁ hwhole hrest b d₂ hblock ih =>
    obtain ⟨⟨data', ctx₂, d₃⟩, hloop, heq⟩ := Option.map_eq_some_iff.mp h
    obtain ⟨rfl, hstate⟩ := Prod.mk.inj heq
    obtain ⟨rfl, rfl⟩ := Prod.mk.inj hstate
    have hwholes := readWholes_offset hwhole
    have hstep := readBlockFrom_offset hblock
    have hblocks : c.blocks - d₁.offset = c.blocks - d₂.offset + (d₂.offset - d₁.offset) := by omega
    have hone : 1 * c.eraseSize ≤ (d₂.offset - d₁.offset) * c.eraseSize := Nat.mul_le_mul_right _ (by omega)
    rw [hblocks, Nat.add_mul] at hwholes
    have := ih hloop
    have := hheld ctx want
    simp only [unread, MtdReadContext.filled, List.length_append] at *
    omega
  | case5 ctx want d hfull =>
    obtain ⟨rfl, heq⟩ := Prod.mk.inj (Option.some.inj h)
    obtain ⟨rfl, rfl⟩ := Prod.mk.inj heq
    have := hheld ctx want
    simp only [unread]
    omega

end Chip

/-- What the steps of a command around the copying answer. -/
structure Host where
  fopen : Bool
  scan : Int
  find : Bool
  info : Bool
  opened : Bool
  context : Bool
  /-- Whether a `write` to the backup file is complete, by its number. -/
  writes : Nat → Bool
  close : Bool

namespace MtdWriteContext
variable {e : Nat}

/-- A context of `mtd_write_partition`: nothing is stored. -/
def opened (e : Nat) : MtdWriteContext e := ⟨[], Nat.zero_le e⟩

/-- Whether data goes to the buffer: something is stored, or less than a block is left. -/
def partly (ctx : MtdWriteContext e) (data : List UInt8) : Prop := 0 < ctx.buffer.length ∨ data.length < e

instance (ctx : MtdWriteContext e) (data : List UInt8) : Decidable (ctx.partly data) := inferInstanceAs (Decidable (_ ∨ _))

/-- Coalesce partial writes into complete blocks. -/
def coalesce (ctx : MtdWriteContext e) (data : List UInt8) : MtdWriteContext e where
  buffer := if ctx.partly data then ctx.buffer ++ data.take (e - ctx.buffer.length) else ctx.buffer
  stored_le := by
    have := ctx.stored_le
    split
    · simp only [List.length_append, List.length_take]
      omega
    · exact this

/-- The data that is not in the buffer then. -/
def uncopied (ctx : MtdWriteContext e) (data : List UInt8) : List UInt8 :=
  if ctx.partly data then data.drop (e - ctx.buffer.length) else data

/-- The buffer, once it is written if it is full. -/
def emptied (ctx : MtdWriteContext e) : MtdWriteContext e := if ctx.buffer.length = e then opened e else ctx

/-- The data left once complete blocks are written from the user's buffer. -/
def unwritten (ctx : MtdWriteContext e) (data : List UInt8) : List UInt8 :=
  if ctx.buffer.length = 0 then leftover e data else data

/-- The buffer padded with zeros to a block. -/
def padded (ctx : MtdWriteContext e) : Block UInt8 e :=
  ⟨ctx.buffer ++ List.replicate (e - ctx.buffer.length) 0, by
    rw [List.length_append, List.length_replicate]
    exact Nat.add_sub_of_le ctx.stored_le⟩

/-- A round of the loop takes data, or empties a full buffer. -/
theorem round_decreases (he : 1 < e) (ctx : MtdWriteContext e) {data : List UInt8} (hne : data ≠ []) :
    2 * ((ctx.coalesce data).emptied.unwritten (ctx.uncopied data)).length + (if (ctx.coalesce data).emptied.buffer.length = e then 1 else 0) <
      2 * data.length + (if ctx.buffer.length = e then 1 else 0) := by
  have hpos := List.length_pos_of_ne_nil hne
  have hstored := ctx.stored_le
  have hmod : ∀ l : List UInt8, (leftover e l).length ≤ l.length := by
    intro l
    rw [length_leftover]
    exact Nat.mod_le _ _
  have hnotfull : ¬(ctx.coalesce data).emptied.buffer.length = e := by
    unfold emptied
    split
    · exact fun h => absurd h (by simp only [opened, List.length_nil]; omega)
    · assumption
  rw [if_neg hnotfull]
  have hunwritten : ∀ l, ((ctx.coalesce data).emptied.unwritten l).length ≤ l.length := by
    intro l
    unfold unwritten
    split
    · exact hmod l
    · exact le_refl _
  have hle := hunwritten (ctx.uncopied data)
  by_cases hpartly : ctx.partly data
  · rw [uncopied, if_pos hpartly] at hle ⊢
    rw [List.length_drop] at hle
    split <;> omega
  · obtain ⟨hempty, hlong⟩ := not_or.mp hpartly
    rw [Nat.not_lt, Nat.le_zero] at hempty
    have hcoalesce : (ctx.coalesce data).emptied.buffer.length = 0 := by
      have hbuffer : (ctx.coalesce data).buffer = ctx.buffer := if_neg hpartly
      unfold emptied
      rw [if_neg (by rw [hbuffer]; omega), hbuffer, hempty]
    rw [uncopied, if_neg hpartly, unwritten, if_pos hcoalesce, length_leftover]
    have := Nat.mod_lt data.length (show e > 0 by omega)
    omega

end MtdWriteContext

namespace Chip
variable (c : Chip)

/-- If a complete block was accumulated, write it. -/
def writeFull (ctx : MtdWriteContext c.eraseSize) (d : Flash c.eraseSize) : Except (Flash c.eraseSize) (Flash c.eraseSize) :=
  if h : ctx.buffer.length = c.eraseSize then c.writeBlock ⟨ctx.buffer, h⟩ d else .ok d

/-- The blocks of a list, written one after the other. -/
def writeBlocks : List (Block UInt8 c.eraseSize) → Flash c.eraseSize → Except (Flash c.eraseSize) (Flash c.eraseSize)
  | [], d => .ok d
  | b :: bs, d => c.writeBlock b d >>= writeBlocks bs

/-- Write complete blocks directly from the user's buffer. -/
def writeDirect (ctx : MtdWriteContext c.eraseSize) (data : List UInt8) (d : Flash c.eraseSize) :
    Except (Flash c.eraseSize) (Flash c.eraseSize) :=
  if ctx.buffer.length = 0 then c.writeBlocks (wholes c.eraseSize data) d else .ok d

/-- `mtd_write_data`; an error is the result -1. -/
def mtdWriteData (ctx : MtdWriteContext c.eraseSize) (data : List UInt8) (d : Flash c.eraseSize) :
    Except (Flash c.eraseSize) (MtdWriteContext c.eraseSize × Flash c.eraseSize) :=
  if _h : data = [] then .ok (ctx, d)
  else do
    let d ← c.writeFull (ctx.coalesce data) d
    let d ← c.writeDirect (ctx.coalesce data).emptied (ctx.uncopied data) d
    mtdWriteData (ctx.coalesce data).emptied ((ctx.coalesce data).emptied.unwritten (ctx.uncopied data)) d
termination_by 2 * data.length + (if ctx.buffer.length = c.eraseSize then 1 else 0)
decreasing_by exact ctx.round_decreases c.eraseSize_gt _h

/-- Zero-pad and write any pending data to get to a block boundary. -/
def flush (ctx : MtdWriteContext c.eraseSize) (d : Flash c.eraseSize) : Except (Flash c.eraseSize) (Flash c.eraseSize) :=
  if 0 < ctx.buffer.length then c.writeBlock ctx.padded d else .ok d

/-- `mtd_erase_blocks`; an error is the result -1. -/
def mtdEraseBlocks (ctx : MtdWriteContext c.eraseSize) (blocks : Int) (d : Flash c.eraseSize) :
    Except (Flash c.eraseSize) (MtdWriteContext c.eraseSize × Flash c.eraseSize) := do
  let d ← c.flush ctx d
  let total := int ((c.size - d.offset * c.eraseSize) / c.eraseSize)
  let blocks := if blocks < 0 then total else blocks
  if blocks > total then .error d
  else return (.opened _, c.eraseFrom d.offset blocks.toNat d)

/-- `mtd_write_close`: its result and the flash. -/
def mtdWriteClose (host : Host) (ctx : MtdWriteContext c.eraseSize) (d : Flash c.eraseSize) : Int × Flash c.eraseSize :=
  match c.mtdEraseBlocks ctx 0 d with
  | .error d => (-1, d)
  | .ok (_, d) => (if host.close then 0 else -1, d)

/-- The pieces a file is read in, written one after the other. -/
def writeAll : List (List UInt8) → MtdWriteContext c.eraseSize → Flash c.eraseSize →
    Except (Flash c.eraseSize) (MtdWriteContext c.eraseSize × Flash c.eraseSize)
  | [], ctx, d => .ok (ctx, d)
  | data :: pieces, ctx, d => c.mtdWriteData ctx data d >>= fun (ctx, d) => writeAll pieces ctx d

/-- `cmd_mtd_restore_raw_partition` of a file that `fread` delivers in `pieces`: its result and the
flash. What the closing calls return is printed only. -/
def cmdMtdRestoreRawPartition (host : Host) (pieces : List (List UInt8)) (d : Flash c.eraseSize) : Int × Flash c.eraseSize :=
  if !host.fopen then (-1, d)
  else if host.scan ≤ 0 then (-1, d)
  else if !host.find then (-1, d)
  else if !host.opened then (-1, d)
  else if !host.context then (-1, d)
  else
    match c.writeAll pieces (.opened _) d.rewound with
    | .error d => (-1, d)
    | .ok (ctx, d) =>
      match c.mtdEraseBlocks ctx (-1) d with
      | .error d => (0, (c.mtdWriteClose host ctx d).2)
      | .ok (ctx, d) => (0, (c.mtdWriteClose host ctx d).2)

/-- The copying loop of `cmd_mtd_backup_raw_partition`, with the file so far; `none` for a write that
is not complete. -/
def backupLoop (writes : Nat → Bool) (n : Nat) (file : List UInt8) (ctx : MtdReadContext c.eraseSize) (d : Flash c.eraseSize) :
    Option (List UInt8) :=
  match _h : c.mtdReadData ctx 2048 d with
  | none => some file
  | some (data, ctx', d') =>
    if _hdata : data.length = 0 then some file
    else if writes n then backupLoop writes (n + 1) (file ++ data) ctx' d'
    else none
termination_by c.unread ctx d
decreasing_by
  rw [mtdReadData, int_small (by decide), if_neg (by decide)] at _h
  have := readLoop_unread _h
  omega

/-- `cmd_mtd_backup_raw_partition`: its result and the file it leaves. -/
def cmdMtdBackupRawPartition (host : Host) (d : Flash c.eraseSize) : Int × Option (List UInt8) :=
  if host.scan ≤ 0 then (-1, none)
  else if !host.find then (-1, none)
  else if !host.info then (-1, none)
  else if !host.opened then (-1, none)
  else if !host.context then (-1, none)
  else
    match c.backupLoop host.writes 0 [] (.opened _) d.rewound with
    | none => (-1, none)
    | some file => if host.close then (0, some file) else (-1, none)

end Chip

end Twrp.Mtd
