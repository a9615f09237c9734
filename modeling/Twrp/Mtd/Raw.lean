import Twrp.Mtd.Writer

/-! Raw backup and restore of a partition.

Backup and restore meet the same blocks when no block is worn out: those that are not marked bad. That
needs a driver that knows marks, since the reader takes the answer of one that does not for a mark,
where the writer does not; a partition below 2 GiB, since its size is compared as an `int`; and no
failed read before a good block that has counted ECC failures, since only the next good read brings the
baseline of the comparison up to date, and is dropped for it. -/
namespace Twrp.Mtd
open Base

/-- Every step of a restore before the copying is done. -/
structure Host.Opens (host : Host) : Prop where
  fopen : host.fopen = true
  scan : 0 < host.scan
  find : host.find = true
  opened : host.opened = true
  context : host.context = true

/-- Every step of both commands around the copying is done. -/
structure Host.Works (host : Host) : Prop extends host.Opens where
  info : host.info = true
  writes : ∀ n, host.writes n = true
  close : host.close = true

namespace Chip
variable {c : Chip} {host : Host} {d : Flash c.eraseSize}

/-- A backup holds what the reader delivers. -/
theorem cmdMtdBackupRawPartition_eq (hworks : host.Works) (hdvd : 2048 ∣ c.eraseSize) (d : Flash c.eraseSize) :
    c.cmdMtdBackupRawPartition host d = (0, some (joined (c.toRead d.rewound))) := by
  have hscan := hworks.scan
  have hlength : 2048 ∣ (joined (c.toRead d.rewound)).length := by
    rw [length_joined]
    exact hdvd.mul_right _
  have hloop : c.backupLoop host.writes 0 [] (.opened _) d.rewound = some (joined (c.toRead d.rewound)) :=
    backupLoop_done (delivers_opened c d) (length_toRead_lt c _) hlength hworks.writes
  simp only [cmdMtdBackupRawPartition, hworks.find, hworks.info, hworks.opened, hworks.context, hworks.close, hloop,
    if_neg (Int.not_le.mpr hscan)]
  rfl

/-- A restore that gets to the copying returns what the copying says. -/
theorem cmdMtdRestoreRawPartition_eq (hopens : host.Opens) (pieces : List (List UInt8)) (d : Flash c.eraseSize) :
    c.cmdMtdRestoreRawPartition host pieces d =
      match c.writeAll pieces (.opened _) d.rewound with
      | .error d => (-1, d)
      | .ok (ctx, d) =>
        match c.mtdEraseBlocks ctx (-1) d with
        | .error d => (0, (c.mtdWriteClose host ctx d).2)
        | .ok (ctx, d) => (0, (c.mtdWriteClose host ctx d).2) := by
  simp only [cmdMtdRestoreRawPartition, hopens.fopen, hopens.find, hopens.opened, hopens.context, if_neg (Int.not_le.mpr hopens.scan)]
  rfl

theorem opens_of_restored {pieces : List (List UInt8)} (h : (c.cmdMtdRestoreRawPartition host pieces d).1 = 0) : host.Opens := by
  unfold cmdMtdRestoreRawPartition at h
  split at h
  · exact absurd h (by simp)
  · split at h
    · exact absurd h (by simp)
    · split at h
      · exact absurd h (by simp)
      · split at h
        · exact absurd h (by simp)
        · split at h
          · exact absurd h (by simp)
          · rename_i h1 h2 h3 h4 h5
            exact ⟨by simpa using h1, Int.not_le.mp h2, by simpa using h3, by simpa using h4, by simpa using h5⟩

/-- A restore returns 0 when the whole blocks of the file fit; what the closing calls say does not count. -/
theorem restored_iff {pieces : List (List UInt8)} {data : List UInt8} (hpieces : pieces.flatten = data) :
    (c.cmdMtdRestoreRawPartition host pieces d).1 = 0 ↔ host.Opens ∧ data.length / c.eraseSize ≤ c.capacity := by
  constructor
  · intro h
    have hopens := opens_of_restored h
    refine ⟨hopens, Nat.le_of_not_lt fun hlt => ?_⟩
    obtain ⟨d', hwrite⟩ := writeAll_overflows (d := d) hpieces hlt
    rw [cmdMtdRestoreRawPartition_eq hopens, hwrite] at h
    exact absurd h (by simp)
  · intro ⟨hopens, hle⟩
    obtain ⟨d', hwrite, -⟩ := writeAll_fits (d := d) hpieces hle
    rw [cmdMtdRestoreRawPartition_eq hopens, hwrite]
    rcases herase : c.mtdEraseBlocks (c.waiting data) (-1) d' with d₂ | ⟨ctx, d₂⟩ <;> simp only [herase]

/-- When all calls report success, the restore leaves the flash they leave. -/
theorem restored_writeOut (hopens : host.Opens) {pieces : List (List UInt8)} {d' : Flash c.eraseSize}
    (h : c.writeOut host pieces d = some d') : c.cmdMtdRestoreRawPartition host pieces d = (0, d') := by
  rw [cmdMtdRestoreRawPartition_eq hopens]
  rcases hwrite : c.writeAll pieces (.opened _) d.rewound with d₁ | ⟨ctx, d₁⟩
  · simp [writeOut, hwrite] at h
  · rcases herase : c.mtdEraseBlocks ctx (-1) d₁ with d₂ | ⟨ctx₂, d₂⟩
    · simp [writeOut, hwrite, herase] at h
    · simp only [writeOut, hwrite, herase] at h ⊢
      split at h
      · exact congrArg _ (Option.some.inj h)
      · exact absurd h (by simp)

section RoundTrip

/-- The blocks that are not marked bad, in order. -/
def good (c : Chip) (d : Flash c.eraseSize) : List (Block UInt8 c.eraseSize) := (ahead (fun i => !c.marked i) c.total 0).map d.content

/-- Backup and restore: the file is the good blocks in order, whatever the sizes of the requests, and
however the file is cut, restoring it over any contents brings every good block back. -/
structure RoundTrip (c : Chip) (host : Host) (d : Flash c.eraseSize) : Prop where
  backup : c.cmdMtdBackupRawPartition host d = (0, some (joined (c.good d)))
  reads : ∀ lens : List Nat, lens.sum ≤ (joined (c.good d)).length →
    c.readPieces lens (.opened _) d.rewound = some ((joined (c.good d)).take lens.sum)
  restore : ∀ (pieces : List (List UInt8)) (now : Flash c.eraseSize), pieces.flatten = joined (c.good d) →
    (c.cmdMtdRestoreRawPartition host pieces now).1 = 0 ∧
      ∀ i < c.total, c.marked i = false → (c.cmdMtdRestoreRawPartition host pieces now).2.content i = d.content i

theorem unmarked_of_delivered {i : Nat} (h : c.delivered i = true) : c.marked i = false := by
  simp only [delivered, Bool.and_eq_true, Bool.not_eq_true'] at h
  exact h.1.1.1.2

/-- The reader delivers good blocks only. -/
theorem delivered_sublist (c : Chip) : (ahead c.delivered c.blocks 0).Sublist (ahead (fun i => !c.marked i) c.total 0) := by
  have hrange : (List.range' 0 (c.blocks - 0)).Sublist (List.range' 0 (c.total - 0)) := by
    rw [List.range'_sublist_right]
    exact Nat.sub_le_sub_right c.blocks_le 0
  apply (hrange.filter _).trans
  apply List.monotone_filter_right
  intro i hi
  rw [unmarked_of_delivered hi]
  rfl

/-- Every good block can be delivered: marks are known, the size is an `int` and no baseline is out of
date. -/
def GoodRead (c : Chip) : Prop :=
  c.size < 2147483648 ∧ c.marks.isSome = true ∧ ∀ i < c.total, c.marked i = false → c.stale i = false

variable (hwritable : ∀ i, c.marked i = false → c.fault i = none)
include hwritable

theorem delivered_eq (hgood : c.GoodRead) {i : Nat} (hi : i < c.total) : c.delivered i = !c.marked i := by
  cases hmarked : c.marked i with
  | true =>
    rw [Bool.not_true, Bool.eq_false_iff]
    exact fun h => absurd (unmarked_of_delivered h) (by simp [hmarked])
  | false =>
    have hclean := c.sound i hmarked (hwritable i hmarked)
    simp [delivered, hgood.2.1, hmarked, hclean, Reading.clean, hgood.2.2 i hi hmarked]

theorem usable_eq (i : Nat) : c.usable i = !c.marked i := by
  cases hmarked : c.marked i with
  | true => simp [usable, hmarked]
  | false => simp [usable, hmarked, hwritable i hmarked]

/-- The reader delivers every good block, if any good block can be read at all. -/
theorem delivered_good (hgood : (∃ i < c.total, c.marked i = false) → c.GoodRead) :
    ahead c.delivered c.blocks 0 = ahead (fun i => !c.marked i) c.total 0 := by
  by_cases hex : ∃ i < c.total, c.marked i = false
  · rw [c.blocks_small (hgood hex).1]
    exact ahead_congr fun i hi => delivered_eq hwritable (hgood hex) hi
  · have hnil : ahead (fun i => !c.marked i) c.total 0 = [] := by
      rw [List.eq_nil_iff_forall_not_mem]
      intro i hi
      rw [mem_ahead] at hi
      exact hex ⟨i, hi.1.2, by simpa using hi.2⟩
    exact (delivered_sublist c).eq_of_length (by
      have := (delivered_sublist c).length_le
      rw [hnil] at this ⊢
      simpa using this)

/-- The file is written back into the blocks it came from. -/
theorem restore_good (hworks : host.Works) (hgood : (∃ i < c.total, c.marked i = false) → c.GoodRead) {pieces : List (List UInt8)}
    (now : Flash c.eraseSize) (hpieces : pieces.flatten = joined (c.good d)) :
    (c.cmdMtdRestoreRawPartition host pieces now).1 = 0 ∧
      ∀ i < c.total, c.marked i = false → (c.cmdMtdRestoreRawPartition host pieces now).2.content i = d.content i := by
  have he : 0 < c.eraseSize := Nat.zero_lt_of_lt c.eraseSize_gt
  have hmod : (joined (c.good d)).length % c.eraseSize = 0 := by
    rw [length_joined, Nat.mul_mod_right]
  have hblocks : c.blocksOf (joined (c.good d)) = c.good d := by
    rw [blocksOf, if_pos hmod, wholes_joined he, List.append_nil]
  have husable : c.usable = fun i => !c.marked i := funext (usable_eq hwritable)
  have hcapacity : (c.good d).length ≤ c.capacity := by
    have hdelivered := delivered_good hwritable hgood
    have hcount : (ahead c.usable c.blocks 0).length = c.capacity := by
      have := Base.length_ahead (p := c.usable) (Nat.zero_le c.blocks)
      rw [Nat.count_zero] at this
      exact this
    rw [good, List.length_map, ← hdelivered, ← hcount]
    apply List.Sublist.length_le
    apply List.monotone_filter_right
    intro i hi
    rw [usable_eq hwritable, unmarked_of_delivered hi]
    rfl
  have hneed : c.need (joined (c.good d)).length ≤ c.capacity := by
    rw [← length_blocksOf, hblocks]
    exact hcapacity
  obtain ⟨d', hout, hcomplete⟩ := writeOut_fits (d := now) hpieces hneed hworks.close
  rw [restored_writeOut hworks.toOpens hout]
  refine ⟨rfl, fun i hi hmarked => ?_⟩
  have hplace : (ahead (fun i => !c.marked i) c.total 0)[c.rank i]? = some i := by
    rw [getElem?_ahead]
    exact ⟨hi, by simpa using hmarked, by rw [rank, husable]⟩
  rw [hcomplete i hi, hblocks, laid_usable (by rw [usable_eq hwritable, hmarked]; rfl), List.getD_eq_getElem?_getD, good,
    List.getElem?_map, hplace]
  rfl

theorem round_trip_of_goodRead (hdvd : 2048 ∣ c.eraseSize) (hworks : host.Works)
    (hgood : (∃ i < c.total, c.marked i = false) → c.GoodRead) : c.RoundTrip host d := by
  have hstream : c.toRead d.rewound = c.good d := congrArg (List.map d.content) (delivered_good hwritable hgood)
  refine ⟨?_, fun lens hle => ?_, fun pieces now hpieces => restore_good hwritable hworks hgood now hpieces⟩
  · rw [cmdMtdBackupRawPartition_eq hworks hdvd, hstream]
  · have hdelivers := delivers_opened c d
    have hlt := length_toRead_lt c d.rewound
    rw [hstream] at hdelivers hlt
    exact readPieces_done hdelivers hlt hle

omit hwritable

/-- A backup that holds every good block has delivered them all. -/
theorem goodRead_of_backup (hdvd : 2048 ∣ c.eraseSize) (hworks : host.Works)
    (hbackup : c.cmdMtdBackupRawPartition host d = (0, some (joined (c.good d)))) (hex : ∃ i < c.total, c.marked i = false) :
    c.GoodRead := by
  rw [cmdMtdBackupRawPartition_eq hworks hdvd] at hbackup
  have hjoined : joined (c.toRead d.rewound) = joined (c.good d) := Option.some.inj (Prod.mk.inj hbackup).2
  have hlength := congrArg List.length hjoined
  rw [length_joined, length_joined, Nat.mul_right_inj (by have := c.eraseSize_gt; omega), toRead, good, List.length_map,
    List.length_map] at hlength
  have heq := (delivered_sublist c).eq_of_length hlength
  have hall : ∀ i < c.total, c.marked i = false → i < c.blocks ∧ c.delivered i = true := by
    intro i hi hmarked
    have hmem : i ∈ ahead c.delivered c.blocks 0 := by
      rw [heq, mem_ahead]
      exact ⟨⟨Nat.zero_le i, hi⟩, by simpa using hmarked⟩
    rw [mem_ahead] at hmem
    exact ⟨hmem.1.2, hmem.2⟩
  obtain ⟨i, hi, hmarked⟩ := hex
  refine ⟨?_, ?_, fun j hj hj' => ?_⟩
  · by_contra hlarge
    have := (hall i hi hmarked).1
    rw [c.blocks_large hlarge] at this
    omega
  · have := (hall i hi hmarked).2
    simp only [delivered, Bool.and_eq_true] at this
    exact this.1.1.1.1
  · have := (hall j hj hj').2
    simp only [delivered, Bool.and_eq_true, Bool.not_eq_true'] at this
    exact this.2

end RoundTrip

/-- Backup and restore of a partition whose good blocks can be written bring every good block back
exactly when there is none, or all of them can be delivered. -/
theorem round_trip_iff (hwritable : ∀ i, c.marked i = false → c.fault i = none) (hdvd : 2048 ∣ c.eraseSize) (hworks : host.Works)
    (d : Flash c.eraseSize) : c.RoundTrip host d ↔ ((∃ i < c.total, c.marked i = false) → c.GoodRead) :=
  ⟨fun h => goodRead_of_backup hdvd hworks h.backup, round_trip_of_goodRead hwritable hdvd hworks⟩

end Chip

/-- A flash of two blocks without faults. -/
def twoBlocks (marks : Option (Nat → Bool)) : Chip where
  size := 4096
  eraseSize := 2048
  size_lt := by omega
  eraseSize_gt := by omega
  eraseSize_lt := by omega
  end_lt := by omega
  blocks := 2
  lt_blocks := by
    intro pos
    rw [int_small (by omega)]
    omega
  marks := marks
  reading := fun _ => .clean
  fault := fun _ => none
  sound := fun _ _ _ => rfl

/-- A host on which everything works. -/
def Host.fine : Host := ⟨true, 1, true, true, true, true, fun _ => true, true⟩

theorem Host.fine_works : Host.fine.Works := ⟨⟨rfl, by decide, rfl, rfl, rfl⟩, rfl, fun _ => rfl, rfl⟩

/-- With the first block marked, the second comes back. -/
theorem round_trip_marked : (twoBlocks (some (· == 0))).RoundTrip .fine ⟨fun _ => erased _, 0, 0⟩ :=
  (Chip.round_trip_iff (fun _ _ => rfl) (by decide) Host.fine_works _).mpr fun _ => ⟨by decide, rfl, fun i _ _ => by
    cases i <;> rfl⟩

/-- A driver that knows no marks: nothing is backed up. -/
theorem not_round_trip_unmarked :
    ¬∀ (c : Chip) (host : Host) (d : Flash c.eraseSize), (∀ i, c.marked i = false → c.fault i = none) → 2048 ∣ c.eraseSize →
      host.Works → c.RoundTrip host d := by
  intro h
  have hbackup := (h (twoBlocks none) .fine ⟨fun _ => erased _, 0, 0⟩ (fun _ _ => rfl) (by decide) Host.fine_works).backup
  have hgood := Chip.goodRead_of_backup (by decide) Host.fine_works hbackup ⟨0, by decide, rfl⟩
  exact absurd hgood.2.1 (by decide)

end Twrp.Mtd
