import Twrp.Scan.Mounts
import Twrp.Scan.Partitions

/-! Sequences of scans and lookups.

Each scan finds its file as it is then. A lookup by name scans by itself where the last scan of `/proc/mtd` failed, or
there was none. -/
namespace Twrp.Scan

structure State where
  volumes : Mounts.Volumes
  mtd : Partitions.MtdState

def State.initial : State := ⟨.empty, .initial⟩

/-- A call, and what it finds in the file that it may read. -/
inductive Call where
  | scanVolumes (file : Option Text)
  | scanPartitions (file : Option Text)
  | findPartition (file : Option Text)

/-- Every call of a sequence keeps to its table, and after each scan, also one that a lookup makes, the lookups give
exactly the entries of the listed lines that fit. -/
def Right : List Call → State → Prop
  | [], _ => True
  | .scanVolumes file :: calls, s => ∃ ret t, Mounts.scanMountedVolumes file = some (ret, t) ∧ Mounts.Shows file t ∧ Right calls { s with volumes := t }
  | .scanPartitions file :: calls, s => ∃ ret m, Partitions.mtdScanPartitions file = some (ret, m) ∧ Partitions.Shows file m ∧ Right calls { s with mtd := m }
  | .findPartition file :: calls, s => ∃ m, (∀ name, Partitions.mtdFindPartitionByName file name s.mtd = some (m.find name, m)) ∧
      (s.mtd.scanned = false → Partitions.Shows file m) ∧ Right calls { s with mtd := m }

/-- The file that the call reads is clean; `scanned` tells a lookup that it need not read. -/
def Call.Clean : Call → (scanned : Bool) → Prop
  | scanVolumes file, _ => ∀ text ∈ file, Mounts.Clean text
  | scanPartitions file, _ => ∀ text ∈ file, Partitions.Clean text
  | findPartition file, scanned => scanned = false → ∀ text ∈ file, Partitions.Clean text

/-- `mtd_partitions_scanned` after the call. -/
def Call.scanned : Call → Bool → Bool
  | scanVolumes _, scanned => scanned
  | scanPartitions file, _ => file.isSome
  | findPartition file, scanned => scanned || file.isSome

def AllClean : List Call → (scanned : Bool) → Prop
  | [], _ => True
  | c :: calls, scanned => c.Clean scanned ∧ AllClean calls (c.scanned scanned)

theorem scanned_eq {file : Option Text} {ret : Int} {m : Partitions.MtdState} (h : Partitions.mtdScanPartitions file = some (ret, m)) :
    m.scanned = file.isSome := by
  cases file with
  | none =>
    obtain ⟨-, rfl⟩ := Prod.mk.inj (Option.some.inj h)
    rfl
  | some text =>
    obtain ⟨m', -, hm⟩ := Option.map_eq_some_iff.mp h
    obtain ⟨-, rfl⟩ := Prod.mk.inj hm
    rfl

/-- After a scan of the partitions lookups do not scan. -/
theorem find_scanned {m : Partitions.MtdState} (h : m.scanned = true) (file : Option Text) (name : Text) :
    Partitions.mtdFindPartitionByName file name m = some (m.find name, m) := by
  rw [Partitions.mtdFindPartitionByName, if_pos h]
  rfl

/-- Before, or after one that failed, a lookup scans, and gives what the scan finds. -/
theorem find_not_scanned {m m' : Partitions.MtdState} (h : m.scanned = false) (file : Option Text) :
    (∀ name, Partitions.mtdFindPartitionByName file name m = some (m'.find name, m')) ↔ ∃ ret, Partitions.mtdScanPartitions file = some (ret, m') := by
  have hnot : ¬m.scanned = true := by
    rw [h]
    exact Bool.false_ne_true
  simp only [Partitions.mtdFindPartitionByName, if_neg hnot]
  cases hscan : Partitions.mtdScanPartitions file with
  | none =>
    constructor
    · intro hfind
      exact nomatch hfind []
    · intro ⟨_, hret⟩
      exact nomatch hret
  | some scan =>
    constructor
    · intro hfind
      obtain ⟨-, rfl⟩ := Prod.mk.inj (Option.some.inj (hfind []))
      exact ⟨scan.1, rfl⟩
    · intro ⟨ret, hret⟩ name
      obtain rfl := Option.some.inj hret
      rfl

theorem right_iff_from (calls : List Call) (s : State) : Right calls s ↔ AllClean calls s.mtd.scanned := by
  induction calls generalizing s with
  | nil => exact Iff.rfl
  | cons c calls ih =>
    cases c with
    | scanVolumes file =>
      rw [Right, AllClean, Call.Clean, ← Mounts.scanMountedVolumes_shows]
      constructor
      · intro ⟨ret, t, hscan, hshows, hcalls⟩
        exact ⟨⟨ret, t, hscan, hshows⟩, (ih { s with volumes := t }).mp hcalls⟩
      · intro ⟨⟨ret, t, hscan, hshows⟩, hcalls⟩
        exact ⟨ret, t, hscan, hshows, (ih { s with volumes := t }).mpr hcalls⟩
    | scanPartitions file =>
      rw [Right, AllClean, Call.Clean, ← Partitions.mtdScanPartitions_shows, Call.scanned]
      constructor
      · intro ⟨ret, m, hscan, hshows, hcalls⟩
        rw [ih, scanned_eq hscan] at hcalls
        exact ⟨⟨ret, m, hscan, hshows⟩, hcalls⟩
      · intro ⟨⟨ret, m, hscan, hshows⟩, hcalls⟩
        refine ⟨ret, m, hscan, hshows, ?_⟩
        rw [ih, scanned_eq hscan]
        exact hcalls
    | findPartition file =>
      rw [Right, AllClean, Call.Clean, ← Partitions.mtdScanPartitions_shows, Call.scanned]
      cases hscanned : s.mtd.scanned with
      | true =>
        constructor
        · intro ⟨m, hfind, _, hcalls⟩
          have hm := hfind []
          rw [find_scanned hscanned] at hm
          obtain ⟨-, rfl⟩ := Prod.mk.inj (Option.some.inj hm)
          rw [ih, hscanned] at hcalls
          exact ⟨nofun, hcalls⟩
        · intro ⟨_, hcalls⟩
          refine ⟨s.mtd, find_scanned hscanned file, nofun, ?_⟩
          rw [ih, hscanned]
          exact hcalls
      | false =>
        constructor
        · intro ⟨m, hfind, hshows, hcalls⟩
          obtain ⟨ret, hscan⟩ := (find_not_scanned hscanned file).mp hfind
          rw [ih, scanned_eq hscan] at hcalls
          exact ⟨fun _ => ⟨ret, m, hscan, hshows rfl⟩, hcalls⟩
        · intro ⟨hclean, hcalls⟩
          obtain ⟨ret, m, hscan, hshows⟩ := hclean rfl
          refine ⟨m, (find_not_scanned hscanned file).mpr ⟨ret, hscan⟩, fun _ => hshows, ?_⟩
          rw [ih, scanned_eq hscan]
          exact hcalls

/-- A sequence of scans and lookups goes right just where every file that is read is clean. -/
theorem staysInTables_iff (calls : List Call) : Right calls .initial ↔ AllClean calls false := right_iff_from calls .initial

/-- 33 lines of eight bytes. -/
def manyMounts : Text := (List.replicate 33 [97, 32, 98, 32, 99, 32, 100, 10]).flatten

set_option maxRecDepth 8000 in
theorem manyMounts_not_right : ¬Right [.scanVolumes (some manyMounts)] .initial := by
  have hmany : (Mounts.records manyMounts).length = 33 := by decide
  intro h
  have hfew := (((right_iff_from _ _).mp h).1 _ rfl).few
  rw [hmany] at hfew
  exact absurd hfew (by decide)

end Twrp.Scan
