import Twrp.Backup.Run
import Twrp.Restore.Archives
import Twrp.Tar.Files

/-! Whether a restore reads the archives that the backup made.

A backup makes one file, or numbers its files in one of two ways: one after the other, or
by threads with a hundred numbers each. The restore reads numbered files up to the first
gap. The two meet unless a thread of an encrypted backup, other than the last, leaves part
of its hundred unused (`coverage_iff`): the restore then stops there and the archives of
the threads after it are never unpacked. Files are named here within the backup's folder. -/
namespace Twrp.Restore
open Base

/-! ### What was made -/

/-- What `Backup_Tar` reads of the settings, the partition and the files on it. -/
structure TarBackup where
  settings : Backup.Settings
  partition : Backup.Partition
  cfg : Tar.Config
  processors : Nat
  tardir : Path
  tree : Tar.Listing
  /-- what `st` of each archiver holds before its first `stat` -/
  stack : Nat → Tar.Stat

namespace TarBackup

/-- `Backup_FileName` -/
def file (b : TarBackup) : Path := b.partition.backupFileName

/-- The archiver is told to encrypt. -/
def encrypts (b : TarBackup) : Bool :=
  !b.settings.excludeEncrypted && b.partition.canEncryptBackup && b.settings.useEncryption

def job (b : TarBackup) : Tar.Job where
  cfg := b.cfg
  userdata := b.partition.useUserdataEncryption
  processors := b.processors
  tarfn := b.file
  tardir := b.tardir
  tree := b.tree
  stack := b.stack

/-- What `Backup_Tar` runs. Compression is no part of the choice: it changes what is in the
files and not their names. -/
def archiver (b : TarBackup) : Tar.Archiver :=
  if b.partition.backupSize > Tar.maxArchiveSize then .split b.cfg b.file b.tardir b.tree
  else if b.encrypts then .encrypted b.job
  else .single b.cfg b.file b.tardir b.tree

/-- The archives of a backup in which every call succeeds. What `stat` finds, and which
threads can be created, is given. -/
def written (b : TarBackup) (stat : Path → Option Tar.Stat) (created : Nat → Bool) : List Path :=
  let env := Tar.working stat created
  Tar.made ((b.archiver.child.calls env).map fun q => ⟨q, env q⟩)

end TarBackup

section Made
variable (stat : Path → Option Tar.Stat) (created : Nat → Bool)

/-- A fact about the runs of the archiver, at the run that `written` is about. -/
theorem written_of_post {b : TarBackup} {R : List (Sigma Tar.Ans) → Int → Prop} (h : b.archiver.child.Post R) :
    ∃ log code, R log code ∧ b.written stat created = Tar.made log ∧ Tar.Follows (Tar.working stat created) log :=
  ⟨_, _, h _ _ (Prog.runs_eval (Tar.working stat created) b.archiver.child), rfl, Tar.follows_eval _ _⟩

theorem made_single (cfg : Tar.Config) (tarfn tardir : Path) {tree : Tar.Listing} (hwf : tree.WellFormed) :
    (Tar.Archiver.single cfg tarfn tardir tree).child.Post fun log _ =>
      ⟨.createTar tarfn, false⟩ ∉ log → Tar.made log = [tarfn] := by
  have hcreate : (Tar.create cfg tarfn tardir tree).Post fun log _ =>
      ⟨.createTar tarfn, false⟩ ∉ log → Tar.made log = [tarfn] := by
    refine Prog.post_check (Tar.logs_createTar _) (Prog.post_pure fun h => absurd List.mem_cons_self h) ?_
    refine Prog.post_bind (Tar.post_quiet (Tar.quiet_tarDirs cfg hwf)) fun l ret hl => ?_
    have hmade : ∀ l', Tar.made l' = [] → Tar.made (⟨.createTar tarfn, true⟩ :: (l ++ l')) = [tarfn] := by
      intro l' hl'
      show tarfn :: Tar.made (l ++ l') = [tarfn]
      rw [Tar.made_append, hl, hl']
      rfl
    apply Prog.post_ite
    · intro _
      exact Prog.post_pure fun _ => hmade [] rfl
    · intro _
      refine Prog.post_check (Tar.logs_closeTar _) ?_ ?_
      · exact Prog.post_pure fun _ => hmade _ rfl
      · exact Prog.post_pure fun _ => hmade _ rfl
  refine Prog.post_bind hcreate fun l ret hl => ?_
  apply Prog.post_ite
  · intro _
    refine Prog.post_pure fun h => ?_
    rw [List.append_nil] at h ⊢
    exact hl h
  · intro _
    refine Prog.post_pure fun h => ?_
    rw [List.append_nil] at h ⊢
    exact hl h

/-- Creating an archive does not fail in a run that follows the table. -/
theorem createTar_follows {log : List (Sigma Tar.Ans)} (h : Tar.Follows (Tar.working stat created) log) (f : Path) :
    ⟨.createTar f, false⟩ ∉ log := by
  intro hmem
  cases h _ hmem

theorem made_split (cfg : Tar.Config) (tarfn tardir : Path) {tree : Tar.Listing} (hwf : tree.WellFormed) :
    (Tar.Archiver.split cfg tarfn tardir tree).child.Post fun log _ => ⟨.createTar (Tar.splitName tarfn 0), false⟩ ∉ log →
      ∃ n, Tar.made log = (List.range n).map (Tar.splitName tarfn) := by
  refine Prog.post_bind (Tar.made_splitArchive cfg tarfn tardir hwf) fun l ret hl => ?_
  apply Prog.post_ite
  · intro _
    refine Prog.post_pure fun h => ?_
    rw [List.append_nil] at h ⊢
    exact hl h
  · intro _
    refine Prog.post_pure fun h => ?_
    rw [List.append_nil] at h ⊢
    exact hl h

end Made

/-! ### Numbers -/

section Encrypted
variable (stat : Path → Option Tar.Stat)

/-- The numbers that the archivers of a job use. -/
def Numbered (job : Tar.Job) (n : Nat) : Prop := n / 100 ∈ job.started ∧ n % 100 ≤ min (job.fills stat (n / 100)) 99

theorem mem_threadFiles {job : Tar.Job} {f : Path} :
    f ∈ (job.started.flatMap fun i => Tar.threadFiles job.tarfn i (job.fills stat i)) ↔
      ∃ n, f = Tar.splitName job.tarfn n ∧ Numbered stat job n := by
  have hsmall : ∀ i ∈ job.started, i < 10 := by
    intro i hi
    unfold Tar.Job.started at hi
    split_ifs at hi
    · cases hi
    · have := Tar.lastThread_lt job
      have := List.mem_range.mp hi
      omega
  simp only [List.mem_flatMap, Tar.threadFiles, List.mem_map, List.mem_range]
  constructor
  · rintro ⟨i, hi, c, hc, rfl⟩
    have hdiv : (100 * i + c) / 100 = i := by omega
    have hmod : (100 * i + c) % 100 = c := by omega
    refine ⟨100 * i + c, Tar.partName_eq _ (hsmall i hi) (by omega), ?_⟩
    rw [Numbered, hdiv, hmod]
    exact ⟨hi, by omega⟩
  · rintro ⟨n, rfl, hstarted, hn⟩
    refine ⟨n / 100, hstarted, n % 100, by omega, ?_⟩
    rw [Tar.partName_eq _ (hsmall _ hstarted) (by omega), Nat.div_add_mod]

/-- Every archiver that is started, the last one apart, fills its hundred archives. -/
def Full (job : Tar.Job) : Prop := ∀ i ∈ job.started, i < job.lastThread → 99 ≤ job.fills stat i

/-- The numbers have no gap exactly when the archivers fill their hundreds. -/
theorem numbered_down_iff (job : Tar.Job) :
    (∀ n, Numbered stat job n → ∀ m ≤ n, Numbered stat job m) ↔ Full stat job := by
  have hstarted : ∀ {i j}, i ∈ job.started → j ≤ job.lastThread → j ∈ job.started := by
    intro i j hi hj
    unfold Tar.Job.started at hi ⊢
    split_ifs at hi ⊢
    · cases hi
    · exact List.mem_range.mpr (by omega)
  have hlast : ∀ {i}, i ∈ job.started → i ≤ job.lastThread := by
    intro i hi
    unfold Tar.Job.started at hi
    split_ifs at hi
    · cases hi
    · exact Nat.lt_succ_iff.mp (List.mem_range.mp hi)
  constructor
  · intro hdown i hi hlt
    -- the first archive of the next thread is there, and so is what stands before it
    have hnext : Numbered stat job (100 * (i + 1)) := by
      have hdiv : 100 * (i + 1) / 100 = i + 1 := by omega
      rw [Numbered, hdiv]
      exact ⟨hstarted hi hlt, by omega⟩
    have hbefore := (hdown _ hnext (100 * i + 99) (by omega)).2
    have hdiv : (100 * i + 99) / 100 = i := by omega
    have hmod : (100 * i + 99) % 100 = 99 := by omega
    rw [hdiv, hmod] at hbefore
    omega
  · rintro hfull n ⟨hn, hroom⟩ m hm
    have hle : m / 100 ≤ n / 100 := Nat.div_le_div_right hm
    refine ⟨hstarted hn (le_trans hle (hlast hn)), ?_⟩
    rcases Nat.lt_or_eq_of_le hle with hlt | heq
    · have := hfull (m / 100) (hstarted hn (le_trans hle (hlast hn))) (lt_of_lt_of_le hlt (hlast hn))
      omega
    · rw [heq]
      omega

end Encrypted

/-! ### Coverage -/

namespace TarBackup

/-- The archives of the backup are numbered without a gap, or not numbered at all. -/
def NoGap (b : TarBackup) (stat : Path → Option Tar.Stat) : Prop :=
  match b.archiver with
  | .encrypted job => Full stat job
  | _ => True

/-- A file that the restore of `b` would take for one of its archives. -/
def IsArchive (b : TarBackup) (f : Path) : Prop := f = b.file ∨ ∃ n, f = Tar.splitName b.file n

variable {b : TarBackup} {stat : Path → Option Tar.Stat} {created : Nat → Bool}

theorem archives_written_iff (hwf : b.tree.WellFormed) {others : List Path} (hothers : ∀ f ∈ others, ¬b.IsArchive f) :
    (∀ f, f ∈ archives (b.written stat created ++ others) b.file ↔ f ∈ b.written stat created) ↔ b.NoGap stat := by
  have hmem : ∀ n, Tar.splitName b.file n ∈ b.written stat created ++ others ↔
      Tar.splitName b.file n ∈ b.written stat created := by
    intro n
    rw [List.mem_append, or_iff_left fun h => hothers _ h (.inr ⟨n, rfl⟩)]
  -- numbered files only, and the file itself is not there
  have hnumbered : (∀ f ∈ b.written stat created, ∃ n, f = Tar.splitName b.file n) →
      b.file ∉ b.written stat created ++ others := by
    intro hall hfile
    rcases List.mem_append.mp hfile with hfile | hfile
    · obtain ⟨n, hn⟩ := hall _ hfile
      exact splitName_ne b.file n hn.symm
    · exact hothers _ hfile (.inl rfl)
  unfold NoGap
  by_cases hsize : b.partition.backupSize > Tar.maxArchiveSize
  · have harchiver : b.archiver = .split b.cfg b.file b.tardir b.tree := by
      rw [archiver, if_pos hsize]
    have hpost := made_split b.cfg b.file b.tardir hwf
    rw [← harchiver] at hpost
    obtain ⟨log, code, hmade, hwritten, hfollows⟩ := written_of_post stat created hpost
    obtain ⟨n, hn⟩ := hmade (createTar_follows stat created hfollows _)
    rw [hn] at hwritten
    rw [harchiver, iff_true]
    intro f
    have hfile := hnumbered fun f hf => by
      rw [hwritten] at hf
      obtain ⟨m, _, rfl⟩ := List.mem_map.mp hf
      exact ⟨m, rfl⟩
    rw [mem_archives_iff hfile]
    have hsplit : ∀ m, Tar.splitName b.file m ∈ b.written stat created ↔ m < n := by
      intro m
      rw [hwritten, List.mem_map]
      constructor
      · rintro ⟨k, hk, heq⟩
        rw [← splitName_inj heq]
        exact List.mem_range.mp hk
      · intro hm
        exact ⟨m, List.mem_range.mpr hm, rfl⟩
    constructor
    · rintro ⟨m, rfl, hm⟩
      exact (hmem m).mp (hm m (Nat.lt_succ_self m))
    · intro hf
      have hf' := hf
      rw [hwritten] at hf'
      obtain ⟨m, _, rfl⟩ := List.mem_map.mp hf'
      refine ⟨m, rfl, fun k hk => (hmem k).mpr ((hsplit k).mpr ?_)⟩
      exact Nat.lt_of_lt_of_le hk ((hsplit m).mp hf)
  · by_cases hencrypts : b.encrypts = true
    · have harchiver : b.archiver = .encrypted b.job := by
        rw [archiver, if_neg hsize, if_pos hencrypts]
      have hpost : (Tar.Archiver.encrypted b.job).child.Post _ := Tar.made_createEncrypted stat created b.job
      rw [← harchiver] at hpost
      obtain ⟨log, code, hmade, hwritten, hfollows⟩ := written_of_post stat created hpost
      rw [hmade hfollows] at hwritten
      have hfiles : ∀ f, f ∈ b.written stat created ↔ ∃ n, f = Tar.splitName b.file n ∧ Numbered stat b.job n := by
        intro f
        rw [hwritten]
        exact mem_threadFiles stat
      have hsplit : ∀ m, Tar.splitName b.file m ∈ b.written stat created ↔ Numbered stat b.job m := by
        intro m
        rw [hfiles]
        constructor
        · rintro ⟨n, heq, hn⟩
          rwa [splitName_inj heq]
        · intro hm
          exact ⟨m, rfl, hm⟩
      have hfile := hnumbered fun f hf => ((hfiles f).mp hf).imp fun n h => h.1
      rw [harchiver]
      show _ ↔ Full stat b.job
      rw [← numbered_down_iff stat b.job]
      constructor
      · intro hall n hn m hm
        obtain ⟨k, hk, hcontiguous⟩ := (mem_archives_iff hfile).mp ((hall _).mpr ((hsplit n).mpr hn))
        rw [splitName_inj hk] at hm
        exact (hsplit m).mp ((hmem m).mp (hcontiguous m (Nat.lt_succ_of_le hm)))
      · intro hdown f
        rw [mem_archives_iff hfile]
        constructor
        · rintro ⟨m, rfl, hm⟩
          exact (hmem m).mp (hm m (Nat.lt_succ_self m))
        · intro hf
          obtain ⟨n, rfl, hn⟩ := (hfiles f).mp hf
          refine ⟨n, rfl, fun k hk => (hmem k).mpr ((hsplit k).mpr ?_)⟩
          exact hdown n hn k (Nat.lt_succ_iff.mp hk)
    · have harchiver : b.archiver = .single b.cfg b.file b.tardir b.tree := by
        rw [archiver, if_neg hsize, if_neg hencrypts]
      have hpost := made_single b.cfg b.file b.tardir hwf
      rw [← harchiver] at hpost
      obtain ⟨log, code, hmade, hwritten, hfollows⟩ := written_of_post stat created hpost
      rw [hmade (createTar_follows stat created hfollows _)] at hwritten
      rw [harchiver, iff_true, hwritten]
      intro f
      rw [archives, if_pos (by simp)]

/-- **Coverage.** A restore that succeeds has unpacked exactly the archives that the backup
made, and none twice, if and only if the backup is not encrypted by threads or every thread
but the last fills its hundred archives. -/
theorem coverage_iff (hwf : b.tree.WellFormed) {others : List Path} (hothers : ∀ f ∈ others, ¬b.IsArchive f)
    {s : Settings} {p : Partition} {fs : Path} {log : List (Sigma Answer)}
    (hrun : Prog.Runs (restoreTar s (b.written stat created ++ others) p b.file fs) log true) :
    ((∀ f, f ∈ extracted log ↔ f ∈ b.written stat created) ∧ (extracted log).Nodup) ↔ b.NoGap stat := by
  have hextracted := (extracted_restoreTar s _ p b.file fs log true hrun).2 rfl
  rw [hextracted, archives_written_iff hwf hothers, and_iff_left (archives_nodup _ _)]

end TarBackup

/-- An encrypted backup of two files of `/data`. -/
def dataBackup (processors : Nat) : TarBackup where
  settings := ⟨false, true, false, false, true, "/sdcard/b/".toList⟩
  partition :=
    { mountPoint := "/data".toList, symlinkMountPoint := [], isPresent := true, hasSubPartition := false,
      isSubPartition := false, subPartitionOf := [], backupPath := "/data".toList, backupName := "data".toList,
      currentFileSystem := "ext4".toList, method := .files, backupSize := 4194304, canBeBackedUp := true,
      canEncryptBackup := true, useUserdataEncryption := false, hasDataMedia := false, dalvikCacheSize := 0 }
  cfg := ⟨false, false, []⟩
  processors := processors
  tardir := "/data".toList
  tree := .leaf ['a'] (.reg 2097152) (.leaf ['b'] (.reg 2097152) .nil)
  stack := fun _ => ⟨false, 0⟩

/-- The data partition that is restored, by deleting what is on it. -/
def dataPartition : Partition where
  mountPoint := "/data".toList
  symlinkMountPoint := []
  isPresent := true
  hasSubPartition := false
  isSubPartition := false
  subPartitionOf := []
  id := 0
  backupName := "data".toList
  backupPath := "/data".toList
  storagePath := "/sdcard".toList
  fstabFileSystem := "ext4".toList
  size := 8388608
  canBeWiped := true
  hasAndroidSecure := false
  hasDataMedia := false
  useRmRf := true

def plainSettings : Settings := ⟨false, false, [], [], false⟩

/-- Calls that succeed, on a partition with room for any file. -/
def restores : (q : Step) → Answer q
  | .wiping _ (.format _) => Forked.ended true
  | .wiping _ (.rmRf _) => Forked.ended true
  | .wiping _ .dataOnExt => (none : Option Path)
  | .wiping _ .mount => true
  | .wiping _ .unmount => true
  | .wiping _ (.tool _) => true
  | .wiping _ .makeExt4fs => true
  | .wiping _ .removeDir => true
  | .wiping _ .openData => true
  | .wiping _ .mtdFind => true
  | .wiping _ .mtdErase => true
  | .wiping _ (.pathExists _) => true
  | .fileSystem p => p.fstabFileSystem
  | .readDataPath _ => sdExt
  | .tune2fs _ => Forked.ended true
  | .extract _ _ _ => Forked.ended true
  | .findSize p => some p.size
  | .fileSize _ _ => (1 : Nat)
  | .dd _ _ => Forked.ended true
  | .eraseImage _ => Forked.ended true
  | .flashImage _ _ => Forked.ended true
  | .uncompressedSize _ _ => (1 : Nat)
  | .skipping _ => ()
  | .mount _ => true
  | .entryExists _ _ _ => false
  | .unyaffs _ _ => true
  | .mountStorage => true
  | .md5Exists _ _ => true
  | .verifyMD5 _ _ => true
  | .convert _ _ => true
  | .clkpartmgr => true

/-- The restore of an encrypted backup made on so many cores. -/
def dataRestore (processors : Nat) : Session Bool :=
  restoreTar plainSettings ((dataBackup processors).written (fun _ => some ⟨true, 2097152⟩) (fun _ => true) ++ [])
    dataPartition (dataBackup processors).file "ext4".toList

theorem coverage_one_core :
    ∃ log, Prog.Runs (dataRestore 1) log true ∧
      (((∀ f, f ∈ extracted log ↔ f ∈ (dataBackup 1).written (fun _ => some ⟨true, 2097152⟩) (fun _ => true)) ∧
        (extracted log).Nodup) ↔ (dataBackup 1).NoGap fun _ => some ⟨true, 2097152⟩) :=
  ⟨_, Prog.runs_eval restores (dataRestore 1),
    TarBackup.coverage_iff (by decide) (fun _ h => absurd h List.not_mem_nil) (Prog.runs_eval restores (dataRestore 1))⟩

/-- Two threads make `000` and `100`, and the restore unpacks only the first. -/
theorem coverage_two_cores :
    ∃ log, Prog.Runs (dataRestore 2) log true ∧
      ¬∀ f, f ∈ extracted log ↔ f ∈ (dataBackup 2).written (fun _ => some ⟨true, 2097152⟩) fun _ => true := by
  refine ⟨_, Prog.runs_eval restores (dataRestore 2), fun h => ?_⟩
  have hmade : "data.ext4.win100".toList ∈ (dataBackup 2).written (fun _ => some ⟨true, 2097152⟩) fun _ => true := by
    decide
  have hread : "data.ext4.win100".toList ∉
      extracted (((dataRestore 2).calls restores).map fun q => ⟨q, restores q⟩) := by
    decide
  exact hread ((h _).mpr hmade)

end Twrp.Restore
