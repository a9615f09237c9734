import Twrp.Backup.Run

/-! What a backup that reports success has done.

A step that goes wrong is `faulty`. Some faults make the run return `false`; the others
are `lost`: the exit code of the archiver and of the external commands, empty files, and
digests that are not made. `backup_reported_iff` says that a run which returns `true` has
backed up all that was asked for exactly when no fault was lost and every partition that
belongs to a selected one was reached. -/
namespace Twrp.Backup
open Base

/-! ### Faults -/

/-- The partition a call is made for. -/
def Step.partition : Step → Option Partition
  | .mountStorage => none
  | .mkdir _ => none
  | .mount p => some p
  | .archive p _ => some p
  | .command p _ => some p
  | .fileSize p _ => some p
  | .pathExists p _ => some p
  | .parts p _ => some p
  | .computeMD5 p _ => some p
  | .writeMD5 p _ => some p

/-- The call that makes the backup of a partition. -/
def Step.writes (p : Partition) : Step → Prop
  | .archive q _ => q = p
  | .command q .dd => q = p
  | .command q .dumpImage => q = p
  | _ => False

/-- A step that went wrong. -/
def faulty : Sigma Answer → Bool
  | ⟨.mount _, ok⟩ => !ok
  | ⟨.archive _ _, f⟩ => !Forked.isFine f
  | ⟨.command _ .marker, _⟩ => false
  | ⟨.command _ _, f⟩ => !Forked.isFine f
  | ⟨.fileSize _ _, size⟩ => Nat.beq size 0
  | ⟨.parts _ _, count⟩ => Nat.beq count 0
  | ⟨.computeMD5 _ _, ok⟩ => !ok
  | ⟨.writeMD5 _ _, ok⟩ => !ok
  | _ => false

/-- A fault that the code does not pass on: a child that was waited for and did not do its
work, a command that was not even started, an empty file, a digest that was not made. In a
build without encrypted backups this goes for every fault of the single archive. -/
def lost (s : Settings) : Sigma Answer → Bool
  | ⟨.archive _ split, f⟩ =>
    if s.excludeEncrypted && !split then !Forked.isFine f else Forked.isUnseen f
  | ⟨.command _ .marker, _⟩ => false
  | ⟨.command _ _, f⟩ => !Forked.isFine f
  | ⟨.fileSize _ _, size⟩ => Nat.beq size 0
  | ⟨.computeMD5 _ _, ok⟩ => !ok
  | ⟨.writeMD5 _ _, ok⟩ => !ok
  | _ => false

theorem faulty_of_lost {s : Settings} {e : Sigma Answer} (h : lost s e = true) : faulty e = true := by
  obtain ⟨q, a⟩ := e
  cases q with
  | archive p split =>
    simp only [lost] at h
    split_ifs at h
    · exact h
    · revert h a
      rintro (_ | fine | (_ | _)) h
      · cases h
      · cases h
      · rfl
      · cases h
  | command p cmd => cases cmd <;> exact h
  | fileSize p file => exact h
  | computeMD5 p file => exact h
  | writeMD5 p file => exact h
  | mountStorage => cases h
  | mkdir path => cases h
  | mount p => cases h
  | pathExists p file => cases h
  | parts p file => cases h

/-- An archiver that was waited for: what went wrong in it is lost. -/
theorem lost_of_waited (s : Settings) (p : Partition) (split : Bool) {f : Forked} (hret : f.result = 0)
    (h : faulty ⟨.archive p split, f⟩ = true) : lost s ⟨.archive p split, f⟩ = true := by
  cases f with
  | forkFailed => exact absurd hret (by decide)
  | waitFailed fine => exact absurd hret (by simp [Forked.result])
  | ended fine =>
    cases fine with
    | false => simp [lost, Forked.isFine, Forked.isUnseen]
    | true => cases h

/-- The data partition that is skipped on purpose. -/
def Partition.Exempt (p : Partition) : Prop := p.method = .files ∧ p.emptyData = true

/-- The log has the call that makes the backup of `p`. -/
def Writes (p : Partition) (log : List (Sigma Answer)) : Prop := ∃ e ∈ log, e.1.writes p

/-- Every fault in the log is a lost one. -/
def OnlyLost (s : Settings) (log : List (Sigma Answer)) : Prop := ∀ e ∈ log, faulty e = true → lost s e = true

theorem Writes.left {p : Partition} {l : List (Sigma Answer)} (h : Writes p l) (l' : List (Sigma Answer)) :
    Writes p (l ++ l') := by
  obtain ⟨e, he, hw⟩ := h
  exact ⟨e, List.mem_append_left _ he, hw⟩

theorem Writes.right {p : Partition} {l : List (Sigma Answer)} (h : Writes p l) (l' : List (Sigma Answer)) :
    Writes p (l' ++ l) := by
  obtain ⟨e, he, hw⟩ := h
  exact ⟨e, List.mem_append_right _ he, hw⟩

theorem onlyLost_nil (s : Settings) : OnlyLost s [] := fun _ he => absurd he List.not_mem_nil

theorem onlyLost_cons {s : Settings} {e : Sigma Answer} {l : List (Sigma Answer)}
    (he : faulty e = true → lost s e = true) (hl : OnlyLost s l) : OnlyLost s (e :: l) :=
  List.forall_mem_cons.mpr ⟨he, hl⟩

theorem onlyLost_append {s : Settings} {l l' : List (Sigma Answer)} (hl : OnlyLost s l) (hl' : OnlyLost s l') :
    OnlyLost s (l ++ l') := fun e he => (List.mem_append.mp he).elim (hl e) (hl' e)

/-! ### One partition -/

/-- What `Backup` of a partition comes to. -/
structure Outcome (s : Settings) (p : Partition) (log : List (Sigma Answer)) (ret : Int) : Prop where
  codes : ret = 0 ∨ ret = 1 ∨ ret = -1
  faults : ret ≠ 0 → OnlyLost s log
  made : ret = 1 → ¬p.Exempt ∧ Writes p log
  /-- a result of -1 is the skipped partition, or a fault is lost with it -/
  empty : ret = -1 → p.Exempt ∨ Writes p log ∧ ∃ e ∈ log, lost s e = true

/-- A backup that reports that it failed. -/
theorem Outcome.failed (s : Settings) (p : Partition) (log : List (Sigma Answer)) : Outcome s p log 0 where
  codes := .inl rfl
  faults := fun h => absurd rfl h
  made := fun h => absurd h (by decide)
  empty := fun h => absurd h (by decide)

theorem logs_mount (p : Partition) : Prog.Logs (fun ok => ⟨.mount p, ok⟩) (mount p) := Prog.post_ask fun _ => rfl
theorem logs_archiveFork (p : Partition) (split : Bool) :
    Prog.Logs (fun f => ⟨.archive p split, f⟩) (archiveFork p split) := Prog.post_ask fun _ => rfl
theorem logs_execCmd (p : Partition) (cmd : Command) :
    Prog.Logs (fun f => ⟨.command p cmd, f⟩) (execCmd p cmd) := Prog.post_ask fun _ => rfl
theorem logs_getFileSize (p : Partition) (file : Path) :
    Prog.Logs (fun size => ⟨.fileSize p file, size⟩) (getFileSize p file) := Prog.post_ask fun _ => rfl
theorem logs_pathExists (p : Partition) (file : Path) :
    Prog.Logs (fun ok => ⟨.pathExists p file, ok⟩) (pathExists p file) := Prog.post_ask fun _ => rfl
theorem logs_countParts (p : Partition) (file : Path) :
    Prog.Logs (fun count => ⟨.parts p file, count⟩) (countParts p file) := Prog.post_ask fun _ => rfl
theorem logs_computeMD5 (p : Partition) (file : Path) :
    Prog.Logs (fun ok => ⟨.computeMD5 p file, ok⟩) (computeMD5 p file) := Prog.post_ask fun _ => rfl
theorem logs_writeMD5 (p : Partition) (file : Path) :
    Prog.Logs (fun ok => ⟨.writeMD5 p file, ok⟩) (writeMD5 p file) := Prog.post_ask fun _ => rfl

theorem post_writeMarkers (s : Settings) (p : Partition) :
    (writeMarkers s p).Post fun log ret => OnlyLost s log ∧ ret = 1 := by
  have hlast : Prog.Post (do
      if s.skipDalvik ∧ p.dalvikCacheSize > 0 then
        let _ ← execCmd p .marker
      return 1 : Session Int) fun log ret => OnlyLost s log ∧ ret = 1 := by
    apply Prog.post_ite
    · intro _
      refine Prog.post_call (logs_execCmd _ _) fun f => ?_
      exact Prog.post_pure ⟨onlyLost_cons (fun h => h) (onlyLost_nil s), rfl⟩
    · intro _
      exact Prog.post_pure ⟨onlyLost_nil s, rfl⟩
  apply Prog.post_ite
  · intro _
    refine Prog.post_call (logs_execCmd _ _) fun f => ?_
    exact hlast.mono fun l r h => ⟨onlyLost_cons (fun h => h) h.1, h.2⟩
  · intro _
    exact hlast

theorem post_backupTar (s : Settings) (p : Partition) (hmethod : p.method = .files) :
    (backupTar s p).Post (Outcome s p) := by
  refine Prog.post_check (logs_mount p) ?_ ?_
  · exact Prog.post_pure (.failed s p _)
  · apply Prog.post_ite
    · intro hempty
      refine Prog.post_pure ⟨.inr (.inr rfl), fun _ => ?_, fun h => absurd h (by decide), fun _ => .inl ⟨hmethod, hempty⟩⟩
      exact onlyLost_cons (fun h => h) (onlyLost_nil s)
    · intro hempty
      have hexempt : ¬p.Exempt := fun h => hempty h.2
      apply Prog.post_ite
      · intro _
        refine Prog.post_call (logs_archiveFork _ _) fun f => ?_
        apply Prog.post_ite
        · intro _
          exact Prog.post_pure (.failed s p _)
        · intro hret
          have hfault := lost_of_waited s p true (f.result_zero hret)
          refine (post_writeMarkers s p).mono fun l ret h => ?_
          obtain ⟨hl, rfl⟩ := h
          refine ⟨.inr (.inl rfl), fun _ => ?_, fun _ => ⟨hexempt, _, List.mem_cons_of_mem _ List.mem_cons_self, rfl⟩,
            fun h => absurd h (by decide)⟩
          exact onlyLost_cons (fun h => h) (onlyLost_cons hfault hl)
      · intro _
        refine Prog.post_call (logs_archiveFork _ _) fun f => ?_
        apply Prog.post_ite
        · intro hret
          refine Prog.post_pure ?_
          by_cases hbuild : s.excludeEncrypted = true
          · have hlost : lost s ⟨.archive p false, f⟩ = true := by
              cases f with
              | forkFailed => simp [lost, hbuild, Forked.isFine]
              | waitFailed fine => simp [lost, hbuild, Forked.isFine]
              | ended fine => exact absurd rfl hret
            rw [if_pos hbuild]
            refine ⟨.inr (.inr rfl), fun _ => ?_, fun h => absurd h (by decide), fun _ => .inr ⟨?_, ?_⟩⟩
            · exact onlyLost_cons (fun h => h) (onlyLost_cons (fun _ => hlost) (onlyLost_nil s))
            · exact ⟨_, List.mem_cons_of_mem _ List.mem_cons_self, rfl⟩
            · exact ⟨_, List.mem_cons_of_mem _ List.mem_cons_self, hlost⟩
          · rw [if_neg hbuild]
            exact .failed s p _
        · intro hret
          have hfault := lost_of_waited s p false (not_not.mp hret)
          refine Prog.post_call (logs_getFileSize _ _) fun size => ?_
          apply Prog.post_ite
          · intro hsize
            have hlost : ∀ file, lost s ⟨.fileSize p file, size⟩ = true := by
              intro file
              rw [hsize]
              rfl
            refine Prog.post_pure ⟨.inr (.inr rfl), fun _ => ?_, fun h => absurd h (by decide), fun _ => .inr ⟨?_, ?_⟩⟩
            · exact onlyLost_cons (fun h => h) (onlyLost_cons hfault (onlyLost_cons (fun _ => hlost _) (onlyLost_nil s)))
            · exact ⟨_, List.mem_cons_of_mem _ List.mem_cons_self, rfl⟩
            · exact ⟨_, List.mem_cons_of_mem _ (List.mem_cons_of_mem _ List.mem_cons_self), hlost _⟩
          · intro _
            refine (post_writeMarkers s p).mono fun l ret h => ?_
            obtain ⟨hl, rfl⟩ := h
            refine ⟨.inr (.inl rfl), fun _ => ?_, fun _ => ⟨hexempt, _, List.mem_cons_of_mem _ List.mem_cons_self, rfl⟩,
              fun h => absurd h (by decide)⟩
            exact onlyLost_cons (fun h => h) (onlyLost_cons hfault (onlyLost_cons (fun h => h) hl))

theorem post_backupImage (s : Settings) (p : Partition) (cmd : Command) (hmethod : p.method ≠ .files)
    (hcmd : (Step.command p cmd).writes p) : (backupImage s p cmd).Post (Outcome s p) := by
  have hexempt : ¬p.Exempt := fun h => hmethod h.1
  have hfault : ∀ f, faulty ⟨.command p cmd, f⟩ = true → lost s ⟨.command p cmd, f⟩ = true := by
    intro f h
    cases cmd <;> exact h
  refine Prog.post_call (logs_execCmd _ _) fun f => ?_
  refine Prog.post_call (logs_getFileSize _ _) fun size => ?_
  apply Prog.post_ite
  · intro hsize
    have hlost : lost s ⟨.fileSize p (s.folder ++ p.backupFileName), size⟩ = true := by
      rw [hsize]
      rfl
    refine Prog.post_pure ⟨.inr (.inr rfl), fun _ => ?_, fun h => absurd h (by decide), fun _ => .inr ⟨?_, ?_⟩⟩
    · exact onlyLost_cons (hfault f) (onlyLost_cons (fun _ => hlost) (onlyLost_nil s))
    · exact ⟨_, List.mem_cons_self, hcmd⟩
    · exact ⟨_, List.mem_cons_of_mem _ List.mem_cons_self, hlost⟩
  · intro _
    refine Prog.post_pure ⟨.inr (.inl rfl), fun _ => ?_, fun _ => ⟨hexempt, _, List.mem_cons_self, hcmd⟩,
      fun h => absurd h (by decide)⟩
    exact onlyLost_cons (hfault f) (onlyLost_cons (fun h => h) (onlyLost_nil s))

theorem post_backup (s : Settings) (p : Partition) : (backup s p).Post (Outcome s p) := by
  unfold backup
  cases hmethod : p.method with
  | files => exact post_backupTar s p hmethod
  | dd => exact post_backupImage s p .dd (by rw [hmethod]; decide) rfl
  | flashUtils => exact post_backupImage s p .dumpImage (by rw [hmethod]; decide) rfl
  | none =>
    exact Prog.post_pure (.failed s p _)

theorem post_partsMD5 (s : Settings) (p : Partition) (file : Path) (indices : List Nat) :
    (partsMD5 p file indices).Post fun log _ => OnlyLost s log := by
  induction indices with
  | nil => exact Prog.post_pure (onlyLost_nil s)
  | cons index rest ih =>
    refine Prog.post_check (logs_computeMD5 _ _) ?_ ?_
    · exact Prog.post_pure (onlyLost_cons (fun h => h) (onlyLost_nil s))
    · refine Prog.post_call (logs_writeMD5 _ _) fun ok => ?_
      refine ih.mono fun l _ h => ?_
      exact onlyLost_cons (fun h => h) (onlyLost_cons (fun h => h) h)

theorem post_makeMD5 (s : Settings) (p : Partition) :
    (makeMD5 s p).Post fun log ret => ret = true → OnlyLost s log := by
  apply Prog.post_ite
  · intro _
    exact Prog.post_pure fun _ => onlyLost_nil s
  · intro _
    refine Prog.post_call (logs_pathExists _ _) fun found => ?_
    apply Prog.post_ite
    · intro _
      refine Prog.post_call (logs_computeMD5 _ _) fun ok => ?_
      apply Prog.post_ite
      · intro _
        refine Prog.post_call (logs_writeMD5 _ _) fun ok' => ?_
        refine Prog.post_pure fun _ => ?_
        exact onlyLost_cons (fun h => h) (onlyLost_cons (fun h => h) (onlyLost_cons (fun h => h) (onlyLost_nil s)))
      · intro _
        exact Prog.post_pure fun _ => onlyLost_cons (fun h => h) (onlyLost_cons (fun h => h) (onlyLost_nil s))
    · intro _
      refine Prog.post_call (logs_countParts _ _) fun count => ?_
      apply Prog.post_ite
      · intro _
        exact Prog.post_pure fun h => absurd h (by decide)
      · intro hcount
        refine (post_partsMD5 s p _ _).mono fun l _ h _ => ?_
        refine onlyLost_cons (fun h => h) (onlyLost_cons (fun h => ?_) h)
        exact absurd (Nat.eq_of_beq_eq_true h) hcount

/-! ### Whose calls they are -/

/-- A call made for `p`. -/
def For (p : Partition) (q : Step) : Prop := q.partition = some p

theorem partition_of_writes {p : Partition} {q : Step} (h : q.writes p) : q.partition = some p := by
  cases q with
  | archive r split => exact congrArg some h
  | command r cmd =>
    cases cmd with
    | dd => exact congrArg some h
    | dumpImage => exact congrArg some h
    | marker => cases h
  | mountStorage => cases h
  | mkdir path => cases h
  | mount r => cases h
  | fileSize r file => cases h
  | pathExists r file => cases h
  | parts r file => cases h
  | computeMD5 r file => cases h
  | writeMD5 r file => cases h

theorem all_writeMarkers (s : Settings) (p : Partition) : (writeMarkers s p).All (For p) := by
  have hlast : Prog.All (For p) (do
      if s.skipDalvik ∧ p.dalvikCacheSize > 0 then
        let _ ← execCmd p .marker
      return 1 : Session Int) := by
    refine Prog.all_ite (fun _ => ?_) fun _ => Prog.all_pure _
    exact Prog.all_bind (Prog.all_ask rfl) fun _ => Prog.all_pure _
  refine Prog.all_ite (fun _ => ?_) fun _ => hlast
  exact Prog.all_bind (Prog.all_ask rfl) fun _ => hlast

theorem all_backup (s : Settings) (p : Partition) : (backup s p).All (For p) := by
  have himage : ∀ cmd, (backupImage s p cmd).All (For p) := by
    intro cmd
    refine Prog.all_bind (Prog.all_ask rfl) fun _ => Prog.all_bind (Prog.all_ask rfl) fun size => ?_
    exact Prog.all_ite (fun _ => Prog.all_pure _) fun _ => Prog.all_pure _
  unfold backup
  cases p.method with
  | files =>
    refine Prog.all_bind (Prog.all_ask rfl) fun ok => Prog.all_ite (fun _ => Prog.all_pure _) fun _ => ?_
    refine Prog.all_ite (fun _ => Prog.all_pure _) fun _ => Prog.all_ite (fun _ => ?_) fun _ => ?_
    · refine Prog.all_bind (Prog.all_ask rfl) fun f => ?_
      exact Prog.all_ite (fun _ => Prog.all_pure _) fun _ => all_writeMarkers s p
    · refine Prog.all_bind (Prog.all_ask rfl) fun f => Prog.all_ite (fun _ => Prog.all_pure _) fun _ => ?_
      refine Prog.all_bind (Prog.all_ask rfl) fun size => ?_
      exact Prog.all_ite (fun _ => Prog.all_pure _) fun _ => all_writeMarkers s p
  | dd => exact himage .dd
  | flashUtils => exact himage .dumpImage
  | none => exact Prog.all_pure _

theorem all_makeMD5 (s : Settings) (p : Partition) :
    (makeMD5 s p).All fun q => ∀ r, ¬q.writes r := by
  have hparts : ∀ file indices, (partsMD5 p file indices).All fun q => ∀ r, ¬q.writes r := by
    intro file indices
    induction indices with
    | nil => exact Prog.all_pure _
    | cons index rest ih =>
      refine Prog.all_bind (Prog.all_ask fun _ h => h) fun ok => Prog.all_ite (fun _ => Prog.all_pure _) fun _ => ?_
      exact Prog.all_bind (Prog.all_ask fun _ h => h) fun _ => ih
  refine Prog.all_ite (fun _ => Prog.all_pure _) fun _ => ?_
  refine Prog.all_bind (Prog.all_ask fun _ h => h) fun found => Prog.all_ite (fun _ => ?_) fun _ => ?_
  · refine Prog.all_bind (Prog.all_ask fun _ h => h) fun ok => Prog.all_ite (fun _ => ?_) fun _ => Prog.all_pure _
    exact Prog.all_bind (Prog.all_ask fun _ h => h) fun _ => Prog.all_pure _
  · refine Prog.all_bind (Prog.all_ask fun _ h => h) fun count => ?_
    exact Prog.all_ite (fun _ => Prog.all_pure _) fun _ => hparts _ _

theorem post_backup_for (s : Settings) (p : Partition) : (backup s p).Post fun log _ => ∀ e ∈ log, For p e.1 :=
  fun _ _ hrun => hrun.all (all_backup s p)

/-- `Backup` of a partition writes that partition only. -/
theorem post_backup_writes (s : Settings) (p : Partition) :
    (backup s p).Post fun log _ => ∀ q, Writes q log → q = p := by
  intro log ret hrun q hq
  obtain ⟨e, he, hw⟩ := hq
  have hfor : e.1.partition = some p := post_backup_for s p log ret hrun e he
  rw [partition_of_writes hw] at hfor
  exact Option.some.inj hfor

theorem post_makeMD5_writes (s : Settings) (p : Partition) : (makeMD5 s p).Post fun log _ => ∀ q, ¬Writes q log := by
  intro log ret hrun q hq
  obtain ⟨e, he, hw⟩ := hq
  exact hrun.all (all_makeMD5 s p) e he q hw

theorem writes_append {q : Partition} {l l' : List (Sigma Answer)} (h : Writes q (l ++ l')) : Writes q l ∨ Writes q l' := by
  obtain ⟨e, he, hw⟩ := h
  exact (List.mem_append.mp he).imp (fun h => ⟨e, h, hw⟩) fun h => ⟨e, h, hw⟩

/-! ### A partition with those that belong to it -/

/-- The partitions that are backed up along with `part`. -/
def Partition.along (part q : Partition) : Bool := q.canBeBackedUp && q.toSlot.isSubOf part.toSlot

theorem post_backupSubPartitions (s : Settings) (part : Partition) (ps : List Partition) :
    (backupSubPartitions s part ps).Post fun log ret => ret = true →
      OnlyLost s log ∧ (∀ q ∈ ps, part.along q = true → q.Exempt ∨ Writes q log) ∧
        ∀ q, Writes q log → q ∈ ps ∧ part.along q = true := by
  induction ps with
  | nil =>
    refine Prog.post_pure fun _ => ⟨onlyLost_nil s, fun q hq => absurd hq List.not_mem_nil, fun q hq => ?_⟩
    obtain ⟨e, he, _⟩ := hq
    exact absurd he List.not_mem_nil
  | cons p rest ih =>
    unfold backupSubPartitions
    by_cases halong : part.along p = true
    · rw [if_neg (by rw [show (p.canBeBackedUp && p.toSlot.isSubOf part.toSlot) = true from halong]; decide)]
      refine Prog.post_bind ((post_backup s p).and (post_backup_writes s p)) fun l ret h => ?_
      obtain ⟨hout, honly⟩ := h
      apply Prog.post_ite
      · intro _
        exact Prog.post_pure fun h => absurd h (by decide)
      · intro hret
        have hself : p.Exempt ∨ Writes p l := by
          rcases hout.codes with hzero | hone | hminus
          · exact absurd hzero hret
          · exact .inr (hout.made hone).2
          · exact (hout.empty hminus).imp_right fun h => h.1
        refine Prog.post_bind ((post_makeMD5 s p).and (post_makeMD5_writes s p)) fun l' ok h => ?_
        obtain ⟨hmd5, hnone⟩ := h
        cases ok with
        | false => exact Prog.post_pure fun h => absurd h (by decide)
        | true =>
          refine ih.mono fun l'' ok h hok => ?_
          obtain ⟨hlost, hall, hfrom⟩ := h hok
          refine ⟨onlyLost_append (hout.faults hret) (onlyLost_append (hmd5 rfl) hlost), fun q hq hq' => ?_, fun q hq => ?_⟩
          · rcases List.mem_cons.mp hq with rfl | hq
            · exact hself.imp_right fun h => h.left _
            · exact (hall q hq hq').imp_right fun h => (h.right l').right l
          · rcases writes_append hq with hq | hq
            · rw [honly q hq]
              exact ⟨List.mem_cons_self, halong⟩
            · rcases writes_append hq with hq | hq
              · exact absurd hq (hnone q)
              · exact ⟨List.mem_cons_of_mem _ (hfrom q hq).1, (hfrom q hq).2⟩
    · have hnot : (p.canBeBackedUp && p.toSlot.isSubOf part.toSlot) = false := Bool.not_eq_true _ ▸ halong
      rw [if_pos (by rw [hnot]; rfl)]
      refine ih.mono fun l ok h hok => ?_
      obtain ⟨hlost, hall, hfrom⟩ := h hok
      refine ⟨hlost, fun q hq hq' => ?_, fun q hq => ⟨List.mem_cons_of_mem _ (hfrom q hq).1, (hfrom q hq).2⟩⟩
      rcases List.mem_cons.mp hq with rfl | hq
      · exact absurd hq' halong
      · exact hall q hq hq'

/-- What a partition that is reported as backed up comes to. -/
structure Covers (s : Settings) (partitions : List Partition) (part : Partition) (log : List (Sigma Answer)) : Prop where
  faults : OnlyLost s log
  self : part.Exempt ∨ Writes part log
  subs : part.hasSubPartition = true → ¬part.Exempt →
    (∀ e ∈ log, e.1.partition = some part → lost s e = false) →
    ∀ q ∈ partitions, part.along q = true → q.Exempt ∨ Writes q log
  only : ∀ q, Writes q log → q = part ∨
    part.hasSubPartition = true ∧ ¬part.Exempt ∧ q ∈ partitions ∧ part.along q = true

theorem post_backupPartition (s : Settings) (partitions : List Partition) (part : Partition) :
    (backupPartition s partitions part).Post fun log ret => ret = true → Covers s partitions part log := by
  refine Prog.post_bind (((post_backup s part).and (post_backup_writes s part)).and (post_backup_for s part))
    fun l res h => ?_
  obtain ⟨⟨hout, honly⟩, hfor⟩ := h
  apply Prog.post_ite
  · intro hres
    refine Prog.post_pure fun _ => ?_
    rw [List.append_nil]
    refine ⟨hout.faults (by rw [hres]; decide), (hout.empty hres).imp_right fun h => h.1, fun _ hexempt hnone => ?_,
      fun q hq => .inl (honly q hq)⟩
    -- the archive is empty or was not made, and that fault is lost
    obtain ⟨_, e, he, hlost⟩ := (hout.empty hres).resolve_left hexempt
    rw [hnone e he (hfor e he)] at hlost
    cases hlost
  · intro _
    apply Prog.post_ite
    · intro _
      exact Prog.post_pure fun h => absurd h (by decide)
    · intro hres
      have hone : res = 1 := not_not.mp hres
      obtain ⟨hexempt, hself⟩ := hout.made hone
      have hfaults := hout.faults (by rw [hone]; decide)
      apply Prog.post_ite
      · intro hsub
        refine Prog.post_bind (post_backupSubPartitions s part partitions) fun l' ok h => ?_
        cases ok with
        | false => exact Prog.post_pure fun h => absurd h (by decide)
        | true =>
          obtain ⟨hlost, hall, hfrom⟩ := h rfl
          refine ((post_makeMD5 s part).and (post_makeMD5_writes s part)).mono fun l'' ok h hok => ?_
          refine ⟨onlyLost_append hfaults (onlyLost_append hlost (h.1 hok)), .inr (hself.left _), fun _ _ _ q hq hq' => ?_,
            fun q hq => ?_⟩
          · exact (hall q hq hq').imp_right fun h => (h.left l'').right l
          · rcases writes_append hq with hq | hq
            · exact .inl (honly q hq)
            · rcases writes_append hq with hq | hq
              · exact .inr ⟨hsub, hexempt, hfrom q hq⟩
              · exact absurd hq (h.2 q)
      · intro hsub
        refine ((post_makeMD5 s part).and (post_makeMD5_writes s part)).mono fun l' ok h hok => ?_
        refine ⟨onlyLost_append hfaults (h.1 hok), .inr (hself.left _), fun h => absurd h hsub, fun q hq => ?_⟩
        rcases writes_append hq with hq | hq
        · exact .inl (honly q hq)
        · exact absurd hq (h.2 q)

/-- A list of partitions that is reported as backed up. -/
structure CoversAll (s : Settings) (partitions located : List Partition) (log : List (Sigma Answer)) : Prop where
  faults : OnlyLost s log
  self : ∀ p ∈ located, p.Exempt ∨ Writes p log
  subs : ∀ p ∈ located, p.hasSubPartition = true → ¬p.Exempt →
    (∀ e ∈ log, e.1.partition = some p → lost s e = false) →
    ∀ q ∈ partitions, p.along q = true → q.Exempt ∨ Writes q log
  only : ∀ q, Writes q log → q ∈ located ∨
    ∃ p ∈ located, p.hasSubPartition = true ∧ ¬p.Exempt ∧ q ∈ partitions ∧ p.along q = true

theorem CoversAll.cons {s : Settings} {partitions located : List Partition} {part : Partition}
    {l l' : List (Sigma Answer)} (h : Covers s partitions part l) (h' : CoversAll s partitions located l') :
    CoversAll s partitions (part :: located) (l ++ l') where
  faults := onlyLost_append h.faults h'.faults
  self := by
    intro p hp
    rcases List.mem_cons.mp hp with rfl | hp
    · exact h.self.imp_right fun h => h.left l'
    · exact (h'.self p hp).imp_right fun h => h.right l
  subs := by
    intro p hp hsub hexempt hnone q hq halong
    rcases List.mem_cons.mp hp with rfl | hp
    · refine (h.subs hsub hexempt (fun e he => hnone e (List.mem_append_left _ he)) q hq halong).imp_right fun h => h.left l'
    · refine (h'.subs p hp hsub hexempt (fun e he => hnone e (List.mem_append_right _ he)) q hq halong).imp_right
        fun h => h.right l
  only := by
    intro q hq
    rcases writes_append hq with hq | hq
    · rcases h.only q hq with rfl | hwith
      · exact .inl List.mem_cons_self
      · exact .inr ⟨part, List.mem_cons_self, hwith⟩
    · rcases h'.only q hq with hself | ⟨p, hp, hwith⟩
      · exact .inl (List.mem_cons_of_mem _ hself)
      · exact .inr ⟨p, List.mem_cons_of_mem _ hp, hwith⟩

theorem post_backupAll (s : Settings) (partitions : List Partition) (found : List (Option Partition)) :
    (backupAll s partitions found).Post fun log ret => ret = true →
      CoversAll s partitions (found.filterMap id) log := by
  induction found with
  | nil =>
    refine Prog.post_pure fun _ => ⟨onlyLost_nil s, by simp, by simp, fun q hq => ?_⟩
    obtain ⟨e, he, _⟩ := hq
    exact absurd he List.not_mem_nil
  | cons first rest ih =>
    cases first with
    | none => exact ih
    | some part =>
      refine Prog.post_bind (post_backupPartition s partitions part) fun l ok h => ?_
      cases ok with
      | false => exact Prog.post_pure fun h => absurd h (by decide)
      | true => exact ih.mono fun l' ok h' hok => .cons (h rfl) (h' hok)

theorem logs_mountCurrentStorage : Prog.Logs (fun ok => ⟨.mountStorage, ok⟩) mountCurrentStorage :=
  Prog.post_ask fun _ => rfl
theorem logs_recursiveMkdir (path : Path) : Prog.Logs (fun ok => ⟨.mkdir path, ok⟩) (recursiveMkdir path) :=
  Prog.post_ask fun _ => rfl

theorem post_runBackup (r : Request) :
    (runBackup r).Post fun log ret => ret = true → CoversAll r.settings r.partitions r.located log := by
  have hquiet : ∀ {q : Step} {a : Answer q} {l : List (Sigma Answer)}, q.partition = none →
      (faulty ⟨q, a⟩ = true → lost r.settings ⟨q, a⟩ = true) → CoversAll r.settings r.partitions r.located l →
      CoversAll r.settings r.partitions r.located (⟨q, a⟩ :: l) := by
    intro q a l hnone hlost h
    have hwrites : ∀ p, Writes p (⟨q, a⟩ :: l) → Writes p l := by
      rintro p ⟨e, he, hw⟩
      rcases List.mem_cons.mp he with rfl | he
      · rw [partition_of_writes hw] at hnone
        cases hnone
      · exact ⟨e, he, hw⟩
    refine ⟨onlyLost_cons hlost h.faults, fun p hp => (h.self p hp).imp_right fun h => h.right [_], ?_,
      fun p hp => h.only p (hwrites p hp)⟩
    intro p hp hsub hexempt hnone q hq halong
    exact (h.subs p hp hsub hexempt (fun e he => hnone e (List.mem_cons_of_mem _ he)) q hq halong).imp_right
      fun h => h.right [_]
  have hlocated : ((pieces r.backupList).map r.find).filterMap id = r.located := by
    rw [List.filterMap_map]
    rfl
  refine Prog.post_check logs_mountCurrentStorage (Prog.post_pure fun h => absurd h (by decide)) ?_
  apply Prog.post_ite
  · intro _
    exact Prog.post_pure fun h => absurd h (by decide)
  intro _
  apply Prog.post_ite
  · intro _
    exact Prog.post_pure fun h => absurd h (by decide)
  intro _
  apply Prog.post_ite
  · intro _
    exact Prog.post_pure fun h => absurd h (by decide)
  intro _
  refine Prog.post_check (logs_recursiveMkdir _) (Prog.post_pure fun h => absurd h (by decide)) ?_
  refine (post_backupAll _ _ _).mono fun l ok h hok => ?_
  rw [hlocated] at h
  exact hquiet rfl (fun h => h) (hquiet rfl (fun h => h) (h hok))

/-! ### The report -/

namespace Request

/-- `q` is there and belongs to `p`. -/
def Belongs (r : Request) (q p : Partition) : Prop :=
  q ∈ r.partitions ∧ q.isPresent = true ∧ q.toSlot.isSubOf p.toSlot = true

/-- What a backup is asked for: the partitions of the list that are in the table, and those
present that belong to them. -/
def Required (r : Request) (q : Partition) : Prop := q ∈ r.located ∨ ∃ p ∈ r.located, r.Belongs q p

/-- `q` was backed up and no step for it went wrong, or it is the empty data partition. -/
def Done (q : Partition) (log : List (Sigma Answer)) : Prop :=
  q.Exempt ∨ Writes q log ∧ ∀ e ∈ log, e.1.partition = some q → faulty e = false

def AllBackedUp (r : Request) (log : List (Sigma Answer)) : Prop := ∀ q, r.Required q → Done q log

/-- No fault of what was asked for is lost. -/
def NoneLost (r : Request) (log : List (Sigma Answer)) : Prop :=
  ∀ q, r.Required q → ¬q.Exempt → ∀ e ∈ log, e.1.partition = some q → lost r.settings e = false

/-- What belongs to a partition of the list is in the list itself, or can be backed up along
with a partition of the list that is not skipped. -/
def Reached (r : Request) : Prop :=
  ∀ q, (∃ p ∈ r.located, r.Belongs q p) →
    q.Exempt ∨ q ∈ r.located ∨ ∃ p ∈ r.located, p.hasSubPartition = true ∧ ¬p.Exempt ∧ p.along q = true

variable {r : Request} {log : List (Sigma Answer)}

/-- What was asked for is written, where the faults are not lost and it was reached. -/
theorem writes_of_reached (h : CoversAll r.settings r.partitions r.located log) (hnone : r.NoneLost log)
    (hreached : r.Reached) {q : Partition} (hq : r.Required q) : q.Exempt ∨ Writes q log := by
  rcases hq with hlocated | hbelongs
  · exact h.self q hlocated
  · rcases hreached q hbelongs with hexempt | hlocated | ⟨p, hp, hsub, hexempt, halong⟩
    · exact .inl hexempt
    · exact h.self q hlocated
    · obtain ⟨_, _, hmem, _⟩ := hbelongs
      exact h.subs p hp hsub hexempt (hnone p (.inl hp) hexempt) q hmem halong

/-- **A reported backup.** A run that returns `true` has backed up all that was asked for,
without an error, exactly when no fault was lost and all of it was reached. -/
theorem backup_reported_iff (hrun : Prog.Runs (runBackup r) log true) :
    r.AllBackedUp log ↔ r.NoneLost log ∧ r.Reached := by
  have hcovers := post_runBackup r log true hrun rfl
  constructor
  · intro h
    constructor
    · intro q hq hexempt e he hfor
      have hfine := ((h q hq).resolve_left hexempt).2 e he hfor
      by_contra hlost
      rw [Bool.not_eq_false] at hlost
      rw [faulty_of_lost hlost] at hfine
      cases hfine
    · intro q hq
      rcases h q (.inr hq) with hexempt | ⟨hwrites, _⟩
      · exact .inl hexempt
      · rcases hcovers.only q hwrites with hlocated | ⟨p, hp, hsub, hexempt, _, halong⟩
        · exact .inr (.inl hlocated)
        · exact .inr (.inr ⟨p, hp, hsub, hexempt, halong⟩)
  · rintro ⟨hnone, hreached⟩ q hq
    by_cases hexempt : q.Exempt
    · exact .inl hexempt
    · refine .inr ⟨(writes_of_reached hcovers hnone hreached hq).resolve_left hexempt, fun e he hfor => ?_⟩
      by_contra hfault
      rw [Bool.not_eq_false] at hfault
      have hlost := hcovers.faults e he hfault
      rw [hnone q hq hexempt e he hfor] at hlost
      cases hlost

end Request

/-! ### A boot image, and a file partition without encrypted backups -/

def bootPartition (method : Method) : Partition where
  mountPoint := "/boot".toList
  symlinkMountPoint := []
  isPresent := true
  hasSubPartition := false
  isSubPartition := false
  subPartitionOf := []
  backupPath := "/boot".toList
  backupName := "boot".toList
  currentFileSystem := "emmc".toList
  method := method
  backupSize := 8388608
  canBeBackedUp := true
  canEncryptBackup := false
  useUserdataEncryption := false
  hasDataMedia := false
  dalvikCacheSize := 0

def bootRequest (excludeEncrypted : Bool) (method : Method) : Request where
  settings := ⟨excludeEncrypted, false, false, false, true, "/sdcard/b/".toList⟩
  partitions := [bootPartition method]
  backupList := "/boot;".toList
  storagePath := "/boot".toList
  free := 0
  skipFreeSpaceCheck := true

/-- Calls that succeed, but for the processes, which come out as given. -/
def answers (f : Forked) : (q : Step) → Answer q
  | .archive _ _ => f
  | .command _ _ => f
  | .fileSize _ _ => (4096 : Nat)
  | .parts _ _ => (0 : Nat)
  | .mountStorage => true
  | .mkdir _ => true
  | .mount _ => true
  | .pathExists _ _ => true
  | .computeMD5 _ _ => true
  | .writeMD5 _ _ => true

theorem backup_reported_boot :
    ∃ log, Prog.Runs (runBackup (bootRequest false .dd)) log true ∧
      ((bootRequest false .dd).AllBackedUp log ↔ (bootRequest false .dd).NoneLost log ∧ (bootRequest false .dd).Reached) :=
  ⟨_, Prog.runs_eval (answers (.ended true)) (runBackup (bootRequest false .dd)),
    Request.backup_reported_iff (Prog.runs_eval (answers (.ended true)) (runBackup (bootRequest false .dd)))⟩

/-- `dd` that stops half way, and an archiver that was never forked, in runs that return
`true`. -/
theorem backup_reported_incomplete :
    (∃ log, Prog.Runs (runBackup (bootRequest false .dd)) log true ∧ ¬(bootRequest false .dd).AllBackedUp log) ∧
    ∃ log, Prog.Runs (runBackup (bootRequest true .files)) log true ∧ ¬(bootRequest true .files).AllBackedUp log := by
  constructor
  · refine ⟨_, Prog.runs_eval (answers (.ended false)) (runBackup (bootRequest false .dd)), fun h => ?_⟩
    have hrequired : (bootRequest false .dd).Required (bootPartition .dd) := .inl (by decide)
    rcases h _ hrequired with hexempt | ⟨_, hfine⟩
    · cases hexempt.1
    · have hmem : Step.command (bootPartition .dd) .dd ∈ (runBackup (bootRequest false .dd)).calls (answers (.ended false)) := by
        decide
      exact absurd (hfine _ (List.mem_map_of_mem hmem) rfl) (by decide)
  · refine ⟨_, Prog.runs_eval (answers .forkFailed) (runBackup (bootRequest true .files)), fun h => ?_⟩
    have hrequired : (bootRequest true .files).Required (bootPartition .files) := .inl (by decide)
    rcases h _ hrequired with hexempt | ⟨_, hfine⟩
    · exact absurd hexempt.2 (by decide)
    · have hmem : Step.archive (bootPartition .files) false ∈
          (runBackup (bootRequest true .files)).calls (answers .forkFailed) := by
        decide
      exact absurd (hfine _ (List.mem_map_of_mem hmem) rfl) (by decide)

end Twrp.Backup
