import Mathlib.Data.List.Perm.Subperm
import Mathlib.Data.List.Nodup
import Twrp.Restore.Partition

/-! Which archives a restore reads.

`Restore_Tar` takes the file with the name of the backup, or else the numbered files from
`000` on until one is missing (`archives`). The loop over the numbered files ends by itself,
because their names differ and the folder is finite. -/
namespace Twrp.Restore
open Base

/-! ### Numbered files -/

theorem splitName_inj {file : Path} {m n : Nat} (h : Tar.splitName file m = Tar.splitName file n) : m = n :=
  padded_inj (List.append_cancel_left h)

theorem splitName_ne (file : Path) (n : Nat) : Tar.splitName file n ≠ file := by
  intro h
  exact padded_ne_nil 3 n (List.append_right_eq_self.mp h)

/-- The files from `000` on that are there one after the other. -/
def Contiguous (folder : List Path) (file : Path) (n : Nat) : Prop := ∀ i < n, Tar.splitName file i ∈ folder

/-- No more numbered files than files. -/
theorem Contiguous.le_length {folder : List Path} {file : Path} {n : Nat} (h : Contiguous folder file n) :
    n ≤ folder.length := by
  have hnodup : ((List.range n).map (Tar.splitName file)).Nodup :=
    List.nodup_range.map fun _ _ heq => splitName_inj heq
  have hsub : (List.range n).map (Tar.splitName file) ⊆ folder := by
    intro f hf
    obtain ⟨i, hi, rfl⟩ := List.mem_map.mp hf
    exact h i (List.mem_range.mp hi)
  have hle := (hnodup.subperm hsub).length_le
  rwa [List.length_map, List.length_range] at hle

/-- How many numbered files are read. -/
def countParts (folder : List Path) (file : Path) : Nat → Nat → Nat
  | 0, _ => 0
  | fuel + 1, index => if Tar.splitName file index ∈ folder then countParts folder file fuel (index + 1) + 1 else 0

theorem countParts_spec (folder : List Path) (file : Path) (fuel index : Nat) :
    countParts folder file fuel index ≤ fuel ∧
      (∀ i < countParts folder file fuel index, Tar.splitName file (index + i) ∈ folder) ∧
      (countParts folder file fuel index < fuel → Tar.splitName file (index + countParts folder file fuel index) ∉ folder) := by
  induction fuel generalizing index with
  | zero => simp [countParts]
  | succ fuel ih =>
    obtain ⟨hle, hthere, hnext⟩ := ih (index + 1)
    unfold countParts
    by_cases hfile : Tar.splitName file index ∈ folder
    · rw [if_pos hfile]
      refine ⟨by omega, fun i hi => ?_, fun hlt => ?_⟩
      · cases i with
        | zero => exact hfile
        | succ i =>
          have := hthere i (by omega)
          rwa [show index + 1 + i = index + (i + 1) by omega] at this
      · have := hnext (by omega)
        rwa [show index + 1 + countParts folder file fuel (index + 1) =
          index + (countParts folder file fuel (index + 1) + 1) by omega] at this
    · rw [if_neg hfile]
      exact ⟨Nat.zero_le _, fun i hi => absurd hi (Nat.not_lt_zero i), fun _ => hfile⟩

/-- The number of files the restore finds: all there, and the next one missing. -/
def partCount (folder : List Path) (file : Path) : Nat := countParts folder file (folder.length + 1) 0

theorem contiguous_partCount (folder : List Path) (file : Path) : Contiguous folder file (partCount folder file) := by
  intro i hi
  have := (countParts_spec folder file (folder.length + 1) 0).2.1 i hi
  rwa [Nat.zero_add] at this

theorem partCount_missing (folder : List Path) (file : Path) : Tar.splitName file (partCount folder file) ∉ folder := by
  have hle := (contiguous_partCount folder file).le_length
  have := (countParts_spec folder file (folder.length + 1) 0).2.2 (Nat.lt_succ_of_le hle)
  rwa [Nat.zero_add] at this

theorem contiguous_iff {folder : List Path} {file : Path} {n : Nat} :
    Contiguous folder file n ↔ n ≤ partCount folder file := by
  constructor
  · intro h
    by_contra hlt
    exact partCount_missing folder file (h _ (Nat.not_le.mp hlt))
  · intro h i hi
    exact contiguous_partCount folder file i (Nat.lt_of_lt_of_le hi h)

/-- The archives of a backup, as a restore finds them. -/
def archives (folder : List Path) (file : Path) : List Path :=
  if file ∈ folder then [file] else (List.range (partCount folder file)).map (Tar.splitName file)

theorem archives_nodup (folder : List Path) (file : Path) : (archives folder file).Nodup := by
  unfold archives
  split_ifs
  · exact List.nodup_singleton _
  · exact List.nodup_range.map fun _ _ heq => splitName_inj heq

/-- Where the backup is numbered files, those that have all before them. -/
theorem mem_archives_iff {folder : List Path} {file f : Path} (hfile : file ∉ folder) :
    f ∈ archives folder file ↔ ∃ n, f = Tar.splitName file n ∧ Contiguous folder file (n + 1) := by
  rw [archives, if_neg hfile, List.mem_map]
  constructor
  · rintro ⟨n, hn, rfl⟩
    exact ⟨n, rfl, contiguous_iff.mpr (List.mem_range.mp hn)⟩
  · rintro ⟨n, rfl, hn⟩
    exact ⟨n, List.mem_range.mpr (contiguous_iff.mp hn), rfl⟩

/-! ### The calls of a wipe -/

/-- A call of the wipe of `p`. -/
def WipeOf (p : Partition) (q : Step) : Prop := ∃ w, q = .wiping p w

section Wipe
variable (s : Settings) (p : Partition)

theorem wipeOf_ask (w : Wiping) : (Prog.ask (Step.wiping p w) : Session _).All (WipeOf p) := Prog.all_ask ⟨w, rfl⟩

theorem wipeOf_formatWith (name : Path) : (formatWith p name).All (WipeOf p) :=
  Prog.all_bind (wipeOf_ask p _) fun _ => Prog.all_pure _

theorem wipeOf_wipeRMRF : (wipeRMRF p).All (WipeOf p) := by
  refine Prog.all_bind (wipeOf_ask p _) fun ok => Prog.all_ite (fun _ => Prog.all_pure _) fun _ => ?_
  exact Prog.all_bind (wipeOf_ask p _) fun _ => Prog.all_pure _

theorem wipeOf_wipeByTool (name : Path) : (wipeByTool p name).All (WipeOf p) := by
  refine Prog.all_bind (wipeOf_ask p _) fun ok => Prog.all_ite (fun _ => ?_) fun _ => ?_
  · exact wipeOf_wipeRMRF p
  · refine Prog.all_bind (wipeOf_ask p _) fun ok => ?_
    exact Prog.all_ite (fun _ => Prog.all_pure _) fun _ => wipeOf_formatWith p _

theorem wipeOf_wipeEXT23 : (wipeEXT23 p).All (WipeOf p) := by
  refine Prog.all_bind (wipeOf_ask p _) fun ok => Prog.all_ite (fun _ => Prog.all_pure _) fun _ => ?_
  refine Prog.all_bind (wipeOf_ask p _) fun ok => ?_
  exact Prog.all_ite (fun _ => wipeOf_wipeRMRF p) fun _ => wipeOf_formatWith p _

theorem wipeOf_wipeEXT4 : (wipeEXT4 s p).All (WipeOf p) := by
  refine Prog.all_bind (wipeOf_ask p _) fun ok => Prog.all_ite (fun _ => Prog.all_pure _) fun _ => ?_
  refine Prog.all_ite (fun _ => wipeOf_ask p _) fun _ => ?_
  refine Prog.all_bind (wipeOf_ask p _) fun ok => ?_
  exact Prog.all_ite (fun _ => wipeOf_wipeEXT23 p) fun _ => wipeOf_formatWith p _

theorem wipeOf_removeDataPath (path : Path) : (removeDataPath p path).All (WipeOf p) := by
  refine Prog.all_bind (wipeOf_ask p _) fun ok => Prog.all_ite (fun _ => ?_) fun _ => Prog.all_pure _
  refine Prog.all_bind (wipeOf_ask p _) fun _ => ?_
  exact Prog.all_bind (wipeOf_ask p _) fun _ => Prog.all_pure _

theorem wipeOf_wipeAs (fs : Path) : (wipeAs s p fs).All (WipeOf p) := by
  refine Prog.all_ite (fun _ => wipeOf_wipeRMRF p) fun _ => ?_
  refine Prog.all_ite (fun _ => wipeOf_wipeEXT4 s p) fun _ => ?_
  refine Prog.all_ite (fun _ => wipeOf_wipeEXT23 p) fun _ => ?_
  refine Prog.all_ite (fun _ => wipeOf_wipeByTool p _) fun _ => ?_
  refine Prog.all_ite (fun _ => ?_) fun _ => ?_
  · refine Prog.all_bind (wipeOf_ask p _) fun ok => ?_
    exact Prog.all_ite (fun _ => Prog.all_pure _) fun _ => wipeOf_ask p _
  · refine Prog.all_ite (fun _ => wipeOf_wipeByTool p _) fun _ => ?_
    refine Prog.all_ite (fun _ => wipeOf_wipeByTool p _) fun _ => ?_
    refine Prog.all_ite (fun _ => wipeOf_wipeByTool p _) fun _ => ?_
    refine Prog.all_ite (fun _ => wipeOf_wipeByTool p _) fun _ => ?_
    refine Prog.all_ite (fun _ => ?_) fun _ => Prog.all_pure _
    refine Prog.all_bind (wipeOf_ask p _) fun ok => ?_
    exact Prog.all_ite (fun _ => Prog.all_pure _) fun _ => wipeOf_formatWith p _

theorem wipeOf_wipe (fs : Path) : (wipe s p fs).All (WipeOf p) := by
  have hrest : ∀ dataPath : Option Path, (do
      if dataPath.any (· ≠ sdExt) then
        if !(← askMount p) then return false
        removeDataPath p (dataPath.getD [])
        let _ ← askUnMount p
        return true
      if p.hasDataMedia then wipeDataWithoutWipingMedia p else wipeAs s p fs : Session Bool).All (WipeOf p) := by
    intro dataPath
    refine Prog.all_ite (fun _ => ?_) fun _ => Prog.all_ite (fun _ => ?_) fun _ => wipeOf_wipeAs s p fs
    · refine Prog.all_bind (wipeOf_ask p _) fun ok => Prog.all_ite (fun _ => Prog.all_pure _) fun _ => ?_
      refine Prog.all_bind (wipeOf_removeDataPath p _) fun _ => ?_
      exact Prog.all_bind (wipeOf_ask p _) fun _ => Prog.all_pure _
    · refine Prog.all_bind (wipeOf_ask p _) fun ok => Prog.all_ite (fun _ => Prog.all_pure _) fun _ => ?_
      refine Prog.all_bind (wipeOf_ask p _) fun ok => Prog.all_ite (fun _ => Prog.all_pure _) fun _ => ?_
      exact Prog.all_bind (wipeOf_ask p _) fun _ => Prog.all_pure _
  refine Prog.all_ite (fun _ => Prog.all_pure _) fun _ => ?_
  refine Prog.all_ite (fun _ => ?_) fun _ => ?_
  · exact Prog.all_bind (wipeOf_ask p _) hrest
  · exact Prog.all_bind (Prog.all_pure _) hrest

theorem wipeOf_wipeAndSec : (wipeAndSec p).All (WipeOf p) := by
  refine Prog.all_ite (fun _ => Prog.all_pure _) fun _ => ?_
  refine Prog.all_bind (wipeOf_ask p _) fun ok => Prog.all_ite (fun _ => Prog.all_pure _) fun _ => ?_
  exact Prog.all_bind (wipeOf_ask p _) fun _ => Prog.all_pure _

end Wipe

/-! ### The calls of `Restore_Tar` -/

/-- The archives that were unpacked, in order. -/
def extracted (log : List (Sigma Answer)) : List Path :=
  log.filterMap fun
    | ⟨.extract _ file _, _⟩ => some file
    | _ => none

theorem extracted_append (l l' : List (Sigma Answer)) : extracted (l ++ l') = extracted l ++ extracted l' :=
  List.filterMap_append

/-- A call of the restore of `p` that unpacks nothing. -/
def Prepares (p : Partition) (q : Step) : Prop :=
  WipeOf p q ∨ q = .fileSystem p ∨ q = .readDataPath p ∨ q = .tune2fs p ∨ q = .mount p ∨
    ∃ file entry, q = .entryExists p file entry

theorem extracted_of_prepares {p : Partition} {log : List (Sigma Answer)} (h : ∀ e ∈ log, Prepares p e.1) :
    extracted log = [] := by
  induction log with
  | nil => rfl
  | cons e log ih =>
    obtain ⟨q, r⟩ := e
    have hhead : extracted (⟨q, r⟩ :: log) = extracted log := by
      have hq : Prepares p q := h ⟨q, r⟩ List.mem_cons_self
      rcases hq with ⟨w, rfl⟩ | rfl | rfl | rfl | rfl | ⟨file, entry, rfl⟩ <;> rfl
    rw [hhead, ih fun e he => h e (List.mem_cons_of_mem _ he)]

section Tar
variable (s : Settings) (folder : List Path) (p : Partition)

theorem prepares_wipe (fs : Path) : (wipe s p fs).All (Prepares p) := (wipeOf_wipe s p fs).mono fun _ h => .inl h

theorem prepares_wipeForTar (fs : Path) : (wipeForTar s folder p fs).All (Prepares p) := by
  have hwiping : ∀ w, (Prog.ask (Step.wiping p w) : Session _).All (Prepares p) := fun w => Prog.all_ask (.inl ⟨w, rfl⟩)
  have hsdExt : (wipeSdExt s folder p fs).All (Prepares p) := by
    refine Prog.all_ite (fun _ => ?_) fun _ => Prog.all_bind (prepares_wipe s p fs) fun _ => Prog.all_pure _
    refine Prog.all_bind (Prog.all_ask (.inr (.inr (.inl rfl)))) fun dataPath => ?_
    refine Prog.all_ite (fun _ => Prog.all_bind (prepares_wipe s p fs) fun _ => Prog.all_pure _) fun _ => ?_
    refine Prog.all_bind (hwiping _) fun _ => ?_
    refine Prog.all_bind ((wipeOf_removeDataPath p _).mono fun _ h => .inl h) fun _ => ?_
    exact Prog.all_bind (hwiping _) fun _ => Prog.all_pure _
  refine Prog.all_ite (fun _ => Prog.all_bind hsdExt fun _ => Prog.all_pure _) fun _ => ?_
  refine Prog.all_ite (fun _ => ?_) fun _ => ?_
  · exact Prog.all_bind ((wipeOf_wipeAndSec p).mono fun _ h => .inl h) fun _ => Prog.all_pure _
  · exact Prog.all_bind (prepares_wipe s p fs) fun _ => Prog.all_pure _

theorem prepares_tarDir (file : Path) : (tarDir p file).All (Prepares p) := by
  have hentry : ∀ entry, (tarEntryExists p file entry).All (Prepares p) := fun entry =>
    Prog.all_ask (.inr (.inr (.inr (.inr (.inr ⟨file, entry, rfl⟩)))))
  refine Prog.all_ite (fun _ => Prog.all_bind (hentry _) fun _ => Prog.all_pure _) fun _ => ?_
  exact Prog.all_ite (fun _ => Prog.all_bind (hentry _) fun _ => Prog.all_pure _) fun _ => Prog.all_pure _

theorem logs_mount : Prog.Logs (fun ok => ⟨.mount p, ok⟩) (mount p) := Prog.post_ask fun _ => rfl
theorem logs_tune2fs : Prog.Logs (fun f => ⟨.tune2fs p, f⟩) (tune2fs p) := Prog.post_ask fun _ => rfl
theorem logs_tarExtract (file dir : Path) : Prog.Logs (fun f => ⟨.extract p file dir, f⟩) (tarExtract p file dir) :=
  Prog.post_ask fun _ => rfl

/-- The loop unpacks the numbered archives in order, all of them if it ends well. -/
theorem extracted_extractParts (file : Path) (fuel index : Nat) :
    (extractParts folder p file fuel index).Post fun log ok =>
      extracted log <+: (List.range' index (countParts folder file fuel index)).map (Tar.splitName file) ∧
        (ok = true → extracted log = (List.range' index (countParts folder file fuel index)).map (Tar.splitName file)) := by
  induction fuel generalizing index with
  | zero => exact Prog.post_pure ⟨List.nil_prefix, fun _ => rfl⟩
  | succ fuel ih =>
    unfold extractParts countParts
    by_cases hfile : Tar.splitName file index ∈ folder
    · rw [if_neg (not_not.mpr hfile), if_pos hfile, List.range'_succ, List.map_cons]
      refine Prog.post_call (logs_tarExtract p _ _) fun f => ?_
      apply Prog.post_ite
      · intro _
        exact Prog.post_pure ⟨List.cons_prefix_cons.mpr ⟨rfl, List.nil_prefix⟩, fun h => absurd h (by decide)⟩
      · intro _
        refine (ih (index + 1)).mono fun l ok h => ⟨List.cons_prefix_cons.mpr ⟨rfl, h.1⟩, fun hok => ?_⟩
        exact congrArg _ (h.2 hok)
    · rw [if_pos hfile, if_neg hfile]
      exact Prog.post_pure ⟨List.nil_prefix, fun _ => rfl⟩

/-- More turns than there are files change nothing. -/
theorem extractParts_enough (file : Path) {fuel fuel' index missing : Nat} (hmissing : Tar.splitName file (index + missing) ∉ folder)
    (hfuel : missing < fuel) (hfuel' : missing < fuel') :
    extractParts folder p file fuel index = extractParts folder p file fuel' index := by
  induction missing generalizing fuel fuel' index with
  | zero =>
    obtain ⟨fuel, rfl⟩ := Nat.exists_eq_succ_of_ne_zero (Nat.ne_of_gt hfuel)
    obtain ⟨fuel', rfl⟩ := Nat.exists_eq_succ_of_ne_zero (Nat.ne_of_gt hfuel')
    have hfile : Tar.splitName file index ∉ folder := hmissing
    rw [extractParts, extractParts, if_pos hfile, if_pos hfile]
  | succ missing ih =>
    obtain ⟨fuel, rfl⟩ := Nat.exists_eq_succ_of_ne_zero (show fuel ≠ 0 by omega)
    obtain ⟨fuel', rfl⟩ := Nat.exists_eq_succ_of_ne_zero (show fuel' ≠ 0 by omega)
    have hnext : Tar.splitName file (index + 1 + missing) ∉ folder := by
      rwa [show index + 1 + missing = index + (missing + 1) by omega]
    have hrest := ih hnext (show missing < fuel by omega) (show missing < fuel' by omega)
    rw [extractParts, extractParts, hrest]

/-- However often the loop may turn, it ends as it does after `folder.length + 1` turns. -/
theorem extractParts_any (file : Path) {fuel : Nat} (hfuel : folder.length < fuel) :
    extractParts folder p file fuel 0 = extractParts folder p file (folder.length + 1) 0 := by
  have hle := (contiguous_partCount folder file).le_length
  have hmissing : Tar.splitName file (0 + partCount folder file) ∉ folder := by
    rw [Nat.zero_add]
    exact partCount_missing folder file
  exact extractParts_enough folder p file hmissing (by omega) (by omega)

/-- `Restore_Tar` unpacks archives of the backup in order, all of them if it succeeds. -/
theorem extracted_restoreTar (file fs : Path) :
    (restoreTar s folder p file fs).Post fun log ok =>
      extracted log <+: archives folder file ∧ (ok = true → extracted log = archives folder file) := by
  have hprep : ∀ {α : Type} {x : Session α}, x.All (Prepares p) → x.Post fun log _ => extracted log = [] :=
    fun hall _ _ hrun => extracted_of_prepares (hrun.all hall)
  have hsingle : file ∈ folder → (extractSingle p file).Post fun log ok =>
      extracted log <+: archives folder file ∧ (ok = true → extracted log = archives folder file) := by
    intro hfile
    rw [archives, if_pos hfile]
    refine Prog.post_bind (hprep (prepares_tarDir p file)) fun l dir hl => ?_
    refine Prog.post_call (logs_tarExtract p _ _) fun f => Prog.post_pure ?_
    rw [extracted_append, hl]
    exact ⟨List.prefix_refl _, fun _ => rfl⟩
  have hparts : file ∉ folder → (extractParts folder p file (folder.length + 1) 0).Post fun log ok =>
      extracted log <+: archives folder file ∧ (ok = true → extracted log = archives folder file) := by
    intro hfile
    rw [archives, if_neg hfile, List.range_eq_range']
    exact extracted_extractParts folder p file _ 0
  have hmount : (do
      if !(← mount p) then return false
      if file ∈ folder then extractSingle p file else extractParts folder p file (folder.length + 1) 0 : Session Bool).Post
      fun log ok => extracted log <+: archives folder file ∧ (ok = true → extracted log = archives folder file) := by
    refine Prog.post_check (logs_mount p) ?_ ?_
    · exact Prog.post_pure ⟨List.nil_prefix, fun h => absurd h (by decide)⟩
    · exact Prog.post_ite hsingle hparts
  refine Prog.post_bind (hprep (prepares_wipeForTar s folder p fs)) fun l whole hl => ?_
  cases whole with
  | none =>
    refine Prog.post_pure ⟨?_, fun h => absurd h (by decide)⟩
    rw [extracted_append, hl]
    exact List.nil_prefix
  | some whole =>
    have hrest : ∀ (l' : List (Sigma Answer)) (ok : Bool),
        extracted l' <+: archives folder file ∧ (ok = true → extracted l' = archives folder file) →
        extracted (l ++ l') <+: archives folder file ∧ (ok = true → extracted (l ++ l') = archives folder file) := by
      intro l' ok h
      rw [extracted_append, hl]
      exact h
    apply Prog.post_ite
    · intro _
      refine Prog.post_call (logs_tune2fs p) fun f => ?_
      exact hmount.mono fun l' ok h => hrest _ ok h
    · intro _
      exact hmount.mono hrest

end Tar

end Twrp.Restore
