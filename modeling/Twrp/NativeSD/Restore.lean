import Twrp.Base.Path
import Twrp.Base.Prog
import Mathlib

/-! Restoring a NativeSD ROM (`TWNativeSDManager::Restore`).

A backup folder holds, for the system, the data and the boot files of a ROM, one archive or several numbered
parts of it. The archives are first checked against their MD5 files; then the directories of the ROM are
removed one after the other and filled from the archives. The check counts the parts in one variable for
all of them. -/
namespace Twrp.NativeSD
open Base Prog

inductive Component where
  | system | data | boot
deriving DecidableEq

/-- An archive of a backup folder. -/
inductive Archive where
  | whole (c : Component)
  | part (c : Component) (index : Nat)
deriving DecidableEq

def Component.fileName : Component → Path
  | .system => "system.tar".toList
  | .data => "data.tar".toList
  | .boot => "boot.tar".toList

/-- The name of an archive in its folder. -/
def Archive.fileName : Archive → Path
  | .whole c => c.fileName
  | .part c index => c.fileName ++ padded 3 index

/-- The archives in a folder; there are finitely many. -/
structure Folder where
  has : Archive → Bool
  bound : Nat
  bounded : ∀ c i, bound ≤ i → has (.part c i) = false

/-- What is to be restored. -/
structure Selection where
  incSystem : Bool
  incData : Bool
  incBoot : Bool

/-! ### The restore -/

inductive Call where
  | mountStorage
  /-- There is an MD5 file for an archive. -/
  | hasMD5 (a : Archive)
  /-- `verify_md5digest` -/
  | verify (a : Archive)
  /-- `mkdir` of the directory of the ROM -/
  | makeRom
  /-- The directory of a component is there. -/
  | present (c : Component)
  | makeDir (c : Component)
  /-- `rm -rf` of the directory of a component -/
  | remove (c : Component)
  /-- `TarExtract` -/
  | extract (a : Archive)
  /-- `Prep_Rom_To_Boot` -/
  | prepRom
deriving DecidableEq

/-- Every call succeeds or fails. -/
abbrev Session (α : Type) := Prog (fun _ : Call => Bool) α

def ask (q : Call) : Session Bool := Prog.ask q

section Restore
variable (f : Folder)

/-- The loop over the parts of an archive, from `index` on; the index after it, or `none` where one does
not match. -/
def verifyParts (c : Component) : (fuel index : Nat) → Session (Option Nat)
  | 0, index => pure (some index)
  | fuel + 1, index =>
    if index < 1000 ∧ f.has (.part c index) = true then do
      if ← ask (.verify (.part c index)) then verifyParts c fuel (index + 1) else pure none
    else pure (some index)

/-- The check of one archive and its MD5 file. -/
def verifyWhole (c : Component) : Session Bool := do
  if ← ask (.hasMD5 (.whole c)) then ask (.verify (.whole c)) else pure false

/-- The check of the system or the data; the index comes from the one before and goes to the next. -/
def verifyArchive (c : Component) (index : Nat) : Session (Option Nat) :=
  if f.has (.whole c) = true then do
    if ← verifyWhole c then pure (some index) else pure none
  else do
    if ← ask (.hasMD5 (.part c index)) then verifyParts f c (1000 - index) index else pure none

/-- The check of the boot files, which goes with the system. -/
def verifyBoot (inc : Selection) : Session Bool :=
  if inc.incSystem = true ∧ f.has (.whole .boot) = true then verifyWhole .boot else pure true

/-- The check of the system or the data where it is selected. -/
def verifySelected (selected : Bool) (c : Component) (index : Nat) : Session (Option Nat) :=
  if selected then verifyArchive f c index else pure (some index)

/-- The check of all archives. -/
def verifyMD5 (inc : Selection) : Session Bool := do
  match ← verifySelected f inc.incSystem .system 0 with
  | none => pure false
  | some index =>
    match ← verifySelected f inc.incData .data index with
    | none => pure false
    | some _ => verifyBoot f inc

/-- The loop that extracts the parts of an archive; how many there were, or `none` where one fails. -/
def extractParts (c : Component) : (fuel index : Nat) → Session (Option Nat)
  | 0, index => pure (some index)
  | fuel + 1, index =>
    if f.has (.part c index) = true then do
      if ← ask (.extract (.part c index)) then extractParts c fuel (index + 1) else pure none
    else pure (some index)

/-- A directory is removed where it is there. -/
def clearDir (c : Component) : Session Unit := do
  if ← ask (.present c) then
    let _ ← ask (.remove c)
    pure ()
  else pure ()

/-- The system or the data is removed and restored. -/
def restoreDir (c : Component) : Session Bool := do
  clearDir c
  if f.has (.whole c) = true then ask (.extract (.whole c))
  else
    match ← extractParts f c f.bound 0 with
    | none => pure false
    | some count => pure (count != 0)

/-- The directory of the boot files is removed, or made where it is not there. -/
def clearBoot : Session Unit := do
  if ← ask (.present .boot) then
    let _ ← ask (.remove .boot)
    pure ()
  else
    let _ ← ask (.makeDir .boot)
    pure ()

def restoreBoot : Session Bool := do
  clearBoot
  if ← ask (.extract (.whole .boot)) then
    let _ ← ask .prepRom
    pure true
  else pure false

def restoreSelected (selected : Bool) (x : Session Bool) : Session Bool := if selected then x else pure true

/-- What follows the check. -/
def restoreRom (inc : Selection) : Session Bool := do
  let _ ← ask .makeRom
  if ← restoreSelected inc.incSystem (restoreDir f .system) then
    if ← restoreSelected inc.incData (restoreDir f .data) then restoreSelected inc.incBoot restoreBoot else pure false
  else pure false

/-- `Restore` -/
def restore (inc : Selection) (skipCheckMD5 : Bool) : Session Bool := do
  if ← ask .mountStorage then
    if ← restoreSelected (!skipCheckMD5) (verifyMD5 f inc) then restoreRom f inc else pure false
  else pure false

/-! ### What should be checked -/

/-- How many parts there are without a gap, from a given one on. -/
def countFrom (c : Component) : (fuel index : Nat) → Nat
  | 0, _ => 0
  | fuel + 1, index => if f.has (.part c index) = true then countFrom c fuel (index + 1) + 1 else 0

/-- How many parts are extracted. -/
def count (c : Component) : Nat := countFrom f c f.bound 0

/-- The archives that are extracted for the system or the data. -/
def archives (c : Component) : List Archive :=
  if f.has (.whole c) = true then [.whole c] else (List.range (count f c)).map (.part c)

/-- The archives that are extracted. -/
def extracted (inc : Selection) : List Archive :=
  (if inc.incSystem then archives f .system else []) ++ (if inc.incData then archives f .data else []) ++
  (if inc.incBoot then [.whole .boot] else [])

/-- A directory of the ROM is removed or written over. -/
def Changes : Call → Prop
  | .remove _ => True
  | .extract _ => True
  | _ => False

/-- An archive has been checked, and found to match. -/
def Verified (log : List (Sigma fun _ : Call => Bool)) (a : Archive) : Prop := ⟨.verify a, true⟩ ∈ log

/-- Directories change only after every archive has been checked, and where one has not, the restore fails. -/
def Safe (as : List Archive) (log : List (Sigma fun _ : Call => Bool)) (result : Bool) : Prop :=
  (∀ pre e post, log = pre ++ e :: post → Changes e.1 → ∀ a ∈ as, Verified pre a) ∧
  (result = true → ∀ a ∈ as, Verified log a)

/-- However the calls are answered, no directory changes before all archives have been checked. -/
def ChecksFirst (inc : Selection) : Prop := Post (restore f inc false) (Safe (extracted f inc))

/-- The selections and folders for which the check covers what is extracted. -/
structure Covered (inc : Selection) : Prop where
  /-- The system has not more parts than are checked. -/
  system : inc.incSystem = true → f.has (.whole .system) = true ∨ count f .system ≤ 1000
  /-- Nor do the data, and the check of them starts with the first part. -/
  data : inc.incData = true → f.has (.whole .data) = true ∨ count f .data = 0 ∨
    (count f .data ≤ 1000 ∧ ¬ (inc.incSystem = true ∧ f.has (.whole .system) = false ∧ f.has (.part .system 0) = true))
  /-- The boot files are checked with the system, where they are there. -/
  boot : inc.incBoot = true → inc.incSystem = true ∧ f.has (.whole .boot) = true

end Restore

/-! ### What the check does -/

section Check
variable (f : Folder)

section Calls
variable {P : Call → Prop} (hmd5 : ∀ a, P (.hasMD5 a))
include hmd5

theorem all_verifyWhole {c : Component} (hwhole : P (.verify (.whole c))) : (verifyWhole c).All P := by
  apply all_bind (all_ask (hmd5 _))
  intro md5
  apply all_ite
  · intro _
    exact all_ask hwhole
  · intro _
    exact all_pure _

theorem all_verifyArchive {c : Component} {index : Nat} (hpart : ∀ i, index ≤ i → i < 1000 → P (.verify (.part c i)))
    (hwhole : P (.verify (.whole c))) : (verifyArchive f c index).All P := by
  have hparts (fuel i : Nat) (hi : index ≤ i) : (verifyParts f c fuel i).All P := by
    induction fuel generalizing i with
    | zero => exact all_pure _
    | succ fuel ih =>
      apply all_ite
      · intro hcond
        apply all_bind (all_ask (hpart i hi hcond.1))
        intro ok
        apply all_ite
        · intro _
          exact ih (i + 1) (by omega)
        · intro _
          exact all_pure _
      · intro _
        exact all_pure _
  apply all_ite
  · intro _
    apply all_bind (all_verifyWhole hmd5 hwhole)
    intro ok
    apply all_ite <;> intro _ <;> exact all_pure _
  · intro _
    apply all_bind (all_ask (hmd5 _))
    intro md5
    apply all_ite
    · intro _
      exact hparts _ index le_rfl
    · intro _
      exact all_pure _

theorem all_verifySelected (selected : Bool) {c : Component} {index : Nat}
    (hpart : ∀ i, index ≤ i → i < 1000 → P (.verify (.part c i))) (hwhole : P (.verify (.whole c))) :
    (verifySelected f selected c index).All P := by
  apply all_ite
  · intro _
    exact all_verifyArchive f hmd5 hpart hwhole
  · intro _
    exact all_pure _

theorem all_verifyBoot {inc : Selection} (hboot : inc.incSystem = true → f.has (.whole .boot) = true → P (.verify (.whole .boot))) :
    (verifyBoot f inc).All P := by
  apply all_ite
  · intro hcond
    exact all_verifyWhole hmd5 (hboot hcond.1 hcond.2)
  · intro _
    exact all_pure _

/-- What the check of all archives can call. -/
theorem all_verifyMD5 {inc : Selection} (hpart : ∀ c i, i < 1000 → P (.verify (.part c i)))
    (hwhole : ∀ c ≠ .boot, P (.verify (.whole c)))
    (hboot : inc.incSystem = true → f.has (.whole .boot) = true → P (.verify (.whole .boot))) : (verifyMD5 f inc).All P := by
  apply all_bind (all_verifySelected f hmd5 _ (fun i _ hi => hpart _ i hi) (hwhole .system (by decide)))
  intro r
  cases r with
  | none => exact all_pure _
  | some index =>
    apply all_bind (all_verifySelected f hmd5 _ (fun i _ hi => hpart _ i hi) (hwhole .data (by decide)))
    intro r
    cases r with
    | none => exact all_pure _
    | some _ => exact all_verifyBoot f hmd5 hboot

end Calls

/-- The check changes no directory. -/
theorem verifyMD5_unchanged (inc : Selection) : (verifyMD5 f inc).All fun q => ¬ Changes q :=
  all_verifyMD5 f (fun _ => id) (fun _ _ _ => id) (fun _ _ => id) fun _ _ => id

/-- The parts that have been checked, up to the first that is not there. -/
structure PartsChecked (c : Component) (index : Nat) (log : List (Sigma fun _ : Call => Bool)) (stop : Nat) : Prop where
  le : index ≤ stop
  has : ∀ i, index ≤ i → i < stop → f.has (.part c i) = true
  verified : ∀ i, index ≤ i → i < stop → Verified log (.part c i)
  stops : stop < 1000 → f.has (.part c stop) = false

theorem verifyParts_post (c : Component) {fuel index : Nat} (hfuel : 1000 ≤ index + fuel) :
    Post (verifyParts f c fuel index) fun log r => ∀ stop, r = some stop → PartsChecked f c index log stop := by
  induction fuel generalizing index with
  | zero =>
    apply post_pure
    intro stop hstop
    obtain rfl := Option.some.inj hstop
    exact ⟨le_rfl, by omega, by omega, by omega⟩
  | succ fuel ih =>
    refine post_ite (fun hcond => ?_) fun hcond => ?_
    · refine post_call (logs_ask _) fun ok => ?_
      cases ok with
      | false => exact post_pure (by simp)
      | true =>
        refine (@ih (index + 1) (by omega)).mono fun log r hr stop hstop => ?_
        obtain ⟨hle, hhas, hverified, hstops⟩ := hr stop hstop
        refine ⟨by omega, fun i hi hlt => ?_, fun i hi hlt => ?_, hstops⟩
        · rcases Nat.eq_or_lt_of_le hi with rfl | hi
          · exact hcond.2
          · exact hhas i hi hlt
        · rcases Nat.eq_or_lt_of_le hi with rfl | hi
          · exact List.mem_cons_self
          · exact List.mem_cons_of_mem _ (hverified i hi hlt)
    · apply post_pure
      intro stop hstop
      obtain rfl := Option.some.inj hstop
      refine ⟨le_rfl, by omega, by omega, fun hlt => ?_⟩
      simpa [hlt] using hcond

theorem verifyWhole_post (c : Component) :
    Post (verifyWhole c) fun log ok => ok = true → Verified log (.whole c) := by
  refine post_call (logs_ask _) fun md5 => ?_
  cases md5 with
  | false => exact post_pure (by simp)
  | true => exact post_ask fun ok hok => by simp [Verified, hok]

/-- An archive that has been checked, in one or in parts. -/
def ArchiveChecked (c : Component) (index : Nat) (log : List (Sigma fun _ : Call => Bool)) (stop : Nat) : Prop :=
  if f.has (.whole c) = true then Verified log (.whole c) ∧ stop = index else PartsChecked f c index log stop

theorem verifyArchive_post (c : Component) {index : Nat} :
    Post (verifyArchive f c index) fun log r => ∀ stop, r = some stop → ArchiveChecked f c index log stop := by
  unfold verifyArchive ArchiveChecked
  by_cases hwhole : f.has (.whole c) = true
  · simp only [if_pos hwhole]
    refine post_bind (verifyWhole_post c) fun l ok hok => ?_
    cases ok with
    | false => exact post_pure (by simp)
    | true =>
      apply post_pure
      intro stop hstop
      rw [List.append_nil]
      exact ⟨hok rfl, (Option.some.inj hstop).symm⟩
  · simp only [if_neg hwhole]
    refine post_call (logs_ask _) fun md5 => ?_
    cases md5 with
    | false => exact post_pure (by simp)
    | true =>
      refine (@verifyParts_post f c (1000 - index) index (by omega)).mono fun log r hr stop hstop => ?_
      obtain ⟨hle, hhas, hverified, hstops⟩ := hr stop hstop
      exact ⟨hle, hhas, fun i hi hlt => List.mem_cons_of_mem _ (hverified i hi hlt), hstops⟩

/-! ### The parts that are extracted -/

theorem has_of_lt_countFrom {c : Component} {fuel index i : Nat} (hi : i < countFrom f c fuel index) :
    f.has (.part c (index + i)) = true := by
  induction fuel generalizing index i with
  | zero => cases hi
  | succ fuel ih =>
    rw [countFrom] at hi
    split at hi
    · rename_i hhas
      cases i with
      | zero => exact hhas
      | succ i =>
        have := @ih (index + 1) i (by omega)
        rwa [show index + 1 + i = index + (i + 1) by omega] at this
    · cases hi

theorem has_of_lt_count {c : Component} {i : Nat} (hi : i < count f c) : f.has (.part c i) = true := by
  simpa using has_of_lt_countFrom f hi

theorem count_pos_iff {c : Component} : 0 < count f c ↔ f.has (.part c 0) = true := by
  constructor
  · intro h
    exact has_of_lt_count f h
  · intro h
    unfold count
    cases hbound : f.bound with
    | zero =>
      have := f.bounded c 0 (by omega)
      rw [this] at h
      cases h
    | succ fuel =>
      rw [countFrom, if_pos h]
      omega

/-- A check from the first part on covers up to a thousand of them. -/
theorem verified_of_partsChecked {c : Component} {log : List (Sigma fun _ : Call => Bool)} {stop : Nat}
    (h : PartsChecked f c 0 log stop) (hcount : count f c ≤ 1000) {i : Nat} (hi : i < count f c) : Verified log (.part c i) := by
  apply h.verified i (Nat.zero_le i)
  by_contra hstop
  have hhas := has_of_lt_count f (show stop < count f c by omega)
  rw [h.stops (by omega)] at hhas
  cases hhas

/-- All that is extracted for a component has been checked. -/
theorem verified_archives {c : Component} {log : List (Sigma fun _ : Call => Bool)} {stop : Nat}
    (h : ArchiveChecked f c 0 log stop) (hcount : f.has (.whole c) = true ∨ count f c ≤ 1000) :
    ∀ a ∈ archives f c, Verified log a := by
  unfold ArchiveChecked at h
  unfold archives
  by_cases hwhole : f.has (.whole c) = true
  · rw [if_pos hwhole] at h
    rw [if_pos hwhole]
    intro a ha
    obtain rfl := List.mem_singleton.mp ha
    exact h.1
  · rw [if_neg hwhole] at h
    rw [if_neg hwhole]
    intro a ha
    obtain ⟨i, hi, rfl⟩ := List.mem_map.mp ha
    exact verified_of_partsChecked f h (hcount.resolve_left hwhole) (List.mem_range.mp hi)

end Check

/-! ### Where the check covers what is extracted -/

section Covers
variable {f : Folder} {inc : Selection}

theorem ArchiveChecked.mono {c : Component} {index stop : Nat} {log log' : List (Sigma fun _ : Call => Bool)}
    (h : ArchiveChecked f c index log stop) (hsub : log ⊆ log') : ArchiveChecked f c index log' stop := by
  unfold ArchiveChecked at h ⊢
  by_cases hwhole : f.has (.whole c) = true
  · rw [if_pos hwhole] at h ⊢
    exact ⟨hsub h.1, h.2⟩
  · rw [if_neg hwhole] at h ⊢
    exact ⟨h.le, h.has, fun i hi hlt => hsub (h.verified i hi hlt), h.stops⟩

/-- What has been checked where the check goes through. -/
structure AllChecked (f : Folder) (inc : Selection) (log : List (Sigma fun _ : Call => Bool)) (index : Nat) : Prop where
  system : inc.incSystem = true → ArchiveChecked f .system 0 log index
  noSystem : inc.incSystem = false → index = 0
  data : inc.incData = true → ∃ stop, ArchiveChecked f .data index log stop
  boot : inc.incSystem = true → f.has (.whole .boot) = true → Verified log (.whole .boot)

theorem verifySelected_post (selected : Bool) (c : Component) (index : Nat) :
    Post (verifySelected f selected c index) fun log r => ∀ stop, r = some stop →
      (selected = true → ArchiveChecked f c index log stop) ∧ (selected = false → stop = index) := by
  cases selected with
  | true => exact (verifyArchive_post f c).mono fun log r hr stop hstop => ⟨fun _ => hr stop hstop, by simp⟩
  | false => exact post_pure fun stop hstop => ⟨by simp, fun _ => (Option.some.inj hstop).symm⟩

theorem verifyMD5_post (inc : Selection) :
    Post (verifyMD5 f inc) fun log ok => ok = true → ∃ index, AllChecked f inc log index := by
  refine post_bind (verifySelected_post _ .system 0) fun l₁ r hr => ?_
  cases r with
  | none => exact post_pure (by simp)
  | some index =>
    obtain ⟨hsystem, hno⟩ := hr index rfl
    refine post_bind (verifySelected_post _ .data index) fun l₂ r hr => ?_
    cases r with
    | none => exact post_pure (by simp)
    | some stop =>
      obtain ⟨hdata, _⟩ := hr stop rfl
      have hboot : Post (verifyBoot f inc) fun log ok =>
          ok = true → inc.incSystem = true → f.has (.whole .boot) = true → Verified log (.whole .boot) := by
        refine post_ite (fun _ => ?_) fun hcond => ?_
        · exact (verifyWhole_post .boot).mono fun log ok hok h _ _ => hok h
        · exact post_pure fun _ h h' => absurd ⟨h, h'⟩ hcond
      refine hboot.mono fun l₃ ok hok h => ⟨index, ?_, hno, ?_, ?_⟩
      · intro hinc
        exact (hsystem hinc).mono (by simp)
      · intro hinc
        exact ⟨stop, (hdata hinc).mono (by intro e he; simp [he])⟩
      · intro hinc hhas
        have := hok h hinc hhas
        simp [Verified] at this ⊢
        exact .inr (.inr this)

/-- The check of the data starts with the first part, unless the system had parts. -/
theorem index_eq_zero {log : List (Sigma fun _ : Call => Bool)} {index : Nat} (h : AllChecked f inc log index)
    (hfirst : ¬ (inc.incSystem = true ∧ f.has (.whole .system) = false ∧ f.has (.part .system 0) = true)) : index = 0 := by
  cases hinc : inc.incSystem with
  | false => exact h.noSystem hinc
  | true =>
    have hsystem := h.system hinc
    unfold ArchiveChecked at hsystem
    by_cases hwhole : f.has (.whole .system) = true
    · rw [if_pos hwhole] at hsystem
      exact hsystem.2
    · rw [if_neg hwhole] at hsystem
      by_contra hne
      exact hfirst ⟨hinc, Bool.eq_false_iff.mpr hwhole, hsystem.has 0 le_rfl (Nat.pos_of_ne_zero hne)⟩

/-- In a covered folder everything that is extracted has been checked. -/
theorem verified_of_covered (hcovered : Covered f inc) {log : List (Sigma fun _ : Call => Bool)} {index : Nat}
    (h : AllChecked f inc log index) : ∀ a ∈ extracted f inc, Verified log a := by
  intro a ha
  rw [extracted, List.mem_append, List.mem_append] at ha
  rcases ha with (ha | ha) | ha
  · split at ha
    · rename_i hinc
      exact verified_archives f (h.system hinc) (hcovered.system hinc) a ha
    · cases ha
  · split at ha
    · rename_i hinc
      obtain ⟨stop, hstop⟩ := h.data hinc
      rcases hcovered.data hinc with hwhole | hnone | ⟨hcount, hfirst⟩
      · rw [archives, if_pos hwhole] at ha
        rw [ArchiveChecked, if_pos hwhole] at hstop
        obtain rfl := List.mem_singleton.mp ha
        exact hstop.1
      · by_cases hwhole : f.has (.whole .data) = true
        · rw [archives, if_pos hwhole] at ha
          rw [ArchiveChecked, if_pos hwhole] at hstop
          obtain rfl := List.mem_singleton.mp ha
          exact hstop.1
        · rw [archives, if_neg hwhole, hnone] at ha
          cases ha
      · rw [index_eq_zero h hfirst] at hstop
        exact verified_archives f hstop (.inr hcount) a ha
    · cases ha
  · split at ha
    · rename_i hinc
      obtain rfl := List.mem_singleton.mp ha
      obtain ⟨hsystem, hboot⟩ := hcovered.boot hinc
      exact h.boot hsystem hboot
    · cases ha

/-- Nothing is lost of a check by what is done before and after it. -/
theorem safe_of_checked {as : List Archive} {pre log rest : List (Sigma fun _ : Call => Bool)} {result : Bool}
    (hpre : ∀ e ∈ pre, ¬ Changes e.1) (hlog : ∀ e ∈ log, ¬ Changes e.1) (hall : ∀ a ∈ as, Verified log a) :
    Safe as (pre ++ (log ++ rest)) result := by
  constructor
  · intro before e after heq hchange a ha
    have hmem : ⟨.verify a, true⟩ ∈ pre ++ log := List.mem_append_right _ (hall a ha)
    rw [← List.append_assoc] at heq
    rcases List.append_eq_append_iff.mp heq with ⟨mid, rfl, _⟩ | ⟨mid, hmid, hrest⟩
    · exact List.mem_append_left _ hmem
    · cases mid with
      | nil =>
        rw [List.append_nil] at hmid
        exact hmid ▸ hmem
      | cons e' mid =>
        obtain ⟨rfl, _⟩ := List.cons.inj hrest
        have he : e ∈ pre ++ log := by simp [hmid]
        rcases List.mem_append.mp he with he | he
        · exact absurd hchange (hpre e he)
        · exact absurd hchange (hlog e he)
  · intro _ a ha
    exact List.mem_append_right _ (List.mem_append_left _ (hall a ha))

theorem safe_of_unchanged {as : List Archive} {log : List (Sigma fun _ : Call => Bool)} (h : ∀ e ∈ log, ¬ Changes e.1) :
    Safe as log false := by
  constructor
  · intro pre e post heq hchange
    exact absurd hchange (h e (by simp [heq]))
  · intro hfalse
    cases hfalse

/-- A covered folder is checked first. -/
theorem checksFirst_of_covered (hcovered : Covered f inc) : ChecksFirst f inc := by
  refine post_call (logs_ask _) fun mounted => ?_
  cases mounted with
  | false => exact post_pure (safe_of_unchanged (by simp [Changes]))
  | true =>
    refine post_bind ((verifyMD5_post inc).and (post_all (verifyMD5_unchanged f inc))) ?_
    rintro l ok ⟨hok, hunchanged⟩
    cases ok with
    | false =>
      apply post_pure
      apply safe_of_unchanged
      intro e he
      rw [List.append_nil] at he
      rcases List.mem_cons.mp he with rfl | he
      · exact id
      · exact hunchanged e he
    | true =>
      obtain ⟨index, hchecked⟩ := hok rfl
      intro rest result _
      exact @safe_of_checked _ [_] _ _ _ (by simp [Changes]) hunchanged (verified_of_covered hcovered hchecked)

end Covers

/-! ### Where it does not -/

section Misses
variable {f : Folder} {inc : Selection}

/-- The restore itself checks nothing. -/
theorem restoreRom_unverified (f : Folder) (inc : Selection) (a : Archive) : (restoreRom f inc).All fun q => q ≠ .verify a := by
  have hparts (c : Component) (fuel index : Nat) : (extractParts f c fuel index).All fun q => q ≠ .verify a := by
    induction fuel generalizing index with
    | zero => exact all_pure _
    | succ fuel ih =>
      apply all_ite
      · intro _
        apply all_bind (all_ask (by simp))
        intro ok
        apply all_ite
        · intro _
          exact ih (index + 1)
        · intro _
          exact all_pure _
      · intro _
        exact all_pure _
  have hdir (c : Component) : (restoreDir f c).All fun q => q ≠ .verify a := by
    apply all_bind
    · apply all_bind (all_ask (by simp))
      intro present
      apply all_ite
      · intro _
        exact all_bind (all_ask (by simp)) fun _ => all_pure _
      · intro _
        exact all_pure _
    intro _
    apply all_ite
    · intro _
      exact all_ask (by simp)
    · intro _
      apply all_bind (hparts c _ 0)
      intro r
      cases r <;> exact all_pure _
  have hboot : restoreBoot.All fun q => q ≠ .verify a := by
    apply all_bind
    · apply all_bind (all_ask (by simp))
      intro present
      apply all_ite <;> intro _ <;> exact all_bind (all_ask (by simp)) fun _ => all_pure _
    intro _
    apply all_bind (all_ask (by simp))
    intro ok
    apply all_ite
    · intro _
      exact all_bind (all_ask (by simp)) fun _ => all_pure _
    · intro _
      exact all_pure _
  have hselected {x : Session Bool} (selected : Bool) (hx : x.All fun q => q ≠ .verify a) :
      (restoreSelected selected x).All fun q => q ≠ .verify a := by
    apply all_ite
    · intro _
      exact hx
    · intro _
      exact all_pure _
  apply all_bind (all_ask (by simp))
  intro _
  apply all_bind (hselected _ (hdir .system))
  intro ok
  apply all_ite
  · intro _
    apply all_bind (hselected _ (hdir .data))
    intro ok
    apply all_ite
    · intro _
      exact hselected _ hboot
    · intro _
      exact all_pure _
  · intro _
    exact all_pure _

/-- Every call succeeds. -/
def always (_ : Call) : Bool := true

theorem verifyParts_always (c : Component) (fuel index : Nat) : ((verifyParts f c fuel index).eval always).isSome = true := by
  induction fuel generalizing index with
  | zero => rfl
  | succ fuel ih =>
    rw [verifyParts]
    split
    · exact ih (index + 1)
    · rfl

theorem verifyMD5_always : (verifyMD5 f inc).eval always = true := by
  have harchive (c : Component) (index : Nat) : ((verifyArchive f c index).eval always).isSome = true := by
    rw [verifyArchive]
    split
    · rfl
    · exact verifyParts_always c _ index
  have hselected (selected : Bool) (c : Component) (index : Nat) : ∃ stop, (verifySelected f selected c index).eval always = some stop := by
    cases selected with
    | false => exact ⟨index, rfl⟩
    | true => exact Option.isSome_iff_exists.mp (harchive c index)
  obtain ⟨index, hindex⟩ := hselected inc.incSystem .system 0
  obtain ⟨stop, hstop⟩ := hselected inc.incData .data index
  simp only [verifyMD5, eval_bind, hindex, hstop]
  rw [verifyBoot]
  split <;> rfl

/-- When every call succeeds, a directory is removed. -/
theorem exists_change (h : inc.incSystem = true ∨ inc.incData = true ∨ inc.incBoot = true) :
    ∃ q ∈ (restore f inc false).calls always, Changes q := by
  have hrestore : (restoreRom f inc).calls always ⊆ (restore f inc false).calls always := by
    intro q hq
    simp [restore, ask, always, restoreSelected, verifyMD5_always, hq]
  have hdir (c : Component) : .remove c ∈ (restoreDir f c).calls always := by
    simp [restoreDir, clearDir, ask, always]
  have hboot : .remove .boot ∈ restoreBoot.calls always := by
    simp [restoreBoot, clearBoot, ask, always]
  cases hsystem : inc.incSystem with
  | true =>
    refine ⟨.remove .system, hrestore ?_, trivial⟩
    simp [restoreRom, restoreSelected, hsystem, hdir]
  | false =>
    cases hdata : inc.incData with
    | true =>
      refine ⟨.remove .data, hrestore ?_, trivial⟩
      simp [restoreRom, restoreSelected, hsystem, hdata, hdir]
    | false =>
      have hinc : inc.incBoot = true := by simpa [hsystem, hdata] using h
      refine ⟨.remove .boot, hrestore ?_, trivial⟩
      simp [restoreRom, restoreSelected, hsystem, hdata, hinc, hboot]

/-- A folder is not checked first where an archive is extracted that no run checks. -/
theorem not_checksFirst {a : Archive} (ha : a ∈ extracted f inc)
    (hmissed : Post (verifyMD5 f inc) fun log _ => ∀ r, ⟨.verify a, r⟩ ∉ log) : ¬ ChecksFirst f inc := by
  intro h
  have hany : inc.incSystem = true ∨ inc.incData = true ∨ inc.incBoot = true := by
    by_contra hnone
    obtain ⟨hsystem, hnone⟩ := not_or.mp hnone
    obtain ⟨hdata, hboot⟩ := not_or.mp hnone
    simp [extracted, hsystem, hdata, hboot] at ha
  have hnever : Post (restore f inc false) fun log _ => ∀ r, ⟨.verify a, r⟩ ∉ log := by
    refine post_call (logs_ask _) fun mounted => ?_
    cases mounted with
    | false => exact post_pure (by simp)
    | true =>
      refine post_bind hmissed fun l ok hl => ?_
      cases ok with
      | false =>
        apply post_pure
        simpa using hl
      | true =>
        refine (post_all (restoreRom_unverified f inc a)).mono fun log _ hlog r hr => ?_
        rcases List.mem_cons.mp hr with hr | hr
        · cases hr
        rcases List.mem_append.mp hr with hr | hr
        · exact hl r hr
        · exact hlog _ hr rfl
  obtain ⟨q, hq, hchange⟩ := exists_change (f := f) hany
  have hrun := runs_eval always (restore f inc false)
  obtain ⟨pre, post, hsplit⟩ := List.append_of_mem (List.mem_map_of_mem (f := fun q => (⟨q, always q⟩ : Sigma fun _ : Call => Bool)) hq)
  have hverified := (h _ _ hrun).1 pre _ post hsplit hchange a ha
  exact hnever _ _ hrun true (hsplit ▸ List.mem_append_left _ hverified)

/-- The archives that the check of parts comes to have numbers below a thousand. -/
theorem missed_thousand (c : Component) {n : Nat} (hn : 1000 ≤ n) :
    Post (verifyMD5 f inc) fun log _ => ∀ r, ⟨.verify (.part c n), r⟩ ∉ log := by
  have hall : (verifyMD5 f inc).All fun q => q ≠ .verify (.part c n) :=
    all_verifyMD5 f (by simp) (fun c' i hi => by simp; omega) (by simp) (by simp)
  exact (post_all hall).mono fun log _ h r hr => h _ hr rfl

/-- The boot files are not checked without the system, nor where they are not there. -/
theorem missed_boot (h : ¬ (inc.incSystem = true ∧ f.has (.whole .boot) = true)) :
    Post (verifyMD5 f inc) fun log _ => ∀ r, ⟨.verify (.whole .boot), r⟩ ∉ log := by
  have hall : (verifyMD5 f inc).All fun q => q ≠ .verify (.whole .boot) :=
    all_verifyMD5 f (by simp) (by simp) (fun c hc => by simpa using hc) fun hsystem hboot => absurd ⟨hsystem, hboot⟩ h
  exact (post_all hall).mono fun log _ h r hr => h _ hr rfl

/-- The first part of the data is not checked after parts of the system. -/
theorem missed_first (hsystem : inc.incSystem = true) (hwhole : f.has (.whole .system) = false)
    (hpart : f.has (.part .system 0) = true) :
    Post (verifyMD5 f inc) fun log _ => ∀ r, ⟨.verify (.part .data 0), r⟩ ∉ log := by
  have hmd5 (a : Archive) : Call.hasMD5 a ≠ .verify (.part .data 0) := by simp
  have hfirst : (verifySelected f inc.incSystem .system 0).All fun q => q ≠ .verify (.part .data 0) :=
    all_verifySelected f hmd5 _ (by simp) (by simp)
  refine post_bind ((verifySelected_post inc.incSystem .system 0).and (post_all hfirst)) ?_
  rintro l₁ r ⟨hr, hl₁⟩
  cases r with
  | none =>
    apply post_pure
    intro r hmem
    rw [List.append_nil] at hmem
    exact hl₁ _ hmem rfl
  | some index =>
    have hpos : 1 ≤ index := by
      have hchecked := (hr index rfl).1 hsystem
      rw [ArchiveChecked, if_neg (by simp [hwhole])] at hchecked
      by_contra hzero
      obtain rfl : index = 0 := by omega
      rw [hchecked.stops (by decide)] at hpart
      cases hpart
    have hrest : (do
        match ← verifySelected f inc.incData .data index with
        | none => pure false
        | some _ => verifyBoot f inc : Session Bool).All fun q => q ≠ .verify (.part .data 0) := by
      apply all_bind (all_verifySelected f hmd5 _ (fun i hi _ => by simp; omega) (by simp))
      intro r
      cases r with
      | none => exact all_pure _
      | some _ => exact all_verifyBoot f hmd5 (by simp)
    refine (post_all hrest).mono fun log _ hlog r hmem => ?_
    rcases List.mem_append.mp hmem with hmem | hmem
    · exact hl₁ _ hmem rfl
    · exact hlog _ hmem rfl

theorem covered_of_checksFirst (h : ChecksFirst f inc) : Covered f inc := by
  have hmem {c : Component} {n : Nat} (hwhole : ¬ f.has (.whole c) = true) (hn : n < count f c) : .part c n ∈ archives f c := by
    rw [archives, if_neg hwhole]
    exact List.mem_map_of_mem (List.mem_range.mpr hn)
  constructor
  · intro hinc
    by_contra hnot
    obtain ⟨hwhole, hcount⟩ := not_or.mp hnot
    refine not_checksFirst (a := .part .system 1000) ?_ (missed_thousand .system le_rfl) h
    simp [extracted, hinc, hmem hwhole (Nat.lt_of_not_le hcount)]
  · intro hinc
    by_contra hnot
    obtain ⟨hwhole, hnot⟩ := not_or.mp hnot
    obtain ⟨hzero, hnot⟩ := not_or.mp hnot
    by_cases hcount : count f .data ≤ 1000
    · obtain ⟨hsystem, hparts, hpart⟩ := not_not.mp fun hno => hnot ⟨hcount, hno⟩
      refine not_checksFirst (a := .part .data 0) ?_ (missed_first hsystem hparts hpart) h
      simp [extracted, hinc, hmem hwhole (Nat.pos_of_ne_zero hzero)]
    · refine not_checksFirst (a := .part .data 1000) ?_ (missed_thousand .data le_rfl) h
      simp [extracted, hinc, hmem hwhole (Nat.lt_of_not_le hcount)]
  · intro hinc
    by_contra hnot
    refine not_checksFirst (a := .whole .boot) ?_ (missed_boot hnot) h
    simp [extracted, hinc]

end Misses

/-- Archives are checked before directories change just where the check covers what is extracted. -/
theorem checksFirst_iff_covered (f : Folder) (inc : Selection) : ChecksFirst f inc ↔ Covered f inc :=
  ⟨covered_of_checksFirst, checksFirst_of_covered⟩

/-- One archive for each component. -/
def singleArchives : Folder where
  has := fun a => match a with
    | .whole _ => true
    | .part _ _ => false
  bound := 0
  bounded := fun _ _ _ => rfl

/-- The boot files alone are restored without a check. -/
theorem not_checksFirst_boot : ¬ ∀ f inc, ChecksFirst f inc := by
  intro h
  exact absurd (h singleArchives ⟨false, false, true⟩) (not_checksFirst (a := .whole .boot) (by decide) (missed_boot (by decide)))

end Twrp.NativeSD
