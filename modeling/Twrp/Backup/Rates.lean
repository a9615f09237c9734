import Twrp.Settings.File

/-! The average rates, from one backup to the next.

`Run_Backup` keeps three averages in the settings: of imaged partitions, of file
partitions, and of compressed file partitions. Each completed backup mixes the rate
it measured with four parts of the average before, in truncating integer division;
`Backup_Partition` divides by two of them. The rate of images is an `int`, the rates
of files are 64-bit, and the divisions cast to a 32-bit `unsigned long`.

`rates_safe_iff`: along a history of backups every average stays at least 1 and every
division is defined exactly when each backup, taken with the averages before it, has
enough to keep them there. -/
namespace Twrp.Backup
open Base Settings

/-- A value in an `int`. -/
def toInt32 (x : Int) : Int := x.bmod 4294967296

/-- `TW_BACKUP_AVG_IMG_RATE`, `TW_BACKUP_AVG_FILE_RATE` and
`TW_BACKUP_AVG_FILE_COMP_RATE`. -/
structure Rates where
  img : Int
  file : Nat
  comp : Nat
deriving DecidableEq

/-- The averages as `GetValue` reads them. -/
def ratesOf (d : DataManager) : Rates where
  img := getIntValue d "tw_backup_avg_img_rate"
  file := (getStrValue d "tw_backup_avg_file_rate").strtoull
  comp := (getStrValue d "tw_backup_avg_file_comp_rate").strtoull

def defaultRates : Rates := ⟨15000000, 3000000, 2000000⟩

-- the settings table holds these defaults
example : ratesOf defaults = defaultRates := by decide +kernel

/-! ### Dividing by the rates -/

/-- The rate of files that `use_compression` selects. -/
def Rates.fileBps (r : Rates) (useCompression : Bool) : Nat := if useCompression then r.comp else r.file

/-- A division of the source, undefined at zero. -/
def divide (a b : Nat) : Option Nat := if b = 0 then none else some (a / b)

/-- What a partition asks of the estimates of `Backup_Partition`. -/
structure Estimate where
  useCompression : Bool
  imgBytes : UInt64
  fileBytes : UInt64
  imgBytesRemaining : UInt64
  fileBytesRemaining : UInt64
  backupMethod : Nat
  backupSize : UInt64

/-- `section_time`, divided by the rates themselves. -/
def sectionTime (r : Rates) (e : Estimate) : Option Nat :=
  if e.backupMethod = 1 then divide e.backupSize.toNat (r.fileBps e.useCompression)
  else divide e.backupSize.toNat (r.img % 18446744073709551616).toNat

/-- `total_time`, `remain_time` and `section_time` of `Backup_Partition`. The first two
divide by rates cast to `unsigned long`. -/
def times (r : Rates) (e : Estimate) : Option (Nat × Nat × Nat) := do
  let imgBps := (r.img % 4294967296).toNat
  let fileBps := r.fileBps e.useCompression % 4294967296
  let total := (← divide e.imgBytes.toNat imgBps) + (← divide e.fileBytes.toNat fileBps)
  let remain := (← divide e.imgBytesRemaining.toNat imgBps) + (← divide e.fileBytesRemaining.toNat fileBps)
  let part ← sectionTime r e
  return (total % 4294967296, remain % 4294967296, part % 4294967296)

/-- Every average is at least 1 and every division is defined. -/
structure Safe (r : Rates) : Prop where
  img : 1 ≤ r.img
  file : 1 ≤ r.file
  comp : 1 ≤ r.comp
  divisions : ∀ e, (times r e).isSome

/-! ### A completed backup -/

/-- What the end of `Run_Backup` knows of a backup: the bytes of imaged and of file
partitions, the seconds spent on each, and whether files were compressed. -/
structure Completed where
  imgBytes : UInt64
  fileBytes : UInt64
  imgTime : UInt32
  fileTime : UInt32
  useCompression : Bool
deriving DecidableEq

/-- Nothing timed counts as a second. -/
def seconds (t : UInt32) : Nat := if t = 0 then 1 else t.toNat

/-- `(int)img_bytes / (int)img_time` -/
def measuredImg (c : Completed) : Int :=
  toInt32 (Int.tdiv (toInt32 c.imgBytes.toNat) (toInt32 (seconds c.imgTime)))

/-- `file_bytes / (int)file_time`, the divisor converted to 64 bits. -/
def measuredFile (c : Completed) : Nat :=
  c.fileBytes.toNat / (toInt32 (seconds c.fileTime) % 18446744073709551616).toNat

/-- One part measured to four parts of the average before. -/
def mixImg (measured prev : Int) : Int := Int.tdiv (toInt32 (measured + prev * 4)) 5

def mixFile (measured prev : Nat) : Nat := (measured + prev * 4) % 18446744073709551616 / 5

/-- The averages after a completed backup. -/
def average (r : Rates) (c : Completed) : Rates where
  img := mixImg (measuredImg c) r.img
  file := if c.useCompression then r.file else mixFile (measuredFile c) r.file
  comp := if c.useCompression then mixFile (measuredFile c) r.comp else r.comp

/-- The averages after a history of completed backups. -/
def after (history : List Completed) : Rates := history.foldl average defaultRates

/-! ### One backup -/

/-- The bytes measured and the averages before keep the averages up: five units of
image rate without leaving the range of an `int`, and a mixed file rate that is not
less than five units past a multiple of what an `unsigned long` can hold. -/
structure Enough (r : Rates) (c : Completed) : Prop where
  img : 5 ≤ measuredImg c + 4 * r.img
  imgFits : measuredImg c + 4 * r.img < 2147483648
  file : 5 ≤ (measuredFile c + 4 * r.fileBps c.useCompression) % 18446744073709551616 % (5 * 4294967296)

/-- Averages no larger than a fifth of their range. -/
structure InRange (r : Rates) : Prop where
  img : r.img ≤ 429496729
  file : r.file < 18446744073709551616
  comp : r.comp < 18446744073709551616

theorem divide_isSome (a b : Nat) : (divide a b).isSome ↔ b ≠ 0 := by
  unfold divide
  split_ifs with h
  · simp [h]
  · simp [h]

theorem toInt32_bounds (x : Int) : -2147483648 ≤ toInt32 x ∧ toInt32 x < 2147483648 := by
  have hlow := Int.le_bmod (x := x) (m := 4294967296) (by decide)
  have hhigh := Int.bmod_lt (x := x) (m := 4294967296) (by decide)
  unfold toInt32
  omega

theorem tdiv_five (x : Int) : (1 ≤ x.tdiv 5 ↔ 5 ≤ x) ∧ (x < 2147483648 → x.tdiv 5 ≤ 429496729) := by
  rw [Int.tdiv_eq_ediv]
  split_ifs with h
  · omega
  · rw [show Int.sign 5 = 1 from rfl]
    omega

theorem mixImg_le (measured prev : Int) : mixImg measured prev ≤ 429496729 :=
  (tdiv_five _).2 (toInt32_bounds _).2

/-- A mixed image rate is positive exactly when the sum is, in the range of an `int`. -/
theorem mixImg_pos {measured prev : Int} (hlow : -2147483648 ≤ measured) (hhigh : measured < 2147483648)
    (hprev : 1 ≤ prev) (hprev' : prev ≤ 429496729) :
    1 ≤ mixImg measured prev ↔ 5 ≤ measured + 4 * prev ∧ measured + 4 * prev < 2147483648 := by
  unfold mixImg
  rw [(tdiv_five _).1]
  unfold toInt32
  rw [Int.bmod_def]
  split_ifs
  · omega
  · omega

/-- A mixed file rate has a nonzero low word exactly when the sum is far enough past a
multiple of it. -/
theorem mixFile_low (measured prev : Nat) :
    mixFile measured prev % 4294967296 ≠ 0 ↔
      5 ≤ (measured + 4 * prev) % 18446744073709551616 % (5 * 4294967296) := by
  unfold mixFile
  omega

theorem mixFile_lt (measured prev : Nat) : mixFile measured prev < 18446744073709551616 := by
  unfold mixFile
  omega

/-- The divisions are defined when no divisor is zero after its cast. -/
theorem times_isSome (r : Rates) (e : Estimate) :
    (times r e).isSome ↔ r.img % 4294967296 ≠ 0 ∧ r.fileBps e.useCompression % 4294967296 ≠ 0 := by
  have hsection : r.img % 4294967296 ≠ 0 → r.fileBps e.useCompression % 4294967296 ≠ 0 →
      (sectionTime r e).isSome := by
    intro himg hfile
    unfold sectionTime
    split_ifs
    · exact (divide_isSome ..).mpr (by omega)
    · exact (divide_isSome ..).mpr (by omega)
  constructor
  · intro h
    simp only [times, Option.bind_eq_bind, Option.isSome_bind, Option.any_eq_true] at h
    obtain ⟨_, himg, _, hfile, _⟩ := h
    have himg' := (divide_isSome ..).mp (Option.isSome_of_eq_some himg)
    have hfile' := (divide_isSome ..).mp (Option.isSome_of_eq_some hfile)
    exact ⟨by omega, hfile'⟩
  · rintro ⟨himg, hfile⟩
    have hdiv : ∀ a, ∃ q, divide a (r.img % 4294967296).toNat = some q :=
      fun a => Option.isSome_iff_exists.mp ((divide_isSome ..).mpr (by omega))
    have hdiv' : ∀ a, ∃ q, divide a (r.fileBps e.useCompression % 4294967296) = some q :=
      fun a => Option.isSome_iff_exists.mp ((divide_isSome ..).mpr hfile)
    obtain ⟨q₁, h₁⟩ := hdiv e.imgBytes.toNat
    obtain ⟨q₂, h₂⟩ := hdiv' e.fileBytes.toNat
    obtain ⟨q₃, h₃⟩ := hdiv e.imgBytesRemaining.toNat
    obtain ⟨q₄, h₄⟩ := hdiv' e.fileBytesRemaining.toNat
    obtain ⟨q₅, h₅⟩ := Option.isSome_iff_exists.mp (hsection himg hfile)
    simp only [times, h₁, h₂, h₃, h₄, h₅, Option.bind_eq_bind, Option.bind_some]
    rfl

theorem safe_iff {r : Rates} (h : InRange r) :
    Safe r ↔ 1 ≤ r.img ∧ r.file % 4294967296 ≠ 0 ∧ r.comp % 4294967296 ≠ 0 := by
  constructor
  · intro hs
    have himg := hs.img
    have hfile := ((times_isSome r ⟨false, 0, 0, 0, 0, 0, 0⟩).mp (hs.divisions _)).2
    have hcomp := ((times_isSome r ⟨true, 0, 0, 0, 0, 0, 0⟩).mp (hs.divisions _)).2
    exact ⟨himg, hfile, hcomp⟩
  · rintro ⟨himg, hfile, hcomp⟩
    refine ⟨himg, by omega, by omega, fun e => (times_isSome r e).mpr ⟨?_, ?_⟩⟩
    · have := h.img
      omega
    · unfold Rates.fileBps
      split_ifs
      · exact hcomp
      · exact hfile

theorem average_img (r : Rates) (c : Completed) : (average r c).img = mixImg (measuredImg c) r.img := by
  rw [average]

theorem average_file (r : Rates) (c : Completed) :
    (average r c).file = if c.useCompression then r.file else mixFile (measuredFile c) r.file := by
  rw [average]

theorem average_comp (r : Rates) (c : Completed) :
    (average r c).comp = if c.useCompression then mixFile (measuredFile c) r.comp else r.comp := by
  rw [average]

theorem average_inRange {r : Rates} (h : InRange r) (c : Completed) : InRange (average r c) := by
  refine ⟨?_, ?_, ?_⟩
  · rw [average_img]
    exact mixImg_le _ _
  · rw [average_file]
    split_ifs
    · exact h.file
    · exact mixFile_lt _ _
  · rw [average_comp]
    split_ifs
    · exact mixFile_lt _ _
    · exact h.comp

/-- One backup keeps the averages safe exactly when it has enough. -/
theorem average_safe_iff {r : Rates} (hr : InRange r) (hs : Safe r) (c : Completed) :
    Safe (average r c) ↔ Enough r c := by
  have hmeasured : -2147483648 ≤ measuredImg c ∧ measuredImg c < 2147483648 := toInt32_bounds _
  obtain ⟨himg, hfile, hcomp⟩ := (safe_iff hr).mp hs
  have hpos := mixImg_pos hmeasured.1 hmeasured.2 himg hr.img
  rw [safe_iff (average_inRange hr c), average_img, average_file, average_comp]
  constructor
  · rintro ⟨himg', hfile', hcomp'⟩
    obtain ⟨h5, hfits⟩ := hpos.mp himg'
    have henough : 5 ≤ (measuredFile c + 4 * r.fileBps c.useCompression) % 18446744073709551616 %
        (5 * 4294967296) := by
      rw [← mixFile_low]
      cases hc : c.useCompression with
      | true => simpa only [hc, if_true, Rates.fileBps] using hcomp'
      | false => simpa only [hc, Bool.false_eq_true, if_false, Rates.fileBps] using hfile'
    exact ⟨h5, hfits, henough⟩
  · intro h
    have henough := (mixFile_low _ _).mpr h.file
    refine ⟨hpos.mpr ⟨h.img, h.imgFits⟩, ?_, ?_⟩
    · cases hc : c.useCompression with
      | true => simpa only [hc, if_true] using hfile
      | false => simpa only [hc, Bool.false_eq_true, if_false, Rates.fileBps] using henough
    · cases hc : c.useCompression with
      | true => simpa only [hc, if_true, Rates.fileBps] using henough
      | false => simpa only [hc, Bool.false_eq_true, if_false] using hcomp

/-! ### A history of backups -/

theorem after_append (history : List Completed) (c : Completed) :
    after (history ++ [c]) = average (after history) c := by
  simp [after]

theorem after_inRange (history : List Completed) : InRange (after history) := by
  induction history using List.reverseRecOn with
  | nil => exact ⟨by decide, by decide, by decide⟩
  | append_singleton history c ih =>
    rw [after_append]
    exact average_inRange ih c

theorem defaultRates_safe : Safe defaultRates :=
  (safe_iff (after_inRange [])).mpr (by decide)

/-- **The averages.** In every state that a history of completed backups reaches from
the defaults, the averages are at least 1 and the divisions by them are defined,
exactly when every backup of the history has enough. -/
theorem rates_safe_iff (history : List Completed) :
    (∀ done rest, history = done ++ rest → Safe (after done)) ↔
      ∀ done c rest, history = done ++ c :: rest → Enough (after done) c := by
  constructor
  · intro h done c rest heq
    have hbefore := h done (c :: rest) heq
    have hafter := h (done ++ [c]) rest (by simp [heq])
    rw [after_append] at hafter
    exact (average_safe_iff (after_inRange done) hbefore c).mp hafter
  · intro h done
    induction done using List.reverseRecOn with
    | nil => exact fun _ _ => defaultRates_safe
    | append_singleton done c ih =>
      intro rest heq
      rw [List.append_assoc, List.singleton_append] at heq
      rw [after_append]
      exact (average_safe_iff (after_inRange done) (ih _ heq) c).mpr (h done c rest heq)

/-! ### Backups of files alone -/

/-- A backup of `/data` alone: 1 GB of files in 200 seconds and no image. -/
def dataOnly : Completed := ⟨0, 1073741824, 0, 200, false⟩

/-- After seventy of them the image rate is zero. -/
theorem rates_safe_data_only :
    ¬∀ history done rest, history = done ++ rest → Safe (after done) := by
  intro h
  have hsafe := h (List.replicate 70 dataOnly) (List.replicate 70 dataOnly) [] (List.append_nil _).symm
  have himg := hsafe.img
  exact absurd himg (by decide +kernel)

end Twrp.Backup
