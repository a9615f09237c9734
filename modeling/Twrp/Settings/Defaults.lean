import Twrp.Settings.Values

/-! The defaults of a build.

`SetDefaultValues` is a long sequence of insertions, most of them under build
switches. It is a table here: each row carries the condition of the `#if` around it
and what it does, and the rows run in order. The names of the rows do not depend on
the build, so what is proved about them is decided once for all builds. -/
namespace Twrp.Settings
open Base

/-- The boot loaders `Detect_BLDR` tells apart; `MAGLDR` boots from the card or from
the internal memory. -/
inductive Bldr where
  | clk | haret | magldr (nand : Bool)
deriving DecidableEq

/-- A string a build defines, or one the device supplies. The source keeps the paths
made from them, and the device id, in buffers of at most 255 bytes. -/
structure Text where
  str : CString
  fits : str.length ≤ 254

/-- The switches of a build, and what the defaults read from the device. -/
structure Build where
  htcLeo : Bool
  includeMkntfs : Bool
  includeExfat : Bool
  hasNoRealSdcard : Bool
  includeDumlock : Bool
  /-- `TW_INTERNAL_STORAGE_PATH` and its mount point -/
  internalStorage : Option (Text × Text)
  /-- `TW_EXTERNAL_STORAGE_PATH` and its mount point -/
  externalStorage : Option (Text × Text)
  sdcardOnData : Bool
  defaultExternalStorage : Bool
  noRebootRecovery : Bool
  noRebootBootloader : Bool
  noBattPercent : Bool
  customPowerButton : Option Text
  alwaysRmrf : Bool
  neverUnmountSystem : Bool
  noUsbStorage : Bool
  includeInjecttwrp : Bool
  flashFromStorage : Bool
  hasDownloadMode : Bool
  includeCrypto : Bool
  excludeEncryptedBackups : Bool
  sdextNoExt4 : Bool
  hasNoBootPartition : Bool
  noScreenTimeout : Bool
  brightnessPath : Text
  /-- `TW_MAX_BRIGHTNESS`, as it prints -/
  maxBrightness : Text
  defaultRotation : Text
  hasLandscape : Bool
  -- read from the device
  deviceId : Text
  bldr : Bldr
  extraBoot : CString → Bool
  dataMedia0 : Bool
  lunFile : Bool

/-- One row of the defaults: `mValues.insert`, `mConstValues.insert`, or `SetValue`
of a value computed from what is there so far. -/
inductive Row where
  | value (name value : CString) (persist : Int)
  | const (name value : CString)
  | set (name : CString) (value : DataManager → CString) (persist : Int)
  | setInt (name : CString) (value : DataManager → Int) (persist : Int)

/-- `insert` of a `map` leaves an entry that exists alone. -/
def Row.run (host : Host) (d : DataManager) : Row → DataManager
  | .value name v persist => {d with mValues := d.mValues.insertIfNew name ⟨v, persist⟩}
  | .const name v => {d with mConstValues := d.mConstValues.insertIfNew name v}
  | .set name v persist => (setValue host d name (v d) persist).2
  | .setInt name v persist => (setIntValue host d name (v d) persist).2

def Row.name : Row → CString
  | .value name _ _ => name
  | .const name _ => name
  | .set name _ _ => name
  | .setInt name _ _ => name

open Row

def ifStr (c : Bool) (yes no : CString) : CString := if c then yes else no

/-- The zip folder of the internal storage keeps out of the way of an external
storage mounted on `/sdcard`. -/
def zipInternal (b : Build) : CString :=
  match b.externalStorage with
  | some (path, _) => if path.str = "/sdcard" then "/emmc" else "/sdcard"
  | none => "/sdcard"

/-- The path and the mount point of a storage, empty when the build has none. -/
def storagePath (storage : Option (Text × Text)) : CString := (storage.map (·.1.str)).getD ""

def storageMount (storage : Option (Text × Text)) : CString := (storage.map (·.2.str)).getD ""

def leoRows (b : Build) : List (Bool × Row) :=
  [(b.htcLeo, value "tw_htc_leo" "1" 1),
   (b.htcLeo, setInt "tw_bldr_is_clk" (fun _ => if b.bldr = .clk then 1 else 0) 0),
   (b.htcLeo && b.bldr == .magldr false, setInt "tw_bldr_is_magldr" (fun _ => 0) 0),
   (b.htcLeo && b.bldr == .magldr true, setInt "tw_bldr_is_magldr" (fun _ => 1) 0),
   (b.htcLeo && b.bldr == .clk && b.extraBoot "sboot", setInt "tw_has_sboot_ptn" (fun _ => 1) 0),
   (b.htcLeo && b.bldr == .clk && b.extraBoot "tboot", setInt "tw_has_tboot_ptn" (fun _ => 1) 0),
   (b.htcLeo && b.bldr == .clk && b.extraBoot "vboot", setInt "tw_has_vboot_ptn" (fun _ => 1) 0),
   (b.htcLeo && b.bldr == .clk && b.extraBoot "wboot", setInt "tw_has_wboot_ptn" (fun _ => 1) 0),
   (b.htcLeo && b.bldr == .clk && b.extraBoot "xboot", setInt "tw_has_xboot_ptn" (fun _ => 1) 0),
   (b.htcLeo && b.bldr == .clk && b.extraBoot "yboot", setInt "tw_has_yboot_ptn" (fun _ => 1) 0),
   (b.htcLeo && b.bldr == .clk && b.extraBoot "zboot", setInt "tw_has_zboot_ptn" (fun _ => 1) 0),
   (b.htcLeo, value "tw_boot_is_mtd" "0" 1),
   (b.htcLeo, value "tw_sd_skip_dalvik" "0" 1),
   (b.htcLeo, value "tw_skip_nativesd" "0" 1),
   (b.htcLeo, value "tw_sd_backup_system" "1" 1),
   (b.htcLeo, value "tw_sd_backup_data" "1" 1),
   (b.htcLeo, value "tw_sd_backup_boot" "1" 1),
   (b.htcLeo, value "tw_sd_restore_system" "1" 1),
   (b.htcLeo, value "tw_sd_restore_data" "1" 1),
   (b.htcLeo, value "tw_sd_restore_boot" "1" 1),
   (b.htcLeo, value "tw_sd_use_compression" "0" 1),
   (b.htcLeo, value "tw_sd_skip_md5_check" "0" 1),
   (b.htcLeo, value "tw_sd_skip_md5_generate" "0" 1),
   (b.htcLeo, value "tw_sdboot_partition" "" 1),
   (b.htcLeo, value "tw_data_path" "/sd-ext" 1),
   (b.htcLeo, value "tw_data_on_ext" "0" 1),
   (b.htcLeo, value "tw_data_on_ext_check" "0" 1),
   (b.htcLeo, value "tw_restore_is_dataonext" "0" 1),
   (b.htcLeo, value "tw_vibrate_after_sdbackup" "1" 1),
   (b.htcLeo, value "tw_sdbackup_feedback_duration_ms" "100" 1),
   (b.htcLeo, value "tw_vibrate_after_sdrestore" "1" 1),
   (b.htcLeo, value "tw_sdrestore_feedback_duration_ms" "100" 1),
   (b.htcLeo, value "tw_set_drop_caches_at_boot" "0" 1),
   (b.htcLeo, value "tw_drop_caches" "0" 1),
   (b.htcLeo, value "tw_set_io_sched_at_boot" "0" 1),
   (b.htcLeo, value "tw_io_sched" "deadline" 1),
   (b.htcLeo, value "tw_set_cpu_f_at_boot" "0" 1),
   (b.htcLeo, value "tw_max_cpu_f" "998400" 1),
   (b.htcLeo, value "tw_min_cpu_f" "245000" 1),
   (b.htcLeo, value "tw_set_cpu_gov_at_boot" "0" 1),
   (b.htcLeo, value "tw_cpu_gov" "performance" 1),
   (!b.htcLeo, value "tw_htc_leo" "0" 1)]

def extendedRows (b : Build) : List (Bool × Row) :=
  [(true, value "tw_restore_boot" "0" 1),
   (true, value "tw_skip_dalvik" "0" 1),
   (true, value "tw_sdext2_size" "0" 1),
   (true, value "tw_has_sdext_partition" "0" 1),
   (true, value "tw_has_sdext2_partition" "0" 1),
   (true, value "tw_use_sdext2_partition" "0" 1),
   (true, value "tw_sdcard_file_system" "vfat" 1),
   (true, value "tw_sdpart2_file_system" "ext4" 1),
   (true, value "tw_screenshot_var" "0" 1),
   (true, value "tw_sel_theme_path" "" 1),
   (true, value "tw_num_of_mounts_for_fs_check" "16" 1),
   (true, value "tw_incr_size" "40" 1),
   (true, value "tw_skip_sd_free_sz_check" "0" 1),
   (true, value "tw_rescue_ext_contents" "0" 1),
   (true, value "tw_handle_restore_size" "0" 1),
   (true, value "tw_handle_su" "0" 1),
   (true, value "tw_vibrate_after_button_press" "1" 1),
   (true, value "tw_button_feedback_duration_ms" "25" 1),
   (true, value "tw_vibrate_after_backup" "1" 1),
   (true, value "tw_backup_feedback_duration_ms" "100" 1),
   (true, value "tw_vibrate_after_restore" "1" 1),
   (true, value "tw_restore_feedback_duration_ms" "100" 1),
   (true, value "tw_vibrate_after_install" "1" 1),
   (true, value "tw_install_feedback_duration_ms" "100" 1),
   (true, value "tw_vibrate_after_parted" "1" 1),
   (true, value "tw_parted_feedback_duration_ms" "100" 1),
   (true, value "tw_mkntfs_quick_format" "0" 1),
   (true, const "tw_show_ntfs" (ifStr b.includeMkntfs "1" "0")),
   (true, const "tw_show_exfat" (ifStr b.includeExfat "1" "0")),
   (true, const "tw_allow_partition_sdcard" (ifStr b.hasNoRealSdcard "0" "1")),
   (true, const "tw_show_dumlock" (ifStr b.includeDumlock "1" "0"))]

/-- With `TW_INTERNAL_STORAGE_PATH` defined. -/
def internalRows (b : Build) : List (Bool × Row) :=
  let path := storagePath b.internalStorage
  let mount := storageMount b.internalStorage
  let ext := b.externalStorage.isSome
  let extPath := storagePath b.externalStorage
  let extMount := storageMount b.externalStorage
  let here := b.internalStorage.isSome
  [(here, value "tw_use_external_storage" "0" 1),
   (here, const "tw_has_internal" "1"),
   (here, value "tw_internal_path" path 0),
   (here, const "tw_internal_label" mount),
   (here, const "tw_internal_mount" (("/" : CString) ++ mount)),
   (here && ext, const "tw_has_dual_storage" "1"),
   (here && ext, const "tw_has_external" "1"),
   (here && ext, const "tw_external_path" extPath),
   (here && ext, const "tw_external_label" extMount),
   (here && ext, value "tw_zip_external" extPath 1),
   (here && ext, const "tw_external_mount" (("/" : CString) ++ extMount)),
   (here, value "tw_zip_internal" (zipInternal b) 1),
   (here && !ext, const "tw_has_dual_storage" "0"),
   (here && !ext, const "tw_has_external" "0"),
   (here && !ext, const "tw_external_path" "0"),
   (here && !ext, const "tw_external_mount" "0"),
   (here && !ext, const "tw_external_label" "0")]

/-- Without `TW_INTERNAL_STORAGE_PATH`. -/
def singleRows (b : Build) : List (Bool × Row) :=
  let ext := b.externalStorage.isSome
  let extPath := storagePath b.externalStorage
  let extMount := storageMount b.externalStorage
  let here := b.internalStorage.isNone
  let data := b.sdcardOnData
  [(here, const "tw_has_dual_storage" (ifStr (data && ext) "1" "0")),
   (here && data && !ext, const "tw_has_external" "0"),
   (here, const "tw_use_external_storage" (ifStr data "0" "1")),
   (here, const "tw_has_internal" (ifStr data "1" "0")),
   (here, value "tw_internal_path" (ifStr data "/data/media" "0") 0),
   (here, const "tw_internal_mount" (ifStr data "/data" "0")),
   (here, const "tw_internal_label" (ifStr data "data" "0")),
   (here && data, value "tw_zip_internal" (zipInternal b) 1),
   (here && ext, const "tw_has_external" "1"),
   (here && ext, const "tw_external_path" extPath),
   (here && ext, const "tw_external_label" extMount),
   (here && ext, value "tw_zip_external" extPath 1),
   (here && ext, const "tw_external_mount" (("/" : CString) ++ extMount)),
   (here && !ext && !data, const "tw_has_external" "1"),
   (here && !ext && !data, const "tw_external_path" "/sdcard"),
   (here && !ext && !data, const "tw_external_mount" "/sdcard"),
   (here && !ext && !data, const "tw_external_label" "sdcard"),
   (here && !ext && !data, value "tw_zip_external" "/sdcard" 1)]

def storageRows (b : Build) : List (Bool × Row) :=
  internalRows b ++ singleRows b ++
  [(b.defaultExternalStorage, setInt "tw_use_external_storage" (fun _ => 1) 0),
   (b.sdcardOnData && b.dataMedia0, set "tw_internal_path" (fun _ => "/data/media/0") 0),
   (b.sdcardOnData, set "tw_zip_location" (fun _ => zipInternal b) 1),
   (!b.sdcardOnData, set "tw_zip_location" getCurrentStoragePath 1)]

def optionRows (b : Build) : List (Bool × Row) :=
  [(true, const "tw_reboot_system" "1"),
   (true, const "tw_reboot_poweroff" "1"),
   (true, const "tw_reboot_recovery" (ifStr b.noRebootRecovery "0" "1")),
   (true, const "tw_reboot_bootloader" (ifStr b.noRebootBootloader "0" "1")),
   (true, const "tw_has_data_media" (ifStr b.sdcardOnData "1" "0")),
   (true, const "tw_no_battery_percent" (ifStr b.noBattPercent "1" "0")),
   (true, const "tw_power_button" ((b.customPowerButton.map Text.str).getD "0")),
   (b.alwaysRmrf, const "tw_rm_rf" "1"),
   (true, const "tw_dont_unmount_system" (ifStr b.neverUnmountSystem "1" "0")),
   (true, const "tw_has_usb_storage" (ifStr (!b.noUsbStorage && b.lunFile) "1" "0")),
   (true, const "tw_has_injecttwrp" (ifStr b.includeInjecttwrp "1" "0")),
   (true, value "tw_inject_after_zip" (ifStr b.includeInjecttwrp "1" "0") 1),
   (b.flashFromStorage, const "tw_flash_zip_in_place" "1"),
   (b.hasDownloadMode, const "tw_download_mode" "1"),
   (b.includeCrypto, const "tw_has_crypto" "1"),
   (true, value "tw_encrypt_backup" "0" 0),
   (true, value "tw_include_encrypted_backup" (ifStr b.excludeEncryptedBackups "0" "1") 0),
   (true, const "tw_sdext_disable_ext4" (ifStr b.sdextNoExt4 "1" "0")),
   (true, value "tw_backup_list" (ifStr b.hasNoBootPartition "/system;/data;" "/boot;/system;/data;") 1),
   (true, const "tw_min_system" "50"),
   (true, value "tw_backup_name" "(Current Date)" 0),
   (true, value "tw_backup_system_size" "0" 0),
   (true, value "tw_storage_free_size" "0" 0)]

def valueRows (b : Build) : List (Bool × Row) :=
  let brightness := b.brightnessPath.str != "/nobrightness"
  [(true, value "tw_reboot_after_flash_option" "0" 1),
   (true, value "tw_signed_zip_verify" "0" 1),
   (true, value "tw_color_theme" "0" 1),
   (true, value "tw_use_compression" "0" 1),
   (true, value "tw_show_spam" "0" 1),
   (true, value "tw_time_zone" "CST6CDT" 1),
   (true, value "tw_sort_files_by_date" "0" 1),
   (true, value "tw_gui_sort_order" "1" 1),
   (true, value "tw_rm_rf" "0" 1),
   (true, value "tw_skip_md5_check" "0" 1),
   (true, value "tw_skip_md5_generate" "0" 1),
   (true, value "tw_sdext_size" "512" 1),
   (true, value "tw_swap_size" "0" 1),
   (true, value "tw_sdpart_file_system" "ext4" 1),
   (true, value "tw_time_zone_guisel" "CST6;CDT" 1),
   (true, value "tw_time_zone_guioffset" "0" 1),
   (true, value "tw_time_zone_guidst" "1" 1),
   (true, value "tw_busy" "0" 0),
   (true, value "tw_backup_avg_img_rate" "15000000" 1),
   (true, value "tw_backup_avg_file_rate" "3000000" 1),
   (true, value "tw_backup_avg_file_comp_rate" "2000000" 1),
   (true, value "tw_restore_avg_img_rate" "15000000" 1),
   (true, value "tw_restore_avg_file_rate" "3000000" 1),
   (true, value "tw_restore_avg_file_comp_rate" "2000000" 1),
   (true, value "tw_wipe_cache" "0" 0),
   (true, value "tw_wipe_dalvik" "0" 0),
   (true, setInt "tw_has_usb_storage" (fun d =>
      if getIntValue d "tw_has_internal" = 1 ∧ getIntValue d "tw_has_data_media" = 1 ∧
        getIntValue d "tw_has_external" = 0 then 0 else 1) 0),
   (true, value "tw_zip_index" "0" 0),
   (true, value "tw_zip_queue_count" "0" 0),
   (true, value "tw_filename" "/sdcard" 0),
   (true, value "tw_simulate_actions" "0" 1),
   (true, value "tw_simulate_fail" "0" 1),
   (true, value "tw_is_encrypted" "0" 0),
   (true, value "tw_is_decrypted" "0" 0),
   (true, value "tw_crypto_password" "0" 0),
   (true, value "tw_data_blk_device" "0" 0),
   (true, value "tw_terminal_state" "0" 0),
   (true, value "tw_background_thread_running" "0" 0),
   (true, value "tw_restore_file_date" "0" 0),
   (true, value "tw_screen_timeout_secs" (ifStr b.noScreenTimeout "0" "60") 1),
   (true, value "tw_no_screen_timeout" (ifStr b.noScreenTimeout "1" "0") 1),
   (true, value "tw_gui_done" "0" 0),
   (true, const "tw_has_brightnesss_file" (ifStr brightness "1" "0")),
   (brightness, const "tw_brightness_file" b.brightnessPath.str),
   (brightness, const "tw_brightness_max" b.maxBrightness.str),
   (brightness, value "tw_brightness" b.maxBrightness.str 1),
   (brightness, value "tw_brightness_pct" "100" 1),
   (true, value "tw_military_time" "1" 1),
   (true, value "tw_rotation" b.defaultRotation.str 1),
   (true, value "tw_enable_rotation" (ifStr b.hasLandscape "1" "0") 1)]

def defaultRows (b : Build) : List (Bool × Row) :=
  [(true, const "tw_device_id" b.deviceId.str),
   (true, const "true" "1"),
   (true, const "false" "0"),
   (true, const "tw_version" "2.6.3.5")] ++
  leoRows b ++ extendedRows b ++ storageRows b ++ optionRows b ++ valueRows b

def runRows (host : Host) (rows : List (Bool × Row)) (d : DataManager) : DataManager :=
  rows.foldl (fun d row => if row.1 then row.2.run host d else d) d

def setDefaultValues (b : Build) (host : Host) (d : DataManager) : DataManager :=
  runRows host (defaultRows b) d

/-- A manager that has run its defaults and nothing else. -/
def fresh (b : Build) (host : Host) (files : CString → Option (List UInt8)) : DataManager :=
  setDefaultValues b host ⟨∅, ∅, "", files⟩

/-! ### What the defaults leave -/

/-- From `d` to `d'` variables appear only among `names` and constants only among
`consts`; nothing is written while there is no backing file. -/
structure Grows (names consts : List CString) (d d' : DataManager) : Prop where
  keys : ∀ n, n ∈ d'.mValues → n ∈ names ∨ n ∈ d.mValues
  constKeys : ∀ n, n ∈ d'.mConstValues → n ∈ consts ∨ n ∈ d.mConstValues
  backing : d'.mBackingFile = d.mBackingFile
  files : d.mBackingFile = "" → d'.files = d.files

theorem Grows.refl (names consts : List CString) (d : DataManager) : Grows names consts d d :=
  ⟨fun _ h => .inr h, fun _ h => .inr h, rfl, fun _ => rfl⟩

theorem Grows.trans {names consts : List CString} {d d' d'' : DataManager} (h : Grows names consts d d')
    (h' : Grows names consts d' d'') : Grows names consts d d'' where
  keys n hn := (h'.keys n hn).elim .inl (h.keys n)
  constKeys n hn := (h'.constKeys n hn).elim .inl (h.constKeys n)
  backing := h'.backing.trans h.backing
  files hb := (h'.files (h.backing.trans hb)).trans (h.files hb)

theorem Touches.grows {names consts : List CString} {d d' : DataManager} (h : Touches names d d') :
    Grows names consts d d' :=
  ⟨fun _ hn => h.keys hn, fun _ hn => .inr (h.consts ▸ hn), h.backing, h.files⟩

theorem row_grows (host : Host) (d : DataManager) (row : Row) {names consts : List CString}
    (hnames : row.name :: sideNames ⊆ names) (hconsts : row.name ∈ consts) :
    Grows names consts d (row.run host d) := by
  cases row with
  | value name v persist =>
    refine ⟨fun n hn => ?_, fun n hn => .inr hn, rfl, fun _ => rfl⟩
    obtain heq | hmem := Std.TreeMap.mem_insertIfNew.mp hn
    · exact .inl (Std.LawfulEqOrd.eq_of_compare heq ▸ hnames (List.mem_cons_self ..))
    · exact .inr hmem
  | const name v =>
    refine ⟨fun n hn => .inr hn, fun n hn => ?_, rfl, fun _ => rfl⟩
    obtain heq | hmem := Std.TreeMap.mem_insertIfNew.mp hn
    · exact .inl (Std.LawfulEqOrd.eq_of_compare heq ▸ hconsts)
    · exact .inr hmem
  | set name v persist => exact ((touches_set host d name (v d) persist).mono hnames).grows
  | setInt name v persist => exact ((touches_setInt host d name (v d) persist).mono hnames).grows

theorem runRows_grows (host : Host) (rows : List (Bool × Row)) (d : DataManager) {names consts : List CString}
    (hnames : ∀ row ∈ rows, row.2.name :: sideNames ⊆ names) (hconsts : ∀ row ∈ rows, row.2.name ∈ consts) :
    Grows names consts d (runRows host rows d) := by
  induction rows generalizing d with
  | nil => exact .refl names consts d
  | cons row rest ih =>
    have hrow : Grows names consts d (if row.1 then row.2.run host d else d) := by
      split_ifs
      · exact row_grows host d row.2 (hnames row (List.mem_cons_self ..)) (hconsts row (List.mem_cons_self ..))
      · exact .refl names consts d
    exact hrow.trans (ih _ (fun r hr => hnames r (List.mem_cons_of_mem row hr))
      (fun r hr => hconsts r (List.mem_cons_of_mem row hr)))

/-- The build with no switch set. -/
def plainBuild : Build where
  htcLeo := false
  includeMkntfs := false
  includeExfat := false
  hasNoRealSdcard := false
  includeDumlock := false
  internalStorage := none
  externalStorage := none
  sdcardOnData := false
  defaultExternalStorage := false
  noRebootRecovery := false
  noRebootBootloader := false
  noBattPercent := false
  customPowerButton := none
  alwaysRmrf := false
  neverUnmountSystem := false
  noUsbStorage := false
  includeInjecttwrp := false
  flashFromStorage := false
  hasDownloadMode := false
  includeCrypto := false
  excludeEncryptedBackups := false
  sdextNoExt4 := false
  hasNoBootPartition := false
  noScreenTimeout := false
  brightnessPath := ⟨"/nobrightness", by decide +kernel⟩
  maxBrightness := ⟨"255", by decide +kernel⟩
  defaultRotation := ⟨"0", by decide +kernel⟩
  hasLandscape := false
  deviceId := ⟨"HT000000", by decide +kernel⟩
  bldr := .haret
  extraBoot := fun _ => false
  dataMedia0 := false
  lunFile := false

/-- The names the defaults can insert. -/
def defaultNames : List CString := (defaultRows plainBuild).map (·.2.name)

set_option maxRecDepth 8000 in
theorem defaultRows_names (b : Build) : (defaultRows b).map (·.2.name) = defaultNames := rfl

set_option maxRecDepth 8000 in
theorem defaultNames_spec : defaultNames.length ≤ 200 ∧ (∀ n ∈ defaultNames ++ sideNames, n.length ≤ 510) ∧
    ∀ n ∈ defaultNames, n ≠ "tw_backups_folder" ∧ n ≠ "tw_sdbackups_folder" := by
  decide +kernel

section Fresh
variable (b : Build) (host : Host) (files : CString → Option (List UInt8))

theorem fresh_grows : Grows (defaultNames ++ sideNames) defaultNames ⟨∅, ∅, "", files⟩ (fresh b host files) := by
  have hmem : ∀ row ∈ defaultRows b, row.2.name ∈ defaultNames := by
    intro row hrow
    rw [← defaultRows_names b]
    exact List.mem_map_of_mem hrow
  refine runRows_grows host (defaultRows b) _ (fun row hrow => ?_) hmem
  exact List.cons_subset.mpr ⟨List.mem_append_left _ (hmem row hrow), List.subset_append_right ..⟩

theorem fresh_keys {n : CString} (h : n ∈ (fresh b host files).mValues) : n ∈ defaultNames ++ sideNames :=
  ((fresh_grows b host files).keys n h).resolve_right Std.TreeMap.not_mem_emptyc

theorem fresh_mBackingFile : (fresh b host files).mBackingFile = "" := (fresh_grows b host files).backing

theorem fresh_files : (fresh b host files).files = files := (fresh_grows b host files).files rfl

/-- The folder variables are not constants: they can be set. -/
theorem fresh_folder {n : CString} (h : n = "tw_backups_folder" ∨ n = "tw_sdbackups_folder") :
    (fresh b host files).mConstValues[n]? = none := by
  rw [Std.TreeMap.getElem?_eq_none]
  intro hn
  have hmem := ((fresh_grows b host files).constKeys n hn).resolve_right Std.TreeMap.not_mem_emptyc
  have hne := defaultNames_spec.2.2 n hmem
  exact h.elim hne.1 hne.2

end Fresh

/-! ### The strings of the defaults are short -/

/-- Every value and constant but the folders and the time zones is shorter than a
path buffer. -/
structure Bounded (d : DataManager) : Prop where
  values : ∀ (n : CString) (v : Var), n ∉ sideNames → d.mValues[n]? = some v → v.value.length ≤ 255
  consts : ∀ n v : CString, d.mConstValues[n]? = some v → v.length ≤ 255

theorem stripPercent_eq {n : CString} (h : n.bytes.head? ≠ some 37) : stripPercent n = n := by
  unfold stripPercent
  rw [if_neg fun hc => h hc.2.1]

/-- A value read by name is a constant, a variable, or empty. -/
theorem getStrValue_cases (d : DataManager) {n : CString} (h : n.bytes.head? ≠ some 37) :
    d.mConstValues[n]? = some (getStrValue d n) ∨
      (∃ v, d.mValues[n]? = some v ∧ getStrValue d n = v.value) ∨ getStrValue d n = "" := by
  unfold getStrValue getValue
  rw [stripPercent_eq h]
  dsimp only
  cases hc : d.mConstValues[n]? with
  | some value => exact .inl rfl
  | none =>
    cases hv : d.mValues[n]? with
    | some v => exact .inr (.inl ⟨v, rfl, rfl⟩)
    | none => exact .inr (.inr rfl)

theorem getCurrentStoragePath_cases (d : DataManager) :
    getCurrentStoragePath d = getStrValue d "tw_internal_path" ∨
      getCurrentStoragePath d = getStrValue d "tw_external_path" := by
  unfold getCurrentStoragePath
  split_ifs
  · exact .inl rfl
  · exact .inr rfl
  · exact .inl rfl
  · exact .inr rfl

theorem Bounded.storagePath {d : DataManager} (h : Bounded d) : (getCurrentStoragePath d).length ≤ 255 := by
  have hval : ∀ n : CString, n.bytes.head? ≠ some 37 → n ∉ sideNames → (getStrValue d n).length ≤ 255 := by
    intro n hn hside
    obtain hc | ⟨v, hv, heq⟩ | hempty := getStrValue_cases d hn
    · exact h.consts n _ hc
    · rw [heq]
      exact h.values n v hside hv
    · rw [hempty]
      decide
  obtain heq | heq := getCurrentStoragePath_cases d
  · rw [heq]
    exact hval _ (by decide) (by decide)
  · rw [heq]
    exact hval _ (by decide) (by decide)

/-- A row that keeps `Bounded`. -/
def Row.Fits : Row → Prop
  | .value _ v _ => v.length ≤ 255
  | .const _ v => v.length ≤ 255
  | .set _ v _ => ∀ d, Bounded d → (v d).length ≤ 255
  | .setInt _ v _ => ∀ d, v d = 0 ∨ v d = 1

theorem bounded_insert {m : Std.TreeMap CString Var} {name : CString} {w : Var}
    (h : ∀ (n : CString) (v : Var), n ∉ sideNames → m[n]? = some v → v.value.length ≤ 255)
    (hw : w.value.length ≤ 255) :
    ∀ (n : CString) (v : Var), n ∉ sideNames → (m.insertIfNew name w)[n]? = some v → v.value.length ≤ 255 := by
  intro n v hn hv
  rw [Std.TreeMap.getElem?_insertIfNew] at hv
  split_ifs at hv
  · cases hv
    exact hw
  · exact h n v hn hv

theorem Bounded.set {d : DataManager} (h : Bounded d) (host : Host) (n value : CString) (persist : Int)
    (hvalue : value.length ≤ 255) : Bounded (setValue host d n value persist).2 := by
  have ht := touches_set host d n value persist
  refine ⟨fun m v hm hv => ?_, ht.consts ▸ h.consts⟩
  by_cases hmn : m = n
  · subst hmn
    obtain heq | hold := setValue_self host d m value persist hm hv
    · rw [heq]
      exact hvalue
    · exact h.values m v hm hold
  · rw [ht.other m (by simp [hmn, hm])] at hv
    exact h.values m v hm hv

theorem Bounded.row {d : DataManager} (h : Bounded d) (host : Host) {row : Row} (hrow : row.Fits) :
    Bounded (row.run host d) := by
  cases row with
  | value name v persist => exact ⟨bounded_insert h.values hrow, h.consts⟩
  | const name v =>
    refine ⟨h.values, fun n w hw => ?_⟩
    rw [Row.run, Std.TreeMap.getElem?_insertIfNew] at hw
    split_ifs at hw
    · cases hw
      exact hrow
    · exact h.consts n w hw
  | set name v persist => exact h.set host name (v d) persist (hrow d h)
  | setInt name v persist =>
    have hlen : ∀ d, (CString.ofInt (v d)).length ≤ 255 := by
      intro d
      obtain h0 | h1 := hrow d
      · rw [h0]
        decide
      · rw [h1]
        decide
    show Bounded (setIntValue host d name (v d) persist).2
    unfold setIntValue
    refine Bounded.set ?_ host name _ persist (hlen d)
    split
    · have ht := touches_backupFolder host d
      refine ⟨fun m w hm hw => ?_, fun n w hw => ?_⟩
      · rw [(ht _).other m hm] at hw
        exact h.values m w hm hw
      · rw [(ht _).consts] at hw
        exact h.consts n w hw
    · exact h

theorem runRows_bounded (host : Host) (rows : List (Bool × Row)) {d : DataManager} (h : Bounded d)
    (hrows : ∀ row ∈ rows, row.2.Fits) : Bounded (runRows host rows d) := by
  induction rows generalizing d with
  | nil => exact h
  | cons row rest ih =>
    refine ih ?_ fun r hr => hrows r (List.mem_cons_of_mem row hr)
    dsimp only
    split_ifs
    · exact h.row host (hrows row (List.mem_cons_self ..))
    · exact h

theorem ifStr_fits {c : Bool} {yes no : CString} (hyes : yes.length ≤ 255) (hno : no.length ≤ 255) :
    (ifStr c yes no).length ≤ 255 := by
  unfold ifStr
  split_ifs
  · exact hyes
  · exact hno

theorem text_fits (t : Text) : t.str.length ≤ 255 := t.fits.trans (by decide)

theorem storagePath_fits (storage : Option (Text × Text)) : (storagePath storage).length ≤ 255 := by
  cases storage with
  | none => decide
  | some st => exact text_fits st.1

theorem storageMount_fits (storage : Option (Text × Text)) : (storageMount storage).length ≤ 254 := by
  cases storage with
  | none => decide
  | some st => exact st.2.fits

theorem slash_fits (storage : Option (Text × Text)) :
    ((("/" : CString) ++ storageMount storage).length) ≤ 255 := by
  have hmount := storageMount_fits storage
  have hslash : ("/" : CString).length = 1 := by decide
  show (("/" : CString).bytes ++ (storageMount storage).bytes).length ≤ 255
  rw [List.length_append]
  unfold CString.length at *
  omega

theorem zipInternal_fits (b : Build) : (zipInternal b).length ≤ 255 := by
  unfold zipInternal
  split
  · split_ifs <;> decide
  · decide

theorem powerButton_fits (button : Option Text) : ((button.map Text.str).getD "0").length ≤ 255 := by
  cases button with
  | none => decide
  | some t => exact text_fits t

theorem leoRows_fits (b : Build) : ∀ row ∈ leoRows b, row.2.Fits := by
  simp only [leoRows, List.forall_mem_cons, List.not_mem_nil, false_implies, implies_true, and_true,
    true_or, or_true, Row.Fits]
  repeat' apply And.intro
  all_goals
    first
    | decide
    | exact fun _ => (em _).elim (fun h => .inr (if_pos h)) fun h => .inl (if_neg h)

theorem extendedRows_fits (b : Build) : ∀ row ∈ extendedRows b, row.2.Fits := by
  simp only [extendedRows, List.forall_mem_cons, List.not_mem_nil, false_implies, implies_true, and_true,
    Row.Fits]
  repeat' apply And.intro
  all_goals
    first
    | decide
    | exact ifStr_fits (by decide) (by decide)

theorem storageRows_fits (b : Build) : ∀ row ∈ storageRows b, row.2.Fits := by
  simp only [storageRows, internalRows, singleRows, List.mem_append, or_imp, forall_and, List.forall_mem_cons,
    List.not_mem_nil, false_implies, implies_true, and_true, or_true, Row.Fits]
  repeat' apply And.intro
  all_goals
    first
    | decide
    | exact storagePath_fits _
    | exact slash_fits _
    | exact (storageMount_fits _).trans (by decide)
    | exact zipInternal_fits b
    | exact ifStr_fits (by decide) (by decide)
    | exact fun _ _ => zipInternal_fits b
    | exact fun _ h => h.storagePath
    | exact fun _ _ => by decide

theorem optionRows_fits (b : Build) : ∀ row ∈ optionRows b, row.2.Fits := by
  simp only [optionRows, List.forall_mem_cons, List.not_mem_nil, false_implies, implies_true, and_true,
    Row.Fits]
  repeat' apply And.intro
  all_goals
    first
    | decide
    | exact powerButton_fits _
    | exact ifStr_fits (by decide) (by decide)

theorem valueRows_fits (b : Build) : ∀ row ∈ valueRows b, row.2.Fits := by
  simp only [valueRows, List.forall_mem_cons, List.not_mem_nil, false_implies, implies_true, and_true,
    Row.Fits]
  repeat' apply And.intro
  all_goals
    first
    | decide
    | exact text_fits _
    | exact ifStr_fits (by decide) (by decide)
    | exact fun _ => (em _).elim (fun h => .inl (if_pos h)) fun h => .inr (if_neg h)

theorem defaultRows_fits (b : Build) : ∀ row ∈ defaultRows b, row.2.Fits := by
  intro row hrow
  simp only [defaultRows, List.mem_append, or_assoc] at hrow
  obtain hfirst | hleo | hext | hstorage | hoption | hvalue := hrow
  · simp only [List.mem_cons, List.not_mem_nil, or_false] at hfirst
    obtain rfl | rfl | rfl | rfl := hfirst
    · exact text_fits b.deviceId
    all_goals
      show (_ : CString).length ≤ 255
      decide
  · exact leoRows_fits b row hleo
  · exact extendedRows_fits b row hext
  · exact storageRows_fits b row hstorage
  · exact optionRows_fits b row hoption
  · exact valueRows_fits b row hvalue

theorem fresh_bounded (b : Build) (host : Host) (files : CString → Option (List UInt8)) :
    Bounded (fresh b host files) := by
  have hempty : Bounded ⟨∅, ∅, "", files⟩ := by
    refine ⟨fun n v _ hv => ?_, fun n v hv => ?_⟩
    · rw [Std.TreeMap.getElem?_emptyc] at hv
      cases hv
    · rw [Std.TreeMap.getElem?_emptyc] at hv
      cases hv
  unfold fresh setDefaultValues
  exact runRows_bounded host (defaultRows b) hempty (defaultRows_fits b)

end Twrp.Settings
