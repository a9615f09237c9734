import Twrp.Scan.Lines

/-! The table of the mounted volumes.

`sscanf` takes four words wherever a line starts, across newlines if need be, and cuts a word that is too long for its
field, so that its end is the next word. Nothing asks whether there is room for another entry. Memory is there. -/
namespace Twrp.Scan.Mounts
open Base Scanf

structure Volume where
  device : Text
  mountPoint : Text
  filesystem : Text
  flags : Text
deriving DecidableEq

/-- `%63s`, of any width. -/
def nextWordTo (width : Nat) (text : Text) : Option (Text × Text) :=
  (nextWord text).map fun (word, rest) => (word.take width, word.drop width ++ rest)

/-- `"%63s %63s %63s %127s"`, where all four fields match. -/
def scanVolume (text : Text) : Option Volume := do
  let (device, rest) ← nextWordTo 63 text
  let (mountPoint, rest) ← nextWordTo 63 rest
  let (filesystem, rest) ← nextWordTo 63 rest
  let (flags, _) ← nextWordTo 127 rest
  return ⟨device, mountPoint, filesystem, flags⟩

/-- `volumes_allocd` -/
def allocated : Nat := 32

/-- The entries below `volume_count`. -/
structure Volumes where
  entries : List Volume
  inTable : entries.length ≤ allocated

def Volumes.empty : Volumes := ⟨[], Nat.zero_le _⟩

/-- An entry at `volume_count`; nothing where that is not in the table. -/
def Volumes.add (t : Volumes) (v : Volume) : Option Volumes :=
  if h : t.entries.length < allocated then some ⟨t.entries ++ [v], by rw [List.length_append]; exact h⟩ else none

/-- The body of the loop, with `bufp` at the start of a line. -/
def scanLine (t : Volumes) (bufp : Text) : Option Volumes :=
  match scanVolume (CString.ofBytes bufp).bytes with
  | some v => t.add v
  | none => some t

/-- `scan_mounted_volumes`, where the file holds that, or cannot be opened or read. The old entries are freed before. -/
def scanMountedVolumes : Option Text → Option (Int × Volumes)
  | none => some (-1, .empty)
  | some file => ((starts (file.take bufferSize)).foldlM scanLine .empty).map fun t => (0, t)

def findMountedVolumeByDevice (t : Volumes) (device : Text) : Option Volume := t.entries.find? (·.device == device)

def findMountedVolumeByMountPoint (t : Volumes) (mountPoint : Text) : Option Volume := t.entries.find? (·.mountPoint == mountPoint)

/-! ### The lines -/

/-- The first four words of a line. -/
def words (line : Text) : Option Volume := do
  let (device, rest) ← nextWord line
  let (mountPoint, rest) ← nextWord rest
  let (filesystem, rest) ← nextWord rest
  let (flags, _) ← nextWord rest
  return ⟨device, mountPoint, filesystem, flags⟩

/-- The words fit the fields. -/
structure Volume.Narrow (v : Volume) : Prop where
  device : v.device.length ≤ 63
  mountPoint : v.mountPoint.length ≤ 63
  filesystem : v.filesystem.length ≤ 63
  flags : v.flags.length ≤ 127

/-- The entry of a listed line that fits. -/
def Volume.Of (file : Option Text) (v : Volume) : Prop := ∃ text ∈ file, ∃ line, Listed text line ∧ words line = some v ∧ v.Narrow

/-- What `sscanf` matches in a file, from the start of each line on. -/
def records (text : Text) : List Volume := (starts (text.take bufferSize)).filterMap fun start => scanVolume (CString.ofBytes start).bytes

/-- There are no more than 32, and one that is not the entry of a line that fits stands behind others with its device
and its mount point. -/
structure Clean (text : Text) : Prop where
  few : (records text).length ≤ allocated
  device : ∀ before v after, records text = before ++ v :: after → ¬v.Of (some text) → ∃ u ∈ before, u.device = v.device
  mountPoint : ∀ before v after, records text = before ++ v :: after → ¬v.Of (some text) → ∃ u ∈ before, u.mountPoint = v.mountPoint

/-- The scan stays in the table, and the lookups give exactly the entries of the lines that fit. -/
def Shows (file : Option Text) (t : Volumes) : Prop :=
  Finds (Volume.Of file) Volume.device (findMountedVolumeByDevice t) ∧
    Finds (Volume.Of file) Volume.mountPoint (findMountedVolumeByMountPoint t)

/-! ### Words behind which a text goes on -/

theorem nextWord_iff {text word rest : Text} :
    nextWord text = some (word, rest) ↔ text.dropWhile isSpace = word ++ rest ∧ Solid word ∧ Blank rest := by
  rw [nextWord]
  constructor
  · intro h
    split at h
    · cases h
    · rename_i hne
      obtain ⟨rfl, rfl⟩ := Prod.mk.inj (Option.some.inj h)
      have hfirst : ∀ b ∈ (text.dropWhile isSpace).head?, isSpace b = false := by
        intro b hb
        have hnot := List.head?_dropWhile_not isSpace text
        rw [hb] at hnot
        exact hnot
      refine ⟨List.takeWhile_append_dropWhile.symm, ⟨?_, ?_⟩, ?_⟩
      · obtain ⟨b, more, hmore⟩ := List.exists_cons_of_ne_nil hne
        rw [hmore] at hfirst ⊢
        rw [List.takeWhile_cons_of_pos (by rw [hfirst b rfl]; rfl)]
        exact List.cons_ne_nil _ _
      · intro b hb
        simpa using List.mem_takeWhile_imp hb
      · intro b hb
        have hnot := List.head?_dropWhile_not (!isSpace ·) (text.dropWhile isSpace)
        rw [hb] at hnot
        simpa using hnot
  · rintro ⟨hdrop, hword, hrest⟩
    have hbytes : ∀ b ∈ word, (!isSpace b) = true := by
      intro b hb
      rw [hword.2 b hb]
      rfl
    have hend : ∀ b ∈ rest.head?, (!isSpace b) = false := by
      intro b hb
      rw [hrest b hb]
      rfl
    rw [hdrop]
    simp only [List.append_eq_nil_iff, hword.1, false_and, if_false]
    rw [takeWhile_gap hbytes hend, dropWhile_gap hbytes hend]

theorem blank_append {rest tail : Text} (hrest : Blank rest) (htail : Blank tail) : Blank (rest ++ tail) := by
  cases rest with
  | nil => exact htail
  | cons b rest => exact hrest

/-- A word of a line is read as it is where the line stands in a text, when it fits. -/
theorem nextWordTo_append {line word rest tail : Text} {width : Nat} (h : nextWord line = some (word, rest)) (htail : Blank tail)
    (hwidth : word.length ≤ width) : nextWordTo width (line ++ tail) = some (word, rest ++ tail) := by
  obtain ⟨hdrop, hword, hrest⟩ := nextWord_iff.mp h
  have hne : line.dropWhile isSpace ≠ [] := by
    rw [hdrop]
    exact List.append_ne_nil_of_left_ne_nil hword.1 _
  have hnext : nextWord (line ++ tail) = some (word, rest ++ tail) := by
    refine nextWord_iff.mpr ⟨?_, hword, blank_append hrest htail⟩
    rw [List.dropWhile_append, if_neg (by simpa using hne), hdrop, List.append_assoc]
  rw [nextWordTo, hnext]
  show some (word.take width, word.drop width ++ (rest ++ tail)) = _
  rw [List.take_of_length_le hwidth, List.drop_of_length_le hwidth, List.nil_append]

theorem scanVolume_append {line tail : Text} {v : Volume} (h : words line = some v) (hv : v.Narrow) (htail : Blank tail) :
    scanVolume (line ++ tail) = some v := by
  simp only [words, Option.bind_eq_bind, Option.bind_eq_some_iff] at h
  obtain ⟨⟨device, rest₁⟩, h₁, ⟨mountPoint, rest₂⟩, h₂, ⟨filesystem, rest₃⟩, h₃, ⟨flags, rest₄⟩, h₄, h⟩ := h
  obtain rfl := Option.some.inj h
  rw [scanVolume, nextWordTo_append h₁ htail hv.device]
  dsimp only [Option.bind_eq_bind, Option.bind_some]
  rw [nextWordTo_append h₂ htail hv.mountPoint]
  dsimp only [Option.bind_some]
  rw [nextWordTo_append h₃ htail hv.filesystem]
  dsimp only [Option.bind_some]
  rw [nextWordTo_append h₄ htail hv.flags]
  rfl

/-- A line that fits is found by `sscanf`. -/
theorem Volume.Of.mem_records {text : Text} {v : Volume} (h : v.Of (some text)) : v ∈ records text := by
  obtain ⟨t, htext, line, hlisted, hwords, hv⟩ := h
  obtain rfl := Option.some.inj htext
  have hne : line ≠ [] := by
    rintro rfl
    exact nomatch hwords
  obtain ⟨start, hstart, tail, hbytes, htail⟩ := hlisted.exists_start hne
  refine List.mem_filterMap.mpr ⟨start, hstart, ?_⟩
  rw [hbytes]
  exact scanVolume_append hwords hv htail

/-! ### Scans -/

theorem scanLines_eq (lines : List Text) (t : Volumes) :
    lines.foldlM scanLine t =
      if h : (t.entries ++ lines.filterMap fun start => scanVolume (CString.ofBytes start).bytes).length ≤ allocated then
        some ⟨t.entries ++ lines.filterMap fun start => scanVolume (CString.ofBytes start).bytes, h⟩
      else none := by
  induction lines generalizing t with
  | nil =>
    rw [dif_pos (by simpa using t.inTable)]
    simp
  | cons bufp lines ih =>
    rw [List.foldlM_cons, scanLine]
    cases hscan : scanVolume (CString.ofBytes bufp).bytes with
    | none =>
      show List.foldlM scanLine t lines = _
      simp [ih t, hscan]
    | some v =>
      dsimp only
      rw [Volumes.add]
      by_cases hroom : t.entries.length < allocated
      · rw [dif_pos hroom]
        show List.foldlM scanLine _ lines = _
        rw [ih]
        simp [hscan]
      · rw [dif_neg hroom, dif_neg]
        · rfl
        · rw [List.filterMap_cons, hscan, List.length_append, List.length_cons]
          omega

theorem scan_file (text : Text) :
    scanMountedVolumes (some text) = if h : (records text).length ≤ allocated then some (0, ⟨records text, h⟩) else none := by
  rw [scanMountedVolumes, scanLines_eq]
  simp only [Volumes.empty, List.nil_append]
  show Option.map _ (if h : (records text).length ≤ allocated then _ else _) = _
  by_cases hfew : (records text).length ≤ allocated
  · rw [dif_pos hfew, dif_pos hfew]
    rfl
  · rw [dif_neg hfew, dif_neg hfew]
    rfl

theorem shows_file {text : Text} (hfew : (records text).length ≤ allocated) : Shows (some text) ⟨records text, hfew⟩ ↔ Clean text := by
  have hall (key : Volume → Text) : ∀ v : Volume, v.Of (some text) → ∃ u ∈ records text, key u = key v :=
    fun v hv => ⟨v, hv.mem_records, rfl⟩
  constructor
  · intro ⟨hdevice, hmountPoint⟩
    exact ⟨hfew, (finds_iff.mp hdevice).2, (finds_iff.mp hmountPoint).2⟩
  · intro h
    exact ⟨finds_iff.mpr ⟨hall _, h.device⟩, finds_iff.mpr ⟨hall _, h.mountPoint⟩⟩

theorem shows_none : Shows none .empty := by
  have hnone (v : Volume) : ¬v.Of none := nofun
  exact ⟨fun k v hv => absurd hv (hnone v), fun k v hv => absurd hv (hnone v)⟩

/-- A scan keeps to the table and shows the lines that fit just where the file is clean. -/
theorem scanMountedVolumes_shows (file : Option Text) :
    (∃ ret t, scanMountedVolumes file = some (ret, t) ∧ Shows file t) ↔ ∀ text ∈ file, Clean text := by
  cases file with
  | none =>
    constructor
    · intro _ text htext
      exact nomatch htext
    · intro _
      exact ⟨-1, .empty, rfl, shows_none⟩
  | some text =>
    rw [scan_file]
    constructor
    · intro ⟨ret, t, hscan, hshows⟩ _ htext
      obtain rfl := Option.some.inj htext
      split at hscan
      · rename_i hfew
        obtain ⟨-, rfl⟩ := Prod.mk.inj (Option.some.inj hscan)
        exact (shows_file hfew).mp hshows
      · cases hscan
    · intro h
      have hclean := h text rfl
      rw [dif_pos hclean.few]
      exact ⟨0, _, rfl, (shows_file hclean.few).mpr hclean⟩

/-- A file that the buffer holds, of at most 32 lines all of which fit, is clean. -/
theorem clean_of_plain {text : Text} (hnul : 0 ∉ text) (hlength : text.length ≤ bufferSize) (hfew : (starts text).length ≤ allocated)
    (hfits : ∀ before line rest, LineAt text before line rest → line ++ rest ≠ [] → ∃ v, words line = some v ∧ v.Narrow) : Clean text := by
  have hall : ∀ v ∈ records text, v.Of (some text) := by
    intro v hv
    obtain ⟨start, hstart, hscan⟩ := List.mem_filterMap.mp hv
    rw [List.take_of_length_le hlength] at hstart
    obtain ⟨before, line, rest, hline, rfl⟩ := exists_lineAt hstart
    have htext := hline.text
    have hlisted : Listed text line := by
      refine ⟨fun h => hnul ?_, before, rest, hline, ?_⟩
      · rw [htext]
        simp [h]
      · rw [htext] at hlength
        simp only [List.length_append] at hlength ⊢
        omega
    have hne : line ++ rest ≠ [] := by
      intro hnil
      rw [hnil] at hscan
      exact nomatch hscan
    obtain ⟨u, hu, hnarrow⟩ := hfits before line rest hline hne
    have hbytes : (CString.ofBytes (line ++ rest)).bytes = line ++ rest := by
      refine List.takeWhile_eq_self_iff.mpr ?_
      intro b hb
      rw [bne_iff_ne]
      rintro rfl
      exact hnul (by rw [htext]; exact List.mem_append_right _ hb)
    have hblank : Blank rest := by
      intro b hb
      obtain rfl | hhead := hline.ends
      · exact nomatch hb
      · rw [hhead] at hb
        obtain rfl := Option.some.inj hb
        rfl
    rw [hbytes, scanVolume_append hu hnarrow hblank] at hscan
    obtain rfl := Option.some.inj hscan
    exact ⟨text, rfl, line, hlisted, hu, hnarrow⟩
  have hrecord {before after : List Volume} {v : Volume} (h : records text = before ++ v :: after) : v.Of (some text) :=
    hall v (by rw [h]; simp)
  refine ⟨?_, fun _ _ _ h hv => absurd (hrecord h) hv, fun _ _ _ h hv => absurd (hrecord h) hv⟩
  have hle := List.length_filterMap_le (fun start => scanVolume (CString.ofBytes start).bytes) (starts text)
  rw [records, List.take_of_length_le hlength]
  omega

end Twrp.Scan.Mounts
