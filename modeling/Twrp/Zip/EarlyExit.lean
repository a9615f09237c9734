import Twrp.Zip.Reported

/-! Where the loop over the entries may stop.

The binary insertion leaves the entries of the central directory sorted by name. What begins with
`zipDir` stands together in that order, so the loop of `mzExtractRecursive`, which gives up on the
first mismatch after a match, does what a loop over all the entries does.

Names are printable ASCII (`validFilename`) and `zipDir` is a C string, so no NUL ends a comparison
early. -/
namespace Twrp.Zip
open Base

/-- `pEntries` when the entries of a directory are in place. -/
def insertAll (dir : List ZipEntry) : List ZipEntry := dir.foldl insertEntry []

/-- The loop over the central directory inserts what it reads. -/
theorem readEntries_eq (map : List UInt8) (numEntries ptr : Nat) (entries : List ZipEntry) :
    readEntries map numEntries ptr entries = (directory map numEntries ptr).map fun dir => dir.foldl insertEntry entries := by
  induction numEntries generalizing ptr entries with
  | zero => rfl
  | succ numEntries ih =>
    rw [readEntries, directory]
    cases readEntry map ptr with
    | none => rfl
    | some r =>
      show readEntries map numEntries r.2 (insertEntry entries r.1) = _
      rw [ih, Option.map_map]
      rfl

theorem arranged_foldl {entries dir : List ZipEntry} (h : Arranged entries dir) (rest : List ZipEntry) :
    Arranged (rest.foldl insertEntry entries) (dir ++ rest) := by
  induction rest generalizing entries dir with
  | nil => rwa [List.append_nil]
  | cons e rest ih =>
    have := ih (h.insert e)
    rwa [List.append_assoc, List.singleton_append] at this

theorem arranged_insertAll (dir : List ZipEntry) : Arranged (insertAll dir) dir :=
  arranged_foldl ⟨List.Pairwise.nil, List.Perm.nil, fun _ => rfl⟩ dir

namespace Request
variable (q : Request)

/-- The loop of `mzExtractRecursive` without `SORT_ENTRIES`: every mismatch is passed over. -/
def fullScan : List ZipEntry → MzPathHelper → Io Bool
  | [], _ => pure true
  | e :: rest, h =>
    if !q.isBelow e then fullScan rest h
    else do
      match ← q.targetEntryPath h e with
      | none => pure false
      | some h =>
        match ← q.extractEntry e with
        | .stop ok => pure ok
        | .go => fullScan rest h

/-- The entries that the loop visits, where none of them makes it stop. -/
def visited : List ZipEntry → (seenMatch : Bool) → List ZipEntry
  | [], _ => []
  | e :: rest, seenMatch =>
    if !q.isBelow e then (if seenMatch then [] else visited rest seenMatch)
    else e :: visited rest true

theorem fullScan_eq (entries : List ZipEntry) (h : MzPathHelper) :
    q.fullScan entries h = q.extractAll (entries.filter q.isBelow) h := by
  induction entries generalizing h with
  | nil => rfl
  | cons e rest ih =>
    rw [fullScan]
    cases he : q.isBelow e with
    | true =>
      rw [List.filter_cons_of_pos he, extractAll]
      simp only [ih]
      rfl
    | false =>
      rw [List.filter_cons_of_neg (by simp [he])]
      exact ih h

theorem visited_seen (entries : List ZipEntry) : q.visited entries true = entries.takeWhile q.isBelow := by
  induction entries with
  | nil => rfl
  | cons e rest ih =>
    rw [visited, List.takeWhile_cons, ih]
    cases q.isBelow e <;> rfl

theorem visited_eq {entries : List ZipEntry} (hsorted : Sorted entries) :
    q.visited entries false = entries.filter q.isBelow := by
  induction entries with
  | nil => rfl
  | cons e rest ih =>
    rw [visited]
    cases he : q.isBelow e with
    | true =>
      rw [visited_seen, takeWhile_isBelow q hsorted he, List.filter_cons_of_pos he]
      rfl
    | false =>
      rw [List.filter_cons_of_neg (by simp [he])]
      exact ih (List.pairwise_cons.mp hsorted).2

theorem isBelow_eq : q.isBelow = fun e => decide (q.zpath <+: e.fileName) := by
  funext e
  rw [Bool.eq_iff_iff, q.isBelow_iff, decide_eq_true_eq]

end Request

/-- The insertion leaves a sorted permutation of the entries, and the loop visits exactly those whose
name starts with `zipDir` and its slash: it does what the loop over all the entries does. -/
theorem early_exit_sound (dir : List ZipEntry) (zipDir targetDir : CString) (flags : Flags) (timestamp callback : Bool) (fuel : Nat)
    (h : MzPathHelper) :
    let q := request zipDir targetDir flags timestamp callback fuel
    Sorted (insertAll dir) ∧ (insertAll dir).Perm dir ∧
      q.visited (insertAll dir) false = (insertAll dir).filter (fun e => zipPath zipDir.bytes <+: e.fileName) ∧
      q.extractLoop (insertAll dir) false h = q.fullScan (insertAll dir) h := by
  intro q
  obtain ⟨hsorted, hperm, -⟩ := arranged_insertAll dir
  refine ⟨hsorted, hperm, ?_, ?_⟩
  · rw [q.visited_eq hsorted, q.isBelow_eq]
    rfl
  · rw [q.extractLoop_eq hsorted, q.fullScan_eq]

/-- The array of an archive that was opened is what the insertion makes of its central directory. -/
theorem entries_insertAll {map : List UInt8} {archive : ZipArchive} (h : mzOpenZipArchive map = some archive) :
    ∃ e dir, openEnd map = some e ∧ directory map e.numEntries e.cdOffset = some dir ∧ archive.entries = insertAll dir := by
  obtain ⟨e, hend, h⟩ := Option.bind_eq_some_iff.mp h
  obtain ⟨entries, hentries, h⟩ := Option.bind_eq_some_iff.mp h
  obtain ⟨hash, -, h⟩ := Option.bind_eq_some_iff.mp h
  obtain rfl := Option.some.inj h
  rw [readEntries_eq] at hentries
  obtain ⟨dir, hdir, rfl⟩ := Option.map_eq_some_iff.mp hentries
  exact ⟨e, dir, hend, hdir, rfl⟩

end Twrp.Zip
