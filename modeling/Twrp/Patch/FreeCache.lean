import Twrp.Patch.Disk

/-! What is deleted to make room on the cache.

`MakeFreeSpaceOnCache` lists two directories, takes out of the list what some process has open, and
deletes what is left, one entry after the other, until enough is free. What it goes by is read before
the first entry is deleted, except for the free space, which is measured again after each: a `Cache` is
what can be read, and the state of a run is the entries deleted so far. -/
namespace Twrp.Patch
open Base

/-- The names that `readdir` gives: each of them once, and none with a slash. -/
structure Listing where
  names : List Path
  nodup : names.Nodup
  noSlash : ∀ name ∈ names, '/' ∉ name
  /-- `d_name` has 256 bytes -/
  short : ∀ name ∈ names, name.length < 256

structure Cache where
  /-- The entries of a directory, if it can be opened. -/
  listing : Path → Option Listing
  /-- `stat` succeeds and says that it is a regular file. -/
  regular : Path → Bool
  /-- The entries of `/proc`. -/
  proc : List Path
  procOpens : Bool
  /-- The entries of `/proc/N/fd`, each with the path it leads to if it is a link. -/
  fds : Path → List (Path × Option Path)
  fdOpens : Path → Bool
  /-- `FreeSpaceForFile("/cache")` once these entries are deleted. -/
  free : List Path → Nat

namespace Cache

def FILENAME_MAX : Nat := 4096

def isNumeric (name : Path) : Bool := name.all Char.isDigit

/-- What `readlink` puts into the buffer. -/
def readlink (fd : Path × Option Path) : Option Path := fd.2.map (List.take (FILENAME_MAX - 1))

/-- One entry of a directory of descriptors: a file of the list that it leads to is taken out. -/
def eliminateLink (files : List (Option Path)) (fd : Path × Option Path) : List (Option Path) :=
  match readlink fd with
  | none => files
  | some link => if "/cache/".toList.isPrefixOf link then files.map fun file => if file = some link then none else file else files

/-- One entry of `/proc`. -/
def eliminateProcess (c : Cache) (files : List (Option Path)) (name : Path) : List (Option Path) :=
  if !isNumeric name then files
  else if !c.fdOpens name then files
  else (c.fds name).foldl eliminateLink files

/-- `EliminateOpenFiles` -/
def eliminateOpenFiles (c : Cache) (files : List (Option Path)) : Option (List (Option Path)) :=
  if c.procOpens then some (c.proc.foldl c.eliminateProcess files) else none

/-- All that is read in `/proc/*/fd`. -/
def links (c : Cache) : List Path := (c.proc.filter fun name => isNumeric name && c.fdOpens name).flatMap fun name => (c.fds name).filterMap readlink

/-- A call of the program is answered by what can be read. -/
def step (c : Cache) (deleted : List Path) : (q : Call) → Answer q → List Path → Prop
  | .freeSpace _, (r : Nat), deleted' => deleted' = deleted ∧ r = c.free deleted
  | .listDir dir, (r : Option (List Path)), deleted' => deleted' = deleted ∧ r = (c.listing dir).map Listing.names
  | .isRegular path, (r : Bool), deleted' => deleted' = deleted ∧ r = c.regular path
  | .openFiles, (r : Option (List Path)), deleted' => deleted' = deleted ∧ r = if c.procOpens then some c.links else none
  | .unlink path, _, deleted' => deleted' = deleted ++ [path]
  | _, _, _ => False

/-! ### Open files -/

/-- Some process has a file open under this path. -/
def IsOpen (c : Cache) (path : Path) : Prop := ∃ name ∈ c.proc, isNumeric name = true ∧ ∃ fd ∈ c.fds name, fd.2 = some path

/-- `/proc` can be read, and the descriptors of every process. -/
def Readable (c : Cache) : Prop := c.procOpens = true ∧ ∀ name ∈ c.proc, isNumeric name = true → c.fdOpens name = true

/-- The test for one file against the links. -/
def openIn (links : List Path) (path : Path) : Bool := links.any fun link => "/cache/".toList.isPrefixOf link && link = path

def takeOut (links : List Path) (file : Option Path) : Option Path := file.filter fun path => !openIn links path

theorem takeOut_nil (file : Option Path) : takeOut [] file = file := by
  cases file <;> rfl

theorem takeOut_some (links : List Path) (path : Path) : takeOut links (some path) = if openIn links path then none else some path := by
  unfold takeOut
  cases h : openIn links path <;> simp [Option.filter, h]

theorem takeOut_append (a b : List Path) (file : Option Path) : takeOut (a ++ b) file = takeOut b (takeOut a file) := by
  cases file with
  | none => rfl
  | some path =>
    have hany : openIn (a ++ b) path = (openIn a path || openIn b path) := List.any_append
    unfold takeOut
    cases ha : openIn a path <;> cases hb : openIn b path <;> simp [Option.filter, hany, ha, hb]

theorem takeOut_one (link : Path) (file : Option Path) :
    takeOut [link] file = if "/cache/".toList.isPrefixOf link && file = some link then none else file := by
  cases file with
  | none => simp [takeOut]
  | some path =>
    have hone : openIn [link] path = ("/cache/".toList.isPrefixOf link && decide (some path = some link)) := by
      simp [openIn, eq_comm]
    rw [← hone]
    unfold takeOut
    cases h : openIn [link] path <;> simp [Option.filter, h]

theorem eliminateLink_eq (files : List (Option Path)) (fd : Path × Option Path) :
    eliminateLink files fd = files.map (takeOut (readlink fd).toList) := by
  unfold eliminateLink
  cases readlink fd with
  | none =>
    show files = files.map (takeOut [])
    rw [funext takeOut_nil, List.map_id']
  | some link =>
    show (if "/cache/".toList.isPrefixOf link then _ else files) = files.map (takeOut [link])
    rw [funext (takeOut_one link)]
    generalize "/cache/".toList.isPrefixOf link = inCache
    cases inCache with
    | false =>
      simp only [Bool.false_and, Bool.false_eq_true, if_false]
      exact (List.map_id' files).symm
    | true => simp only [Bool.true_and, decide_eq_true_eq, if_true]

theorem foldl_eliminateLink (fds : List (Path × Option Path)) (files : List (Option Path)) :
    fds.foldl eliminateLink files = files.map (takeOut (fds.filterMap readlink)) := by
  induction fds generalizing files with
  | nil => rw [List.foldl_nil, List.filterMap_nil, funext takeOut_nil, List.map_id']
  | cons fd fds ih =>
    have hcons : (fd :: fds).filterMap readlink = (readlink fd).toList ++ fds.filterMap readlink := by
      rw [List.filterMap_cons]
      cases readlink fd <;> rfl
    rw [List.foldl_cons, ih, eliminateLink_eq, List.map_map, hcons]
    exact List.map_congr_left fun file _ => (takeOut_append _ _ file).symm

theorem eliminateProcess_eq (c : Cache) (files : List (Option Path)) (name : Path) :
    c.eliminateProcess files name =
      files.map (takeOut (if isNumeric name && c.fdOpens name then (c.fds name).filterMap readlink else [])) := by
  unfold eliminateProcess
  cases isNumeric name <;> cases c.fdOpens name <;> simp [foldl_eliminateLink, funext takeOut_nil]

/-- Going through `/proc` takes out what is found under one of the links there. -/
theorem eliminateOpenFiles_eq (c : Cache) (files : List (Option Path)) :
    c.eliminateOpenFiles files = if c.procOpens then some (files.map (takeOut c.links)) else none := by
  have hfold : ∀ (proc : List Path) (files : List (Option Path)), proc.foldl c.eliminateProcess files =
      files.map (takeOut ((proc.filter fun name => isNumeric name && c.fdOpens name).flatMap fun name => (c.fds name).filterMap readlink)) := by
    intro proc
    induction proc with
    | nil =>
      intro files
      rw [List.foldl_nil, List.filter_nil, List.flatMap_nil, funext takeOut_nil, List.map_id']
    | cons name proc ih =>
      intro files
      rw [List.foldl_cons, ih, eliminateProcess_eq, List.map_map, List.filter_cons]
      apply List.map_congr_left
      intro file _
      rw [Function.comp_apply, ← takeOut_append]
      cases isNumeric name && c.fdOpens name <;> rfl
  unfold eliminateOpenFiles
  rw [hfold]
  rfl

/-! ### What may be deleted -/

/-- The entries of a directory that are put on the list. -/
def candidatesIn (c : Cache) (dir : Path) : List Path :=
  (((c.listing dir).map Listing.names).getD []).map (join dir) |>.filter fun path => path ≠ CACHE_TEMP_SOURCE && c.regular path

def candidates (c : Cache) : List Path := expendableDirs.flatMap c.candidatesIn

/-- An entry directly in one of the two directories. -/
def Listed (c : Cache) (path : Path) : Prop :=
  ∃ dir ∈ expendableDirs, ∃ l, c.listing dir = some l ∧ ∃ name ∈ l.names, path = join dir name

/-- An entry that may be deleted. -/
structure Expendable (c : Cache) (path : Path) : Prop where
  listed : c.Listed path
  regular : c.regular path = true
  closed : ¬c.IsOpen path
  notSaved : path ≠ CACHE_TEMP_SOURCE

section Candidates
variable {c : Cache} {path : Path}

theorem mem_candidates : path ∈ c.candidates ↔ c.Listed path ∧ c.regular path = true ∧ path ≠ CACHE_TEMP_SOURCE := by
  unfold candidates candidatesIn Listed
  simp only [List.mem_flatMap, List.mem_filter, List.mem_map, Bool.and_eq_true, decide_eq_true_eq]
  constructor
  · rintro ⟨dir, hdir, ⟨name, hname, rfl⟩, hne, hregular⟩
    cases hl : c.listing dir with
    | none => simp [hl] at hname
    | some l =>
      rw [hl] at hname
      exact ⟨⟨dir, hdir, l, hl, name, hname, rfl⟩, hregular, hne⟩
  · rintro ⟨⟨dir, hdir, l, hl, name, hname, rfl⟩, hregular, hne⟩
    exact ⟨dir, hdir, ⟨name, by rwa [hl], rfl⟩, hne, hregular⟩

/-- What is listed is below `/cache/`, and short enough for every buffer. -/
theorem Listed.below (h : c.Listed path) : "/cache/".toList <+: path ∧ path.length < FILENAME_MAX - 1 := by
  obtain ⟨dir, hdir, l, -, name, hname, rfl⟩ := h
  have hshort := l.short name hname
  simp only [expendableDirs, List.mem_cons, List.not_mem_nil, or_false] at hdir
  rcases hdir with rfl | rfl
  · refine ⟨⟨name, rfl⟩, ?_⟩
    show ("/cache".toList ++ '/' :: name).length < 4095
    rw [List.length_append, List.length_cons]
    show 6 + (name.length + 1) < 4095
    omega
  · refine ⟨⟨"recovery/otatest".toList ++ '/' :: name, rfl⟩, ?_⟩
    show ("/cache/recovery/otatest".toList ++ '/' :: name).length < 4095
    rw [List.length_append, List.length_cons]
    show 23 + (name.length + 1) < 4095
    omega

theorem readlink_eq {fd : Path × Option Path} (h : path.length < FILENAME_MAX - 1) : readlink fd = some path ↔ fd.2 = some path := by
  unfold readlink
  rw [Option.map_eq_some_iff]
  constructor
  · rintro ⟨link, hlink, htake⟩
    rw [hlink, ← htake, List.take_of_length_le]
    by_contra hlong
    rw [← htake, List.length_take_of_le (by omega)] at h
    exact lt_irrefl _ h
  · intro hlink
    exact ⟨path, hlink, List.take_of_length_le h.le⟩

/-- The test finds exactly the files that are open. -/
theorem openIn_iff (hread : c.Readable) (h : c.Listed path) : openIn c.links path = true ↔ c.IsOpen path := by
  obtain ⟨hbelow, hshort⟩ := h.below
  have hlink : openIn c.links path = true ↔ path ∈ c.links := by
    unfold openIn
    rw [List.any_eq_true]
    constructor
    · rintro ⟨link, hmem, htest⟩
      rw [Bool.and_eq_true, decide_eq_true_eq] at htest
      exact htest.2 ▸ hmem
    · intro hmem
      refine ⟨path, hmem, ?_⟩
      rw [Bool.and_eq_true, decide_eq_true_eq]
      exact ⟨List.isPrefixOf_iff_prefix.mpr hbelow, rfl⟩
  rw [hlink]
  unfold links IsOpen
  simp only [List.mem_flatMap, List.mem_filter, List.mem_filterMap, Bool.and_eq_true, readlink_eq hshort]
  constructor
  · rintro ⟨name, ⟨hname, hnumeric, -⟩, hfd⟩
    exact ⟨name, hname, hnumeric, hfd⟩
  · rintro ⟨name, hname, hnumeric, hfd⟩
    exact ⟨name, ⟨hname, hnumeric, hread.2 name hname hnumeric⟩, hfd⟩

theorem join_inj {dir a b : Path} (h : join dir a = join dir b) : a = b := (List.cons.inj (List.append_cancel_left h)).2

/-- No path is on the list twice. -/
theorem nodup_candidates (c : Cache) : c.candidates.Nodup := by
  have hdir : ∀ dir, (c.candidatesIn dir).Nodup := by
    intro dir
    apply List.Nodup.filter
    cases c.listing dir with
    | none => exact List.nodup_nil
    | some l => exact l.nodup.map fun a b h => join_inj h
  have hmem : ∀ dir p, p ∈ c.candidatesIn dir → ∃ name, '/' ∉ name ∧ p = join dir name := by
    intro dir p hp
    obtain ⟨name, hname, rfl⟩ := List.mem_map.mp (List.mem_filter.mp hp).1
    refine ⟨name, ?_, rfl⟩
    cases hl : c.listing dir with
    | none => simp [hl] at hname
    | some l =>
      rw [hl] at hname
      exact l.noSlash name hname
  show (c.candidatesIn _ ++ (c.candidatesIn _ ++ [])).Nodup
  rw [List.append_nil]
  refine List.nodup_append.mpr ⟨hdir _, hdir _, ?_⟩
  intro p hp q hq heq
  obtain ⟨a, ha, rfl⟩ := hmem _ _ hp
  obtain ⟨b, -, rfl⟩ := hmem _ _ hq
  -- the first name would have a slash, after `recovery`
  have hinner : a = "recovery/otatest".toList ++ '/' :: b := (List.cons.inj (@List.append_cancel_left _ "/cache".toList _ _ heq)).2
  exact ha (hinner ▸ by simp)

end Candidates

/-! ### A run -/

section Run
variable {c : Cache} {s : List Path}

theorem safe_regularFiles (dir : Path) (names : List Path) : (regularFiles dir names).Safe c.step (fun _ => True)
    (fun found t => t = s ∧ found = (names.map (join dir)).filter fun path => path ≠ CACHE_TEMP_SOURCE && c.regular path) s := by
  induction names with
  | nil => exact Prog.safe_pure trivial ⟨rfl, rfl⟩
  | cons name rest ih =>
    rw [regularFiles, List.map_cons, List.filter_cons]
    refine Prog.safe_ite (fun hsaved => ?_) fun hne => ?_
    · rw [hsaved]
      exact ih
    refine Prog.safe_look trivial (fun r s' h => h.1) fun r hr => ?_
    refine Prog.safe_bind ih fun later t hlater => ?_
    obtain ⟨rfl, rfl⟩ := hlater
    refine Prog.safe_pure trivial ⟨rfl, ?_⟩
    obtain rfl : r = c.regular (join dir name) := hr.2
    cases c.regular (join dir name) <;> simp [hne]

theorem safe_filesIn (dir : Path) : (filesIn dir).Safe c.step (fun _ => True) (fun found t => t = s ∧ found = c.candidatesIn dir) s := by
  refine Prog.safe_look trivial (fun r s' h => h.1) fun r hr => ?_
  obtain rfl : r = (c.listing dir).map Listing.names := hr.2
  unfold candidatesIn
  cases c.listing dir with
  | none => exact Prog.safe_pure trivial ⟨rfl, rfl⟩
  | some l => exact safe_regularFiles dir l.names

theorem safe_findInDirs (dirs : List Path) :
    (findInDirs dirs).Safe c.step (fun _ => True) (fun found t => t = s ∧ found = dirs.flatMap c.candidatesIn) s := by
  induction dirs with
  | nil => exact Prog.safe_pure trivial ⟨rfl, rfl⟩
  | cons dir rest ih =>
    refine Prog.safe_bind (safe_filesIn dir) fun here t hhere => ?_
    obtain ⟨rfl, rfl⟩ := hhere
    refine Prog.safe_bind ih fun later t hlater => ?_
    obtain ⟨rfl, rfl⟩ := hlater
    exact Prog.safe_pure trivial ⟨rfl, rfl⟩

/-- The list is that of the candidates, after `EliminateOpenFiles`. -/
theorem safe_findExpendableFiles :
    findExpendableFiles.Safe c.step (fun _ => True) (fun r t => t = s ∧ r = c.eliminateOpenFiles (c.candidates.map some)) s := by
  refine Prog.safe_bind (safe_findInDirs expendableDirs) fun found t hfound => ?_
  obtain ⟨rfl, rfl⟩ := hfound
  refine Prog.safe_look trivial (fun r s' h => h.1) fun r hr => ?_
  obtain rfl : r = if c.procOpens then some c.links else none := hr.2
  rw [eliminateOpenFiles_eq]
  cases c.procOpens with
  | false => exact Prog.safe_pure trivial ⟨rfl, rfl⟩
  | true =>
    refine Prog.safe_pure trivial ⟨rfl, ?_⟩
    show some _ = some _
    rw [List.map_map]
    refine congrArg some (List.map_congr_left fun path _ => ?_)
    exact (takeOut_some c.links path).symm

/-- How the loop ends that started when `s` was deleted: these of the files are gone, one by one, and it
went on only while there was not enough room. -/
structure Freed (c : Cache) (needed : Nat) (files s : List Path) (free : Nat) (t : List Path) : Prop where
  measured : free = c.free t
  gone : ∃ gone rest, files = gone ++ rest ∧ t = s ++ gone ∧ (needed ≤ free ∨ rest = []) ∧
    ∀ front path, front ++ [path] <+: gone → c.free (s ++ front) < needed

theorem safe_deleteLoop (needed : Nat) (files : List (Option Path)) {free : Nat} (hfree : free = c.free s) :
    (deleteLoop needed files free).Safe c.step (fun _ => True) (c.Freed needed files.reduceOption s) s := by
  induction files generalizing s free with
  | nil => exact Prog.safe_pure trivial ⟨hfree, [], [], rfl, (List.append_nil s).symm, .inr rfl, fun _ _ h => by simp at h⟩
  | cons file rest ih =>
    have hstop : ¬free < needed → (pure free : Io Nat).Safe c.step (fun _ => True) (c.Freed needed (file :: rest).reduceOption s) s :=
      fun h => Prog.safe_pure trivial ⟨hfree, [], _, rfl, (List.append_nil s).symm, .inl (not_lt.mp h), fun _ _ h => by simp at h⟩
    cases file with
    | none => exact Prog.safe_ite (fun _ => ih hfree) hstop
    | some path =>
      refine Prog.safe_ite (fun hlt => ?_) hstop
      refine Prog.safe_call trivial fun r s' hunlink => ?_
      obtain rfl : s' = s ++ [path] := hunlink
      refine Prog.safe_look trivial (fun r s' h => h.1) fun r hr => ?_
      refine (ih hr.2).mono (fun _ h => h) fun free' t _ hfreed => ?_
      obtain ⟨hmeasured, gone, left, hfiles, rfl, hend, hwhile⟩ := hfreed
      refine ⟨hmeasured, path :: gone, left, ?_, by simp, hend, ?_⟩
      · rw [List.reduceOption_cons_of_some, hfiles, List.cons_append]
      · intro front path' hprefix
        cases front with
        | nil =>
          rw [List.append_nil, ← hfree]
          exact hlt
        | cons first front =>
          rw [List.cons_append] at hprefix
          obtain ⟨rfl, hinner⟩ := List.cons_prefix_cons.mp hprefix
          have := hwhile front path' hinner
          rwa [List.append_assoc, List.singleton_append] at this

/-- What is asked of a call that needs `needed` bytes: the entries it deletes, and what it returns. -/
structure MakesRoom (c : Cache) (needed : Nat) (deleted : List Path) (r : Int) : Prop where
  expendable : ∀ path ∈ deleted, c.Expendable path
  once : deleted.Nodup
  enough : needed ≤ c.free [] → deleted = []
  /-- Each entry is deleted while there is not enough room. -/
  stops : ∀ front path, front ++ [path] <+: deleted → c.free front < needed
  all : c.free deleted < needed → ∀ path, c.Expendable path → path ∈ deleted
  result : (r = 0 ↔ needed ≤ c.free deleted) ∧ (r = 0 ∨ r = -1)

theorem reduceOption_takeOut (links files : List Path) :
    ((files.map some).map (takeOut links)).reduceOption = files.filter fun path => !openIn links path := by
  induction files with
  | nil => rfl
  | cons path rest ih =>
    rw [List.map_cons, List.map_cons, takeOut_some, List.filter_cons]
    cases openIn links path with
    | true => exact ih
    | false => exact congrArg (path :: ·) ih

/-- What is on the list when the open files are taken out. -/
theorem mem_files (hread : c.Readable) {path : Path} : (path ∈ c.candidates.filter fun path => !openIn c.links path) ↔ c.Expendable path := by
  rw [List.mem_filter, mem_candidates, Bool.not_eq_true']
  constructor
  · rintro ⟨⟨hlisted, hregular, hne⟩, hclosed⟩
    refine ⟨hlisted, hregular, fun hopen => ?_, hne⟩
    rw [(openIn_iff hread hlisted).mpr hopen] at hclosed
    cases hclosed
  · rintro ⟨hlisted, hregular, hclosed, hne⟩
    refine ⟨⟨hlisted, hregular, hne⟩, ?_⟩
    rw [← Bool.not_eq_true, openIn_iff hread hlisted]
    exact hclosed

theorem Freed.makesRoom (hread : c.Readable) {needed free : Nat} {deleted : List Path} (hnot : ¬needed ≤ c.free [])
    (h : c.Freed needed (c.candidates.filter fun path => !openIn c.links path) [] free deleted) :
    c.MakesRoom needed deleted (if needed ≤ free then 0 else -1) := by
  obtain ⟨rfl, gone, rest, hfiles, hgone, hend, hwhile⟩ := h
  rw [List.nil_append] at hgone
  subst hgone
  have hnodup := (nodup_candidates c).filter fun path => !openIn c.links path
  rw [hfiles] at hnodup
  refine ⟨fun path hpath => ?_, (List.nodup_append.mp hnodup).1, fun h => absurd h hnot, fun front path hprefix => ?_, fun hlt path hpath => ?_, ?_⟩
  · rw [← mem_files hread, hfiles]
    exact List.mem_append_left rest hpath
  · simpa using hwhile front path hprefix
  · obtain rfl : rest = [] := hend.resolve_left (not_le.mpr hlt)
    rw [← mem_files hread, hfiles, List.append_nil] at hpath
    exact hpath
  · split_ifs with henough
    · exact ⟨iff_of_true rfl henough, .inl rfl⟩
    · exact ⟨iff_of_false (by decide) henough, .inr rfl⟩

theorem safe_makeFreeSpaceOnCache (hread : c.Readable) (needed : Nat) :
    (makeFreeSpaceOnCache needed).Safe c.step (fun _ => True) (fun r deleted => c.MakesRoom needed deleted r) [] := by
  refine Prog.safe_look trivial (fun r s' h => h.1) fun r hr => ?_
  obtain rfl : r = c.free [] := hr.2
  refine Prog.safe_ite (fun henough => Prog.safe_pure trivial ?_) fun hnot => ?_
  · exact ⟨by simp, List.nodup_nil, fun _ => rfl, fun _ _ h => by simp at h, fun h => absurd henough (not_le.mpr h),
      iff_of_true rfl henough, .inl rfl⟩
  refine Prog.safe_bind safe_findExpendableFiles fun names t hnames => ?_
  obtain ⟨rfl, rfl⟩ := hnames
  rw [eliminateOpenFiles_eq, hread.1, if_pos rfl]
  have hreduce := reduceOption_takeOut c.links c.candidates
  refine Prog.safe_ite (fun hnil => Prog.safe_pure trivial ?_) fun _ => ?_
  · have hfreed : c.Freed needed (c.candidates.filter fun path => !openIn c.links path) [] (c.free []) [] := by
      rw [← hreduce, hnil]
      exact ⟨rfl, [], [], rfl, rfl, .inr rfl, fun _ _ h => by simp at h⟩
    have := hfreed.makesRoom hread hnot
    rwa [if_neg hnot] at this
  · refine Prog.safe_bind (safe_deleteLoop needed _ rfl) fun free deleted hfreed => ?_
    rw [hreduce] at hfreed
    exact Prog.safe_pure trivial (hfreed.makesRoom hread hnot)

/-- Every call that the program makes is answered. -/
def Answered : Call → Prop
  | .freeSpace _ => True
  | .listDir _ => True
  | .isRegular _ => True
  | .openFiles => True
  | .unlink _ => True
  | _ => False

theorem all_makeFreeSpaceOnCache (needed : Nat) : (makeFreeSpaceOnCache needed).All Answered := by
  have hregular : ∀ dir names, (regularFiles dir names).All Answered := by
    intro dir names
    induction names with
    | nil => exact Prog.all_pure _
    | cons name rest ih =>
      refine Prog.all_ite (fun _ => ih) fun _ => Prog.all_bind (Prog.all_ask trivial) fun _ => ?_
      exact Prog.all_bind ih fun _ => Prog.all_pure _
  have hfiles : ∀ dir, (filesIn dir).All Answered := by
    intro dir
    refine Prog.all_bind (Prog.all_ask trivial) fun r => ?_
    cases r with
    | none => exact Prog.all_pure _
    | some names => exact hregular dir names
  have hdirs : ∀ dirs, (findInDirs dirs).All Answered := by
    intro dirs
    induction dirs with
    | nil => exact Prog.all_pure _
    | cons dir rest ih => exact Prog.all_bind (hfiles dir) fun _ => Prog.all_bind ih fun _ => Prog.all_pure _
  have hfind : findExpendableFiles.All Answered := by
    refine Prog.all_bind (hdirs _) fun _ => Prog.all_bind (Prog.all_ask trivial) fun r => ?_
    cases r with
    | none => exact Prog.all_pure _
    | some links => exact Prog.all_pure _
  have hdelete : ∀ names free, (deleteLoop needed names free).All Answered := by
    intro names
    induction names with
    | nil => exact fun _ => Prog.all_pure _
    | cons file rest ih =>
      intro free
      cases file with
      | none => exact Prog.all_ite (fun _ => ih free) fun _ => Prog.all_pure _
      | some path =>
        refine Prog.all_ite (fun _ => ?_) fun _ => Prog.all_pure _
        exact Prog.all_bind (Prog.all_ask trivial) fun _ => Prog.all_bind (Prog.all_ask trivial) fun free => ih free
  refine Prog.all_bind (Prog.all_ask trivial) fun _ => Prog.all_ite (fun _ => Prog.all_pure _) fun _ => ?_
  refine Prog.all_bind hfind fun r => ?_
  cases r with
  | none => exact Prog.all_pure _
  | some names =>
    refine Prog.all_ite (fun _ => Prog.all_pure _) fun _ => ?_
    exact Prog.all_bind (hdelete names _) fun _ => Prog.all_pure _

theorem exists_answer {q : Call} (h : Answered q) (s : List Path) : ∃ r s', c.step s q r s' := by
  cases q with
  | freeSpace path => exact ⟨c.free s, s, rfl, rfl⟩
  | listDir dir => exact ⟨_, s, rfl, rfl⟩
  | isRegular path => exact ⟨c.regular path, s, rfl, rfl⟩
  | openFiles => exact ⟨_, s, rfl, rfl⟩
  | unlink path => exact ⟨true, _, rfl⟩
  | _ => exact h.elim

/-- `MakeFreeSpaceOnCache` comes to its end, and whenever it does it has deleted only what may be
deleted, and no more of it than it needed to; it returns 0 exactly if there was room in the end. -/
theorem makeFreeSpaceOnCache_makesRoom (hread : c.Readable) (needed : Nat) :
    (∃ deleted r, Prog.Exec c.step [] (makeFreeSpaceOnCache needed) deleted (some r)) ∧
      ∀ deleted r, Prog.Exec c.step [] (makeFreeSpaceOnCache needed) deleted (some r) → c.MakesRoom needed deleted r := by
  refine ⟨Prog.exists_exec ((all_makeFreeSpaceOnCache needed).mono fun q h s => exists_answer h s) [], fun deleted r hexec => ?_⟩
  exact ((safe_makeFreeSpaceOnCache hread needed).exec hexec).2 r rfl

end Run

/-- A cache with two files, one of which the process 1 has open. -/
def busy : Cache where
  listing := fun dir => if dir = "/cache".toList then some ⟨["a".toList, "b".toList], by decide, by decide, by decide⟩ else none
  regular := fun _ => true
  proc := ["1".toList, "self".toList]
  procOpens := true
  fds := fun _ => [("3".toList, some "/cache/a".toList)]
  fdOpens := fun _ => true
  free := fun deleted => 4096 * deleted.length

theorem makeFreeSpaceOnCache_busy :
    (∃ deleted r, Prog.Exec busy.step [] (makeFreeSpaceOnCache 8192) deleted (some r)) ∧
      ∀ deleted r, Prog.Exec busy.step [] (makeFreeSpaceOnCache 8192) deleted (some r) → busy.MakesRoom 8192 deleted r :=
  makeFreeSpaceOnCache_makesRoom (c := busy) ⟨rfl, fun _ _ _ => rfl⟩ 8192

end Cache

end Twrp.Patch
