import Twrp.Zip.Contents

/-! What a reported extraction is worth.

The files of a run are read off its log: each one begins where it is created and ends with the first
step that is not part of writing or stamping it. An extraction that returns `true` has extracted every
entry below `zipDir`, unless it stopped at a regular file that failed after it was created, or made a
link of memory that was never written, or was not meant to extract anything. -/
namespace Twrp.Zip
open Base

/-! ### The files and links of a run -/

/-- The calls made for a file after it was created. -/
def Call.isFileCall : Call → Bool
  | .utime _ => true
  | .write _ => true
  | q => q.isFetch

/-- A regular file: where it was created, and the steps made for it. -/
structure Session where
  path : Bytes
  steps : Log

def sessions : Log → List Session
  | [] => []
  | ⟨.creat path, true⟩ :: log => ⟨path, log.takeWhile fun s => s.1.isFileCall⟩ :: sessions log
  | _ :: log => sessions log

/-- The links that were made: their targets and paths. -/
def links (log : Log) : List (Bytes × Bytes) :=
  log.filterMap fun
    | ⟨.symlink target path, true⟩ => some (target, path)
    | _ => none

/-- What was copied for the targets of links, and what stood behind it in memory. -/
def residues (log : Log) : List (Bytes × Bytes) :=
  log.filterMap fun
    | ⟨.residue copied _, rest⟩ => some (copied, rest)
    | _ => none

/-- Nothing that belongs to a file begun before. -/
def Fresh (log : Log) : Prop := ∀ s ∈ log.head?, s.1.isFileCall = false

theorem fresh_nil : Fresh [] := by simp [Fresh]

theorem fresh_cons {s : Sigma Answer} {log : Log} : Fresh (s :: log) ↔ s.1.isFileCall = false := by simp [Fresh]

theorem Fresh.append {l l' : Log} (h : Fresh l) (h' : Fresh l') : Fresh (l ++ l') := by
  cases l with
  | nil => exact h'
  | cons s l => exact fresh_cons.mpr (fresh_cons.mp h)

/-- A step that creates no file. -/
def Call.isQuiet : Call → Bool
  | .creat _ => false
  | .symlink _ _ => false
  | .residue _ _ => false
  | _ => true

theorem sessions_cons {q : Call} {r : Answer q} {log : Log} (h : ∀ path, q ≠ .creat path) : sessions (⟨q, r⟩ :: log) = sessions log := by
  cases q with
  | creat path => exact absurd rfl (h path)
  | _ => rfl

theorem sessions_creat (path : Bytes) (log : Log) :
    sessions (⟨.creat path, true⟩ :: log) = ⟨path, log.takeWhile fun s => s.1.isFileCall⟩ :: sessions log := rfl

theorem takeWhile_fresh (l : Log) {l' : Log} (h : Fresh l') :
    (l ++ l').takeWhile (fun s => s.1.isFileCall) = l.takeWhile fun s => s.1.isFileCall := by
  induction l with
  | nil =>
    cases l' with
    | nil => rfl
    | cons s l' =>
      rw [List.nil_append, List.takeWhile_cons, fresh_cons.mp h]
      rfl
  | cons s l ih => rw [List.cons_append, List.takeWhile_cons, List.takeWhile_cons, ih]

theorem sessions_append (l : Log) {l' : Log} (h : Fresh l') : sessions (l ++ l') = sessions l ++ sessions l' := by
  induction l with
  | nil => rfl
  | cons s l ih =>
    obtain ⟨q, r⟩ := s
    cases q with
    | creat path =>
      cases r with
      | true => rw [List.cons_append, sessions_creat, sessions_creat, ih, takeWhile_fresh l h, List.cons_append]
      | false => exact ih
    | _ => exact ih

theorem links_append (l l' : Log) : links (l ++ l') = links l ++ links l' := List.filterMap_append

theorem residues_append (l l' : Log) : residues (l ++ l') = residues l ++ residues l' := List.filterMap_append

/-- Quiet steps make nothing. -/
theorem quiet_nothing {log : Log} (h : ∀ s ∈ log, s.1.isQuiet = true) : sessions log = [] ∧ links log = [] ∧ residues log = [] := by
  induction log with
  | nil => exact ⟨rfl, rfl, rfl⟩
  | cons s log ih =>
    obtain ⟨hs, hrest⟩ := List.forall_mem_cons.mp h
    obtain ⟨q, r⟩ := s
    cases q with
    | creat path => cases hs
    | symlink target path => cases hs
    | residue copied count => cases hs
    | _ => exact ih hrest

/-! ### Directories -/

/-- A level of a path that is a directory: it was one, or was made and, if asked for, stamped. -/
def LevelMade (timestamp : Bool) (log : Log) (level : Bytes) : Prop :=
  ⟨.stat level, DirStatus.DDIR⟩ ∈ log ∨ ⟨.mkdir level, true⟩ ∈ log ∧ (timestamp = true → ⟨.utime level, true⟩ ∈ log)

/-- The directory of an entry: it was one, or all its levels are directories. -/
def DirMade (timestamp : Bool) (log : Log) (cpath : Bytes) : Prop :=
  ∃ ds : DirStatus, ⟨.stat cpath, ds⟩ ∈ log ∧ (ds = .DDIR ∨ ∀ level ∈ levels cpath, LevelMade timestamp log level)

theorem LevelMade.mono {timestamp : Bool} {l l' : Log} {level : Bytes} (h : LevelMade timestamp l level) (hsub : ∀ s ∈ l, s ∈ l') :
    LevelMade timestamp l' level := by
  rcases h with hstat | ⟨hmkdir, hutime⟩
  · exact .inl (hsub _ hstat)
  · exact .inr ⟨hsub _ hmkdir, fun ht => hsub _ (hutime ht)⟩

theorem DirMade.mono {timestamp : Bool} {l l' : Log} {cpath : Bytes} (h : DirMade timestamp l cpath) (hsub : ∀ s ∈ l, s ∈ l') :
    DirMade timestamp l' cpath := by
  obtain ⟨ds, hstat, hmade⟩ := h
  refine ⟨ds, hsub _ hstat, ?_⟩
  rcases hmade with hdir | hlevels
  · exact .inl hdir
  · exact .inr fun level hlevel => (hlevels level hlevel).mono hsub

theorem logs_malloc (size : Nat) : Prog.Logs (fun ok => ⟨.malloc size, ok⟩) (malloc size) := Prog.logs_ask _
theorem logs_stat (path : Bytes) : Prog.Logs (fun ds => ⟨.stat path, ds⟩) (stat path) := Prog.logs_ask _
theorem logs_mkdir (path : Bytes) : Prog.Logs (fun ok => ⟨.mkdir path, ok⟩) (mkdir path) := Prog.logs_ask _
theorem logs_utime (path : Bytes) : Prog.Logs (fun ok => ⟨.utime path, ok⟩) (utime path) := Prog.logs_ask _
theorem logs_creat (path : Bytes) : Prog.Logs (fun ok => ⟨.creat path, ok⟩) (creat path) := Prog.logs_ask _
theorem logs_residue (copied : Bytes) (count : Nat) : Prog.Logs (fun rest => ⟨.residue copied count, rest⟩) (residue copied count) :=
  Prog.logs_ask _
theorem logs_symlink (target path : Bytes) : Prog.Logs (fun ok => ⟨.symlink target path, ok⟩) (symlink target path) := Prog.logs_ask _
theorem logs_callback (path : Bytes) : Prog.Logs (fun u => ⟨.callback path, u⟩) (callback path) := Prog.logs_ask _

/-- The step of stamping a path, if it is made at all. -/
theorem stamp_spec (timestamp : Bool) (path : Bytes) :
    (stamp timestamp path).Post fun l ok => (l = if timestamp then [⟨.utime path, ok⟩] else []) ∧ (timestamp = false → ok = true) := by
  unfold stamp
  cases timestamp with
  | false => exact Prog.post_pure ⟨rfl, fun _ => rfl⟩
  | true => exact (logs_utime path).mono fun l ok hl => ⟨hl, fun h => nomatch h⟩

theorem makeLevels_spec (timestamp : Bool) (rest : List Bytes) :
    (makeLevels timestamp rest).Post fun l ok => ok = true → Flawless l ∧ ∀ level ∈ rest, LevelMade timestamp l level := by
  induction rest with
  | nil =>
    apply Prog.post_pure
    intro _
    exact ⟨flawless_nil, by simp⟩
  | cons level rest ih =>
    have hnext : ∀ {l₀ l : Log}, Flawless l₀ → LevelMade timestamp l₀ level → (Flawless l ∧ ∀ level ∈ rest, LevelMade timestamp l level) →
        Flawless (l₀ ++ l) ∧ ∀ level' ∈ level :: rest, LevelMade timestamp (l₀ ++ l) level' := by
      intro l₀ l hflawless hmade ⟨hflawless', hrest⟩
      refine ⟨flawless_append.mpr ⟨hflawless, hflawless'⟩, List.forall_mem_cons.mpr ⟨?_, ?_⟩⟩
      · exact hmade.mono fun s hs => List.mem_append_left _ hs
      · exact fun level' h => (hrest level' h).mono fun s hs => List.mem_append_right _ hs
    rw [makeLevels]
    refine Prog.post_call (logs_stat level) fun ds => ?_
    cases ds with
    | DILLEGAL => exact Prog.post_pure fun h => nomatch h
    | DDIR =>
      refine Prog.Post.mono ih fun l ok h hok => ?_
      exact @hnext [⟨.stat level, DirStatus.DDIR⟩] l (by simp [flawless_cons, flawless_nil, failed]) (.inl (by simp)) (h hok)
    | DMISSING =>
      refine Prog.post_check (logs_mkdir level) (Prog.post_pure fun h => nomatch h) ?_
      refine Prog.post_bind (stamp_spec timestamp level) fun ls ok hstamp => ?_
      cases ok with
      | false => exact Prog.post_pure fun h => nomatch h
      | true =>
        refine Prog.Post.mono ih fun l ok h hok => ?_
        refine @hnext (⟨.stat level, DirStatus.DMISSING⟩ :: ⟨.mkdir level, true⟩ :: ls) l ?_ (.inr ⟨by simp, ?_⟩) (h hok)
        · rw [hstamp.1]
          cases timestamp <;> simp [flawless_cons, flawless_nil, failed]
        · intro ht
          rw [hstamp.1, if_pos ht]
          simp

theorem makeHierarchy_spec (timestamp : Bool) (cpath : Bytes) :
    (makeHierarchy timestamp cpath).Post fun l ok => ok = true → Flawless l ∧ DirMade timestamp l cpath := by
  unfold makeHierarchy
  refine Prog.post_call (logs_stat cpath) fun ds => ?_
  cases ds with
  | DDIR =>
    apply Prog.post_pure
    intro _
    exact ⟨by simp [flawless_cons, flawless_nil, failed], .DDIR, by simp, .inl rfl⟩
  | DILLEGAL => exact Prog.post_pure fun h => absurd h Bool.false_ne_true
  | DMISSING =>
    refine Prog.Post.mono (makeLevels_spec timestamp (levels cpath)) fun l ok h hok => ?_
    obtain ⟨hflawless, hlevels⟩ := h hok
    refine ⟨flawless_cons.mpr ⟨rfl, hflawless⟩, .DMISSING, by simp, .inr fun level hlevel => ?_⟩
    exact (hlevels level hlevel).mono fun s hs => List.mem_cons_of_mem _ hs

/-- A hierarchy that is made: nothing failed, and where the whole path is wanted it is a directory. -/
theorem dirCreateHierarchy_spec (path : Bytes) (timestamp strip : Bool) :
    (dirCreateHierarchy path timestamp strip).Post fun l ok => Fresh l ∧
      (ok = true → Flawless l ∧ (strip = false → DirMade timestamp l (path ++ [slash]))) := by
  unfold dirCreateHierarchy
  refine Prog.post_ite (fun _ => Prog.post_pure ⟨fresh_nil, fun h => nomatch h⟩) fun _ => ?_
  refine Prog.post_check (logs_malloc _) (Prog.post_pure ⟨fresh_cons.mpr rfl, fun h => nomatch h⟩) ?_
  have hmade : ∀ cpath, (makeHierarchy timestamp cpath).Post fun l ok => Fresh (⟨.malloc (path.length + 2), true⟩ :: l) ∧
      (ok = true → Flawless (⟨.malloc (path.length + 2), true⟩ :: l) ∧ DirMade timestamp (⟨.malloc (path.length + 2), true⟩ :: l) cpath) := by
    intro cpath
    refine Prog.Post.mono (makeHierarchy_spec timestamp cpath) fun l ok h => ⟨fresh_cons.mpr rfl, fun hok => ?_⟩
    obtain ⟨hflawless, hdir⟩ := h hok
    exact ⟨flawless_cons.mpr ⟨rfl, hflawless⟩, hdir.mono fun s hs => List.mem_cons_of_mem _ hs⟩
  cases strip with
  | true =>
    rw [if_pos rfl]
    cases stripFileName path with
    | none => exact Prog.post_pure ⟨fresh_cons.mpr rfl, fun h => nomatch h⟩
    | some cpath => exact (hmade cpath).mono fun l ok h => ⟨h.1, fun hok => ⟨(h.2 hok).1, fun h => nomatch h⟩⟩
  | false => exact (hmade _).mono fun l ok h => ⟨h.1, fun hok => ⟨(h.2 hok).1, fun _ => (h.2 hok).2⟩⟩

theorem all_stamp {P : Call → Prop} (timestamp : Bool) {path : Bytes} (h : P (.utime path)) : (stamp timestamp path).All P :=
  Prog.all_ite (fun _ => Prog.all_ask h) fun _ => Prog.all_pure _

theorem all_makeLevels {P : Call → Prop} (timestamp : Bool) (rest : List Bytes)
    (h : ∀ level ∈ rest, P (.stat level) ∧ P (.mkdir level) ∧ P (.utime level)) : (makeLevels timestamp rest).All P := by
  induction rest with
  | nil => exact Prog.all_pure _
  | cons level rest ih =>
    obtain ⟨⟨hstat, hmkdir, hutime⟩, hrest⟩ := List.forall_mem_cons.mp h
    rw [makeLevels]
    refine Prog.all_bind (Prog.all_ask hstat) fun ds => ?_
    cases ds with
    | DILLEGAL => exact Prog.all_pure _
    | DDIR => exact ih hrest
    | DMISSING =>
      refine Prog.all_bind (Prog.all_ask hmkdir) fun ok => Prog.all_ite (fun _ => Prog.all_pure _) fun _ => ?_
      refine Prog.all_bind (all_stamp timestamp hutime) fun ok => ?_
      exact Prog.all_ite (fun _ => Prog.all_pure _) fun _ => ih hrest

theorem all_makeHierarchy {P : Call → Prop} (timestamp : Bool) (cpath : Bytes) (hstat : P (.stat cpath))
    (h : ∀ level ∈ levels cpath, P (.stat level) ∧ P (.mkdir level) ∧ P (.utime level)) : (makeHierarchy timestamp cpath).All P := by
  refine Prog.all_bind (Prog.all_ask hstat) fun ds => ?_
  cases ds with
  | DDIR => exact Prog.all_pure _
  | DILLEGAL => exact Prog.all_pure _
  | DMISSING => exact all_makeLevels timestamp _ h

/-- Only calls for directories are made, and `mkdir` only for the levels of the path. -/
theorem all_dirCreateHierarchy {P : Call → Prop} (path : Bytes) (timestamp strip : Bool) (hmalloc : ∀ size, P (.malloc size))
    (hstat : ∀ p, P (.stat p)) (hlevels : ∀ cpath, cpath = path ++ [slash] ∨ stripFileName path = some cpath →
      ∀ level ∈ levels cpath, P (.mkdir level) ∧ P (.utime level)) : (dirCreateHierarchy path timestamp strip).All P := by
  refine Prog.all_ite (fun _ => Prog.all_pure _) fun _ => ?_
  refine Prog.all_bind (Prog.all_ask (hmalloc _)) fun ok => Prog.all_ite (fun _ => Prog.all_pure _) fun _ => ?_
  refine Prog.all_ite (fun _ => ?_) fun _ => ?_
  · cases hstrip : stripFileName path with
    | none => exact Prog.all_pure _
    | some cpath => exact all_makeHierarchy timestamp cpath (hstat _) fun level h => ⟨hstat _, hlevels cpath (.inr hstrip) level h⟩
  · exact all_makeHierarchy timestamp _ (hstat _) fun level h => ⟨hstat _, hlevels _ (.inl rfl) level h⟩

/-! ### The entries below `zipDir` -/

theorem strncmp_eq_zero {a b : List UInt8} (h : b.length ≤ a.length) : strncmp a b b.length = 0 ↔ b <+: a := by
  induction b generalizing a with
  | nil => cases a <;> simp [strncmp]
  | cons y b ih =>
    cases a with
    | nil => simp at h
    | cons x a =>
      rw [List.length_cons, strncmp, List.cons_prefix_cons]
      by_cases hxy : x = y
      · subst hxy
        simp only [if_true, true_and]
        exact ih (by simpa using h)
      · have hne : x.toNat ≠ y.toNat := fun heq => hxy (UInt8.toNat_inj.mp heq)
        simp only [hxy, if_false, Ne.symm hxy, false_and, iff_false]
        omega

/-- What begins with a text stands together in the order of names. -/
theorem prefix_between {p a b c : List UInt8} (ha : p <+: a) (hc : p <+: c) (hab : order a ≤ order b) (hbc : order b ≤ order c) : p <+: b := by
  induction p generalizing a b c with
  | nil => exact List.nil_prefix
  | cons x p ih =>
    obtain ⟨a, rfl⟩ := ha
    obtain ⟨c, rfl⟩ := hc
    cases b with
    | nil => exact absurd hab (by simp [order])
    | cons y b =>
      have hab' := not_lt.mpr hab
      have hbc' := not_lt.mpr hbc
      simp only [order, List.cons_append, List.map_cons, List.cons_lt_cons_iff, not_or, not_and] at hab' hbc'
      have hxy : x = y := UInt8.toNat_inj.mp (by omega)
      subst hxy
      refine List.cons_prefix_cons.mpr ⟨rfl, ih (List.prefix_append p a) (List.prefix_append p c) ?_ ?_⟩
      · simpa [order] using hab'
      · simpa [order] using hbc'

namespace Request
variable (q : Request)

theorem isBelow_iff (e : ZipEntry) : q.isBelow e = true ↔ q.zpath <+: e.fileName := by
  unfold isBelow
  by_cases h : e.fileName.length < q.zpath.length
  · simp only [h, decide_true, Bool.not_true, Bool.false_and, Bool.false_eq_true, false_iff]
    intro hprefix
    exact absurd hprefix.length_le (by omega)
  · simp only [h, decide_false, Bool.not_false, Bool.true_and, decide_eq_true_eq]
    exact strncmp_eq_zero (by omega)

/-- The loop without its test for the entries below `zipDir`. -/
def extractAll : List ZipEntry → MzPathHelper → Io Bool
  | [], _ => pure true
  | e :: rest, h => do
    match ← q.targetEntryPath h e with
    | none => pure false
    | some h =>
      match ← q.extractEntry e with
      | .stop ok => pure ok
      | .go => extractAll rest h

theorem extractLoop_below {e : ZipEntry} (he : q.isBelow e = true) (rest : List ZipEntry) (seenMatch : Bool) (h : MzPathHelper) :
    q.extractLoop (e :: rest) seenMatch h = (do
      match ← q.targetEntryPath h e with
      | none => pure false
      | some h =>
        match ← q.extractEntry e with
        | .stop ok => pure ok
        | .go => q.extractLoop rest true h) := by
  rw [extractLoop, he]
  rfl

theorem extractLoop_seen (entries : List ZipEntry) (h : MzPathHelper) :
    q.extractLoop entries true h = q.extractAll (entries.takeWhile q.isBelow) h := by
  induction entries generalizing h with
  | nil => rfl
  | cons e rest ih =>
    by_cases he : q.isBelow e = true
    · rw [extractLoop_below q he, List.takeWhile_cons_of_pos he, extractAll]
      simp only [ih]
    · rw [List.takeWhile_cons_of_neg he, extractLoop]
      simp only [Bool.not_eq_true] at he
      rw [he]
      rfl

theorem takeWhile_eq_filter {p : ZipEntry → Bool} {l : List ZipEntry} (h : ∀ e ∈ l.dropWhile p, p e = false) : l.takeWhile p = l.filter p := by
  conv_rhs => rw [← List.takeWhile_append_dropWhile (p := p) (l := l)]
  rw [List.filter_append, List.filter_eq_self.mpr fun e he => List.mem_takeWhile_imp he, List.filter_eq_nil_iff.mpr, List.append_nil]
  intro e he
  rw [h e he]
  exact Bool.false_ne_true

/-- After an entry below `zipDir`, those that follow it without a gap are all there are. -/
theorem takeWhile_isBelow {e : ZipEntry} {rest : List ZipEntry} (hsorted : Sorted (e :: rest)) (he : q.isBelow e = true) :
    rest.takeWhile q.isBelow = rest.filter q.isBelow := by
  obtain ⟨hfirst, hrest⟩ := List.pairwise_cons.mp hsorted
  apply takeWhile_eq_filter
  intro e' he'
  by_contra hcon
  rw [Bool.not_eq_false] at hcon
  -- the first mismatch would stand between two matches
  cases hdrop : rest.dropWhile q.isBelow with
  | nil => simp [hdrop] at he'
  | cons m tail =>
    have hm : q.isBelow m = false := by
      have := List.head_dropWhile_not (p := q.isBelow) (l := rest) (by simp [hdrop])
      simpa [hdrop] using this
    have hsub : (m :: tail).Sublist rest := hdrop ▸ List.dropWhile_sublist _
    have hmtail : Sorted (m :: tail) := hrest.sublist hsub
    rw [hdrop] at he'
    have hle : order m.fileName ≤ order e'.fileName := by
      rcases List.mem_cons.mp he' with rfl | htail
      · exact le_refl _
      · exact (List.pairwise_cons.mp hmtail).1 e' htail
    have hprefix := prefix_between ((q.isBelow_iff e).mp he) ((q.isBelow_iff e').mp hcon) (hfirst m (hsub.mem List.mem_cons_self)) hle
    rw [← isBelow_iff, hm] at hprefix
    exact Bool.false_ne_true hprefix

/-- The loop gives up on the first mismatch after the first match: it has seen all that is below. -/
theorem extractLoop_eq {entries : List ZipEntry} (hsorted : Sorted entries) (h : MzPathHelper) :
    q.extractLoop entries false h = q.extractAll (entries.filter q.isBelow) h := by
  induction entries generalizing h with
  | nil => rfl
  | cons e rest ih =>
    by_cases he : q.isBelow e = true
    · rw [extractLoop_below q he, List.filter_cons_of_pos he, extractAll]
      simp only [extractLoop_seen, takeWhile_isBelow q hsorted he]
    · rw [List.filter_cons_of_neg he, ← ih (List.pairwise_cons.mp hsorted).2, extractLoop]
      simp only [Bool.not_eq_true] at he
      rw [he]
      rfl

/-! ### What was extracted -/

/-- The entries that are extracted as regular files. -/
def isFile (e : ZipEntry) : Bool := q.isBelow e && !isDirectory e && (q.flags.FILES_ONLY || !mzIsZipEntrySymlink e)

def isLink (e : ZipEntry) : Bool := q.isBelow e && !isDirectory e && !q.flags.FILES_ONLY && mzIsZipEntrySymlink e

def isDir (e : ZipEntry) : Bool := q.isBelow e && isDirectory e && !q.flags.FILES_ONLY

/-- A regular file is there: at its path, with exactly the data of the entry, and stamped if that was
asked for. -/
structure Extracted (z : Zlib) (map : Bytes) (e : ZipEntry) (s : Session) : Prop where
  path : s.path = q.path e
  data : z.data map e = some (written s.steps)
  stamped : q.timestamp = true → ⟨.utime (q.path e), true⟩ ∈ s.steps

/-- A link is there: its target is the data of the entry, up to a NUL. -/
def Linked (z : Zlib) (map : Bytes) (e : ZipEntry) (link : Bytes × Bytes) : Prop :=
  link.2 = q.path e ∧ ∃ d, z.data map e = some d ∧ link.1 = (CString.ofBytes d).bytes

/-- Every entry below `zipDir` has been extracted completely. -/
structure Complete (z : Zlib) (map : Bytes) (entries : List ZipEntry) (log : Log) : Prop where
  files : List.Forall₂ (q.Extracted z map) (entries.filter q.isFile) (sessions log)
  links : List.Forall₂ (q.Linked z map) (entries.filter q.isLink) (links log)
  dirs : ∀ e ∈ entries.filter q.isDir, DirMade q.timestamp log (q.path e ++ [slash])

/-- Extracting was meant, each file that was begun has data and none of its steps fails, and the
memory behind the data of a link is not taken for a part of its target. -/
structure Kept (z : Zlib) (map : Bytes) (entries : List ZipEntry) (log : Log) : Prop where
  meant : q.flags.DRY_RUN = true → ∀ e ∈ entries, ¬(q.isFile e || q.isLink e || q.isDir e)
  files : ∀ p ∈ (entries.filter q.isFile).zip (sessions log), z.data map p.1 ≠ none ∧ Flawless p.2.steps
  links : ∀ r ∈ residues log, CString.ofBytes (r.1 ++ r.2) = CString.ofBytes r.1

/-- The entries have been gone through. -/
structure Went (z : Zlib) (map : Bytes) (entries : List ZipEntry) (log : Log) : Prop where
  flawless : Flawless log
  files : List.Forall₂ (q.Extracted z map) (entries.filter q.isFile) (sessions log)
  read : List.Forall₂ (fun e r => z.data map e = some r.1) (entries.filter q.isLink) (residues log)
  links : links log = List.zipWith (fun e r => ((CString.ofBytes (r.1 ++ r.2)).bytes, q.path e)) (entries.filter q.isLink) (residues log)
  dirs : ∀ e ∈ entries.filter q.isDir, DirMade q.timestamp log (q.path e ++ [slash])

/-- The entries have been gone through up to a file that failed after it was created. -/
def Lost (z : Zlib) (map : Bytes) (entries : List ZipEntry) (log : Log) : Prop :=
  ∃ front e rest l l' s, entries = front ++ e :: rest ∧ log = l ++ l' ∧ q.Went z map front l ∧ Fresh l ∧ Fresh l' ∧ q.isFile e = true ∧
    sessions l' = [s] ∧ (¬Flawless s.steps ∨ z.data map e = none)

variable {q} {z : Zlib} {map : Bytes}

theorem went_nil : q.Went z map [] [] where
  flawless := flawless_nil
  files := .nil
  read := .nil
  links := rfl
  dirs := by simp

theorem Went.append {entries entries' : List ZipEntry} {l l' : Log} (h : q.Went z map entries l) (h' : q.Went z map entries' l') (hfresh : Fresh l') :
    q.Went z map (entries ++ entries') (l ++ l') where
  flawless := flawless_append.mpr ⟨h.flawless, h'.flawless⟩
  files := by
    rw [List.filter_append, sessions_append l hfresh]
    exact List.rel_append h.files h'.files
  read := by
    rw [List.filter_append, residues_append]
    exact List.rel_append h.read h'.read
  links := by
    rw [List.filter_append, residues_append, links_append, h.links, h'.links, List.zipWith_append h.read.length_eq]
  dirs := by
    rw [List.filter_append, List.forall_mem_append]
    constructor
    · exact fun e he => (h.dirs e he).mono fun s hs => List.mem_append_left _ hs
    · exact fun e he => (h'.dirs e he).mono fun s hs => List.mem_append_right _ hs

/-- Quiet steps that do not fail, for entries of which nothing is to be made. -/
theorem went_quiet {entries : List ZipEntry} {log : Log} (hflawless : Flawless log) (hquiet : ∀ s ∈ log, s.1.isQuiet = true)
    (hfiles : entries.filter q.isFile = []) (hlinks : entries.filter q.isLink = [])
    (hdirs : ∀ e ∈ entries.filter q.isDir, DirMade q.timestamp log (q.path e ++ [slash])) : q.Went z map entries log := by
  obtain ⟨hsessions, hlinks', hresidues⟩ := quiet_nothing hquiet
  refine ⟨hflawless, ?_, ?_, ?_, hdirs⟩
  · rw [hfiles, hsessions]
    exact .nil
  · rw [hlinks, hresidues]
    exact .nil
  · rw [hlinks, hlinks']
    rfl

/-- How the work on an entry ends. -/
def Outcome (q : Request) (z : Zlib) (map : Bytes) (e : ZipEntry) (l : Log) : Step → Prop
  | .go => q.Went z map [e] l
  | .stop true => q.isFile e = true ∧ ∃ s, sessions l = [s] ∧ (¬Flawless s.steps ∨ z.data map e = none)
  | .stop false => True

theorem isFetch_isQuiet (c : Call) (h : c.isFetch = true) : c.isQuiet = true := by
  cases c <;> first | rfl | cases h

theorem isFetch_isFileCall (c : Call) (h : c.isFetch = true) : c.isFileCall = true := by
  cases c <;> first | rfl | cases h

theorem dirCreateHierarchy_quiet (path : Bytes) (timestamp strip : Bool) : (dirCreateHierarchy path timestamp strip).All fun c => c.isQuiet = true :=
  all_dirCreateHierarchy path timestamp strip (fun _ => rfl) (fun _ => rfl) fun _ _ _ _ => ⟨rfl, rfl⟩

/-- The log of one file: nothing else is made. -/
theorem sessions_file (path : Bytes) {steps : Log} (hcalls : ∀ s ∈ steps, s.1.isQuiet = true ∧ (s.1.isFileCall = true ∨ s.1 = .hang)) :
    sessions (⟨.creat path, true⟩ :: steps) = [⟨path, steps⟩] ∧ links (⟨.creat path, true⟩ :: steps) = [] ∧
      residues (⟨.creat path, true⟩ :: steps) = [] := by
  obtain ⟨hsessions, hlinks, hresidues⟩ := quiet_nothing fun s hs => (hcalls s hs).1
  refine ⟨?_, hlinks, hresidues⟩
  rw [sessions_creat, hsessions, List.takeWhile_eq_self_iff.mpr]
  intro s hs
  rcases (hcalls s hs).2 with hfile | hhang
  · exact hfile
  · obtain ⟨c, r⟩ := s
    cases hhang
    exact r.elim

theorem extractFile_spec (z : Zlib) (map : Bytes) {e : ZipEntry} (he : q.isFile e = true) (hlink : q.isLink e = false) (hdir : q.isDir e = false) :
    (q.extractFile e).Post fun l r => z.Faithful map l → Fresh l ∧ q.Outcome z map e l r := by
  unfold extractFile
  refine Prog.post_check (logs_creat _) (Prog.post_pure fun _ => ⟨fresh_cons.mpr rfl, trivial⟩) ?_
  have hcalls : (mzExtractZipEntryToFile q.fuel e).All fun c => c.isQuiet = true ∧ (c.isFileCall = true ∨ c = .hang) := by
    apply all_mzExtractZipEntryToFile
    · exact fun c hc => ⟨isFetch_isQuiet c hc, .inl (isFetch_isFileCall c hc)⟩
    · exact ⟨rfl, .inr rfl⟩
    · exact fun _ => ⟨rfl, .inl rfl⟩
  refine Prog.post_bind ((Prog.post_all hcalls).and (mzExtractZipEntryToFile_spec z map q.fuel e)) fun lx ok hx => ?_
  obtain ⟨hcalls, hx⟩ := hx
  cases ok with
  | false =>
    apply Prog.post_pure
    intro hfaithful
    rw [List.append_nil] at hfaithful ⊢
    refine ⟨fresh_cons.mpr rfl, he, _, (sessions_file _ hcalls).1, ?_⟩
    exact hx fun s hs => hfaithful s (List.mem_cons_of_mem _ hs)
  | true =>
    refine Prog.post_bind (stamp_spec q.timestamp (q.path e)) fun ls ok hstamp => ?_
    have hsteps : ∀ s ∈ lx ++ ls, s.1.isQuiet = true ∧ (s.1.isFileCall = true ∨ s.1 = .hang) := by
      rw [List.forall_mem_append]
      refine ⟨hcalls, fun s hs => ?_⟩
      rw [hstamp.1] at hs
      split at hs
      · rw [List.mem_singleton.mp hs]
        exact ⟨rfl, .inl rfl⟩
      · exact absurd hs (by simp)
    obtain ⟨hsessions, hlinks, hresidues⟩ := sessions_file (q.path e) hsteps
    cases ok with
    | false =>
      apply Prog.post_pure
      intro _
      rw [List.append_nil]
      refine ⟨fresh_cons.mpr rfl, he, _, hsessions, .inl fun hall => ?_⟩
      have htimestamp : q.timestamp = true := by
        by_contra hnot
        exact Bool.false_ne_true (hstamp.2 (Bool.not_eq_true _ ▸ hnot))
      rw [hstamp.1, if_pos htimestamp] at hall
      exact absurd (hall ⟨.utime (q.path e), false⟩ (by simp)) (by simp [failed])
    | true =>
      apply Prog.post_pure
      intro hfaithful
      rw [List.append_nil] at hfaithful ⊢
      obtain ⟨hflawless, hdata⟩ := hx fun s hs => hfaithful s (by simp [hs])
      have hstampFlawless : Flawless ls := by
        rw [hstamp.1]
        split <;> simp [flawless_cons, flawless_nil, failed]
      have hstampWritten : written ls = [] := by
        rw [hstamp.1]
        split <;> rfl
      refine ⟨fresh_cons.mpr rfl, ?_, ?_, ?_, ?_, ?_⟩
      · exact flawless_cons.mpr ⟨rfl, flawless_append.mpr ⟨hflawless, hstampFlawless⟩⟩
      · rw [hsessions, List.filter_cons_of_pos he, List.filter_nil]
        refine .cons ⟨rfl, ?_, fun ht => ?_⟩ .nil
        · rw [written_append, hstampWritten, List.append_nil, hdata]
        · rw [hstamp.1, if_pos ht]
          simp
      · rw [hresidues, List.filter_cons_of_neg (by simp [hlink]), List.filter_nil]
        exact .nil
      · rw [hlinks, hresidues, List.zipWith_nil_right]
      · rw [List.filter_cons_of_neg (by simp [hdir]), List.filter_nil]
        simp

theorem extractSymlink_spec (z : Zlib) (map : Bytes) {e : ZipEntry} (he : q.isLink e = true) (hfile : q.isFile e = false) (hdir : q.isDir e = false) :
    (q.extractSymlink e).Post fun l r => z.Faithful map l → Fresh l ∧ q.Outcome z map e l r := by
  unfold extractSymlink
  refine Prog.post_ite (fun _ => Prog.post_pure fun _ => ⟨fresh_nil, trivial⟩) fun _ => ?_
  refine Prog.post_check (logs_malloc _) (Prog.post_pure fun _ => ⟨fresh_cons.mpr rfl, trivial⟩) ?_
  have hcalls : (mzReadZipEntry q.fuel e e.uncompLen).Post fun l _ => ∀ s ∈ l, s.1.isQuiet = true :=
    Prog.post_all (all_mzReadZipEntry isFetch_isQuiet rfl _ _ _)
  refine Prog.post_bind (hcalls.and (mzReadZipEntry_spec z map q.fuel e e.uncompLen)) fun lr r hr => ?_
  obtain ⟨hquiet, hr⟩ := hr
  cases r with
  | none => exact Prog.post_pure fun _ => ⟨fresh_cons.mpr rfl, trivial⟩
  | some copied =>
    refine Prog.post_ite (fun _ => ?_) fun _ => ?_
    · intro log a hrun
      cases hrun with
      | call r _ => exact r.elim
    refine Prog.post_call (logs_residue _ _) fun rest => ?_
    refine Prog.post_check (logs_symlink _ _) (Prog.post_pure fun _ => ⟨fresh_cons.mpr rfl, trivial⟩) ?_
    apply Prog.post_pure
    intro hfaithful
    obtain ⟨hflawless, hdata⟩ := hr (fun s hs => hfaithful s (by simp [hs])) copied rfl
    generalize hm : ((e.uncompLen + 1) % 4294967296).toNat = size
    generalize e.uncompLen.toNat - copied.length = count
    have hquiet' : ∀ s ∈ (⟨.malloc size, true⟩ :: lr : Log), s.1.isQuiet = true := List.forall_mem_cons.mpr ⟨rfl, hquiet⟩
    obtain ⟨hsessions, hlinks, hresidues⟩ := quiet_nothing hquiet'
    have htail : Fresh [⟨.residue copied count, rest⟩, ⟨.symlink (CString.ofBytes (copied ++ rest)).bytes (q.path e), true⟩] := fresh_cons.mpr rfl
    rw [← List.cons_append]
    refine ⟨fresh_cons.mpr rfl, ?_, ?_, ?_, ?_, ?_⟩
    · rw [flawless_append, flawless_cons]
      exact ⟨⟨rfl, hflawless⟩, by simp [flawless_cons, flawless_nil, failed]⟩
    · rw [sessions_append _ htail, hsessions, List.filter_cons_of_neg (by simp [hfile]), List.filter_nil]
      exact .nil
    · rw [residues_append, hresidues, List.filter_cons_of_pos he, List.filter_nil]
      exact .cons hdata .nil
    · rw [links_append, residues_append, hlinks, hresidues, List.filter_cons_of_pos he, List.filter_nil]
      rfl
    · rw [List.filter_cons_of_neg (by simp [hdir]), List.filter_nil]
      simp

/-- Steps in front for which nothing is to be made. -/
theorem Outcome.after {e : ZipEntry} {l l' : Log} {r : Step} (h : q.Outcome z map e l' r) (hl : q.Went z map [] l) (hfresh : Fresh l') :
    q.Outcome z map e (l ++ l') r := by
  cases r with
  | go => exact hl.append h hfresh
  | stop ok =>
    cases ok with
    | false => trivial
    | true =>
      obtain ⟨he, s, hs, hbad⟩ := h
      refine ⟨he, s, ?_, hbad⟩
      have hnone : sessions l = [] := List.forall₂_nil_left_iff.mp hl.files
      rw [sessions_append l hfresh, hnone, hs, List.nil_append]

theorem create_spec (z : Zlib) (map : Bytes) {e : ZipEntry} (he : q.isBelow e = true) :
    (q.create e).Post fun l r => z.Faithful map l → Fresh l ∧ q.Outcome z map e l r := by
  unfold create
  cases hdirectory : isDirectory e with
  | true =>
    have hfile : [e].filter q.isFile = [] := by simp [isFile, hdirectory]
    have hlink : [e].filter q.isLink = [] := by simp [isLink, hdirectory]
    rw [if_pos rfl]
    refine Prog.post_ite (fun honly => ?_) fun honly => ?_
    · apply Prog.post_pure
      intro _
      refine ⟨fresh_nil, went_quiet flawless_nil (by simp) hfile hlink ?_⟩
      simp [isDir, honly]
    · refine Prog.post_bind ((Prog.post_all (dirCreateHierarchy_quiet _ _ _)).and (dirCreateHierarchy_spec _ _ _)) fun l ok h => ?_
      obtain ⟨hquiet, hfresh, hmade⟩ := h
      cases ok with
      | false =>
        apply Prog.post_pure
        intro _
        rw [List.append_nil]
        exact ⟨hfresh, trivial⟩
      | true =>
        apply Prog.post_pure
        intro _
        rw [List.append_nil]
        obtain ⟨hflawless, hdir⟩ := hmade rfl
        refine ⟨hfresh, went_quiet hflawless hquiet hfile hlink fun e' he' => ?_⟩
        rw [List.mem_singleton.mp (List.mem_of_mem_filter he')]
        exact hdir rfl
  | false =>
    have hdir : q.isDir e = false := by simp [isDir, hdirectory]
    rw [if_neg Bool.false_ne_true]
    refine Prog.post_bind ((Prog.post_all (dirCreateHierarchy_quiet _ _ _)).and (dirCreateHierarchy_spec _ _ _)) fun l ok h => ?_
    obtain ⟨hquiet, hfresh, hmade⟩ := h
    cases ok with
    | false =>
      apply Prog.post_pure
      intro _
      rw [List.append_nil]
      exact ⟨hfresh, trivial⟩
    | true =>
      have hwent : q.Went z map [] l := went_quiet (hmade rfl).1 hquiet rfl rfl (by simp)
      rw [Bool.not_true, if_neg Bool.false_ne_true]
      refine Prog.post_ite (fun hlink => ?_) fun hlink => ?_
      · obtain ⟨honly, hsymlink⟩ := Bool.and_eq_true_iff.mp hlink
        have he' : q.isLink e = true := by simp_all [isLink]
        have hfile : q.isFile e = false := by simp_all [isFile]
        refine Prog.Post.mono (extractSymlink_spec z map he' hfile hdir) fun l' r h hfaithful => ?_
        obtain ⟨hfresh', houtcome⟩ := h fun s hs => hfaithful s (List.mem_append_right _ hs)
        exact ⟨hfresh.append hfresh', houtcome.after hwent hfresh'⟩
      · have he' : q.isFile e = true := by
          cases honly : q.flags.FILES_ONLY <;> cases hsymlink : mzIsZipEntrySymlink e <;> simp_all [isFile]
        have hnot : q.isLink e = false := by
          cases honly : q.flags.FILES_ONLY <;> cases hsymlink : mzIsZipEntrySymlink e <;> simp_all [isLink]
        refine Prog.Post.mono (extractFile_spec z map he' hnot hdir) fun l' r h hfaithful => ?_
        obtain ⟨hfresh', houtcome⟩ := h fun s hs => hfaithful s (List.mem_append_right _ hs)
        exact ⟨hfresh.append hfresh', houtcome.after hwent hfresh'⟩

theorem notify_spec (z : Zlib) (map : Bytes) (e : ZipEntry) : (q.notify e).Post fun l _ => Fresh l ∧ q.Went z map [] l := by
  refine Prog.post_ite (fun _ => ?_) fun _ => Prog.post_pure ⟨fresh_nil, went_nil⟩
  refine (logs_callback (q.path e)).mono fun l _ hl => ?_
  rw [hl]
  exact ⟨fresh_cons.mpr rfl, went_quiet (by simp [flawless_cons, flawless_nil, failed]) (by simp [Call.isQuiet]) rfl rfl (by simp)⟩

theorem extractEntry_spec (z : Zlib) (map : Bytes) {e : ZipEntry} (hdry : q.flags.DRY_RUN = false) (he : q.isBelow e = true) :
    (q.extractEntry e).Post fun l r => z.Faithful map l → Fresh l ∧ q.Outcome z map e l r := by
  unfold extractEntry
  rw [hdry, if_neg Bool.false_ne_true]
  refine Prog.post_bind (create_spec z map he) fun l r h => ?_
  cases r with
  | stop ok =>
    apply Prog.post_pure
    intro hfaithful
    rw [List.append_nil] at hfaithful ⊢
    exact h hfaithful
  | go =>
    refine Prog.post_bind (notify_spec z map e) fun l' _ hnotify => ?_
    apply Prog.post_pure
    intro hfaithful
    obtain ⟨hfresh, hwent⟩ := h fun s hs => hfaithful s (by simp [hs])
    rw [List.append_nil]
    exact ⟨hfresh.append hnotify.1, hwent.append hnotify.2 hnotify.1⟩

theorem targetEntryPath_spec (h : MzPathHelper) (e : ZipEntry) :
    (q.targetEntryPath h e).Post fun l r => Fresh l ∧ (∀ s ∈ l, s.1.isQuiet = true) ∧ (r.isSome → Flawless l) := by
  refine Prog.post_ite (fun _ => ?_) fun _ => Prog.post_pure ⟨fresh_nil, by simp, fun _ => flawless_nil⟩
  refine Prog.post_check (logs_malloc _) (Prog.post_pure ?_) (Prog.post_pure ?_)
  · exact ⟨fresh_cons.mpr rfl, by simp [Call.isQuiet], fun h => nomatch h⟩
  · exact ⟨fresh_cons.mpr rfl, by simp [Call.isQuiet], fun _ => by simp [flawless_cons, flawless_nil, failed]⟩

/-- The loop returns `true` when all went well, and when a file failed after it was created. -/
theorem extractAll_spec {entries : List ZipEntry} (hdry : q.flags.DRY_RUN = false) (hbelow : ∀ e ∈ entries, q.isBelow e = true) (h : MzPathHelper) :
    (q.extractAll entries h).Post fun log ok => z.Faithful map log → Fresh log ∧
      (ok = true → q.Went z map entries log ∨ q.Lost z map entries log) := by
  induction entries generalizing h with
  | nil => exact Prog.post_pure fun _ => ⟨fresh_nil, fun _ => .inl went_nil⟩
  | cons e rest ih =>
    obtain ⟨he, hrest⟩ := List.forall_mem_cons.mp hbelow
    rw [extractAll]
    refine Prog.post_bind (targetEntryPath_spec h e) fun lt r hpath => ?_
    obtain ⟨hfresh, hquiet, hpath⟩ := hpath
    cases r with
    | none =>
      apply Prog.post_pure
      intro _
      rw [List.append_nil]
      exact ⟨hfresh, fun h => nomatch h⟩
    | some h' =>
      have hwent : q.Went z map [] lt := went_quiet (hpath rfl) hquiet rfl rfl (by simp)
      refine Prog.post_bind (extractEntry_spec z map hdry he) fun le r hentry => ?_
      cases r with
      | stop ok =>
        apply Prog.post_pure
        intro hfaithful
        rw [List.append_nil] at hfaithful ⊢
        obtain ⟨hfresh', houtcome⟩ := hentry fun s hs => hfaithful s (List.mem_append_right _ hs)
        refine ⟨hfresh.append hfresh', fun hok => ?_⟩
        subst hok
        obtain ⟨hfile, s, hs, hbad⟩ := houtcome
        exact .inr ⟨[], e, rest, lt, le, s, rfl, rfl, hwent, hfresh, hfresh', hfile, hs, hbad⟩
      | go =>
        refine Prog.Post.mono (ih hrest h') fun lr ok hloop hfaithful => ?_
        obtain ⟨hfresh', houtcome⟩ := hentry fun s hs => hfaithful s (by simp [hs])
        obtain ⟨hfresh'', hloop⟩ := hloop fun s hs => hfaithful s (by simp [hs])
        have hgone : q.Went z map [e] (lt ++ le) := hwent.append houtcome hfresh'
        rw [← List.append_assoc]
        refine ⟨(hfresh.append hfresh').append hfresh'', fun hok => ?_⟩
        rcases hloop hok with hall | ⟨front, e', rest', l, l', s, hentries, hlog, hfront, hfreshl, hfreshl', hfile, hs, hbad⟩
        · exact .inl (hgone.append hall hfresh'')
        · refine .inr ⟨e :: front, e', rest', lt ++ le ++ l, l', s, ?_, ?_, hgone.append hfront hfreshl, ?_, hfreshl', hfile, hs, hbad⟩
          · rw [hentries, List.cons_append]
          · rw [hlog, ← List.append_assoc (lt ++ le)]
          · exact (hfresh.append hfresh').append hfreshl

/-! ### The whole run -/

theorem steps_subset {log : Log} {s : Session} (h : s ∈ sessions log) : ∀ step ∈ s.steps, step ∈ log := by
  induction log with
  | nil => exact absurd h (by simp [sessions])
  | cons step log ih =>
    obtain ⟨c, r⟩ := step
    by_cases hcreat : ∃ path, c = .creat path
    · obtain ⟨path, rfl⟩ := hcreat
      cases r with
      | false => exact fun step hstep => List.mem_cons_of_mem _ (ih h step hstep)
      | true =>
        rcases List.mem_cons.mp (sessions_creat path log ▸ h) with rfl | h
        · exact fun step hstep => List.mem_cons_of_mem _ ((List.takeWhile_sublist _).mem hstep)
        · exact fun step hstep => List.mem_cons_of_mem _ (ih h step hstep)
    · rw [sessions_cons fun path hpath => hcreat ⟨path, hpath⟩] at h
      exact fun step hstep => List.mem_cons_of_mem _ (ih h step hstep)

/-- Links are right when what stands behind their data in memory does not count. -/
theorem linked_iff {es : List ZipEntry} {rs : List (Bytes × Bytes)} (h : List.Forall₂ (fun e r => z.data map e = some r.1) es rs) :
    List.Forall₂ (q.Linked z map) es (List.zipWith (fun e r => ((CString.ofBytes (r.1 ++ r.2)).bytes, q.path e)) es rs) ↔
      ∀ r ∈ rs, CString.ofBytes (r.1 ++ r.2) = CString.ofBytes r.1 := by
  induction h with
  | nil => simp
  | @cons e r es rs hdata _ ih =>
    rw [List.zipWith_cons_cons, List.forall₂_cons, List.forall_mem_cons, ih]
    refine and_congr_left fun _ => ?_
    constructor
    · intro ⟨_, d, hd, htarget⟩
      rw [hdata] at hd
      obtain rfl := Option.some.inj hd
      exact CString.ext htarget
    · intro heq
      exact ⟨rfl, r.1, hdata, by rw [heq]⟩

/-- When all entries were gone through, they are extracted if the links are right. -/
theorem Went.complete_iff {entries : List ZipEntry} {log : Log} (h : q.Went z map entries log) (hdry : q.flags.DRY_RUN = false) :
    (Flawless log ∧ q.Complete z map entries log) ↔ q.Kept z map entries log := by
  have hlinks := linked_iff (q := q) h.read
  rw [← h.links] at hlinks
  constructor
  · intro ⟨_, hcomplete⟩
    refine ⟨fun hd => ?_, fun p hp => ?_, hlinks.mp hcomplete.links⟩
    · rw [hdry] at hd
      cases hd
    · have hextracted := List.forall₂_zip h.files hp
      refine ⟨by rw [hextracted.data]; simp, fun step hstep => h.flawless step ?_⟩
      exact steps_subset (List.of_mem_zip hp).2 step hstep
  · intro hkept
    exact ⟨h.flawless, h.files, hlinks.mpr hkept.links, h.dirs⟩

/-- The files hold the data of the entries. -/
theorem Complete.contents {entries : List ZipEntry} {log : Log} (h : q.Complete z map entries log) :
    (entries.filter q.isFile).map (z.data map) = (sessions log).map fun s => some (written s.steps) := by
  have hfiles := h.files
  generalize entries.filter q.isFile = es at hfiles
  generalize sessions log = ss at hfiles
  induction hfiles with
  | nil => rfl
  | cons hextracted _ ih => rw [List.map_cons, List.map_cons, hextracted.data, ih]

/-- A file that failed after it was created is not extracted, and its failure not reported. -/
theorem Lost.not_complete {entries : List ZipEntry} {log : Log} (h : q.Lost z map entries log) :
    ¬(Flawless log ∧ q.Complete z map entries log) ∧ ¬q.Kept z map entries log := by
  obtain ⟨front, e, rest, l, l', s, rfl, rfl, hwent, -, hfresh, hfile, hs, hbad⟩ := h
  have hsessions : sessions (l ++ l') = sessions l ++ [s] := by rw [sessions_append l hfresh, hs]
  have hfiles : (front ++ e :: rest).filter q.isFile = front.filter q.isFile ++ e :: rest.filter q.isFile := by
    rw [List.filter_append, List.filter_cons_of_pos hfile]
  constructor
  · intro ⟨hflawless, hcomplete⟩
    rcases hbad with hfailed | hnone
    · apply hfailed
      intro step hstep
      exact hflawless step (steps_subset (by rw [hsessions]; simp) step hstep)
    · have hall := hcomplete.files
      rw [hfiles] at hall
      obtain ⟨s', hs'⟩ : ∃ s', q.Extracted z map e s' := by
        obtain ⟨i, hi, hget⟩ := List.getElem_of_mem (show e ∈ front.filter q.isFile ++ e :: rest.filter q.isFile by simp)
        have := (List.forall₂_iff_get.mp hall).2 i hi (by rw [← hall.length_eq]; exact hi)
        rw [List.get_eq_getElem, hget] at this
        exact ⟨_, this⟩
      rw [hs'.data] at hnone
      cases hnone
  · intro hkept
    have hmem : (e, s) ∈ ((front ++ e :: rest).filter q.isFile).zip (sessions (l ++ l')) := by
      rw [hfiles, hsessions, List.zip_append hwent.files.length_eq]
      simp
    obtain ⟨hdata, hsteps⟩ := hkept.files (e, s) hmem
    rcases hbad with hfailed | hnone
    · exact hfailed hsteps
    · exact hdata hnone

/-- The calls of a dry run. -/
def isDryCall : Call → Bool
  | .malloc _ => true
  | .callback _ => true
  | _ => false

theorem dryRun_spec {entries : List ZipEntry} (hdry : q.flags.DRY_RUN = true) (h : MzPathHelper) :
    (q.extractAll entries h).Post fun log ok => (∀ s ∈ log, isDryCall s.1 = true) ∧ (ok = true → Flawless log) := by
  induction entries generalizing h with
  | nil => exact Prog.post_pure ⟨by simp, fun _ => flawless_nil⟩
  | cons e rest ih =>
    rw [extractAll]
    have hpath : (q.targetEntryPath h e).All fun c => isDryCall c = true := by
      refine Prog.all_ite (fun _ => Prog.all_bind (Prog.all_ask rfl) fun ok => ?_) fun _ => Prog.all_pure _
      exact Prog.all_ite (fun _ => Prog.all_pure _) fun _ => Prog.all_pure _
    refine Prog.post_bind ((Prog.post_all hpath).and (targetEntryPath_spec h e)) fun lt r hl => ?_
    obtain ⟨hcalls, -, -, hflawless⟩ := hl
    cases r with
    | none =>
      apply Prog.post_pure
      rw [List.append_nil]
      exact ⟨hcalls, fun h => nomatch h⟩
    | some h' =>
      have hentry : (q.extractEntry e).Post fun l r => (∀ s ∈ l, isDryCall s.1 = true) ∧ Flawless l ∧ r = .go := by
        unfold extractEntry notify
        rw [hdry, if_pos rfl]
        cases q.callback with
        | false => exact Prog.post_pure ⟨by simp, flawless_nil, rfl⟩
        | true =>
          refine Prog.post_call (logs_callback _) fun _ => Prog.post_pure ⟨by simp [isDryCall], ?_, rfl⟩
          simp [flawless_cons, flawless_nil, failed]
      refine Prog.post_bind hentry fun le r hl => ?_
      obtain ⟨hcalls', hflawless', rfl⟩ := hl
      refine Prog.Post.mono (ih h') fun lr ok hrest => ?_
      constructor
      · rw [List.forall_mem_append, List.forall_mem_append]
        exact ⟨hcalls, hcalls', hrest.1⟩
      · intro hok
        rw [flawless_append, flawless_append]
        exact ⟨hflawless rfl, hflawless', hrest.2 hok⟩

/-- A dry run extracts nothing. -/
theorem dryRun_complete_iff {entries : List ZipEntry} {log : Log} (hdry : q.flags.DRY_RUN = true) (hcalls : ∀ s ∈ log, isDryCall s.1 = true)
    (hflawless : Flawless log) : (Flawless log ∧ q.Complete z map entries log) ↔ q.Kept z map entries log := by
  have hquiet : ∀ s ∈ log, s.1.isQuiet = true := by
    intro s hs
    have := hcalls s hs
    obtain ⟨c, r⟩ := s
    cases c <;> first | rfl | cases this
  obtain ⟨hsessions, hlinks, hresidues⟩ := quiet_nothing hquiet
  constructor
  · intro ⟨_, hcomplete⟩
    have hfiles := hcomplete.files
    have hlinked := hcomplete.links
    rw [hsessions, List.forall₂_nil_right_iff, List.filter_eq_nil_iff] at hfiles
    rw [hlinks, List.forall₂_nil_right_iff, List.filter_eq_nil_iff] at hlinked
    refine ⟨fun _ e he => ?_, by simp [hsessions], by simp [hresidues]⟩
    have hdir : q.isDir e = false := by
      by_contra hdir
      rw [Bool.not_eq_false] at hdir
      obtain ⟨ds, hstat, -⟩ := hcomplete.dirs e (List.mem_filter.mpr ⟨he, hdir⟩)
      exact absurd (hcalls _ hstat) (by simp [isDryCall])
    simp [hfiles e he, hlinked e he, hdir]
  · intro hkept
    have hnone : ∀ e ∈ entries, q.isFile e = false ∧ q.isLink e = false ∧ q.isDir e = false := by
      intro e he
      have := hkept.meant hdry e he
      simp only [Bool.or_eq_true, not_or, Bool.not_eq_true] at this
      exact ⟨this.1.1, this.1.2, this.2⟩
    refine ⟨hflawless, ?_, ?_, ?_⟩
    · rw [hsessions, List.forall₂_nil_right_iff, List.filter_eq_nil_iff]
      exact fun e he => by simp [(hnone e he).1]
    · rw [hlinks, List.forall₂_nil_right_iff, List.filter_eq_nil_iff]
      exact fun e he => by simp [(hnone e he).2.1]
    · intro e he
      obtain ⟨hmem, hdir⟩ := List.mem_filter.mp he
      rw [(hnone e hmem).2.2] at hdir
      cases hdir

theorem filter_below {p : ZipEntry → Bool} (h : ∀ e, p e = true → q.isBelow e = true) (entries : List ZipEntry) :
    (entries.filter q.isBelow).filter p = entries.filter p := by
  rw [List.filter_filter]
  apply List.filter_congr
  intro e _
  cases hp : p e with
  | false => rfl
  | true => rw [h e hp]; rfl

theorem complete_filter {entries : List ZipEntry} {log : Log} :
    q.Complete z map (entries.filter q.isBelow) log ↔ q.Complete z map entries log := by
  have hfile := filter_below (q := q) (p := q.isFile) (fun e h => by simp_all [isFile]) entries
  have hlink := filter_below (q := q) (p := q.isLink) (fun e h => by simp_all [isLink]) entries
  have hdir := filter_below (q := q) (p := q.isDir) (fun e h => by simp_all [isDir]) entries
  constructor
  · intro ⟨hfiles, hlinks, hdirs⟩
    rw [hfile] at hfiles
    rw [hlink] at hlinks
    rw [hdir] at hdirs
    exact ⟨hfiles, hlinks, hdirs⟩
  · intro ⟨hfiles, hlinks, hdirs⟩
    rw [← hfile] at hfiles
    rw [← hlink] at hlinks
    rw [← hdir] at hdirs
    exact ⟨hfiles, hlinks, hdirs⟩

theorem kept_filter {entries : List ZipEntry} {log : Log} : q.Kept z map (entries.filter q.isBelow) log ↔ q.Kept z map entries log := by
  have hfile := filter_below (q := q) (p := q.isFile) (fun e h => by simp_all [isFile]) entries
  constructor
  · intro ⟨hmeant, hfiles, hlinks⟩
    rw [hfile] at hfiles
    refine ⟨fun hdry e he hany => ?_, hfiles, hlinks⟩
    have hbelow : q.isBelow e = true := by
      simp only [isFile, isLink, isDir, Bool.or_eq_true, Bool.and_eq_true] at hany
      tauto
    exact hmeant hdry e (List.mem_filter.mpr ⟨he, hbelow⟩) hany
  · intro ⟨hmeant, hfiles, hlinks⟩
    rw [← hfile] at hfiles
    exact ⟨fun hdry e he => hmeant hdry e (List.mem_of_mem_filter he), hfiles, hlinks⟩

end Request

/-- A run that returns `true` has gone through the loop, after one block of memory. -/
theorem runs_extractAll {archive : ZipArchive} (hsorted : Sorted archive.entries) {zipDir targetDir : CString} {flags : Flags} {timestamp callback : Bool}
    {fuel : Nat} {log : Log} (hrun : (mzExtractRecursive archive zipDir targetDir flags timestamp callback fuel).Runs log true) :
    ∃ l, log = ⟨.malloc (zipDir.length + 2), true⟩ :: l ∧
      ((request zipDir targetDir flags timestamp callback fuel).extractAll
        (archive.entries.filter (request zipDir targetDir flags timestamp callback fuel).isBelow) ⟨false, targetDir.length, 0⟩).Runs l true := by
  unfold mzExtractRecursive at hrun
  split at hrun
  · exact absurd (Prog.runs_pure.mp hrun).2 (by simp)
  split at hrun
  · exact absurd (Prog.runs_pure.mp hrun).2 (by simp)
  rw [Request.extractLoop_eq _ hsorted] at hrun
  cases hrun with
  | call ok hrun =>
    cases ok with
    | false => exact absurd (Prog.runs_pure.mp hrun).2 (by simp)
    | true => exact ⟨_, rfl, hrun⟩

/-- What a run that returns `true` was: a dry run, or it went through the entries below `zipDir`, to
the end or up to a file that failed after it was created. -/
theorem runs_true {z : Zlib} {map : Bytes} {archive : ZipArchive} (hopen : mzOpenZipArchive map = some archive)
    {zipDir targetDir : CString} {flags : Flags} {timestamp callback : Bool} {fuel : Nat} {log : Log} {q : Request}
    (hq : request zipDir targetDir flags timestamp callback fuel = q)
    (hrun : (mzExtractRecursive archive zipDir targetDir flags timestamp callback fuel).Runs log true) (hfaithful : z.Faithful map log) :
    (q.flags.DRY_RUN = true ∧ (∀ s ∈ log, Request.isDryCall s.1 = true) ∧ Flawless log) ∨
      (q.flags.DRY_RUN = false ∧ q.Went z map (archive.entries.filter q.isBelow) log) ∨ q.Lost z map (archive.entries.filter q.isBelow) log := by
  obtain ⟨_, _, _, _, hopened⟩ := mzOpenZipArchive_opened hopen
  obtain ⟨l, rfl, hall⟩ := runs_extractAll hopened.arranged.sorted hrun
  rw [hq] at hall
  have hfaithful' : z.Faithful map l := fun s hs => hfaithful s (List.mem_cons_of_mem _ hs)
  cases hdry : q.flags.DRY_RUN with
  | true =>
    obtain ⟨hcalls, hflawless⟩ := Request.dryRun_spec hdry _ _ _ hall
    exact .inl ⟨rfl, List.forall_mem_cons.mpr ⟨rfl, hcalls⟩, flawless_cons.mpr ⟨rfl, hflawless rfl⟩⟩
  | false =>
    have hbelow : ∀ e ∈ archive.entries.filter q.isBelow, q.isBelow e = true := fun e he => (List.mem_filter.mp he).2
    obtain ⟨hfresh, hloop⟩ := Request.extractAll_spec hdry hbelow _ _ _ hall hfaithful'
    have hmalloc : q.Went z map [] [⟨.malloc (zipDir.length + 2), true⟩] :=
      Request.went_quiet (by simp [flawless_cons, flawless_nil, failed]) (by simp [Call.isQuiet]) rfl rfl (by simp)
    rcases hloop rfl with hall | ⟨front, e, rest, l₁, l₂, s, hentries, hlog, hfront, hfresh₁, hfresh₂, hfile, hs, hbad⟩
    · exact .inr (.inl ⟨rfl, hmalloc.append hall hfresh⟩)
    · refine .inr (.inr ⟨front, e, rest, _ :: l₁, l₂, s, hentries, ?_, hmalloc.append hfront hfresh₁, fresh_cons.mpr rfl, hfresh₂, hfile, hs, hbad⟩)
      rw [hlog]
      rfl

instance (log : Log) : Decidable (Flawless log) := inferInstanceAs (Decidable (∀ s ∈ log, failed s = false))

/-- An archive with stored entries. -/
def pack (items : List (Bytes × Bytes)) : Bytes :=
  let locals := items.map fun (name, data) => le32 LOCSIG ++ List.replicate 22 0 ++ le16 name.length ++ le16 0 ++ name ++ data
  let offsets := locals.inits.map fun front => front.flatten.length
  let central := (items.zip offsets).map fun ((name, data), offset) =>
    le32 CENSIG ++ List.replicate 16 0 ++ le32 data.length ++ le32 data.length ++ le16 name.length ++ List.replicate 12 0 ++ le32 offset ++ name
  locals.flatten ++ central.flatten ++ le32 ENDSIG ++ le32 0 ++ le16 items.length ++ le16 items.length ++
    le32 central.flatten.length ++ le32 locals.flatten.length ++ le16 0

/-- An inflater that is not asked. -/
def noZlib : Zlib := ⟨fun _ => none, fun _ _ _ h => nomatch h⟩

/-- All goes well, but for the writes, which take so many bytes; directories are there. -/
def answers (map : Bytes) (writes : Bytes → Option Nat) : (c : Call) → Option (Answer c)
  | .malloc _ => some true
  | .stat _ => some DirStatus.DDIR
  | .mkdir _ => some true
  | .utime _ => some true
  | .creat _ => some true
  | .read pos count => some (some ((map.drop pos).take count))
  | .inflateInit => some true
  | .inflate _ _ _ => some ⟨0, [], .error⟩
  | .write data => some (writes data)
  | .residue _ count => some (List.replicate count 0)
  | .symlink _ _ => some true
  | .callback _ => some ()
  | _ => none

theorem faithful_answers {map : Bytes} {writes : Bytes → Option Nat} {log : Log} (h : ∀ s ∈ log, answers map writes s.1 = some s.2) :
    noZlib.Faithful map log := by
  intro s hs
  have hanswer := h s hs
  obtain ⟨c, r⟩ := s
  cases c with
  | read pos count =>
    obtain rfl := Option.some.inj hanswer
    intro buf hbuf
    obtain rfl := Option.some.inj hbuf
    exact List.prefix_refl _
  | inflate fed made room =>
    obtain rfl := Option.some.inj hanswer
    intro hend
    cases hend
  | _ => trivial

/-- An archive with the file `a`, which holds `hi`. -/
def sample : Bytes := pack [([0x61], [0x68, 0x69])]

/-- Extracting the whole of an archive to `/t`. -/
def sampleRun (map : Bytes) (writes : Bytes → Option Nat) : Option (Log × Bool) :=
  (mzOpenZipArchive map).bind fun archive =>
    (mzExtractRecursive archive "" "/t" ⟨true, false⟩ true false 0).follow (answers map writes)

theorem sampleRun_runs {map : Bytes} {writes : Bytes → Option Nat} (hopen : (mzOpenZipArchive map).isSome = true)
    (hrun : (sampleRun map writes).isSome = true) (htrue : ((sampleRun map writes).get hrun).2 = true) :
    mzOpenZipArchive map = some ((mzOpenZipArchive map).get hopen) ∧
      (mzExtractRecursive ((mzOpenZipArchive map).get hopen) "" "/t" ⟨true, false⟩ true false 0).Runs ((sampleRun map writes).get hrun).1 true ∧
      noZlib.Faithful map ((sampleRun map writes).get hrun).1 := by
  obtain ⟨archive, harchive, hfollow⟩ := Option.bind_eq_some_iff.mp (Option.some_get hrun).symm
  obtain ⟨hruns, hanswers⟩ := Prog.runs_follow hfollow
  rw [htrue] at hruns
  rw [Option.get_of_eq_some hopen harchive]
  exact ⟨harchive, hruns, faithful_answers hanswers⟩

end Twrp.Zip
