import Twrp.Updater.Install

/-! Aborts inside the arguments of the updater's functions.

Where an argument of a function aborts, the function is to return NULL at once: no later
argument is evaluated, and nothing is done to files, partitions or the command pipe. All
functions keep to this but three, which misuse memory where a later argument aborts
(`quietAt_registered`). -/
namespace Twrp.Updater
open Base Edify

section Steps
variable (n : Nat) {α : Type}

/-- A part of a function that evaluates no argument. -/
theorem quietAt_bind {x : Step α} (hx : NoArgs x) {f : α → Step (Option Value)} (hf : ∀ a, QuietAt n (f a)) :
    QuietAt n (x >>= f) := by
  induction x with
  | done a => exact hf a
  | call q k ih =>
    cases q with
    | value i => exact hx.1.elim
    | string i => exact hx.1.elim
    | say m => exact ih () (hx.2 ())
    | act e => exact fun r => ih r (hx.2 r)
    | undefined => trivial

theorem noArgs_bind {β : Type} {x : Step α} {f : α → Step β} (hx : NoArgs x) (hf : ∀ a, NoArgs (f a)) :
    NoArgs (x >>= f) := Prog.all_bind hx hf

theorem noArgs_perform (e : Act) : NoArgs (perform e) := Prog.all_ask trivial

theorem noArgs_log (parts : List CString) : NoArgs (log parts) := Prog.all_ask trivial

theorem noArgs_logIf (c : Bool) (parts : List CString) : NoArgs (logIf c parts) :=
  Prog.all_ite (fun _ => noArgs_log parts) fun _ => trivial

theorem noArgs_logFailure (failed : Option Errno) (parts : CString → List CString) : NoArgs (logFailure failed parts) := by
  cases failed with
  | some e => exact noArgs_log (parts e.text)
  | none => trivial

end Steps

/-! ### Mounting and formatting -/

section Mount
variable (n : Nat) (site : Site)

theorem quietAt_mountFn : QuietAt n (mountFn site) := by
  refine quietAt_ite n trivial (quietAt_readArgs n rfl fun args hargs => ?_)
  match args, hargs with
  | [fs_type, partition_type, location, mount_point], _ =>
    refine quietAt_ite n trivial (quietAt_ite n trivial (quietAt_ite n trivial (quietAt_ite n trivial ?_)))
    refine quietAt_bind n (noArgs_perform _) fun _ => quietAt_ite n ?_ ?_
    · refine quietAt_bind n (noArgs_perform _) fun _ => quietAt_ite n trivial ?_
      refine quietAt_bind n (noArgs_perform _) fun failed => ?_
      cases failed <;> trivial
    · refine quietAt_bind n (noArgs_perform _) fun failed => ?_
      cases failed <;> trivial

theorem quietAt_isMountedFn : QuietAt n (isMountedFn site) := by
  refine quietAt_ite n trivial (quietAt_readArgs n rfl fun args hargs => ?_)
  match args, hargs with
  | [mount_point], _ => exact quietAt_ite n trivial fun _ => trivial

theorem quietAt_unmountFn : QuietAt n (unmountFn site) := by
  refine quietAt_ite n trivial (quietAt_readArgs n rfl fun args hargs => ?_)
  match args, hargs with
  | [mount_point], _ =>
    refine quietAt_ite n trivial (quietAt_bind n (noArgs_perform _) fun _ => ?_)
    exact quietAt_ite n trivial fun _ => trivial

theorem quietAt_formatMtd (location : CString) : QuietAt n (formatMtd site location) := by
  refine quietAt_bind n (noArgs_perform _) fun _ => quietAt_ite n trivial ?_
  refine quietAt_bind n (noArgs_perform _) fun _ => quietAt_ite n trivial ?_
  refine quietAt_bind n (noArgs_perform _) fun _ => quietAt_bind n (noArgs_perform _) fun _ => ?_
  exact quietAt_ite n trivial (quietAt_ite n trivial trivial)

theorem quietAt_formatFn (ext4 : Bool) : QuietAt n (formatFn ext4 site) := by
  refine quietAt_ite n trivial (quietAt_readArgs n rfl fun args hargs => ?_)
  match args, hargs with
  | [fs_type, partition_type, location, fs_size, mount_point], _ =>
    refine quietAt_ite n trivial (quietAt_ite n trivial (quietAt_ite n trivial (quietAt_ite n trivial ?_)))
    refine quietAt_ite n (quietAt_formatMtd n site location) (quietAt_ite n ?_ trivial)
    exact quietAt_bind n (noArgs_perform _) fun (status : Int) => quietAt_ite n trivial trivial

end Mount

/-! ### Files -/

section Files
variable (n : Nat) (site : Site)

theorem noArgs_deletePaths (recursive : Bool) (paths : List CString) : NoArgs (deletePaths recursive paths) := by
  induction paths with
  | nil => trivial
  | cons path rest ih =>
    unfold deletePaths
    cases recursive with
    | true => exact noArgs_bind (noArgs_perform _) fun _ => noArgs_bind ih fun _ => trivial
    | false => exact noArgs_bind (noArgs_perform _) fun _ => noArgs_bind ih fun _ => trivial

theorem quietAt_packageExtractDirFn : QuietAt n (packageExtractDirFn site) := by
  refine quietAt_ite n trivial (quietAt_readArgs n rfl fun args hargs => ?_)
  match args, hargs with
  | [zip_path, dest_path], _ => exact fun _ => trivial

theorem quietAt_extractToFile (zip_path dest_path : CString) : QuietAt n (extractToFile site zip_path dest_path) := by
  refine quietAt_bind n (noArgs_perform _) fun _ => quietAt_ite n trivial ?_
  refine quietAt_bind n (noArgs_perform _) fun failed => ?_
  cases failed with
  | some e => trivial
  | none => exact fun _ => trivial

theorem quietAt_packageExtractFileFn : QuietAt n (packageExtractFileFn site) := by
  refine quietAt_ite n trivial (quietAt_ite n ?_ ?_)
  · refine quietAt_readArgs n rfl fun args hargs => ?_
    match args, hargs with
    | [zip_path, dest_path], _ => exact quietAt_extractToFile n site zip_path dest_path
  · refine quietAt_readArgs n rfl fun args hargs => ?_
    match args, hargs with
    | [zip_path], _ =>
      exact quietAt_bind n (noArgs_perform _) fun _ => quietAt_ite n trivial fun _ => trivial

theorem noArgs_makeParents (depth : Nat) (name : List UInt8) : NoArgs (makeParents depth name) := by
  induction depth generalizing name with
  | zero => trivial
  | succ depth ih =>
    unfold makeParents
    cases parent name with
    | none => trivial
    | some dir =>
      refine noArgs_bind (ih dir) fun ok => Prog.all_ite (fun _ => trivial) fun _ => ?_
      refine noArgs_bind (noArgs_perform _) fun failed => ?_
      cases failed with
      | none => exact noArgs_bind (noArgs_log _) fun _ => trivial
      | some e => exact Prog.all_ite (fun _ => trivial) fun _ => noArgs_bind (noArgs_log _) fun _ => trivial

theorem noArgs_symlinkOne (target src : CString) : NoArgs (symlinkOne site target src) := by
  refine noArgs_bind (noArgs_perform _) fun kept => noArgs_bind (noArgs_logIf _ _) fun _ => ?_
  refine noArgs_bind (noArgs_makeParents _ _) fun parents => noArgs_bind (noArgs_logIf _ _) fun _ => ?_
  exact noArgs_bind (noArgs_perform _) fun failed => noArgs_bind (noArgs_logFailure _ _) fun _ => trivial

theorem noArgs_symlinkAll (target : CString) (srcs : List CString) : NoArgs (symlinkAll site target srcs) := by
  induction srcs with
  | nil => trivial
  | cons src rest ih => exact noArgs_bind (noArgs_symlinkOne site target src) fun _ => noArgs_bind ih fun _ => trivial

theorem quietAt_symlinkFn : QuietAt n (symlinkFn site) := by
  refine quietAt_ite n trivial (quietAt_evaluate n 0 fun target => ?_)
  refine quietAt_readArgs n rfl fun srcs _ => ?_
  exact quietAt_bind n (noArgs_symlinkAll site target srcs) fun _ => quietAt_ite n trivial trivial

end Files

/-! ### Permissions and metadata -/

section Perms
variable (n : Nat) (site : Site)

theorem quietAt_permNumbers (args : List (CString × CString)) {f : List Int → Step (Option Value)}
    (hf : ∀ values, QuietAt n (f values)) : QuietAt n (permNumbers site args f) := by
  induction args generalizing f with
  | nil => exact hf []
  | cons arg rest ih =>
    unfold permNumbers
    cases wholeUl arg.1 with
    | none => trivial
    | some value => exact ih fun values => hf (value :: values)

theorem noArgs_setHierarchies (uid gid dir_mode file_mode : Int) (paths : List CString) :
    NoArgs (setHierarchies uid gid dir_mode file_mode paths) := by
  induction paths with
  | nil => trivial
  | cons path rest ih => exact noArgs_bind (noArgs_perform _) fun _ => ih

theorem noArgs_setPerms (uid gid mode : Int) (paths : List CString) : NoArgs (setPerms site uid gid mode paths) := by
  induction paths with
  | nil => trivial
  | cons path rest ih =>
    refine noArgs_bind (noArgs_perform _) fun owned => noArgs_bind (noArgs_logFailure _ _) fun _ => ?_
    refine noArgs_bind (noArgs_perform _) fun moded => noArgs_bind (noArgs_logFailure _ _) fun _ => ?_
    exact noArgs_bind ih fun _ => trivial

theorem quietAt_setPermFn : QuietAt n (setPermFn site) := by
  refine quietAt_ite n trivial (quietAt_readArgs n rfl fun args _ => ?_)
  match args with
  | [] => trivial
  | [_] => trivial
  | [_, _] => trivial
  | uid :: gid :: mode :: rest =>
    refine quietAt_ite n ?_ (quietAt_permNumbers n site _ fun values => ?_)
    · cases rest with
      | nil => trivial
      | cons file_mode paths =>
        refine quietAt_permNumbers n site _ fun values => ?_
        match values with
        | [uid, gid, dir_mode, file_mode] =>
          exact quietAt_bind n (noArgs_setHierarchies uid gid dir_mode file_mode paths) fun _ => trivial
        | [] | [_] | [_, _] | [_, _, _] | _ :: _ :: _ :: _ :: _ :: _ => trivial
    · match values with
      | [uid, gid, mode] =>
        exact quietAt_bind n (noArgs_setPerms site uid gid mode rest) fun _ => quietAt_ite n trivial trivial
      | [] | [_] | [_, _] | _ :: _ :: _ :: _ :: _ => trivial

theorem noArgs_parsePermArgs (parsed : PermArgs) (args : List CString) : NoArgs (parsePermArgs parsed args) := by
  fun_induction parsePermArgs parsed args with
  | case1 parsed key value rest parsed' wrong hparse ih => exact noArgs_bind (noArgs_logIf _ _) fun _ => ih
  | case2 => trivial

theorem noArgs_applyOne {α : Type} (field : Option α) {change : α → Step (Option Errno)} (allowed : Nat → Bool)
    (message : α → List CString) (hchange : ∀ a, NoArgs (change a)) : NoArgs (applyOne field change allowed message) := by
  cases field with
  | none => trivial
  | some value =>
    refine noArgs_bind (hchange value) fun failed => ?_
    cases failed with
    | none => trivial
    | some e => exact Prog.all_ite (fun _ => trivial) fun _ => noArgs_bind (noArgs_log _) fun _ => trivial

theorem noArgs_applyParsedPerms (filename : CString) (kind : FileKind) (parsed : PermArgs) :
    NoArgs (applyParsedPerms filename kind parsed) := by
  refine Prog.all_ite (fun _ => trivial) fun _ => ?_
  refine noArgs_bind (noArgs_applyOne _ _ _ fun _ => noArgs_perform _) fun _ => ?_
  refine noArgs_bind (noArgs_applyOne _ _ _ fun _ => noArgs_perform _) fun _ => ?_
  refine noArgs_bind (noArgs_applyOne _ _ _ fun _ => noArgs_perform _) fun _ => ?_
  refine noArgs_bind (noArgs_applyOne _ _ _ fun _ => noArgs_perform _) fun _ => ?_
  refine noArgs_bind (noArgs_applyOne _ _ _ fun _ => noArgs_perform _) fun _ => ?_
  refine noArgs_bind (noArgs_applyOne _ _ _ fun _ => noArgs_perform _) fun _ => ?_
  refine noArgs_bind (noArgs_applyOne _ _ _ fun caps => ?_) fun _ => trivial
  exact Prog.all_ite (fun _ => noArgs_perform _) fun _ => noArgs_perform _

theorem quietAt_setMetadataFn : QuietAt n (setMetadataFn site) := by
  refine quietAt_ite n trivial (quietAt_readArgs n rfl fun args _ => ?_)
  match args with
  | [] => trivial
  | path :: args =>
    refine quietAt_bind n (noArgs_perform _) fun stat => ?_
    cases stat with
    | inl e => trivial
    | inr kind =>
      refine quietAt_bind n (noArgs_parsePermArgs _ args) fun parsed => quietAt_ite n ?_ ?_
      · exact quietAt_bind n (noArgs_perform _) fun (bad : Int) => quietAt_ite n trivial trivial
      · exact quietAt_bind n (noArgs_applyParsedPerms path kind parsed) fun _ => quietAt_ite n trivial trivial

end Perms

/-! ### Properties, partitions, the recovery and data -/

section Others
variable (n : Nat) (site : Site)

theorem quietAt_getPropFn : QuietAt n (getPropFn site) :=
  quietAt_ite n trivial (quietAt_evaluate n 0 fun _ _ => trivial)

theorem quietAt_fileGetPropFn : QuietAt n (fileGetPropFn site) := by
  refine quietAt_readArgs n rfl fun args hargs => ?_
  obtain ⟨filename, key, rfl⟩ := List.length_eq_two.mp hargs
  refine quietAt_bind n (noArgs_perform _) fun file => ?_
  cases file with
  | noStat e => trivial
  | tooLarge => trivial
  | noMemory size => trivial
  | noOpen e => trivial
  | short size => trivial
  | contents data =>
    dsimp only
    cases tokens [10] (CString.ofBytes data).bytes with
    | nil => trivial
    | cons line lines =>
      dsimp only
      cases findProp key (line :: lines) with
      | inl line => trivial
      | inr value => trivial

theorem quietAt_writeRawImageFn : QuietAt n (writeRawImageFn site) := by
  refine quietAt_readValueArgs n rfl fun args hargs => ?_
  match args, hargs with
  | [contents, .string partition], _ => exact quietAt_ite n trivial (quietAt_ite n trivial fun _ => trivial)
  | [_, .blob _], _ => trivial

theorem quietAt_applyPatchSpaceFn : QuietAt n (applyPatchSpaceFn site) := by
  refine quietAt_readArgs n rfl fun args hargs => ?_
  match args, hargs with
  | [bytes_str], _ => exact quietAt_ite n trivial fun _ => trivial

theorem quietAt_showProgressFn : QuietAt n (showProgressFn site) := by
  refine quietAt_ite n trivial (quietAt_readArgs n rfl fun args hargs => ?_)
  match args, hargs with
  | [frac_str, sec_str], _ => exact fun _ => trivial

theorem quietAt_setProgressFn : QuietAt n (setProgressFn site) := by
  refine quietAt_ite n trivial (quietAt_readArgs n rfl fun args hargs => ?_)
  match args, hargs with
  | [frac_str], _ => exact fun _ => trivial

theorem quietAt_uiPrintFn : QuietAt n (uiPrintFn site) := quietAt_readArgs n rfl fun _ _ _ => trivial

theorem quietAt_wipeCacheFn : QuietAt n (wipeCacheFn site) := quietAt_ite n trivial fun _ => trivial

theorem quietAt_runProgramFn : QuietAt n (runProgramFn site) := by
  refine quietAt_ite n trivial (quietAt_readArgs n rfl fun args _ => ?_)
  refine quietAt_bind n (noArgs_log _) fun _ => quietAt_bind n (noArgs_perform _) fun _ => ?_
  exact quietAt_bind n (noArgs_logIf _ _) fun _ => quietAt_bind n (noArgs_logIf _ _) fun _ => trivial

theorem quietAt_findSha1 (digest : List UInt8) (i : Nat) (args : List Value) : QuietAt n (findSha1 site digest i args) := by
  induction args generalizing i with
  | nil => trivial
  | cons arg rest ih =>
    cases arg with
    | blob data => exact ih (i + 1)
    | string arg =>
      unfold findSha1
      cases Patch.parseSha1 arg with
      | none => exact ih (i + 1)
      | some sum => exact quietAt_ite n trivial (ih (i + 1))

theorem quietAt_sha1CheckFn (sha1 : List UInt8 → List UInt8) : QuietAt n (sha1CheckFn sha1 site) := by
  refine quietAt_ite n trivial (quietAt_readValueArgs n rfl fun args _ => ?_)
  match args with
  | [] => trivial
  | first :: sums =>
    simp only
    cases Value.bytes first with
    | none => trivial
    | some data => exact quietAt_ite n trivial (quietAt_findSha1 n site (sha1 data) 1 sums)

theorem quietAt_readFileFn : QuietAt n (readFileFn site) := by
  refine quietAt_ite n trivial (quietAt_readArgs n rfl fun args hargs => ?_)
  match args, hargs with
  | [filename], _ =>
    refine quietAt_bind n (noArgs_perform _) fun file => ?_
    cases file with
    | inl e => trivial
    | inr data => trivial

end Others

/-! ### The functions that go wrong -/

section Wrong
variable (n : Nat) (site : Site)

/-- A path in front of those that are read after it. -/
def withPath (path : CString) : Option (List CString) → Step (Option (List CString))
  | none => pure none
  | some paths => pure (some (path :: paths))

/-- Where a path after the first aborts, the clean-up loop does not end. -/
theorem quietAt_readPaths {i count : Nat} {f : Option (List CString) → Step (Option Value)} (hnone : Quiet (f none))
    (hsome : ∀ paths, QuietAt n (f (some paths))) :
    QuietAt n (readPaths i count >>= f) ↔ ¬(i ≤ n ∧ n < i + count ∧ n ≠ 0) := by
  induction count generalizing i f with
  | zero =>
    refine ⟨fun _ h => ?_, fun _ => hsome []⟩
    omega
  | succ count ih =>
    rw [readPaths, bind_bind, reads_evaluate n i]
    have hstep (path : CString) :
        QuietAt n ((readPaths (i + 1) count >>= withPath path) >>= f) ↔ ¬(i + 1 ≤ n ∧ n < i + 1 + count ∧ n ≠ 0) := by
      rw [bind_bind]
      exact ih hnone fun paths => hsome (path :: paths)
    constructor
    · rintro ⟨hfirst, hrest⟩ ⟨hle, hlt, hzero⟩
      by_cases hi : i = n
      · have hundefined := hfirst hi
        rw [if_neg (hi ▸ hzero)] at hundefined
        exact hundefined
      · exact (hstep "").mp (hrest "") ⟨by omega, by omega, hzero⟩
    · intro h
      refine ⟨fun hi => ?_, fun path => (hstep path).mpr fun hn => h ⟨by omega, by omega, hn.2.2⟩⟩
      have hzero : i = 0 := by
        by_contra hne
        exact h ⟨by omega, by omega, by omega⟩
      rw [if_pos hzero]
      exact hnone

theorem quietAt_deleteFn : QuietAt n (deleteFn site) ↔ ¬(1 ≤ n ∧ n < site.argc) := by
  unfold deleteFn
  rw [quietAt_readPaths n]
  · omega
  · rfl
  · intro paths
    exact quietAt_bind n (noArgs_deletePaths _ paths) fun _ => trivial

theorem quietAt_applyPatchFn :
    QuietAt n (applyPatchFn site) ↔ ¬(6 ≤ site.argc ∧ site.argc % 2 = 0 ∧ 4 ≤ n ∧ n < site.argc) := by
  unfold applyPatchFn
  by_cases hargc : site.argc < 6 ∨ site.argc % 2 = 1
  · rw [if_pos hargc]
    exact ⟨fun _ h => by omega, fun _ => trivial⟩
  · rw [if_neg hargc, quietAt_readArgs_iff]
    constructor
    · intro ⟨_, hsome⟩ ⟨_, _, hle, hlt⟩
      have hlist := hsome ["", "", "", "1"] rfl
      have hsize : ¬((CString.ofString "1").strtol.1 = 0 ∧ (CString.ofString "1").strtol.2 = (CString.ofString "1").bytes) := by
        decide
      simp only [hsize, if_false] at hlist
      exact ((quietAt_readValueArgs_iff n).mp hlist).1 ⟨hle, by omega⟩
    · intro h
      refine ⟨fun _ => rfl, fun args hargs => ?_⟩
      match args, hargs with
      | [source_filename, target_filename, target_sha1, target_size_str], _ =>
        refine quietAt_ite n trivial ((quietAt_readValueArgs_iff n).mpr ⟨fun hn => ?_, fun patches _ => ?_⟩)
        · exact absurd ⟨by omega, by omega, hn.1, by omega⟩ h
        · simp only
          cases checkPatches site 0 patches with
          | inl wrong => trivial
          | inr patches => exact fun _ => trivial

theorem quietAt_applyPatchCheckFn : QuietAt n (applyPatchCheckFn site) ↔ ¬(1 ≤ n ∧ n < site.argc) := by
  unfold applyPatchCheckFn
  by_cases hargc : site.argc < 1
  · rw [if_pos hargc]
    exact ⟨fun _ h => by omega, fun _ => trivial⟩
  · rw [if_neg hargc, quietAt_readArgs_iff]
    constructor
    · intro ⟨_, hsome⟩ ⟨hle, hlt⟩
      exact ((quietAt_readArgs_iff n).mp (hsome [""] rfl)).1 ⟨hle, by omega⟩
    · intro h
      refine ⟨fun _ => rfl, fun args hargs => ?_⟩
      match args, hargs with
      | [filename], _ =>
        refine (quietAt_readArgs_iff n).mpr ⟨fun hn => ?_, fun sha1s _ => fun _ => trivial⟩
        exact absurd ⟨hn.1, by omega⟩ h

end Wrong

/-! ### All functions -/

/-- An abort of argument `n` is not passed on. -/
def Registered.Spills (argc n : Nat) : Registered → Prop
  | delete => 1 ≤ n ∧ n < argc
  | deleteRecursive => 1 ≤ n ∧ n < argc
  | applyPatch => 6 ≤ argc ∧ argc % 2 = 0 ∧ 4 ≤ n ∧ n < argc
  | applyPatchCheck => 1 ≤ n ∧ n < argc
  | _ => False

theorem quietAt_registered (b : Build) (f : Registered) (site : Site) (n : Nat) :
    QuietAt n (f.fn b site) ↔ ¬f.Spills site.argc n := by
  cases f with
  | mount => exact iff_of_true (quietAt_mountFn n site) id
  | isMounted => exact iff_of_true (quietAt_isMountedFn n site) id
  | unmount => exact iff_of_true (quietAt_unmountFn n site) id
  | format => exact iff_of_true (quietAt_formatFn n site b.ext4) id
  | showProgress => exact iff_of_true (quietAt_showProgressFn n site) id
  | setProgress => exact iff_of_true (quietAt_setProgressFn n site) id
  | delete => exact quietAt_deleteFn n site
  | deleteRecursive => exact quietAt_deleteFn n site
  | packageExtractDir => exact iff_of_true (quietAt_packageExtractDirFn n site) id
  | packageExtractFile => exact iff_of_true (quietAt_packageExtractFileFn n site) id
  | symlink => exact iff_of_true (quietAt_symlinkFn n site) id
  | setPerm => exact iff_of_true (quietAt_setPermFn n site) id
  | setPermRecursive => exact iff_of_true (quietAt_setPermFn n site) id
  | setMetadata => exact iff_of_true (quietAt_setMetadataFn n site) id
  | setMetadataRecursive => exact iff_of_true (quietAt_setMetadataFn n site) id
  | getprop => exact iff_of_true (quietAt_getPropFn n site) id
  | fileGetprop => exact iff_of_true (quietAt_fileGetPropFn n site) id
  | writeRawImage => exact iff_of_true (quietAt_writeRawImageFn n site) id
  | applyPatch => exact quietAt_applyPatchFn n site
  | applyPatchCheck => exact quietAt_applyPatchCheckFn n site
  | applyPatchSpace => exact iff_of_true (quietAt_applyPatchSpaceFn n site) id
  | readFile => exact iff_of_true (quietAt_readFileFn n site) id
  | sha1Check => exact iff_of_true (quietAt_sha1CheckFn n site b.sha1) id
  | wipeCache => exact iff_of_true (quietAt_wipeCacheFn n site) id
  | uiPrint => exact iff_of_true (quietAt_uiPrintFn n site) id
  | runProgram => exact iff_of_true (quietAt_runProgramFn n site) id

/-- The call at the root of the expression has an argument whose abort would not be passed on. -/
def SpillsAt : Expr Registered → Prop
  | .call (.other f) _ argc _ _ => ∃ n, f.Spills argc n
  | _ => False

theorem passesOn_of_not_spills (b : Build) (script : List UInt8) {e : Expr Registered} (he : ¬SpillsAt e) :
    PassesOn script (Registered.fn b) e := by
  cases e with
  | literal name span => trivial
  | op o argv span => trivial
  | call f name argc argv span =>
    refine fun n => quietAt_named n fun g hg => (quietAt_registered b g _ n).mpr fun h => he ?_
    rw [hg]
    exact ⟨n, h⟩

/-- For every function of the updater, every number of arguments and every position: where the
argument there aborts, the function returns NULL, evaluates no later argument and does
nothing more, if and only if it is not a path after the first of `delete` or
`delete_recursive`, a sum or patch of `apply_patch`, or a sum of `apply_patch_check`. In a
script without such arguments, the first abort is the end of the evaluation. -/
theorem abort_propagates (b : Build) :
    (∀ (f : Registered) (site : Site) (n : Nat), QuietAt n (f.fn b site) ↔ ¬f.Spills site.argc n) ∧
    ∀ (script : List UInt8) (e : Expr Registered), e.Everywhere (fun e => ¬SpillsAt e) →
      ∀ path, Stops (eval script (Registered.fn b) path e) := by
  refine ⟨quietAt_registered b, fun script e he => ?_⟩
  exact stops_eval (he.imp fun e he => passesOn_of_not_spills b script he.here)

/-- `ui_print("a", abort())` -/
def printAbort : Expr Registered :=
  .call (.other .uiPrint) "ui_print" 2 ![.literal "a" ⟨9, 12⟩, .call .abort "abort" 0 (fun i => i.elim0) ⟨14, 21⟩] ⟨0, 22⟩

theorem abort_propagates_print : Stops (eval [] (Registered.fn ⟨false, id⟩) [] printAbort) := by
  refine (abort_propagates ⟨false, id⟩).2 [] printAbort ⟨?_, fun i => ?_⟩ []
  · intro ⟨n, h⟩
    exact h
  · match i with
    | ⟨0, _⟩ => exact id
    | ⟨1, _⟩ => exact ⟨id, fun i => i.elim0⟩

/-- `delete("a", abort())` does not come back: the abort of its second argument is not passed on. -/
theorem delete_spills :
    ¬QuietAt 1 (Registered.delete.fn ⟨false, id⟩ ⟨"delete", 2, fun _ => []⟩) ∧
      ¬QuietAt 1 (Registered.applyPatchCheck.fn ⟨false, id⟩ ⟨"apply_patch_check", 2, fun _ => []⟩) ∧
      ¬QuietAt 4 (Registered.applyPatch.fn ⟨false, id⟩ ⟨"apply_patch", 6, fun _ => []⟩) := by
  refine ⟨?_, ?_, ?_⟩
  · exact mt (quietAt_deleteFn 1 _).mp (not_not.mpr (by decide))
  · exact mt (quietAt_applyPatchCheckFn 1 _).mp (not_not.mpr (by decide))
  · exact mt (quietAt_applyPatchFn 4 _).mp (not_not.mpr (by decide))

end Twrp.Updater
