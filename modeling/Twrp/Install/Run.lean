import Twrp.Base.Process
import Twrp.Install.Pipe

/-! The result of an installation.

`TWinstall_zip` checks the package, `Run_Update_Binary` takes the updater out of it, runs it,
reads its commands to the end of the pipe and waits for it. The loop around `waitpid` looks
at the exit code before it knows that there is one, and after the loop the result is success. -/
namespace Twrp.Install
open Base

def INSTALL_SUCCESS : Int := 0
def INSTALL_ERROR : Int := 1
def INSTALL_CORRUPT : Int := 2

/-! ### Waiting -/

/-- What `waitpid` tells of the updater: pauses, and at last how it ended, or an error. -/
structure Waits where
  pauses : List Pause
  last : Option Outcome

def Waits.answers (w : Waits) : List Wait :=
  w.pauses.map (fun p => .status p.status) ++ [match w.last with | some o => .status o.status | none => .error]

/-- The loop around `waitpid`; `none` where it still waits. -/
def waitLoop : List Wait → Option Int
  | [] => none
  | .noChild :: _ => some INSTALL_ERROR
  | .error :: _ => some INSTALL_ERROR
  | .status status :: rest =>
    if wexitstatus status = 0 then some INSTALL_SUCCESS
    else if wifsignaled status then some INSTALL_ERROR
    else if !wifexited status && !wifsignaled status then waitLoop rest
    -- past the loop the exit code is not looked at
    else some INSTALL_SUCCESS

/-- Pauses are waited through. -/
theorem waitLoop_pause (p : Pause) (rest : List Wait) : waitLoop (.status p.status :: rest) = waitLoop rest := by
  obtain ⟨hstatus, hsignaled, hexited⟩ := p.status_spec
  simp [waitLoop, hstatus, hsignaled, hexited]

/-- Any end is success. -/
theorem waitLoop_outcome (o : Outcome) : waitLoop [.status o.status] = some INSTALL_SUCCESS := by
  cases o with
  | exited code => simp [waitLoop, wifsignaled_exited, wifexited_exited]
  | killed signal core => simp [waitLoop, wexitstatus_killed]

theorem waitLoop_answers (w : Waits) :
    waitLoop w.answers = some (if w.last.isSome then INSTALL_SUCCESS else INSTALL_ERROR) := by
  obtain ⟨pauses, last⟩ := w
  induction pauses with
  | nil =>
    cases last with
    | none => rfl
    | some o => exact waitLoop_outcome o
  | cons p pauses ih => exact (waitLoop_pause p _).trans ih

/-! ### Installing -/

/-- A file that is taken out of the package. -/
structure Extraction where
  /-- `creat` gives a file -/
  created : Bool
  /-- `mzExtractZipEntryToFile` writes it -/
  extracted : Bool

def Extraction.done (e : Extraction) : Bool := e.created && e.extracted

/-- How the calls of an installation come out. -/
structure Installation where
  /-- `verify_md5digest` -/
  md5Return : Int
  /-- `TW_SIGNED_ZIP_VERIFY_VAR` -/
  zipVerify : Bool
  /-- `verify_file` finds a signature -/
  verified : Bool
  /-- `mzOpenZipArchive` accepts the package -/
  opened : Bool
  /-- the entry of the updater, if there is one -/
  binary : Option Extraction
  /-- the entry of `file_contexts`, if there is one -/
  contexts : Option Extraction
  /-- what the updater writes to the pipe; nothing where `fork` fails -/
  updater : Option (List UInt8)
  waits : Waits

/-- The value returned and what `*wipe_cache` is set to, if it is; `none` where the recovery
crashes, or does not come back. -/
abbrev Returned := Option (Int × Option Bool)

/-- `Run_Update_Binary` from the fork on. -/
def runUpdater (a : Installation) : Returned :=
  -- without an updater the pipe has no writer and is at its end
  let events := commands a.zipVerify (a.updater.getD [])
  if .crash ∈ events then none
  else (waitLoop a.waits.answers).map fun result => (result, some (decide (.wipeCache ∈ events)))

/-- `Run_Update_Binary` -/
def runUpdateBinary (a : Installation) : Returned :=
  match a.binary with
  | none => some (INSTALL_CORRUPT, none)
  | some binary =>
    if !binary.created then some (INSTALL_ERROR, none)
    else if !binary.extracted then some (INSTALL_ERROR, none)
    else
      match a.contexts with
      | none => runUpdater a
      | some contexts =>
        if !contexts.created then some (INSTALL_ERROR, none)
        else if !contexts.extracted then some (INSTALL_ERROR, none)
        else runUpdater a

/-- `TWinstall_zip` -/
def twInstallZip (a : Installation) : Returned :=
  if a.md5Return = -2 then some (INSTALL_CORRUPT, none)
  else if a.zipVerify && !a.verified then some (-1, none)
  else if !a.opened then some (INSTALL_CORRUPT, none)
  else runUpdateBinary a

/-! ### What the result says -/

namespace Installation
variable (a : Installation)

/-- The checks of `TWinstall_zip` pass. -/
def checked : Bool := a.md5Return ≠ -2 && (!a.zipVerify || a.verified) && a.opened

/-- The files of the package are in place. -/
def prepared : Bool := (a.binary.any Extraction.done) && (a.contexts.all Extraction.done)

/-- The updater ran and ended normally with exit status 0. -/
def Exits0 : Prop := a.updater.isSome ∧ ∃ code, a.waits.last = some (.exited code) ∧ code % 256 = 0

/-- No command of the updater lacks an argument. -/
def Complete : Prop := .crash ∉ commands a.zipVerify (a.updater.getD [])

end Installation

/-- The installation comes back, and with success exactly where `succeeded`. -/
def Reports (r : Returned) (succeeded : Prop) : Prop :=
  ∃ result wiped, r = some (result, wiped) ∧ (result = INSTALL_SUCCESS ↔ succeeded)

theorem reports_error {result : Int} (hresult : result ≠ INSTALL_SUCCESS) {succeeded : Prop} :
    Reports (some (result, none)) succeeded ↔ ¬succeeded := by
  simp [Reports, hresult]

theorem reports_runUpdater (a : Installation) :
    Reports (runUpdater a) a.Exits0 ↔ a.Complete ∧ (a.Exits0 ∨ a.waits.last = none) := by
  by_cases hcrash : .crash ∈ commands a.zipVerify (a.updater.getD [])
  · simp [Reports, runUpdater, Installation.Complete, hcrash]
  · have hrun : runUpdater a = some (if a.waits.last.isSome then INSTALL_SUCCESS else INSTALL_ERROR,
        some (decide (.wipeCache ∈ commands a.zipVerify (a.updater.getD [])))) := by
      simp [runUpdater, hcrash, waitLoop_answers]
    rw [hrun]
    cases hlast : a.waits.last with
    | none => simp [Reports, Installation.Complete, Installation.Exits0, hcrash, hlast, INSTALL_SUCCESS, INSTALL_ERROR]
    | some o => simp [Reports, Installation.Complete, hcrash]

/-- Where the files are not in place, the updater is not run. -/
theorem runUpdateBinary_cases (a : Installation) :
    (a.prepared = true ∧ runUpdateBinary a = runUpdater a) ∨
      (a.prepared = false ∧ ∃ result, result ≠ INSTALL_SUCCESS ∧ runUpdateBinary a = some (result, none)) := by
  unfold Installation.prepared runUpdateBinary
  rcases a.binary with _ | ⟨_ | _, _ | _⟩
  · simp [INSTALL_CORRUPT, INSTALL_SUCCESS]
  · simp [Extraction.done, INSTALL_ERROR, INSTALL_SUCCESS]
  · simp [Extraction.done, INSTALL_ERROR, INSTALL_SUCCESS]
  · simp [Extraction.done, INSTALL_ERROR, INSTALL_SUCCESS]
  · rcases a.contexts with _ | ⟨_ | _, _ | _⟩ <;>
      simp [Extraction.done, INSTALL_ERROR, INSTALL_SUCCESS]

theorem reports_runUpdateBinary (a : Installation) :
    Reports (runUpdateBinary a) (a.prepared ∧ a.Exits0) ↔
      a.prepared = false ∨ a.Complete ∧ (a.Exits0 ∨ a.waits.last = none) := by
  obtain ⟨hprepared, hrun⟩ | ⟨hprepared, result, hresult, hrun⟩ := runUpdateBinary_cases a
  · rw [hrun, ← reports_runUpdater]
    simp [hprepared]
  · rw [hrun, reports_error hresult]
    simp [hprepared]

/-- Where a check fails, nothing of the package is run. -/
theorem twInstallZip_cases (a : Installation) :
    (a.checked = true ∧ twInstallZip a = runUpdateBinary a) ∨
      (a.checked = false ∧ ∃ result, result ≠ INSTALL_SUCCESS ∧ twInstallZip a = some (result, none)) := by
  unfold Installation.checked twInstallZip
  by_cases hmd5 : a.md5Return = -2
  · simp [hmd5, INSTALL_CORRUPT, INSTALL_SUCCESS]
  · rcases a.zipVerify with _ | _ <;> rcases a.verified with _ | _ <;> rcases a.opened with _ | _ <;>
      simp [hmd5, INSTALL_CORRUPT, INSTALL_SUCCESS]

/-- For every sequence of statuses that `waitpid` delivers, and however the calls before it
come out: the result is success exactly where the updater ended normally with exit status 0,
if and only if the updater is not run at all, or no command of it lacks an argument and it
does end with exit status 0 or `waitpid` fails. A signal and any other exit code give
success. -/
theorem install_result (a : Installation) :
    (Reports (runUpdateBinary a) (a.prepared ∧ a.Exits0) ↔
      a.prepared = false ∨ a.Complete ∧ (a.Exits0 ∨ a.waits.last = none)) ∧
    (Reports (twInstallZip a) (a.checked ∧ a.prepared ∧ a.Exits0) ↔
      a.checked = false ∨ a.prepared = false ∨ a.Complete ∧ (a.Exits0 ∨ a.waits.last = none)) := by
  refine ⟨reports_runUpdateBinary a, ?_⟩
  obtain ⟨hchecked, hrun⟩ | ⟨hchecked, result, hresult, hrun⟩ := twInstallZip_cases a
  · rw [hrun, ← reports_runUpdateBinary]
    simp [hchecked]
  · rw [hrun, reports_error hresult]
    simp [hchecked]

/-- A package whose checks pass, with an updater that writes nothing and ends as `o`. -/
def endingAs (o : Outcome) : Installation where
  md5Return := 0
  zipVerify := true
  verified := true
  opened := true
  binary := some ⟨true, true⟩
  contexts := none
  updater := some []
  waits := ⟨[], some o⟩

/-- An updater that exits with 1, and one that is killed by a segmentation fault, count as
a successful installation. -/
theorem install_failed_succeeds :
    twInstallZip (endingAs (.exited 1)) = some (INSTALL_SUCCESS, some false) ∧
      ¬Reports (twInstallZip (endingAs (.exited 1)))
        ((endingAs (.exited 1)).checked ∧ (endingAs (.exited 1)).prepared ∧ (endingAs (.exited 1)).Exits0) ∧
      twInstallZip (endingAs (.killed ⟨11, by decide, by decide⟩ false)) = some (INSTALL_SUCCESS, some false) := by
  refine ⟨by decide, ?_, by decide⟩
  intro ⟨result, wiped, hrun, hiff⟩
  have hresult : result = INSTALL_SUCCESS := by
    have hsome : some (result, wiped) = some (INSTALL_SUCCESS, some false) := hrun.symm.trans (by decide)
    exact (Prod.mk.inj (Option.some.inj hsome)).1
  obtain ⟨-, -, -, code, hcode, hzero⟩ := hiff.mp hresult
  obtain rfl : 1 = code := by
    have hlast : some (Outcome.exited 1) = some (Outcome.exited code) := hcode
    exact Outcome.exited.inj (Option.some.inj hlast)
  omega

end Twrp.Install
