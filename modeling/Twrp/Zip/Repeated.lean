import Twrp.Zip.Reported

/-! Names that stand for several entries.

`mzFindZipEntry` finds the first entry of a name. An extraction goes through the entries in the order
of the array and overwrites: a file is left with the data of the last entry that goes there. Archives
with repeated names are accepted, with a warning. -/
namespace Twrp.Zip
open Base

section Repeated
variable {F : Type} [DecidableEq F] (resolve : Bytes → F)

/-- What an extraction leaves in a file, where `resolve` says which file a path is: what was written
when it was last created. -/
def leaves (log : Log) (f : F) : Option Bytes :=
  ((sessions log).reverse.find? fun s => resolve s.path = f).map fun s => written s.steps

/-- The last entry of the array that is extracted to a file. -/
def Request.lastTo (q : Request) (entries : List ZipEntry) (f : F) : Option ZipEntry :=
  (entries.filter q.isFile).reverse.find? fun e => resolve (q.path e) = f

/-- The data of the regular file that is found under a name. -/
def Request.leadsTo (q : Request) (z : Zlib) (archive : ZipArchive) (name : Bytes) : Option Bytes :=
  ((mzFindZipEntry archive name).join.filter q.isFile).bind (z.data archive.map)

variable {resolve} {q : Request} {z : Zlib} {map : Bytes}

theorem find_extracted {es : List ZipEntry} {ss : List Session} (h : List.Forall₂ (q.Extracted z map) es ss) (f : F) :
    (ss.find? fun s => resolve s.path = f).map (fun s => written s.steps) = (es.find? fun e => resolve (q.path e) = f).bind (z.data map) := by
  induction h with
  | nil => rfl
  | @cons e s es ss hextracted _ ih =>
    rw [List.find?_cons, List.find?_cons, hextracted.path]
    by_cases hf : resolve (q.path e) = f
    · simp [hf, hextracted.data]
    · simp only [hf, decide_false]
      exact ih

/-- The last entry that goes to a file is what it is left with. -/
theorem Request.Complete.leaves_eq {entries : List ZipEntry} {log : Log} (h : q.Complete z map entries log) (resolve : Bytes → F) (f : F) :
    leaves resolve log f = (q.lastTo resolve entries f).bind (z.data map) :=
  find_extracted (List.rel_reverse h.files) f

end Repeated

/-- An extraction in which nothing is lost is complete. -/
theorem complete_of_kept {z : Zlib} {map : Bytes} {archive : ZipArchive} (hopen : mzOpenZipArchive map = some archive)
    {zipDir targetDir : CString} {flags : Flags} {timestamp callback : Bool} {fuel : Nat} {log : Log} {q : Request}
    (hq : request zipDir targetDir flags timestamp callback fuel = q)
    (hrun : (mzExtractRecursive archive zipDir targetDir flags timestamp callback fuel).Runs log true) (hfaithful : z.Faithful map log)
    (hkept : q.Kept z map archive.entries log) : q.Complete z map archive.entries log := by
  rw [← Request.kept_filter] at hkept
  rw [← Request.complete_filter]
  rcases runs_true hopen hq hrun hfaithful with ⟨hdry, hcalls, hflawless⟩ | ⟨hdry, hwent⟩ | hlost
  · exact ((Request.dryRun_complete_iff hdry hcalls hflawless).mpr hkept).2
  · exact ((hwent.complete_iff hdry).mpr hkept).2
  · exact absurd hkept hlost.not_complete.2

/-- An archive with two entries `a`, which hold `x` and `y`. -/
def repeated : Bytes := pack [([0x61], [0x78]), ([0x61], [0x79])]

/-- A run that extracts it, with all writes taken. -/
theorem repeated_runs : ∃ archive log, mzOpenZipArchive repeated = some archive ∧
    (mzExtractRecursive archive "" "/t" ⟨true, false⟩ true false 0).Runs log true ∧ noZlib.Faithful repeated log ∧
    (request "" "/t" ⟨true, false⟩ true false 0).Kept noZlib repeated archive.entries log ∧
    leaves id log ((request "" "/t" ⟨true, false⟩ true false 0).root ++ [0x61]) = some [0x79] ∧
    (request "" "/t" ⟨true, false⟩ true false 0).leadsTo noZlib archive [0x61] = some [0x78] := by
  obtain ⟨hopen, hrun, hfaithful⟩ := @sampleRun_runs repeated (fun data => some data.length) (by decide +kernel) (by decide +kernel) (by decide +kernel)
  refine ⟨_, _, hopen, hrun, hfaithful, ?_⟩
  refine ⟨⟨fun hdry => Bool.noConfusion hdry, ?_, ?_⟩, ?_, ?_⟩
  · decide +kernel
  · decide +kernel
  · decide +kernel
  · decide +kernel

end Twrp.Zip
