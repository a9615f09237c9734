import Twrp.Patch.Effects

/-! Which copies survive a run that is killed.

A name *holds* a good content when the content, as it is or as it is loaded, has the SHA-1 of
the target or one that a patch is listed for. On a file target, a run that can be killed
anywhere leaves a good content in the source, the target or the cache, as long as the source is
no file that clearing the cache may delete and not the file the patched target is written to. -/
namespace Twrp.Patch
open Base

/-! ### Good contents -/

/-- The SHA-1 is the target's or that of a source with a patch. -/
def Args.Lists (a : Args) (sha1 : Digest) : Prop :=
  parseSha1 a.target_sha1 = some sha1 ∨ ∃ p ∈ a.patches, parseSha1 p.1 = some sha1

section Held
variable (abi : Abi) (t : Tools) (a : Args)

/-- A complete content, as it is or with its retouched words masked. -/
def Good (content : Bytes) : Prop :=
  a.Lists (t.sha1 content) ∨ ∃ masked, t.mask content = some masked ∧ a.Lists (t.sha1 masked)

/-- The name holds a good content. -/
def Holds (d : Disk) : Name → Prop
  | .file path => ∃ content, d.files path = some content ∧ Good t a content
  | .part p => ∃ content, content <+: d.parts p.type p.device ∧ a.Lists (t.sha1 content)

/-- The source or the copy holds a good content. -/
def Kept (d : Disk) : Prop := Holds t a d a.source ∨ Holds t a d (.file CACHE_TEMP_SOURCE)

/-- One of source, target and copy holds a good content. -/
def Survives (d : Disk) : Prop := Kept t a d ∨ Holds t a d a.targetName

/-- No output with a normal chunk left out has the target's SHA-1. -/
def Complete : Prop :=
  ∀ p ∈ a.patches, ∀ old hashed written, parseSha1 p.1 = some (t.sha1 old) →
    Pushed (imageActions abi t.toCodec old p.2.data a.bonus) hashed written →
    parseSha1 a.target_sha1 = some (t.sha1 hashed) →
    hashed.length = (output (imageActions abi t.toCodec old p.2.data a.bonus)).length

/-- The source is no file that may be cleared from the cache or that the patched target is
written to, and the target is not the copy. -/
structure Apart (target : Path) : Prop where
  source : ∀ path, a.source = .file path → ¬InCache path ∧ path ≠ patchName target
  target : target ≠ CACHE_TEMP_SOURCE

/-- What was chosen: a content with its patch, from the source or from the copy. -/
structure Chosen.Valid (c : Chosen) (d : Disk) : Prop where
  used : ∃ p ∈ a.patches, ∃ old, c.patch = some p.2 ∧ c.used.data = some old ∧ parseSha1 p.1 = some (t.sha1 old)
  source : c.source_patch.isSome → ∃ data, c.source_file.data = some data ∧ c.source_file.size = data.length ∧
    Content t d a.source data ∧ a.Lists (t.sha1 data)
  copy : c.source_patch.isSome = false → Holds t a d (.file CACHE_TEMP_SOURCE)

end Held

section Safety
variable {abi : Abi} {t : Tools} {a : Args} {d d' : Disk}

theorem Content.holds {name : Name} {data : Bytes} (h : Content t d name data) (hlists : a.Lists (t.sha1 data)) :
    Holds t a d name := by
  cases name with
  | file path =>
    obtain ⟨bytes, hbytes, hmask⟩ := h
    exact ⟨bytes, hbytes, .inr ⟨data, hmask, hlists⟩⟩
  | part p => exact ⟨data, h, hlists⟩

theorem Holds.touches {U : Path → Prop} {name : Name} (h : Holds t a d name) (ht : Touches U d d')
    (hU : ∀ q, name = .file q → ¬U q) : Holds t a d' name := by
  cases name with
  | file path =>
    obtain ⟨content, hcontent, hgood⟩ := h
    exact ⟨content, (ht.2 path (hU path rfl)).trans hcontent, hgood⟩
  | part p =>
    obtain ⟨content, hcontent, hgood⟩ := h
    rw [← ht.1] at hcontent
    exact ⟨content, hcontent, hgood⟩

theorem Does.safe {α : Type} {U : Path → Prop} {x : Io α} {I : Disk → Prop} {R R' : α → Disk → Prop} (h : Does U x d R)
    (hI : ∀ d', Touches U d d' → I d') (hR : ∀ r d', Touches U d d' → R r d' → R' r d') : x.Safe Disk.step I R' d :=
  Prog.Safe.mono h hI hR

theorem patchName_ne_copy (target : Path) : patchName target ≠ CACHE_TEMP_SOURCE := by
  intro h
  have hlast := congrArg List.getLast? h
  have hpatch : ".patch".toList.getLast? = some 'h' := by decide
  have hcopy : CACHE_TEMP_SOURCE.getLast? = some 'e' := by decide
  unfold patchName at hlast
  rw [List.getLast?_append, hpatch, hcopy] at hlast
  exact absurd hlast (by simp)

theorem patchName_ne (target : Path) : patchName target ≠ target := by
  intro h
  have hlen := congrArg List.length h
  unfold patchName at hlen
  rw [List.length_append] at hlen
  have hpos : ".patch".toList.length = 6 := by decide
  omega

/-- A content that is reported as applied and has the target's SHA-1 was written whole. -/
theorem Complete.written {target : Path} (hcomplete : Complete abi t a) {c : Chosen} (hvalid : c.Valid t a d) {ctx : Bytes}
    (h : Patched abi t a target c ctx d') (hsha : parseSha1 a.target_sha1 = some (t.sha1 ctx)) :
    d'.files (patchName target) = some ctx := by
  obtain ⟨patch, old, written, hpatch, hold, happlied, hfile⟩ := h
  obtain ⟨p, hp, old', hpatch', hold', hlisted⟩ := hvalid.used
  obtain rfl := Option.some.inj (hpatch.symm.trans hpatch')
  obtain rfl := Option.some.inj (hold.symm.trans hold')
  cases happlied with
  | bsdiff _ => exact hfile
  | image hpushed =>
    have hwhole := hcomplete p hp old ctx written hlisted hpushed hsha
    rw [hfile, (hpushed.whole.2 hwhole).2]

variable {target : Path} (hapart : Apart a target)
include hapart

/-- Writing the patched file touches neither the source nor the copy. -/
theorem Apart.kept (h : Kept t a d) (ht : Touches (· = patchName target) d d') : Kept t a d' := by
  refine h.imp (fun h => h.touches ht ?_) fun h => h.touches ht ?_
  · intro q hq
    exact (hapart.source q hq).2
  · intro q hq heq
    exact patchName_ne_copy target (heq.symm.trans (Name.file.inj hq).symm)

theorem Apart.source_holds (h : Holds t a d a.source) (ht : Touches (· = patchName target) d d') : Holds t a d' a.source :=
  h.touches ht fun q hq => (hapart.source q hq).2

/-- The source is deleted only once its copy is complete. -/
theorem makeRoom_safe {file : FileContents} {data : Bytes} (hdata : file.data = some data) (hsize : file.size = data.length)
    (hcontent : Content t d a.source data) (hlists : a.Lists (t.sha1 data)) :
    (makeRoom abi a file).Safe Disk.step (Kept t a) (fun r d' => r.isSome → Holds t a d' (.file CACHE_TEMP_SOURCE)) d := by
  have hsource : Holds t a d a.source := hcontent.holds hlists
  unfold makeRoom
  split
  · exact Prog.safe_pure (.inl hsource) fun h => absurd h Bool.false_ne_true
  · rename_i path hpath
    obtain ⟨hnot, _⟩ := hapart.source path hpath
    have hkept : ∀ d', Touches InCache d d' → Kept t a d' := by
      intro d' ht
      refine .inl (hsource.touches ht fun q hq => ?_)
      obtain rfl := Name.file.inj (hpath.symm.trans hq)
      exact hnot
    refine Prog.safe_bind ((backUp_does abi file).safe hkept fun _ _ ht h => And.intro ht h) ?_
    rintro ok d' ⟨ht, hsaved⟩
    cases ok with
    | false => exact Prog.safe_pure (hkept d' ht) fun h => absurd h Bool.false_ne_true
    | true =>
      have hcopy : Holds t a d' (.file CACHE_TEMP_SOURCE) := ⟨data, hsaved rfl data hdata hsize, .inl hlists⟩
      refine Prog.safe_call (hkept d' ht) fun r d'' hstep => ?_
      have hcopy' : Holds t a d'' (.file CACHE_TEMP_SOURCE) := by
        refine hcopy.touches (unlink_step hstep) ?_
        intro q hq heq
        rw [← (Name.file.inj hq).trans heq] at hnot
        exact hnot inCache_copy
      exact Prog.safe_pure (.inr hcopy') fun _ => hcopy'

/-- A turn keeps the source or its copy; one with room for the target leaves the source. -/
theorem turn_safe {c : Chosen} (hvalid : c.Valid t a d) (enough : Bool) :
    (turn abi t a target c enough false).Safe Disk.step (Kept t a) (fun r d' => Kept t a d' ∧
      (enough = true → Touches (· = patchName target) d d') ∧
      ∀ ctx made, r = .patched ctx made → Patched abi t a target c ctx d') d := by
  have hkept : Kept t a d := by
    cases hsome : c.source_patch.isSome with
    | true =>
      obtain ⟨data, _, _, hcontent, hlists⟩ := hvalid.source hsome
      exact .inl (hcontent.holds hlists)
    | false => exact .inr (hvalid.copy hsome)
  have hpatch : ∀ d' made, Kept t a d' → (patchFile abi t a target c made).Safe Disk.step (Kept t a)
      (fun r d'' => Touches (· = patchName target) d' d'' ∧ Kept t a d'' ∧
        ∀ ctx made, r = .patched ctx made → Patched abi t a target c ctx d'') d' := by
    intro d' made hd'
    refine (patchFile_does abi t a target c made).safe (fun d'' ht => hapart.kept hd' ht) fun r d'' ht h => ?_
    exact ⟨ht, hapart.kept hd' ht, fun ctx made heq => (h ctx made heq).2⟩
  unfold turn
  refine Prog.safe_ite (fun hroom => ?_) fun _ => ?_
  · obtain ⟨data, hdata, hsize, hcontent, hlists⟩ := hvalid.source hroom.2
    refine Prog.safe_bind (makeRoom_safe hapart hdata hsize hcontent hlists).keep ?_
    rintro r d' ⟨hd', hcopy⟩
    have hnot : ¬enough = true := by
      intro henough
      rw [henough] at hroom
      exact absurd hroom.1 (by decide)
    cases r with
    | none =>
      refine Prog.safe_pure hd' ⟨hd', fun h => absurd h hnot, fun ctx made heq => ?_⟩
      cases heq
    | some made =>
      refine Prog.Safe.mono (hpatch d' made (.inr (hcopy rfl))) (fun _ h => h) fun r d'' _ h => ?_
      exact ⟨h.2.1, fun h => absurd h hnot, h.2.2⟩
  · refine Prog.Safe.mono (hpatch d false hkept) (fun _ h => h) fun r d'' _ h => ?_
    exact ⟨h.2.1, fun _ => h.1, h.2.2⟩

/-- A choice stays valid while only the patched file is written. -/
theorem Chosen.Valid.touches {c : Chosen} (hvalid : c.Valid t a d) (ht : Touches (· = patchName target) d d') :
    c.Valid t a d' := by
  refine ⟨hvalid.used, fun hsome => ?_, fun hnone => ?_⟩
  · obtain ⟨data, hdata, hsize, hcontent, hlists⟩ := hvalid.source hsome
    refine ⟨data, hdata, hsize, ?_, hlists⟩
    cases hsource : a.source with
    | file path =>
      rw [hsource] at hcontent
      obtain ⟨bytes, hbytes, hmask⟩ := hcontent
      exact ⟨bytes, (ht.2 path (hapart.source path hsource).2).trans hbytes, hmask⟩
    | part p =>
      rw [hsource] at hcontent
      show data <+: d'.parts p.type p.device
      rw [ht.1]
      exact hcontent
  · refine (hvalid.copy hnone).touches ht fun q hq heq => ?_
    exact patchName_ne_copy target (heq.symm.trans (Name.file.inj hq).symm)

variable (htarget : a.targetName = .file target) (hcomplete : Complete abi t a)
include htarget hcomplete

/-- The patched file takes the target's place whole, and the copy goes only after that. -/
theorem replaceTarget_safe {c : Chosen} {d₀ : Disk} (hvalid : c.Valid t a d₀) (hkept : Kept t a d) {target_sha1 : Digest}
    (hsha1 : parseSha1 a.target_sha1 = some target_sha1) {ctx : Bytes} (hpatched : Patched abi t a target c ctx d)
    (made_copy : Bool) :
    (replaceTarget t target target_sha1 c.used ctx made_copy).Safe Disk.step (Survives t a) (fun _ _ => True) d := by
  have hstays : Survives t a d := .inl hkept
  refine Prog.safe_ite (fun _ => Prog.safe_pure hstays trivial) fun hsame => ?_
  have hsha : parseSha1 a.target_sha1 = some (t.sha1 ctx) := hsha1.trans (congrArg some (not_not.mp hsame).symm)
  have hfile := hcomplete.written hvalid hpatched hsha
  refine Prog.safe_look hstays (fun _ _ h => h) fun _ _ => ?_
  refine Prog.safe_ite (fun _ => Prog.safe_pure hstays trivial) fun _ => ?_
  refine Prog.safe_look hstays (fun _ _ h => h) fun _ _ => ?_
  refine Prog.safe_ite (fun _ => Prog.safe_pure hstays trivial) fun _ => ?_
  refine Prog.safe_call hstays fun (r : Bool) d' hstep => ?_
  cases r with
  | false =>
    have hd' : d' = d := hstep
    rw [hd']
    exact Prog.safe_pure hstays trivial
  | true =>
    obtain rfl : d' = (d.setFile target (d.files (patchName target))).setFile (patchName target) none := hstep
    have hplaced : ((d.setFile target (d.files (patchName target))).setFile (patchName target) none).files target = some ctx := by
      have hne := (patchName_ne target).symm
      show Function.update _ _ _ target = _
      rw [Function.update_of_ne hne]
      exact (setFile_files ..).trans hfile
    have hholds : ∀ d'', d''.files target = some ctx → Survives t a d'' := by
      intro d'' hd''
      refine .inr ?_
      rw [htarget]
      exact ⟨ctx, hd'', .inl (.inl hsha)⟩
    refine Prog.safe_ite (fun h => absurd h (by decide)) fun _ => ?_
    refine Prog.safe_ite (fun _ => ?_) fun _ => Prog.safe_pure (hholds _ hplaced) trivial
    refine Prog.safe_call (hholds _ hplaced) fun r d'' hstep => ?_
    refine Prog.safe_pure (hholds _ ?_) trivial
    rw [(unlink_step hstep).2 target hapart.target, hplaced]

theorem lastTurn_safe {c : Chosen} (hvalid : c.Valid t a d) {target_sha1 : Digest}
    (hsha1 : parseSha1 a.target_sha1 = some target_sha1) :
    (lastTurn abi t a target target_sha1 c).Safe Disk.step (Survives t a) (fun _ _ => True) d := by
  refine Prog.safe_bind ((turn_safe hapart hvalid false).mono (fun _ h => .inl h) fun _ _ _ h => h) ?_
  rintro r d' ⟨hkept, -, hpatched⟩
  cases r with
  | returned ret => exact Prog.safe_pure (.inl hkept) trivial
  | failed made => exact Prog.safe_pure (.inl hkept) trivial
  | patched ctx made => exact replaceTarget_safe hapart htarget hcomplete hvalid hkept hsha1 (hpatched ctx made rfl) made

theorem generateFile_safe {c : Chosen} (hvalid : c.Valid t a d) {target_sha1 : Digest}
    (hsha1 : parseSha1 a.target_sha1 = some target_sha1) :
    (generateFile abi t a target target_sha1 c).Safe Disk.step (Survives t a) (fun _ _ => True) d := by
  have hturn : (turn abi t a target c true false).Safe _ _ _ d := turn_safe hapart hvalid true
  refine Prog.safe_look (.inl hturn.here) (fun _ _ h => h) fun free _ => ?_
  refine Prog.safe_ite (fun _ => ?_) fun _ => lastTurn_safe hapart htarget hcomplete hvalid hsha1
  refine Prog.safe_bind (hturn.mono (fun _ h => .inl h) fun _ _ _ h => h) ?_
  rintro r d' ⟨hkept, htouches, hpatched⟩
  cases r with
  | returned ret => exact Prog.safe_pure (.inl hkept) trivial
  | failed made =>
    refine Prog.safe_call (.inl hkept) fun r d'' hstep => ?_
    exact lastTurn_safe hapart htarget hcomplete (hvalid.touches hapart ((htouches rfl).trans (unlink_step hstep))) hsha1
  | patched ctx made => exact replaceTarget_safe hapart htarget hcomplete hvalid hkept hsha1 (hpatched ctx made rfl) made

/-! ### The whole run -/

end Safety

section Run
variable {abi : Abi} {t : Tools} {a : Args} {d : Disk}

theorem findMatchingPatch_spec {sha1 : Digest} {patches : List (CString × Value)} {i : Nat}
    (h : findMatchingPatch sha1 (patches.map Prod.fst) = some i) :
    ∃ p ∈ patches, (patches.map Prod.snd)[i]? = some p.2 ∧ parseSha1 p.1 = some sha1 := by
  obtain ⟨hlt, hmatch, _⟩ := List.findIdx?_eq_some_iff_getElem.mp h
  rw [List.length_map] at hlt
  refine ⟨patches[i], List.getElem_mem hlt, ?_, ?_⟩
  · rw [List.getElem?_map, List.getElem?_eq_getElem hlt]
    rfl
  · rw [List.getElem_map] at hmatch
    simpa using hmatch

/-- The patch that is found is listed for the SHA-1. -/
theorem patchFor_spec {file : FileContents} {patch : Value} (h : patchFor a file = some patch) :
    ∃ p ∈ a.patches, p.2 = patch ∧ parseSha1 p.1 = some file.sha1 := by
  obtain ⟨i, hi, hpatch⟩ := Option.bind_eq_some_iff.mp h
  obtain ⟨p, hp, hat, hsha⟩ := findMatchingPatch_spec hi
  exact ⟨p, hp, Option.some.inj (hat.symm.trans hpatch), hsha⟩

/-- What is chosen from a source that was loaded. -/
theorem valid_source {ret : Int} {file copy_file : FileContents} (hloaded : Loaded t d a.source (ret, file)) {data : Bytes}
    (hdata : file.data = some data) {patch : Value} (hpatch : patchFor a file = some patch) :
    Chosen.Valid t a ⟨file, some patch, copy_file, none⟩ d := by
  obtain ⟨hcontent, hsize, hsha⟩ := hloaded.data data hdata
  obtain ⟨p, hp, rfl, hlisted⟩ := patchFor_spec hpatch
  replace hlisted : parseSha1 p.1 = some (t.sha1 data) := hlisted.trans (congrArg some hsha)
  refine ⟨⟨p, hp, data, rfl, hdata, hlisted⟩, fun _ => ?_, fun h => absurd h Bool.noConfusion⟩
  exact ⟨data, hdata, hsize, hcontent, .inr ⟨p, hp, hlisted⟩⟩

/-- What is chosen from the copy. -/
theorem valid_copy {ret : Int} (file : FileContents) {copy_file : FileContents}
    (hloaded : Loaded t d (.file CACHE_TEMP_SOURCE) (ret, copy_file)) (hret : ¬ret < 0) {patch : Value}
    (hpatch : patchFor a copy_file = some patch) : Chosen.Valid t a ⟨file, none, copy_file, some patch⟩ d := by
  have hsome : copy_file.data.isSome = true := by
    have hval := hloaded.ret
    dsimp only at hval
    by_contra hnone
    rw [if_neg hnone] at hval
    omega
  obtain ⟨data, hdata⟩ := Option.isSome_iff_exists.mp hsome
  obtain ⟨hcontent, _, hsha⟩ := hloaded.data data hdata
  obtain ⟨p, hp, rfl, hlisted⟩ := patchFor_spec hpatch
  replace hlisted : parseSha1 p.1 = some (t.sha1 data) := hlisted.trans (congrArg some hsha)
  refine ⟨⟨p, hp, data, rfl, hdata, hlisted⟩, fun h => absurd h Bool.noConfusion, fun _ => ?_⟩
  exact hcontent.holds (.inr ⟨p, hp, hlisted⟩)

theorem patchFor_isSome {file : FileContents} :
    (patchFor a file).isSome = true ↔ ∃ p ∈ a.patches, parseSha1 p.1 = some file.sha1 := by
  constructor
  · intro h
    obtain ⟨patch, hpatch⟩ := Option.isSome_iff_exists.mp h
    obtain ⟨p, hp, _, hsha⟩ := patchFor_spec hpatch
    exact ⟨p, hp, hsha⟩
  · rintro ⟨p, hp, hsha⟩
    cases hfound : findMatchingPatch file.sha1 (a.patches.map Prod.fst) with
    | none =>
      have hnone := List.findIdx?_eq_none_iff.mp hfound p.1 (List.mem_map_of_mem hp)
      exact absurd hsha (by simpa using hnone)
    | some i =>
      obtain ⟨p', _, hat, _⟩ := findMatchingPatch_spec hfound
      unfold patchFor
      rw [hfound, Option.bind_some, hat]
      rfl

/-- What was loaded has the target's SHA-1. -/
def IsTarget (t : Tools) (a : Args) (loaded : Option Bytes) : Prop :=
  ∃ data, loaded = some data ∧ parseSha1 a.target_sha1 = some (t.sha1 data)

/-- What was loaded has a SHA-1 that a patch is listed for. -/
def IsSource (t : Tools) (a : Args) (loaded : Option Bytes) : Prop :=
  ∃ data, loaded = some data ∧ ∃ p ∈ a.patches, parseSha1 p.1 = some (t.sha1 data)

/-- What a choice comes from: the target was loaded and is not right, and the source was loaded
and is used if there is a patch for it; if not, the copy was loaded and there is. -/
structure From (t : Tools) (a : Args) (L : Name → Option Bytes → Prop) (c : Chosen) : Prop where
  target : ∃ loaded, L a.targetName loaded ∧ ¬IsTarget t a loaded
  source : ∃ loaded, L a.source loaded ∧ (c.source_patch.isSome = true ↔ IsSource t a loaded)
  copy : c.source_patch.isSome = false → ∃ loaded, L (.file CACHE_TEMP_SOURCE) loaded ∧ IsSource t a loaded

theorem isSource_iff {name : Name} {ret : Int} {file : FileContents} (hloaded : Loaded t d name (ret, file)) :
    IsSource t a file.data ↔ (file.data.bind fun _ => patchFor a file).isSome = true := by
  cases hdata : file.data with
  | none => simp [IsSource]
  | some data =>
    obtain ⟨_, _, hsha⟩ := hloaded.data data hdata
    rw [Option.bind_some, patchFor_isSome]
    constructor
    · rintro ⟨_, heq, p, hp, hlisted⟩
      cases heq
      exact ⟨p, hp, hlisted.trans (congrArg some hsha.symm)⟩
    · rintro ⟨p, hp, hlisted⟩
      exact ⟨data, rfl, p, hp, hlisted.trans (congrArg some hsha)⟩

/-- A run is safe when what it does with a valid choice is; `L` says what loads can give. -/
theorem applypatch_safe {M : Disk → (q : Call) → Answer q → Disk → Prop} (hM : ∀ d q r d', M d q r d' → d.step q r d')
    {L : Name → Option Bytes → Prop} {I : Disk → Prop} {R : Int → Disk → Prop}
    (hload : ∀ name file, (loadFileContents t name file).Safe M (· = d) (fun r _ => L name r.2.data) d)
    (hI : I d) (hgiveUp : R 1 d)
    (hright : ∀ data, Content t d a.targetName data → L a.targetName (some data) →
      parseSha1 a.target_sha1 = some (t.sha1 data) → R 0 d)
    (hgenerate : ∀ target_sha1 c, parseSha1 a.target_sha1 = some target_sha1 → c.Valid t a d → From t a L c →
      (generateTarget abi t a target_sha1 c).Safe M I R d) :
    (applypatch abi t a).Safe M I R d := by
  have hloads : ∀ name file, (loadFileContents t name file).Safe M I
      (fun r d' => d' = d ∧ Loaded t d name r ∧ L name r.2.data) d := by
    intro name file
    refine ((Prog.Safe.restrict (loadFileContents_does t name file) hM).and (hload name file)).mono ?_ ?_
    · rintro d' ⟨-, rfl⟩
      exact hI
    · rintro r d' - ⟨⟨hd', hloaded⟩, hdata⟩
      exact ⟨hd', hloaded, hdata⟩
  unfold applypatch
  cases hsha1 : parseSha1 a.target_sha1 with
  | none => exact Prog.safe_pure hI hgiveUp
  | some target_sha1 =>
    refine Prog.safe_look hI (fun _ _ h => hM _ _ _ _ h) fun copy_file _ => ?_
    refine Prog.safe_look hI (fun _ _ h => hM _ _ _ _ h) fun source_file _ => ?_
    refine Prog.safe_bind (hloads _ _) ?_
    rintro ⟨ret, target_file⟩ d' ⟨hd', hloaded, hL⟩
    subst d'
    refine Prog.safe_ite (fun hsame => ?_) fun hwrong => ?_
    · obtain ⟨rfl, rfl⟩ := hsame
      have hsome : target_file.data.isSome = true := by
        by_contra hnone
        have hret := hloaded.ret
        rw [if_neg hnone] at hret
        exact absurd hret (show ¬(0 : Int) = -1 by decide)
      obtain ⟨data, hdata⟩ := Option.isSome_iff_exists.mp hsome
      obtain ⟨hcontent, _, hsha⟩ := hloaded.data data hdata
      rw [hdata] at hL
      exact Prog.safe_pure hI (hright data hcontent hL (hsha1.trans (congrArg some hsha)))
    · have htarget : ¬IsTarget t a target_file.data := by
        rintro ⟨data, hdata, hsha⟩
        refine hwrong ⟨?_, ?_⟩
        · have hret := hloaded.ret
          rwa [hdata] at hret
        · rw [(hloaded.data data hdata).2.2]
          exact Option.some.inj (hsha.symm.trans hsha1)
      have hsource : (loadSource t a target_file).Safe M I
          (fun file d' => d' = d ∧ L a.source file.data ∧ ∃ ret, Loaded t d a.source (ret, file)) d := by
        refine Prog.safe_ite (fun _ => ?_) fun hkeep => ?_
        · refine Prog.safe_bind (hloads a.source target_file) ?_
          rintro r d' ⟨rfl, hr, hdata⟩
          exact Prog.safe_pure hI ⟨rfl, hdata, r.1, hr⟩
        · rw [not_or, not_not] at hkeep
          rw [hkeep.2] at hloaded hL
          exact Prog.safe_pure hI ⟨rfl, hL, ret, hloaded⟩
      refine Prog.safe_bind hsource ?_
      rintro source_file d' ⟨hd', hsourceL, ret', hsource_loaded⟩
      subst d'
      unfold applySource
      cases hfound : source_file.data.bind fun _ => patchFor a source_file with
      | some patch =>
        obtain ⟨data, hdata, hpatch⟩ := Option.bind_eq_some_iff.mp hfound
        refine hgenerate target_sha1 _ hsha1 (valid_source hsource_loaded hdata hpatch) ?_
        refine ⟨⟨_, hL, htarget⟩, ⟨_, hsourceL, fun _ => ?_, fun _ => rfl⟩, fun h => absurd h Bool.noConfusion⟩
        rw [isSource_iff hsource_loaded, hfound]
        rfl
      | none =>
        refine Prog.safe_bind (hloads _ _) ?_
        rintro ⟨ret, copy_file⟩ d' ⟨hd', hcopy, hcopyL⟩
        subst d'
        refine Prog.safe_ite (fun _ => Prog.safe_pure hI hgiveUp) fun hret => ?_
        cases hpatch : patchFor a copy_file with
        | none => exact Prog.safe_pure hI hgiveUp
        | some patch =>
          have hvalid := valid_copy {source_file with data := none} hcopy hret hpatch
          refine hgenerate target_sha1 _ hsha1 hvalid ⟨⟨_, hL, htarget⟩, ⟨_, hsourceL, ?_⟩, fun _ => ⟨_, hcopyL, ?_⟩⟩
          · rw [isSource_iff hsource_loaded, hfound]
          · obtain ⟨p, hp, old, _, hold, hlisted⟩ := hvalid.used
            exact ⟨old, hold, p, hp, hlisted⟩

end Run

/-! ### A sample -/

/-- SHA-1 of the contents that occur below. -/
def sampleSha1 (data : Bytes) : Digest :=
  if data = [65] then [109, 205, 76, 226, 61, 136, 226, 238, 149, 104, 186, 84, 108, 0, 124, 99, 217, 19, 28, 27]
  else if data = [66] then [174, 79, 40, 29, 245, 165, 208, 255, 60, 173, 99, 113, 247, 109, 92, 41, 182, 217, 83, 236]
  else []

def sampleTools : Tools where
  bspatch _ _ _ := none
  inflate _ _ := none
  inflate_le h := by cases h
  deflate _ _ := none
  malloc _ := true
  sha1 := sampleSha1
  mask := some
  mask_length h := by cases h; rfl

/-- An image patch of one raw chunk that holds the byte `B`. -/
def rawPatch : Bytes := magicIMGDIFF ++ le32 1 ++ le32 3 ++ le32 1 ++ [66]

/-- A file with the byte `A` is to become one with the byte `B`. -/
def sampleArgs (path : String) : Args where
  source := .file path.toList
  target := none
  target_sha1 := "ae4f281df5a5d0ff3cad6371f76d5c29b6d953ec"
  target_size := 1
  patches := [("6dcd4ce23d88e2ee9568ba546c007c63d9131c1b", ⟨true, rawPatch⟩)]
  bonus := none

def sampleDisk (path : String) : Disk where
  files q := if q = path.toList then some [65] else none
  parts _ _ := []

/-- No space is free on the system, and `cache` bytes are on the cache, which lists the file `app`. -/
def cramped (cache : Nat) : Machine where
  free path := if path = "/cache".toList then cache else 0
  names dir := if dir = "/cache".toList then ["app".toList] else []
  writes _ data := data.length

theorem complete_sample (path : String) : Complete .ilp32 sampleTools (sampleArgs path) := by
  intro p hp old hashed written _ hpushed _
  obtain rfl := List.mem_singleton.mp hp
  have hactions : imageActions .ilp32 sampleTools.toCodec old rawPatch none = [.raw [66]] := by
    have hlen : ¬rawPatch.length < 12 := by decide
    have hmagic : ¬rawPatch.take 8 ≠ magicIMGDIFF := by decide
    have hcount : (read4 rawPatch 8).toNat = 1 := by decide
    unfold imageActions
    rw [if_neg hlen, if_neg hmagic, hcount]
    rfl
  change Pushed (imageActions .ilp32 sampleTools.toCodec old rawPatch none) hashed written at hpushed
  show hashed.length = (output (imageActions .ilp32 sampleTools.toCodec old rawPatch none)).length
  rw [hactions] at hpushed ⊢
  cases hpushed with
  | raw _ hrest =>
    cases hrest
    rfl

theorem inCache_second {q : Path} (h : InCache q) : q[1]? = some 'c' := by
  obtain ⟨dir, hdir, name, _, rfl⟩ := h
  simp only [expendableDirs, List.mem_cons, List.not_mem_nil, or_false] at hdir
  rcases hdir with rfl | rfl
  · simp [join]
  · simp [join]

theorem apart_sample : Apart (sampleArgs "/system/app") "/system/app".toList := by
  refine ⟨fun path hpath => ?_, by decide⟩
  obtain rfl : "/system/app".toList = path := Name.file.inj hpath
  refine ⟨fun hcache => ?_, by decide⟩
  exact absurd (inCache_second hcache) (by decide)

theorem survives_sample : Survives sampleTools (sampleArgs "/system/app") (sampleDisk "/system/app") :=
  .inl (.inl ⟨[65], rfl, .inl (.inr ⟨_, List.mem_cons_self, by decide⟩)⟩)

/-- The sample on a machine, stopped after `n` calls. -/
def sampleRun (m : Machine) (path : String) (n : Nat) : Disk × Option Int :=
  (applypatch .ilp32 sampleTools (sampleArgs path)).interp m.answer n (sampleDisk path)

theorem exec_sampleRun (m : Machine) (path : String) (n : Nat) :
    Prog.Exec Disk.step (sampleDisk path) (applypatch .ilp32 sampleTools (sampleArgs path)) (sampleRun m path n).1
      (sampleRun m path n).2 := Prog.exec_interp m.answer_step n _ _

end Twrp.Patch
