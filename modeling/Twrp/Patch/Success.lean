import Twrp.Patch.Source

/-! What a run that reports success has done.

A run that returns 0 leaves a target with the right SHA-1, and running it once more does nothing;
one that returns anything else leaves the target file alone, or in the cache if it is the source.
All this holds as long as no write of the patched file fails, or as long as no output with a
normal chunk left out is taken for the target: the result of a normal chunk is not looked at. -/
namespace Twrp.Patch
open Base

/-! ### The target -/

section Target
variable (t : Tools) (a : Args)

/-- The name holds a content with the target's SHA-1, as it is or as it is loaded. -/
def Right (d : Disk) : Name → Prop
  | .file path => ∃ content, d.files path = some content ∧
      (parseSha1 a.target_sha1 = some (t.sha1 content) ∨ IsTarget t a (t.mask content))
  | .part p => ∃ content, content <+: d.parts p.type p.device ∧ parseSha1 a.target_sha1 = some (t.sha1 content)

/-- A target that is right is loaded as one: masking a file does not hide it, and a partition
lists it and nothing that is found before it. -/
def Recognised : Name → Prop
  | .file _ => ∀ content, parseSha1 a.target_sha1 = some (t.sha1 content) → IsTarget t a (t.mask content)
  | .part p => ∀ d, Right t a d (.part p) → IsTarget t a (d.load t (.part p))

variable {t} {a} {d : Disk}

theorem Right.load {name : Name} (h : Right t a d name) (hrecognised : Recognised t a name) :
    IsTarget t a (d.load t name) := by
  cases name with
  | file path =>
    obtain ⟨content, hcontent, hsha⟩ := h
    have hload : d.load t (.file path) = t.mask content := by
      show (d.files path).bind t.mask = _
      rw [hcontent]
      rfl
    rw [hload]
    exact hsha.elim (hrecognised content) id
  | part p => exact hrecognised d h

theorem Content.right {name : Name} {data : Bytes} (h : Content t d name data)
    (hsha : parseSha1 a.target_sha1 = some (t.sha1 data)) : Right t a d name := by
  cases name with
  | file path =>
    obtain ⟨bytes, hbytes, hmask⟩ := h
    exact ⟨bytes, hbytes, .inr ⟨data, hmask, hsha⟩⟩
  | part p => exact ⟨data, h, hsha⟩

end Target

/-! ### A second call -/

section Again
variable (t : Tools) {d : Disk}

/-- The calls of a load. -/
def Reads : Call → Prop
  | .stat _ | .readFile _ | .openPart _ _ | .readPart _ _ _ _ => True
  | _ => False

theorem loadPairs_reads (p : Partition) (pairs : List (Nat × CString)) (soFar : Bytes) (file : FileContents) :
    (loadPairs t p pairs soFar file).All Reads := by
  induction pairs generalizing soFar file with
  | nil => exact Prog.all_pure _
  | cons pair rest ih =>
    rw [loadPairs]
    apply Prog.all_bind
    · exact Prog.all_ite (fun _ => Prog.all_ask trivial) fun _ => Prog.all_pure _
    · intro read
      cases read with
      | none => exact Prog.all_pure _
      | some bytes =>
        dsimp only
        cases parseSha1 pair.2 with
        | none => exact Prog.all_pure _
        | some sha1 => exact Prog.all_ite (fun _ => Prog.all_pure _) fun _ => ih _ _

theorem loadFileContents_reads (name : Name) (file : FileContents) : (loadFileContents t name file).All Reads := by
  cases name with
  | part p =>
    refine Prog.all_ite (fun _ => Prog.all_pure _) fun _ => Prog.all_bind (Prog.all_ask trivial) fun opened => ?_
    exact Prog.all_ite (fun _ => Prog.all_pure _) fun _ => loadPairs_reads t p _ _ _
  | file path =>
    refine Prog.all_bind (Prog.all_ask trivial) fun found => ?_
    cases found with
    | none => exact Prog.all_pure _
    | some found =>
      refine Prog.all_bind (Prog.all_ask trivial) fun read => ?_
      cases read with
      | none => exact Prog.all_pure _
      | some bytes =>
        dsimp only
        cases t.mask bytes with
        | none => exact Prog.all_pure _
        | some masked => exact Prog.all_pure _

/-- A read has an answer that is not a failure. -/
theorem exists_read (q : Call) (h : Reads q) : ∃ r, Disk.readStep True d q r d := by
  let m : Machine := ⟨fun _ => 0, fun _ => [], fun _ _ => 0⟩
  have hanswer : ∃ r, m.answer d q = some (r, d) := by
    cases q with
    | stat path => exact ⟨_, rfl⟩
    | readFile path => exact ⟨_, rfl⟩
    | openPart type device => exact ⟨_, rfl⟩
    | readPart type device pos len => exact ⟨_, rfl⟩
    | _ => exact absurd h id
  obtain ⟨r, hr⟩ := hanswer
  exact ⟨r, m.answer_step d q r d hr, fun _ => m.answer_readable d q r d hr⟩

variable {t} {abi : Abi} {a : Args} {target_sha1 : Digest}

/-- What is loaded from a target that is right. -/
theorem loaded_right (hsha1 : parseSha1 a.target_sha1 = some target_sha1) (hright : IsTarget t a (d.load t a.targetName))
    (file : FileContents) :
    (loadFileContents t a.targetName file).Safe (Disk.readStep True) (· = d)
      (fun r d' => d' = d ∧ r.1 = 0 ∧ r.2.sha1 = target_sha1) d := by
  have hloaded : Does Nothing (loadFileContents t a.targetName file) d _ := loadFileContents_does t a.targetName file
  apply ((loadFileContents_safe True t a.targetName file).and (Prog.Safe.restrict hloaded fun _ _ _ _ h => h.1)).mono fun _ h => h.1
  intro r d' _ h
  obtain ⟨⟨hd', hfinds⟩, _, hret⟩ := h
  obtain ⟨data, hdata, hsha⟩ := hright
  have hfound : r.2.data = some data := hfinds.eq.trans hdata
  refine ⟨hd', ?_, ?_⟩
  · rw [hret.ret, hfound]
    rfl
  · rw [(hret.data data hfound).2.2]
    exact Option.some.inj (hsha.symm.trans hsha1)

/-- On a target that is right, a run does nothing and returns 0. -/
theorem applypatch_again (hright : IsTarget t a (d.load t a.targetName)) :
    (applypatch abi t a).Safe (Disk.readStep True) (· = d) (fun ret _ => ret = 0) d := by
  have hsha := hright
  obtain ⟨data, _, hsha1⟩ := hsha
  unfold applypatch
  rw [hsha1]
  refine Prog.safe_look rfl (fun _ _ h => h.1) fun copy_file _ => ?_
  refine Prog.safe_look rfl (fun _ _ h => h.1) fun source_file _ => ?_
  apply Prog.safe_bind (loaded_right hsha1 hright _)
  intro r d' h
  obtain ⟨rfl, hret, hsame⟩ := h
  exact Prog.safe_ite (fun _ => Prog.safe_pure rfl rfl) fun hwrong => absurd ⟨hret, hsame⟩ hwrong

/-- Such a run does return. -/
theorem exec_again (hright : IsTarget t a (d.load t a.targetName)) :
    Prog.Exec (Disk.readStep True) d (applypatch abi t a) d (some 0) := by
  have hsha := hright
  obtain ⟨data, _, hsha1⟩ := hsha
  let file : FileContents := ⟨[], none, 0, ⟨0, 0, 0⟩⟩
  have huninit : Prog.Exec (Disk.readStep True) d Sys.uninit d (some file) :=
    .call file ⟨rfl, fun _ => trivial⟩ (.done d file)
  obtain ⟨r, hload⟩ := Prog.exec_all (loadFileContents_reads t a.targetName file) (exists_read (d := d))
  obtain ⟨_, hret, hsame⟩ := ((loaded_right hsha1 hright file).exec hload).2 r rfl
  unfold applypatch
  rw [hsha1]
  refine Prog.exec_bind huninit (Prog.exec_bind huninit (Prog.exec_bind hload ?_))
  dsimp only
  rw [if_pos ⟨hret, hsame⟩]
  exact .done d 0

end Again

/-! ### The first call -/

section First
variable (abi : Abi) (t : Tools) (a : Args)

/-- No block of an MTD partition is left out and, if `whole`, no write of the patched file fails. -/
def Sound (whole : Prop) : (q : Call) → Answer q → Prop
  | .write path data, (wrote : Int) => whole → ∀ target, a.targetName = .file target → path = patchName target →
      data ≠ [] → 0 < wrote
  | .mtdClose _ _, r => r ≠ .skipped
  | _, _ => True

def Disk.soundStep (whole : Prop) (d : Disk) (q : Call) (r : Answer q) (d' : Disk) : Prop := d.step q r d' ∧ Sound a whole q r

/-- The target file is as it was, or it is the source and is now in the cache. -/
def Intact (target : Path) (d d' : Disk) : Prop :=
  d'.files target = d.files target ∨
    a.source = .file target ∧ d'.files target = none ∧
      ∃ data, d.load t (.file target) = some data ∧ d'.files CACHE_TEMP_SOURCE = some data

variable {abi} {t} {a} {whole : Prop} {d d₁ d₂ : Disk} {target : Path}

theorem soundStep_step {d d' : Disk} (q : Call) (r : Answer q) (h : d.soundStep a whole q r d') : d.step q r d' := h.1

theorem Does.soundSafe {α : Type} {U : Path → Prop} {x : Io α} {R R' : α → Disk → Prop} (h : Does U x d R)
    (hR : ∀ r d', Touches U d d' → R r d' → R' r d') : x.Safe (Disk.soundStep a whole) (fun _ => True) R' d :=
  Prog.Safe.restrict (h.safe (fun _ _ => trivial) hR) fun _ _ _ _ => soundStep_step _ _

theorem Intact.touches (h : Intact t a target d d₁) (ht : Touches (· = patchName target) d₁ d₂) : Intact t a target d d₂ := by
  have htarget : d₂.files target = d₁.files target := ht.2 target (patchName_ne target).symm
  have hcopy : d₂.files CACHE_TEMP_SOURCE = d₁.files CACHE_TEMP_SOURCE := ht.2 _ (patchName_ne_copy target).symm
  unfold Intact
  rwa [htarget, hcopy]

theorem accepts_sound (htarget : a.targetName = .file target) : Accepts (Disk.soundStep a whole) whole target := by
  intro d data wrote d' hstep
  exact ⟨hstep.1.1, fun hwhole => hstep.2 hwhole target htarget rfl⟩

variable (hcache : ¬InCache target)
include hcache

/-- Making room leaves the target, or moves it. -/
theorem makeRoom_intact {file : FileContents} {data : Bytes} (hdata : file.data = some data) (hsize : file.size = data.length)
    (hload : a.source = .file target → d.load t (.file target) = some data) (hsame : d₁.files target = d.files target) :
    (makeRoom abi a file).Safe (Disk.soundStep a whole) (fun _ => True) (fun _ d' => Intact t a target d d') d₁ := by
  unfold makeRoom
  split
  · exact Prog.safe_pure trivial (.inl hsame)
  · rename_i source hsource
    apply Prog.safe_bind ((backUp_does abi file).soundSafe fun _ _ ht h => And.intro ht h)
    intro ok d' h
    obtain ⟨ht, hsaved⟩ := h
    have hkept : d'.files target = d.files target := (ht.2 target hcache).trans hsame
    cases ok with
    | false => exact Prog.safe_pure trivial (.inl hkept)
    | true =>
      refine Prog.safe_call trivial fun (r : Bool) d'' hstep => Prog.safe_pure trivial ?_
      have htouches := unlink_step hstep.1
      by_cases hne : target = source
      · subst hne
        cases r with
        | false =>
          obtain rfl : d'' = d' := hstep.1
          exact .inl hkept
        | true =>
          obtain rfl : d'' = d'.setFile target none := hstep.1
          refine .inr ⟨hsource, setFile_files .., data, hload hsource, ?_⟩
          rw [htouches.2 _ fun h => hcache (h ▸ inCache_copy)]
          exact hsaved rfl data hdata hsize
      · exact .inl ((htouches.2 target hne).trans hkept)

/-- What the run comes to: a target that is right, or one that is as it was. -/
def Ends (t : Tools) (a : Args) (target : Path) (d : Disk) (ret : Int) (d' : Disk) : Prop :=
  (ret = 0 → Right t a d' (.file target)) ∧ (ret ≠ 0 → Intact t a target d d')

omit hcache in
theorem Intact.ends (h : Intact t a target d d₁) : Ends t a target d 1 d₁ := ⟨fun h => absurd h (by decide), fun _ => h⟩

variable (htarget : a.targetName = .file target) {c : Chosen} (hvalid : c.Valid t a d)
include htarget hvalid

/-- A turn leaves the target or moves it; one with room leaves it. -/
theorem turn_intact (enough : Bool) (hsame : d₁.files target = d.files target) :
    (turn abi t a target c enough false).Safe (Disk.soundStep a whole) (fun _ => True) (fun r d' => Intact t a target d d' ∧
      (enough = true → d'.files target = d.files target) ∧
      (∀ ctx made, r = .patched ctx made → Patched abi t a target c ctx d') ∧ r.Fits abi t a whole c) d₁ := by
  have hpatch : ∀ (made : Bool) (d₂ : Disk), (patchFile abi t a target c made).Safe (Disk.soundStep a whole) (fun _ => True)
      (fun r d' => Touches (· = patchName target) d₂ d' ∧
        (∀ ctx made, r = .patched ctx made → Patched abi t a target c ctx d') ∧ r.Fits abi t a whole c) d₂ := by
    intro made d₂
    have hdoes : (patchFile abi t a target c made).Safe (Disk.soundStep a whole) (fun _ => True) _ d₂ :=
      (patchFile_does abi t a target c made).soundSafe fun r d' ht h => And.intro ht h
    apply (hdoes.and (patchFile_fits (accepts_sound htarget) c made)).mono fun _ _ => trivial
    exact fun r d' _ h => ⟨h.1.1, fun ctx made heq => (h.1.2 ctx made heq).2, h.2⟩
  refine Prog.safe_ite (fun hroom => ?_) fun _ => ?_
  · obtain ⟨data, hdata, hsize, hcontent, _⟩ := hvalid.source hroom.2
    have hload : a.source = .file target → d.load t (.file target) = some data := by
      intro hsource
      rw [hsource] at hcontent
      obtain ⟨bytes, hbytes, hmask⟩ := hcontent
      show (d.files target).bind t.mask = _
      rw [hbytes]
      exact hmask
    have hnot : ¬enough = true := by
      intro henough
      rw [henough] at hroom
      exact absurd hroom.1 (by decide)
    apply Prog.safe_bind (makeRoom_intact hcache hdata hsize hload hsame)
    intro r d' hintact
    cases r with
    | none =>
      refine Prog.safe_pure trivial ⟨hintact, fun h => absurd h hnot, fun ctx made heq => ?_, rfl⟩
      cases heq
    | some made =>
      apply (hpatch made d').mono fun _ h => h
      exact fun r d'' _ h => ⟨hintact.touches h.1, fun h => absurd h hnot, h.2⟩
  · apply (hpatch false d₁).mono fun _ h => h
    intro r d' _ h
    have hkept : d'.files target = d.files target := (h.1.2 target (patchName_ne target).symm).trans hsame
    exact ⟨.inl hkept, fun _ => hkept, h.2⟩

variable (hwhole : whole ∨ Complete abi t a) {target_sha1 : Digest} (hsha1 : parseSha1 a.target_sha1 = some target_sha1)
include hwhole hsha1

omit htarget in
/-- The patched file takes the target's place only if all of it was written. -/
theorem replaceTarget_ends {ctx : Bytes} {made_copy : Bool} (hintact : Intact t a target d d₁)
    (hpatched : Patched abi t a target c ctx d₁) (hfits : (Turn.patched ctx made_copy).Fits abi t a whole c) :
    (replaceTarget t target target_sha1 c.used ctx made_copy).Safe (Disk.soundStep a whole) (fun _ => True)
      (Ends t a target d) d₁ := by
  have hgiveUp : (pure 1 : Io Int).Safe (Disk.soundStep a whole) (fun _ => True) (Ends t a target d) d₁ :=
    Prog.safe_pure trivial hintact.ends
  refine Prog.safe_ite (fun _ => hgiveUp) fun hsame => ?_
  have hsha : parseSha1 a.target_sha1 = some (t.sha1 ctx) := by rw [hsha1, not_not.mp hsame]
  have hfile : d₁.files (patchName target) = some ctx := by
    rcases hwhole with hwhole | hcomplete
    · obtain ⟨patch, old, written, hpatch, hold, happlied, hwritten⟩ := hpatched
      rw [hwritten, (hfits hwhole).2 patch old written hpatch hold happlied]
    · exact hcomplete.written hvalid hpatched hsha
  refine Prog.safe_look trivial (fun _ _ h => h.1) fun _ _ => Prog.safe_ite (fun _ => hgiveUp) fun _ => ?_
  refine Prog.safe_look trivial (fun _ _ h => h.1) fun _ _ => Prog.safe_ite (fun _ => hgiveUp) fun _ => ?_
  refine Prog.safe_call trivial fun (r : Bool) d' hstep => ?_
  cases r with
  | false =>
    obtain rfl : d' = d₁ := hstep.1
    exact hgiveUp
  | true =>
    obtain rfl : d' = (d₁.setFile target (d₁.files (patchName target))).setFile (patchName target) none := hstep.1
    have hright : ∀ d'', d''.files target = some ctx → Ends t a target d 0 d'' := by
      intro d'' hd''
      exact ⟨fun _ => ⟨ctx, hd'', .inl hsha⟩, fun h => absurd rfl h⟩
    have hplaced : ((d₁.setFile target (d₁.files (patchName target))).setFile (patchName target) none).files target = some ctx := by
      show Function.update _ _ _ target = _
      rw [Function.update_of_ne (patchName_ne target).symm]
      exact (setFile_files ..).trans hfile
    refine Prog.safe_ite (fun h => absurd h (by decide)) fun _ => ?_
    refine Prog.safe_ite (fun _ => ?_) fun _ => Prog.safe_pure trivial (hright _ hplaced)
    refine Prog.safe_call trivial fun r d'' hunlink => Prog.safe_pure trivial (hright _ ?_)
    rw [(unlink_step hunlink.1).2 target fun h => hcache (h ▸ inCache_copy), hplaced]

theorem lastTurn_ends (hsame : d₁.files target = d.files target) :
    (lastTurn abi t a target target_sha1 c).Safe (Disk.soundStep a whole) (fun _ => True) (Ends t a target d) d₁ := by
  apply Prog.safe_bind (turn_intact hcache htarget hvalid false hsame)
  intro r d' h
  obtain ⟨hintact, _, hpatched, hfits⟩ := h
  cases r with
  | returned ret =>
    obtain rfl : ret = 1 := hfits
    exact Prog.safe_pure trivial hintact.ends
  | failed made => exact Prog.safe_pure trivial hintact.ends
  | patched ctx made => exact replaceTarget_ends hcache hvalid hwhole hsha1 hintact (hpatched ctx made rfl) hfits

theorem generateFile_ends :
    (generateFile abi t a target target_sha1 c).Safe (Disk.soundStep a whole) (fun _ => True) (Ends t a target d) d := by
  refine Prog.safe_look trivial (fun _ _ h => h.1) fun free _ => ?_
  refine Prog.safe_ite (fun _ => ?_) fun _ => lastTurn_ends hcache htarget hvalid hwhole hsha1 rfl
  apply Prog.safe_bind (turn_intact hcache htarget hvalid true rfl)
  intro r d' h
  obtain ⟨hintact, hkept, hpatched, hfits⟩ := h
  cases r with
  | returned ret =>
    obtain rfl : ret = 1 := hfits
    exact Prog.safe_pure trivial hintact.ends
  | failed made =>
    refine Prog.safe_call trivial fun r d'' hunlink => lastTurn_ends hcache htarget hvalid hwhole hsha1 ?_
    rw [(unlink_step hunlink.1).2 target (patchName_ne target).symm, hkept rfl]
  | patched ctx made => exact replaceTarget_ends hcache hvalid hwhole hsha1 hintact (hpatched ctx made rfl) hfits

end First

/-- **Success means that the target is right.** A run that returns 0 leaves a right target, and a
second run does nothing and returns 0; a run that returns something else leaves a target file
alone, or in the cache if it is the source. -/
theorem success_right {abi : Abi} {t : Tools} {a : Args} {whole : Prop} {d d' : Disk} {ret : Int}
    (hwhole : whole ∨ Complete abi t a) (hcache : ∀ target, a.targetName = .file target → ¬InCache target)
    (hrecognised : Recognised t a a.targetName)
    (hexec : Prog.Exec (Disk.soundStep a whole) d (applypatch abi t a) d' (some ret)) :
    (ret = 0 → Right t a d' a.targetName ∧
      Prog.Exec (Disk.readStep True) d' (applypatch abi t a) d' (some 0) ∧
      ∀ d'' o, Prog.Exec (Disk.readStep True) d' (applypatch abi t a) d'' o → d'' = d' ∧ ∀ ret', o = some ret' → ret' = 0) ∧
    (ret ≠ 0 → ∀ target, a.targetName = .file target → Intact t a target d d') := by
  have hsafe : (applypatch abi t a).Safe (Disk.soundStep a whole) (fun _ => True) (fun ret d' =>
      (ret = 0 → Right t a d' a.targetName) ∧
        (ret ≠ 0 → ∀ target, a.targetName = .file target → Intact t a target d d')) d := by
    have hload : ∀ name file, (loadFileContents t name file).Safe (Disk.soundStep a whole) (· = d) (fun _ _ => True) d := by
      intro name file
      have hdoes : Does Nothing (loadFileContents t name file) d _ := loadFileContents_does t name file
      apply (Prog.Safe.restrict hdoes fun _ _ _ _ => soundStep_step _ _).mono
      · exact fun _ ht => eq_of_touches_nothing ht
      · exact fun _ _ _ _ => trivial
    apply applypatch_safe (L := fun _ _ => True) (fun _ _ _ _ => soundStep_step _ _) hload trivial
    · exact ⟨fun h => absurd h (by decide), fun _ target _ => .inl rfl⟩
    · intro data hcontent _ hsha
      exact ⟨fun _ => hcontent.right hsha, fun h => absurd rfl h⟩
    intro target_sha1 c hsha1 hvalid _
    unfold generateTarget
    cases htarget : a.targetName with
    | part p =>
      have hleaves : (generatePart abi t a p target_sha1 c).Safe (Disk.flashStep True) (Leaves InCache p d) _ d :=
        generatePart_leaves p hsha1 c
      have hsolid : ∀ {q : Call} {r : Answer q}, Sound a whole q r → NoSkip q r := by
        intro q r h
        cases q with
        | mtdClose device data => exact h
        | _ => trivial
      apply (hleaves.restrict fun _ _ _ _ h => ⟨h.1, fun _ => hsolid h.2⟩).mono fun _ _ => trivial
      intro ret d' _ h
      refine ⟨fun hret => h trivial hret, fun _ target htarget => ?_⟩
      cases htarget
    | file target =>
      apply (generateFile_ends (hcache target htarget) htarget hvalid hwhole hsha1).mono fun _ h => h
      intro ret d' _ h
      refine ⟨h.1, fun hret target' htarget' => ?_⟩
      obtain rfl := Name.file.inj htarget'
      exact h.2 hret
  obtain ⟨hsuccess, hfailure⟩ := (hsafe.exec hexec).2 ret rfl
  refine ⟨fun hret => ?_, hfailure⟩
  have hright := hsuccess hret
  have hload := hright.load hrecognised
  exact ⟨hright, exec_again hload, fun d'' o hexec' => (applypatch_again hload).exec hexec'⟩

/-! ### A sample -/

theorem roomy_sound (d : Disk) (q : Call) (r : Answer q) (d' : Disk) (h : roomy.answer d q = some (r, d')) :
    Disk.soundStep moveArgs True d q r d' := by
  refine ⟨roomy.answer_step d q r d' h, ?_⟩
  cases q with
  | write path data => exact (roomy_undisturbed d d _ r d' h).2
  | mtdClose device data => cases h
  | _ => trivial

/-- The file `/system/new` is right after the run. -/
theorem success_right_sample : (moveRun roomy).2 = some 0 ∧ Right sampleTools moveArgs (moveRun roomy).1 moveArgs.targetName := by
  have hreturned : (moveRun roomy).2 = some 0 := by decide
  refine ⟨hreturned, ?_⟩
  have hcache : ∀ target, moveArgs.targetName = .file target → ¬InCache target := by
    intro target htarget hin
    obtain rfl := Name.file.inj htarget
    exact absurd (inCache_second hin) (by decide)
  have hrecognised : Recognised sampleTools moveArgs moveArgs.targetName := fun content hsha => ⟨content, rfl, hsha⟩
  exact ((success_right (.inl trivial) hcache hrecognised (exec_moveRun roomy roomy_sound hreturned)).1 rfl).1

/-- An image patch of a normal chunk, which gives `XY`, and a raw one that holds a `B`. -/
def twoChunks : Bytes :=
  magicIMGDIFF ++ le32 2 ++
    le32 0 ++ le32 0 ++ le32 0 ++ le32 1 ++ le32 0 ++ le32 49 ++ le32 0 ++
    le32 3 ++ le32 1 ++ [66] ++
    magicBSDIFF ++ le32 41 ++ le32 0 ++ le32 14 ++ le32 0 ++ le32 2 ++ le32 0 ++
    [66, 90, 104, 57, 49, 65, 89, 38, 83, 89, 91, 60, 253, 177, 0, 0, 0, 64, 0, 84, 8, 32, 0, 33, 140, 131, 52, 209, 9, 93,
      56, 187, 146, 41, 194, 132, 130, 217, 231, 237, 136] ++
    [66, 90, 104, 57, 23, 114, 69, 56, 80, 144, 0, 0, 0, 0] ++
    [66, 90, 104, 57, 49, 65, 89, 38, 83, 89, 126, 73, 116, 135, 0, 0, 0, 2, 0, 0, 96, 32, 0, 33, 0, 130, 177, 119, 36, 83,
      133, 9, 7, 228, 151, 72, 112]

/-- `ApplyBSDiffPatchMem` on the only call of it below, and SHA-1 of the contents that occur. -/
def chunkTools : Tools :=
  {sampleTools with
    bspatch := fun _ patch offset => if patch = twoChunks ∧ offset = 49 then some [88, 89] else none
    sha1 := fun data =>
      if data = [88, 66] then [181, 52, 176, 165, 34, 118, 59, 14, 38, 86, 211, 137, 185, 71, 113, 115, 11, 149, 10, 7]
      else sampleSha1 data}

def chunkArgs : Args :=
  {moveArgs with patches := [("6dcd4ce23d88e2ee9568ba546c007c63d9131c1b", ⟨true, twoChunks⟩)]}

/-- The first write stores one byte, and the second one fails. -/
def unsteady : Machine where
  free _ := 1000000
  names _ := []
  writes _ data := if data = [88, 89] then 1 else if data = [89] then -1 else data.length

def chunkRun : Disk × Option Int :=
  (applypatch .ilp32 chunkTools chunkArgs).interp unsteady.answer 30 (sampleDisk "/system/app")

/-- A run that stores half of a normal chunk and none of it in the hash. -/
theorem success_wrong : ∃ d, Prog.Exec Disk.step (sampleDisk "/system/app") (applypatch .ilp32 chunkTools chunkArgs) d (some 0) ∧
    ¬Right chunkTools chunkArgs d chunkArgs.targetName := by
  have hreturned : chunkRun.2 = some 0 := by decide +kernel
  have hwritten : chunkRun.1.files "/system/new".toList = some [88, 66] := by decide +kernel
  have hexec : Prog.Exec Disk.step (sampleDisk "/system/app") (applypatch .ilp32 chunkTools chunkArgs) chunkRun.1 chunkRun.2 :=
    Prog.exec_interp unsteady.answer_step 30 _ _
  rw [hreturned] at hexec
  refine ⟨_, hexec, ?_⟩
  intro hright
  obtain ⟨content, hcontent, hsha⟩ := hright
  obtain rfl := Option.some.inj (hwritten.symm.trans hcontent)
  have hwrong : ¬parseSha1 chunkArgs.target_sha1 = some (chunkTools.sha1 [88, 66]) := by decide
  rcases hsha with hsha | ⟨data, hdata, hsha⟩
  · exact hwrong hsha
  · obtain rfl := Option.some.inj hdata
    exact hwrong hsha

end Twrp.Patch
