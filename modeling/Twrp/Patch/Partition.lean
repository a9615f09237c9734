import Twrp.Patch.Reading

/-! Runs on a partition.

Writing a partition leaves everything else alone, and when it is reported as done the partition
starts with the data: an EMMC device because it has been read back, an MTD partition because its
writer has left out no block that is not marked bad. -/
namespace Twrp.Patch
open Base

/-- Only the files in `U` and one partition have changed. -/
structure Leaves (U : Path → Prop) (p : Partition) (d d' : Disk) : Prop where
  files : ∀ q, ¬U q → d'.files q = d.files q
  parts : ∀ type device, ¬(type = p.type ∧ device = p.device) → d'.parts type device = d.parts type device

section Leaves
variable {U : Path → Prop} {p : Partition} {d d' d'' : Disk}

theorem Leaves.refl (U : Path → Prop) (p : Partition) (d : Disk) : Leaves U p d d := ⟨fun _ _ => rfl, fun _ _ _ => rfl⟩

theorem Leaves.trans (h : Leaves U p d d') (h' : Leaves U p d' d'') : Leaves U p d d'' :=
  ⟨fun q hq => (h'.files q hq).trans (h.files q hq), fun type device hne => (h'.parts type device hne).trans (h.parts type device hne)⟩

theorem Touches.leaves (h : Touches U d d') (p : Partition) : Leaves U p d d' := by
  refine ⟨h.2, fun type device _ => ?_⟩
  rw [h.1]

theorem leaves_setPart (U : Path → Prop) (p : Partition) (d : Disk) (content : Bytes) :
    Leaves U p d (d.setPart p.type p.device content) := by
  refine ⟨fun _ _ => rfl, fun type device hne => ?_⟩
  show Function.update d.parts p.type _ type device = _
  by_cases htype : type = p.type
  · subst htype
    rw [Function.update_self, Function.update_of_ne fun hdevice => hne ⟨rfl, hdevice⟩]
  · rw [Function.update_of_ne htype]

end Leaves

theorem setPart_parts (d : Disk) (type : PartitionType) (device : Path) (content : Bytes) :
    (d.setPart type device content).parts type device = content := by
  show Function.update d.parts type _ type device = _
  rw [Function.update_self, Function.update_self]

/-- The MTD writer leaves out no block that is not marked bad. -/
def NoSkip : (q : Call) → Answer q → Prop
  | .mtdClose _ _, r => r ≠ .skipped
  | _, _ => True

/-- A machine that leaves out no block, if it is said not to. -/
def Disk.flashStep (solid : Prop) (d : Disk) (q : Call) (r : Answer q) (d' : Disk) : Prop :=
  d.step q r d' ∧ (solid → NoSkip q r)

section Write
variable (solid : Prop) (p : Partition) (data : Bytes) {d : Disk}

/-- From `d`, the program changes nothing but the partition, and ends with `R`. -/
def Flashes {α : Type} (x : Io α) (d : Disk) (R : α → Disk → Prop) : Prop :=
  x.Safe (Disk.flashStep solid) (Leaves Nothing p d) R d

variable {solid} {p} {data}

theorem flashes_bind {α β : Type} {x : Io α} {f : α → Io β} {R : α → Disk → Prop} {R' : β → Disk → Prop}
    (hx : Flashes solid p x d R) (hf : ∀ r d', R r d' → Flashes solid p (f r) d' R') : Flashes solid p (x >>= f) d R' := by
  refine Prog.safe_bind (Prog.Safe.keep hx) ?_
  rintro r d' ⟨hleaves, hr⟩
  exact Prog.Safe.mono (hf r d' hr) (fun _ h => hleaves.trans h) fun _ _ _ h => h

theorem flashes_pure {α : Type} {r : α} {R : α → Disk → Prop} (h : R r d) : Flashes solid p (pure r) d R := ⟨Leaves.refl _ _ _, h⟩

theorem flashes_call {q : Call} {β : Type} {f : Answer q → Io β} {R : β → Disk → Prop}
    (h : ∀ r d', d.flashStep solid q r d' → Leaves Nothing p d d' ∧ Flashes solid p (f r) d' R) : Flashes solid p (Prog.ask q >>= f) d R := by
  refine Prog.safe_call (Leaves.refl _ _ _) fun r d' hstep => ?_
  obtain ⟨hleaves, hrest⟩ := h r d' hstep
  exact Prog.Safe.mono hrest (fun _ h => hleaves.trans h) fun _ _ _ h => h

theorem flashes_look {q : Call} {β : Type} {f : Answer q → Io β} {R : β → Disk → Prop}
    (hsame : ∀ r d', d.step q r d' → d' = d) (h : ∀ r, d.flashStep solid q r d → Flashes solid p (f r) d R) :
    Flashes solid p (Prog.ask q >>= f) d R := Prog.safe_look (Leaves.refl _ _ _) (fun r d' hstep => hsame r d' hstep.1) h

theorem mtdBlocks_flashes (htype : p.type = .MTD) (n : Nat) : Flashes solid p (mtdBlocks p.device n) d fun _ _ => True := by
  induction n generalizing d with
  | zero => exact flashes_pure trivial
  | succ n ih =>
    refine flashes_call fun r d' hstep => ?_
    obtain ⟨content, rfl⟩ := hstep.1
    rw [← htype]
    exact ⟨leaves_setPart _ _ _ _, ih⟩

theorem writeMtd_flashes (htype : p.type = .MTD) :
    Flashes solid p (writeMtd p.device data) d fun ret d' => solid → ret = 0 → data <+: d'.parts p.type p.device := by
  refine flashes_look (fun _ _ h => h) fun opened _ => ?_
  cases opened with
  | false => exact flashes_pure fun _ h => absurd h (by decide)
  | true =>
    refine flashes_look (fun _ _ h => h) fun blocks _ => ?_
    refine flashes_bind (mtdBlocks_flashes htype blocks) fun _ d' _ => ?_
    refine flashes_call fun r d'' hstep => ?_
    obtain ⟨⟨content, rfl, hwritten⟩, hskip⟩ := hstep
    rw [← htype]
    refine ⟨leaves_setPart _ _ _ _, ?_⟩
    cases r with
    | failed => exact flashes_pure fun _ h => absurd h (by decide)
    | written =>
      refine flashes_pure fun _ _ => ?_
      rw [setPart_parts]
      exact hwritten rfl
    | skipped => exact flashes_pure fun hsolid => absurd rfl (hskip hsolid)

theorem writeFrom_flashes (htype : p.type = .EMMC) (fuel start : Nat) :
    Flashes solid p (writeFrom p.device data fuel start) d fun _ _ => True := by
  induction fuel generalizing d start with
  | zero => exact ⟨Leaves.refl _ _ _, fun r => r.elim⟩
  | succ fuel ih =>
    refine Prog.safe_ite (fun _ => ?_) fun _ => flashes_pure trivial
    refine flashes_call fun r d' hstep => ?_
    obtain ⟨stored, rfl, _⟩ := hstep.1
    rw [← htype]
    refine ⟨leaves_setPart _ _ _ _, ?_⟩
    cases r with
    | got written => exact ih _
    | interrupted => exact ih _
    | error => exact flashes_pure trivial

/-- The buffer holds what the device has there. -/
theorem readBuffer_flashes (htype : p.type = .EMMC) {pos toRead : Nat} (fuel : Nat) {soFar : Bytes}
    (hsoFar : soFar = ((d.parts p.type p.device).drop pos).take soFar.length) (hle : soFar.length ≤ toRead) :
    Flashes solid p (readBuffer p.device pos toRead fuel soFar) d fun r d' => d' = d ∧ ∀ buffer, r = some buffer →
      buffer = ((d.parts p.type p.device).drop pos).take toRead := by
  induction fuel generalizing soFar with
  | zero => exact ⟨Leaves.refl _ _ _, fun r => r.elim⟩
  | succ fuel ih =>
    refine Prog.safe_ite (fun _ => ?_) fun hdone => flashes_pure ⟨rfl, fun buffer hbuffer => ?_⟩
    · refine flashes_look (fun _ _ h => h.1) fun r hstep => ?_
      cases r with
      | got bytes =>
        obtain ⟨⟨_, hlen, hbytes⟩, _⟩ := hstep
        rw [← htype] at hbytes
        refine ih ?_ ?_
        · rw [List.length_append, List.take_add, ← hsoFar, List.drop_drop, ← hbytes]
        · rw [List.length_append]
          omega
      | interrupted => exact ih hsoFar hle
      | error =>
        refine flashes_pure ⟨rfl, fun buffer hbuffer => ?_⟩
        cases hbuffer
    · cases hbuffer
      obtain rfl : soFar.length = toRead := by omega
      exact hsoFar

/-- A verification that comes to the end has seen all of the data on the device. -/
theorem verifyFrom_flashes (htype : p.type = .EMMC) (patience fuel : Nat) {pos : Nat}
    (hseen : data.take pos <+: d.parts p.type p.device) :
    Flashes solid p (verifyFrom p.device data patience fuel pos) d fun r d' =>
      d' = d ∧ (r = some data.length → data <+: d.parts p.type p.device) := by
  induction fuel generalizing pos with
  | zero => exact ⟨Leaves.refl _ _ _, fun r => r.elim⟩
  | succ fuel ih =>
    refine Prog.safe_ite (fun hlt => ?_) fun hdone => flashes_pure ⟨rfl, fun _ => ?_⟩
    · refine flashes_bind (readBuffer_flashes htype patience (by rfl) (Nat.zero_le _)) ?_
      rintro r d' ⟨hd', hread⟩
      subst d'
      cases r with
      | none =>
        refine flashes_pure ⟨rfl, fun h => ?_⟩
        cases h
      | some buffer =>
        refine Prog.safe_ite (fun hsame => ih ?_) fun _ => flashes_pure ⟨rfl, fun h => ?_⟩
        · rw [hread buffer rfl] at hsame
          obtain ⟨rest, hrest⟩ := hseen
          have hpos : (data.take pos).length = pos := by
            rw [List.length_take]
            omega
          rw [← hrest, List.drop_left' hpos] at hsame
          rw [List.take_add, ← hrest, List.prefix_append_right_inj, ← hsame]
          exact List.take_prefix _ _
        · have hpos := Option.some.inj h
          omega
    · rwa [List.take_of_length_le (by omega)] at hseen

theorem attempts_flashes (htype : p.type = .EMMC) (n start : Nat) :
    Flashes solid p (attempts p.device data n start) d fun r d' => r = some true → data <+: d'.parts p.type p.device := by
  induction n generalizing d start with
  | zero =>
    refine flashes_pure fun h => ?_
    cases h
  | succ n ih =>
    refine flashes_look (fun _ _ h => h) fun patience _ => ?_
    refine flashes_bind (writeFrom_flashes htype patience start) fun r d' _ => ?_
    cases r with
    | none =>
      refine flashes_pure fun h => ?_
      cases h
    | some _ =>
      refine flashes_bind (verifyFrom_flashes htype patience _ (by rw [List.take_zero]; exact List.nil_prefix)) ?_
      rintro r d'' ⟨hd'', hverified⟩
      subst d''
      cases r with
      | none =>
        refine flashes_pure fun h => ?_
        cases h
      | some stop =>
        refine Prog.safe_ite (fun hend => flashes_pure fun _ => ?_) fun _ => ih _
        exact hverified (congrArg some hend)

theorem writeEmmc_flashes (htype : p.type = .EMMC) :
    Flashes solid p (writeEmmc p.device data) d fun ret d' => solid → ret = 0 → data <+: d'.parts p.type p.device := by
  refine flashes_look (fun _ _ h => h) fun opened _ => ?_
  cases opened with
  | false => exact flashes_pure fun _ h => absurd h (by decide)
  | true =>
    refine flashes_bind (attempts_flashes htype 10 0) fun r d' hwritten => ?_
    cases r with
    | none => exact flashes_pure fun _ h => absurd h (by decide)
    | some success =>
      cases success with
      | false => exact flashes_pure fun _ h => absurd h (by decide)
      | true =>
        refine flashes_look (fun _ _ h => h) fun closed _ => ?_
        cases closed with
        | false => exact flashes_pure fun _ h => absurd h (by decide)
        | true => exact flashes_pure fun _ _ => hwritten rfl

/-- A partition that was written starts with the data. -/
theorem writeToPartition_flashes :
    Flashes solid p (writeToPartition p data) d fun ret d' => solid → ret = 0 → data <+: d'.parts p.type p.device := by
  unfold writeToPartition
  cases htype : p.type with
  | MTD =>
    have hmtd : Flashes solid p (writeMtd p.device data) d _ := writeMtd_flashes htype
    rwa [htype] at hmtd
  | EMMC =>
    have hemmc : Flashes solid p (writeEmmc p.device data) d _ := writeEmmc_flashes htype
    rwa [htype] at hemmc

end Write

/-! ### In memory -/

section Memory
variable {d : Disk} (size : Nat)

/-- The sink in memory takes a chunk whole or not at all. -/
theorem memorySink_does (buffer data : Bytes) :
    Does Nothing (pure (memorySink size buffer data) : Io (Int × Bytes)) d fun r _ =>
      r = (-1, buffer) ∨ r = ((data.length : Int), buffer ++ data) := by
  refine does_pure ?_
  unfold memorySink
  split_ifs
  · exact .inl rfl
  · exact .inr rfl

/-- What it holds is what is hashed. -/
theorem perform_memory (actions : List Action) (buffer : Bytes) :
    Does Nothing (perform hang (fun buffer data => pure (memorySink size buffer data)) actions buffer buffer) d fun r _ =>
      r.1 = 0 → r.2.1 = r.2.2 := by
  have hfailed : ∀ {d : Disk} {buffer ctx : Bytes},
      Does Nothing (pure (-1, buffer, ctx) : Io (Int × Bytes × Bytes)) d fun r _ => r.1 = 0 → r.2.1 = r.2.2 :=
    does_pure fun h => absurd h (show ¬(-1 : Int) = 0 by decide)
  induction actions generalizing d buffer with
  | nil => exact does_pure fun _ => rfl
  | cons action rest ih =>
    cases action with
    | patched found =>
      cases found with
      | none => exact ih buffer
      | some data =>
        refine does_bind (memorySink_does size buffer data) ?_
        rintro _ d' - (rfl | rfl)
        · refine does_ite (fun _ => ih buffer) fun h => absurd (show (-1 : Int) < data.length by omega) h
        · exact does_ite (fun h => absurd h (lt_irrefl _)) fun _ => ih (buffer ++ data)
    | raw data =>
      refine does_bind (memorySink_does size buffer data) ?_
      rintro _ d' - (rfl | rfl)
      · exact does_ite (fun _ => hfailed) fun h => absurd (show (-1 : Int) ≠ data.length by omega) h
      · exact does_ite (fun h => absurd rfl h) fun _ => ih (buffer ++ data)
    | deflated data =>
      refine does_bind (memorySink_does size buffer data) ?_
      rintro _ d' - (rfl | rfl)
      · exact does_ite (fun _ => hfailed) fun h => absurd (show (-1 : Int) ≠ data.length by omega) h
      · exact does_ite (fun h => absurd rfl h) fun _ => ih (buffer ++ data)
    | fail => exact hfailed
    | stuck => exact does_hang

theorem applyPatch_memory (abi : Abi) (t : Tools) (a : Args) (old patch : Bytes) :
    Does Nothing (applyPatch abi t a (fun buffer data => pure (memorySink size buffer data)) old patch []) d fun r _ =>
      ∀ buffer ctx, r = some (0, buffer, ctx) → buffer = ctx := by
  refine does_ite (fun _ => does_map ?_) fun _ => does_ite (fun _ => does_map ?_) fun _ => ?_
  · unfold applyBSDiffPatch
    cases t.bspatch old patch 0 with
    | none =>
      refine does_pure fun buffer ctx heq => ?_
      cases heq
    | some data =>
      refine does_bind (memorySink_does size [] data) ?_
      rintro _ d' - (rfl | rfl)
      · refine does_ite (fun _ => does_pure fun buffer ctx heq => ?_) fun h => absurd (show (-1 : Int) < data.length by omega) h
        cases heq
      · refine does_ite (fun h => absurd h (lt_irrefl _)) fun _ => does_pure fun buffer ctx heq => ?_
        cases heq
        rfl
  · refine (perform_memory size _ []).mono (fun _ h => h) fun r _ _ h buffer ctx heq => ?_
    obtain rfl := Option.some.inj heq
    exact h rfl
  · refine does_pure fun buffer ctx heq => ?_
    cases heq

end Memory

/-! ### A run that can be killed -/

section Run
variable (t : Tools) (a : Args) (p : Partition)

/-- The partition or the copy holds a good content. -/
def Secured (d : Disk) : Prop := Holds t a d (.part p) ∨ Holds t a d (.file CACHE_TEMP_SOURCE)

/-- The copy is not needed: where it could be used, the target is right or the source can be; and
where the source is used, the partition still holds a good content while it is copied. -/
structure Unneeded (d : Disk) : Prop where
  copy : IsSource t a (d.load t (.file CACHE_TEMP_SOURCE)) →
    IsTarget t a (d.load t (.part p)) ∨ IsSource t a (d.load t a.source)
  source : IsSource t a (d.load t a.source) → Holds t a d (.part p)

/-- A machine that leaves out no block of an MTD partition and, if `reads`, reads what is there. -/
def Disk.partStep (reads : Prop) (d : Disk) (q : Call) (r : Answer q) (d' : Disk) : Prop :=
  d.readStep reads q r d' ∧ NoSkip q r

end Run

section Safety
variable {abi : Abi} {t : Tools} {a : Args} {p : Partition} {reads : Prop} {d d' : Disk}

theorem Does.partSafe {α : Type} {U : Path → Prop} {x : Io α} {I : Disk → Prop} {R R' : α → Disk → Prop} (h : Does U x d R)
    (hI : ∀ d', Touches U d d' → I d') (hR : ∀ r d', Touches U d d' → R r d' → R' r d') :
    x.Safe (Disk.partStep reads) I R' d := Prog.Safe.restrict (h.safe hI hR) fun _ _ _ _ hstep => hstep.1.1

/-- Writing the partition leaves the copy alone. -/
theorem Leaves.copy (h : Leaves Nothing p d d') (hcopy : Holds t a d (.file CACHE_TEMP_SOURCE)) :
    Holds t a d' (.file CACHE_TEMP_SOURCE) := by
  obtain ⟨content, hcontent, hgood⟩ := hcopy
  exact ⟨content, (h.files _ id).trans hcontent, hgood⟩

theorem part_touches {U : Path → Prop} (h : Holds t a d (.part p)) (ht : Touches U d d') : Holds t a d' (.part p) := by
  apply h.touches ht
  intro q hq
  cases hq

/-- The partition is written only once the copy is complete, and the copy goes only once all of
the target is on the partition. -/
theorem generatePart_safe {c : Chosen} (hvalid : c.Valid t a d) (hused : c.source_patch.isSome = true)
    (hpart : Holds t a d (.part p)) {target_sha1 : Digest} (hsha1 : parseSha1 a.target_sha1 = some target_sha1) :
    (generatePart abi t a p target_sha1 c).Safe (Disk.partStep reads) (Secured t a p) (fun _ _ => True) d := by
  obtain ⟨data, hdata, hsize, _, hlists⟩ := hvalid.source hused
  have hbackUp : (backUp abi c.source_file).Safe (Disk.partStep reads) (Secured t a p) (fun ok d' =>
      Holds t a d' (.part p) ∧ (ok = true → d'.files CACHE_TEMP_SOURCE = some data)) d := by
    apply (backUp_does abi c.source_file).partSafe
    · exact fun d' ht => .inl (part_touches hpart ht)
    · exact fun ok d' ht h => ⟨part_touches hpart ht, fun hok => h hok data hdata hsize⟩
  apply Prog.safe_bind hbackUp
  intro ok d' h
  obtain ⟨hpart', hsaved⟩ := h
  cases ok with
  | false => exact Prog.safe_pure (.inl hpart') trivial
  | true =>
    have hcopy : Holds t a d' (.file CACHE_TEMP_SOURCE) := ⟨data, hsaved rfl, .inl hlists⟩
    have hsecured : Secured t a p d' := .inr hcopy
    obtain ⟨listed, _, old, hpatch, hold, _⟩ := hvalid.used
    rw [hpatch, hold]
    refine Prog.safe_ite (fun h => absurd h (by decide)) fun _ => ?_
    refine Prog.safe_ite (fun _ => Prog.safe_pure hsecured trivial) fun _ => ?_
    refine Prog.safe_look hsecured (fun _ _ h => h.1.1) fun _ _ => ?_
    refine Prog.safe_ite (fun _ => Prog.safe_pure hsecured trivial) fun _ => ?_
    refine Prog.safe_bind ((applyPatch_memory a.target_size abi t a old listed.2.data).partSafe ?_ fun r d'' ht h =>
      And.intro (eq_of_touches_nothing ht) h) ?_
    · intro d'' ht
      rwa [eq_of_touches_nothing ht]
    intro r d'' h
    obtain ⟨rfl, hwhole⟩ := h
    cases r with
    | none => exact Prog.safe_pure hsecured trivial
    | some applied =>
      obtain ⟨result, buffer, ctx⟩ := applied
      refine Prog.safe_ite (fun _ => Prog.safe_pure hsecured trivial) fun hresult => ?_
      obtain rfl := not_not.mp hresult
      obtain rfl := hwhole buffer ctx rfl
      refine Prog.safe_ite (fun _ => Prog.safe_pure hsecured trivial) fun hsame => ?_
      have hwrite : (writeToPartition p buffer).Safe (Disk.partStep reads) (Secured t a p)
          (fun ret d₃ => Secured t a p d₃ ∧ (ret = 0 → Holds t a d₃ (.part p))) d'' := by
        have hflashes : Flashes True p (writeToPartition p buffer) d'' _ := writeToPartition_flashes
        refine (Prog.Safe.restrict hflashes fun _ _ _ _ h => ⟨h.1.1, fun _ => h.2⟩).mono (fun _ h => .inr (h.copy hcopy)) ?_
        intro ret d₃ hleaves hfront
        refine ⟨.inr (hleaves.copy hcopy), fun hret => ⟨buffer, hfront trivial hret, .inl ?_⟩⟩
        rw [hsha1, not_not.mp hsame]
      apply Prog.safe_bind hwrite
      intro ret d₃ h
      refine Prog.safe_ite (fun _ => Prog.safe_pure h.1 trivial) fun hret => ?_
      have hplaced := h.2 (not_not.mp hret)
      refine Prog.safe_call h.1 fun r d₄ hstep => ?_
      exact Prog.safe_pure (.inl (part_touches hplaced (unlink_step hstep.1.1))) trivial

/-- **Crash safety on a partition.** Wherever a run is stopped, killed or at its end, the partition
or the copy holds a good content if one did before, as long as the copy is not needed. Where it
could be used, this counts on the reads. -/
theorem part_crash_safe (htarget : a.targetName = .part p) (hunneeded : Unneeded t a p d) (hgood : Secured t a p d)
    {o : Option Int}
    (hexec : Prog.Exec (Disk.partStep (IsSource t a (d.load t (.file CACHE_TEMP_SOURCE)))) d (applypatch abi t a) d' o) :
    Secured t a p d' := by
  generalize hreads : IsSource t a (d.load t (.file CACHE_TEMP_SOURCE)) = reads at hexec
  have hsafe : (applypatch abi t a).Safe (Disk.partStep reads) (Secured t a p) (fun _ _ => True) d := by
    have hload : ∀ name file, (loadFileContents t name file).Safe (Disk.partStep reads) (· = d)
        (fun r _ => Finds reads t d name r.2.data) d := by
      intro name file
      refine (Prog.Safe.restrict (loadFileContents_safe reads t name file) fun _ _ _ _ h => h.1).mono (fun _ h => h) ?_
      exact fun _ _ _ h => h.2
    apply applypatch_safe (fun _ _ _ _ h => h.1.1) hload hgood trivial fun _ _ _ _ => trivial
    intro target_sha1 c hsha1 hvalid hfrom
    obtain ⟨loaded, hloaded, hiff⟩ := hfrom.source
    have hfound : ∀ {name : Name} {loaded : Option Bytes}, Finds reads t d name loaded → IsSource t a loaded →
        IsSource t a (d.load t name) := by
      intro name loaded hfinds hsource
      obtain ⟨data, rfl, hlisted⟩ := hsource
      exact ⟨data, hfinds.some, hlisted⟩
    have hused : c.source_patch.isSome = true := by
      by_contra hnone
      rw [Bool.not_eq_true] at hnone
      -- the copy can be used, so what was loaded is what is there
      obtain ⟨copied, hcopied, hcopySource⟩ := hfrom.copy hnone
      have hcopy := hfound hcopied hcopySource
      have htrue : ∀ {name : Name} {loaded : Option Bytes}, Finds reads t d name loaded → loaded = d.load t name := by
        intro name loaded hfinds
        exact hfinds.resolve_right fun h => h.1 (hreads ▸ hcopy)
      rcases hunneeded.copy hcopy with hright | hsource
      · obtain ⟨found, hfinds, hnot⟩ := hfrom.target
        rw [htarget] at hfinds
        rw [htrue hfinds] at hnot
        exact hnot hright
      · rw [← htrue hloaded, ← hiff, hnone] at hsource
        cases hsource
    have hsource := hfound hloaded (hiff.mp hused)
    unfold generateTarget
    rw [htarget]
    exact generatePart_safe hvalid hused (hunneeded.source hsource) hsha1
  exact (hsafe.exec hexec).1

end Safety

/-! ### A sample -/

theorem Machine.answer_noSkip (m : Machine) (d : Disk) (q : Call) (r : Answer q) (d' : Disk)
    (h : m.answer d q = some (r, d')) : NoSkip q r := by
  cases q with
  | mtdClose device data => cases h
  | _ => trivial

/-- A partition whose byte `A` is to become a `B`. -/
def samplePart : Partition where
  type := .EMMC
  device := "/dev/boot".toList
  pairs := [(1, "6dcd4ce23d88e2ee9568ba546c007c63d9131c1b"), (1, "ae4f281df5a5d0ff3cad6371f76d5c29b6d953ec")]

def partArgs : Args := {sampleArgs "" with source := .part samplePart}

/-- The partition has this byte, and the copy, if there is one, holds an `A`. -/
def partDisk (byte : UInt8) (copy : Bool) : Disk where
  files q := if copy ∧ q = CACHE_TEMP_SOURCE then some [65] else none
  parts _ _ := [byte]

def partRun (byte : UInt8) (copy : Bool) (n : Nat) : Disk × Option Int :=
  (applypatch .ilp32 sampleTools partArgs).interp (cramped 100).answer n (partDisk byte copy)

theorem unneeded_sample : Unneeded sampleTools partArgs samplePart (partDisk 65 false) := by
  constructor
  · intro hcopy
    obtain ⟨data, hdata, _⟩ := hcopy
    cases hdata
  · intro _
    exact ⟨[65], List.prefix_refl _, .inr ⟨_, List.mem_cons_self, by decide⟩⟩

theorem secured_sample : Secured sampleTools partArgs samplePart (partDisk 65 false) :=
  .inl ⟨[65], List.prefix_refl _, .inr ⟨_, List.mem_cons_self, by decide⟩⟩

/-- Killed after the partition has been overwritten. -/
theorem part_crash_safe_sample : (partRun 65 false 14).2 = none ∧
    (partRun 65 false 14).1.parts .EMMC "/dev/boot".toList = [66] ∧
    Secured sampleTools partArgs samplePart (partRun 65 false 14).1 := by
  refine ⟨by decide, by decide, ?_⟩
  apply part_crash_safe rfl unneeded_sample secured_sample
  apply Prog.exec_interp
  intro d q r d' h
  refine ⟨⟨(cramped 100).answer_step d q r d' h, fun hcopy => ?_⟩, (cramped 100).answer_noSkip d q r d' h⟩
  obtain ⟨data, hdata, _⟩ := hcopy
  cases hdata

theorem lists_sample {content : Bytes} (h : partArgs.Lists (sampleTools.sha1 content)) : content = [65] ∨ content = [66] := by
  by_contra hnot
  rw [not_or] at hnot
  have hsha : sampleTools.sha1 content = [] := (if_neg hnot.1).trans (if_neg hnot.2)
  rw [hsha] at h
  rcases h with h | ⟨p, hp, h⟩
  · exact absurd h (by decide)
  · obtain rfl := List.mem_singleton.mp hp
    exact absurd h (by decide)

/-- A copy that is needed is truncated before it is used. -/
theorem part_crash_lost : Secured sampleTools partArgs samplePart (partDisk 0 true) ∧
    ∃ d, Prog.Exec Disk.step (partDisk 0 true) (applypatch .ilp32 sampleTools partArgs) d (some 1) ∧
      ¬Secured sampleTools partArgs samplePart d := by
  refine ⟨.inr ⟨[65], rfl, .inl (.inr ⟨_, List.mem_cons_self, by decide⟩)⟩, ?_⟩
  have hreturned : (partRun 0 true 40).2 = some 1 := by decide
  have hpart : (partRun 0 true 40).1.parts .EMMC "/dev/boot".toList = [0] := by decide
  have hcopy : (partRun 0 true 40).1.files CACHE_TEMP_SOURCE = some [] := by decide
  have hexec := Prog.exec_interp (cramped 100).answer_step 40 (applypatch .ilp32 sampleTools partArgs) (partDisk 0 true)
  rw [show ((applypatch .ilp32 sampleTools partArgs).interp (cramped 100).answer 40 (partDisk 0 true)).2 = some 1 from hreturned]
    at hexec
  refine ⟨_, hexec, ?_⟩
  intro hsecured
  rcases hsecured with ⟨content, hfront, hlists⟩ | ⟨content, hcontent, hgood⟩
  · rw [show samplePart.device = "/dev/boot".toList from rfl] at hfront
    have hlen := (hpart ▸ hfront).length_le
    rcases lists_sample hlists with rfl | rfl
    · exact absurd (hpart ▸ hfront) (by decide)
    · exact absurd (hpart ▸ hfront) (by decide)
  · obtain rfl := Option.some.inj (hcopy.symm.trans hcontent)
    rcases hgood with hlists | ⟨masked, hmasked, hlists⟩
    · exact absurd (lists_sample hlists) (by decide)
    · obtain rfl := Option.some.inj hmasked
      exact absurd (lists_sample hlists) (by decide)

end Twrp.Patch
