import Twrp.Patch.Partition

/-! What becomes of a source that is not the target.

Whether the source is deleted on the way is decided by the room on the target's file system and
by the first try, and not by whether it is the target. It is kept where it is not used, where the
target is a partition, and where there is room and no write fails. -/
namespace Twrp.Patch
open Base

/-! ### A patch that is written whole -/

section Takes
variable {σ : Type} {M : Disk → (q : Call) → Answer q → Disk → Prop} {whole : Prop} {sink : σ → Bytes → Io (Int × σ)}

/-- The sink takes all it is given, if it is said to. -/
def Takes (M : Disk → (q : Call) → Answer q → Disk → Prop) (whole : Prop) (sink : σ → Bytes → Io (Int × σ)) : Prop :=
  ∀ token data d, (sink token data).Safe M (fun _ => True) (fun r _ => whole → r.1 = (data.length : Int)) d

/-- The patch is of a known format and no chunk of it fails. -/
def Applies (abi : Abi) (t : Tools) (a : Args) (old patch : Bytes) : Prop :=
  if 8 ≤ patch.length ∧ patch.take 8 = magicBSDIFF then t.bspatch old patch 0 ≠ none
  else .fail ∉ imageActions abi t.toCodec old patch a.bonus

theorem imageActions_bsdiff {abi : Abi} {c : Codec} {old patch : Bytes} {bonus : Option Bytes}
    (h : patch.take 8 = magicBSDIFF) : imageActions abi c old patch bonus = [.fail] := by
  have hmagic : patch.take 8 ≠ magicIMGDIFF := by
    rw [h]
    decide
  unfold imageActions
  rw [if_pos hmagic, ite_self]

variable (hsink : Takes M whole sink)
include hsink

theorem perform_takes (actions : List Action) (token : σ) (ctx : Bytes) (d : Disk) :
    (perform hang sink actions token ctx).Safe M (fun _ => True)
      (fun r _ => whole → (r.1 = 0 ↔ .fail ∉ actions) ∧ (r.1 = 0 → r.2.2 = ctx ++ output actions)) d := by
  induction actions generalizing token ctx d with
  | nil => exact Prog.safe_pure trivial fun _ => by simp [output]
  | cons action rest ih =>
    have hnext : ∀ {data : Bytes} {token : σ} {d : Disk}, action ≠ .fail → data = action.output →
        (perform hang sink rest token (ctx ++ data)).Safe M (fun _ => True) (fun r _ => whole →
          (r.1 = 0 ↔ .fail ∉ action :: rest) ∧ (r.1 = 0 → r.2.2 = ctx ++ output (action :: rest))) d := by
      intro data token d hne hdata
      apply (ih token (ctx ++ data) d).mono fun _ h => h
      intro r d' _ h hwhole
      obtain ⟨hfail, houtput⟩ := h hwhole
      rw [hfail, List.mem_cons, not_or]
      refine ⟨⟨fun hrest => ⟨hne.symm, hrest⟩, And.right⟩, fun hrest => ?_⟩
      rw [houtput (hfail.mpr hrest), hdata, List.append_assoc]
      rfl
    have hshort : ∀ {data : Bytes} {wrote : Int} {x : Io (Int × σ × Bytes)} {R : Int × σ × Bytes → Prop} {d : Disk},
        (whole → wrote = data.length) → wrote ≠ data.length → x.Safe M (fun _ => True) (fun r _ => whole → R r) d := by
      intro data wrote x R d hwrote hne
      apply (Prog.safe_any x).mono fun _ h => h
      exact fun _ _ _ _ hwhole => absurd (hwrote hwhole) hne
    cases action with
    | patched found =>
      cases found with
      | none =>
        have hrest := @hnext [] token d (by simp) rfl
        rwa [List.append_nil] at hrest
      | some data =>
        apply Prog.safe_bind (hsink token data d)
        intro r d' hwrote
        refine Prog.safe_ite (fun hlt => hshort hwrote (ne_of_lt hlt)) fun _ => hnext (by simp) rfl
    | raw data =>
      apply Prog.safe_bind (hsink token data d)
      intro r d' hwrote
      exact Prog.safe_ite (fun hne => hshort hwrote hne) fun _ => hnext (by simp) rfl
    | deflated data =>
      apply Prog.safe_bind (hsink token data d)
      intro r d' hwrote
      exact Prog.safe_ite (fun hne => hshort hwrote hne) fun _ => hnext (by simp) rfl
    | fail => exact Prog.safe_pure trivial fun _ => by simp
    | stuck => exact ⟨trivial, fun r => r.elim⟩

/-- Where the sink takes everything, the patch alone decides whether it is applied, and what is
hashed is what is written. -/
theorem applyPatch_takes (abi : Abi) (t : Tools) (a : Args) (old patch : Bytes) (token : σ) (d : Disk) :
    (applyPatch abi t a sink old patch token).Safe M (fun _ => True)
      (fun r _ => ∀ applied, r = some applied → whole → (applied.1 = 0 ↔ Applies abi t a old patch) ∧
        (applied.1 = 0 → ∀ written, Applied abi t a old patch applied.2.2 written → written = applied.2.2)) d := by
  unfold applyPatch Applies
  by_cases hbsdiff : 8 ≤ patch.length ∧ patch.take 8 = magicBSDIFF
  · rw [if_pos hbsdiff, if_pos hbsdiff]
    have hwritten : ∀ {ctx written : Bytes}, Applied abi t a old patch ctx written → written = ctx := by
      intro ctx written happlied
      cases happlied with
      | bsdiff _ => rfl
      | image hpushed =>
        -- a patch of the other format fails at once
        rw [imageActions_bsdiff hbsdiff.2] at hpushed
        cases hpushed
    unfold applyBSDiffPatch
    cases hfound : t.bspatch old patch 0 with
    | none =>
      refine Prog.safe_pure trivial fun applied heq _ => ?_
      cases heq
      simp
    | some data =>
      apply Prog.safe_map
      apply Prog.safe_bind (hsink token data d)
      intro r d' hwrote
      refine Prog.safe_ite (fun hshort => Prog.safe_pure trivial ?_) fun _ => Prog.safe_pure trivial ?_
      · intro applied _ hwhole
        rw [hwrote hwhole] at hshort
        exact absurd hshort (lt_irrefl _)
      · intro applied heq _
        cases heq
        exact ⟨by simp, fun _ written => hwritten⟩
  · rw [if_neg hbsdiff, if_neg hbsdiff]
    refine Prog.safe_ite (fun _ => ?_) fun _ => Prog.safe_pure trivial fun applied heq => ?_
    · apply Prog.safe_map
      apply (perform_takes hsink _ token [] d).mono fun _ h => h
      intro r d' _ h applied heq hwhole
      cases heq
      obtain ⟨hfail, houtput⟩ := h hwhole
      refine ⟨hfail, fun hret written happlied => ?_⟩
      cases happlied with
      | bsdiff _ => rfl
      | image hpushed =>
        refine (hpushed.whole.2 ?_).2
        rw [houtput hret, List.nil_append]
    · cases heq

end Takes

/-! ### The turns -/

section Turns
variable (abi : Abi) (t : Tools) (a : Args)

/-- The patch that is chosen applies to the content that is. -/
def Chosen.Applies (c : Chosen) : Prop :=
  ∃ patch old, c.patch = some patch ∧ c.used.data = some old ∧ Patch.Applies abi t a old patch.data

/-- What a turn comes to where, if `whole`, no write fails. -/
def Turn.Fits (whole : Prop) (c : Chosen) : Turn → Prop
  | .returned ret => ret = 1
  | .failed _ => whole → ¬c.Applies abi t a
  | .patched ctx _ => whole → c.Applies abi t a ∧ ∀ patch old written, c.patch = some patch → c.used.data = some old →
      Applied abi t a old patch.data ctx written → written = ctx

variable {abi} {t} {a} {M : Disk → (q : Call) → Answer q → Disk → Prop} {whole : Prop} {d : Disk} {target : Path}

/-- If `whole`, no write of the patched file fails. -/
def Accepts (M : Disk → (q : Call) → Answer q → Disk → Prop) (whole : Prop) (target : Path) : Prop :=
  ∀ d data (wrote : Int) d', M d (.write (patchName target) data) wrote d' →
    wrote ≤ data.length ∧ (whole → data ≠ [] → 0 < wrote)

variable (haccepts : Accepts M whole target)
include haccepts

theorem sinkLoop_takes (fuel : Nat) (rest : Bytes) (done : Nat) (hfuel : rest.length ≤ fuel) :
    (sinkLoop (patchName target) fuel rest done).Safe M (fun _ => True)
      (fun (n : Int) _ => whole → n = (done + rest.length : Nat)) d := by
  induction fuel generalizing rest done d with
  | zero =>
    obtain rfl : rest = [] := List.length_eq_zero_iff.mp (Nat.le_zero.mp hfuel)
    exact Prog.safe_pure trivial fun _ => rfl
  | succ fuel ih =>
    refine Prog.safe_ite (fun hdone => Prog.safe_pure trivial fun _ => ?_) fun hmore => ?_
    · rw [hdone]
      rfl
    · refine Prog.safe_call trivial fun (wrote : Int) d' hstep => ?_
      obtain ⟨hle, hpositive⟩ := haccepts d rest wrote d' hstep
      refine Prog.safe_ite (fun hfail => Prog.safe_pure trivial fun hwhole => ?_) fun hpos => ?_
      · have hwrote := hpositive hwhole hmore
        omega
      · have hlen : (rest.drop wrote.toNat).length = rest.length - wrote.toNat := List.length_drop
        apply (ih (rest.drop wrote.toNat) (done + wrote.toNat) (by omega)).mono fun _ h => h
        intro n d'' _ h hwhole
        rw [h hwhole]
        omega

theorem fileSink_takes : Takes M whole (fun (_ : Unit) data => (·, ()) <$> fileSink (patchName target) data) := by
  intro token data d
  apply Prog.safe_map
  apply (sinkLoop_takes haccepts data.length data 0 le_rfl).mono fun _ h => h
  intro n d' _ h hwhole
  rw [h hwhole, Nat.zero_add]

theorem patchFile_fits (c : Chosen) (made_copy : Bool) :
    (patchFile abi t a target c made_copy).Safe M (fun _ => True) (fun r _ => r.Fits abi t a whole c) d := by
  unfold patchFile
  cases hpatch : c.patch with
  | none => exact ⟨trivial, fun r => r.elim⟩
  | some patch =>
    cases hused : c.used.data with
    | none => exact ⟨trivial, fun r => r.elim⟩
    | some old =>
      refine Prog.safe_ite (fun _ => Prog.safe_pure trivial rfl) fun _ => ?_
      refine Prog.safe_call trivial fun r d' _ => ?_
      refine Prog.safe_ite (fun _ => Prog.safe_pure trivial rfl) fun _ => ?_
      apply Prog.safe_bind (applyPatch_takes (fileSink_takes haccepts) abi t a old patch.data () d')
      intro r d'' happlied
      cases r with
      | none => exact Prog.safe_pure trivial rfl
      | some applied =>
        obtain ⟨result, _, ctx⟩ := applied
        refine Prog.safe_ite (fun hfailed => Prog.safe_pure trivial fun hwhole happlies => ?_) fun hok =>
          Prog.safe_pure trivial fun hwhole => ?_
        · obtain ⟨patch', old', hpatch', hold', happlies⟩ := happlies
          obtain rfl := Option.some.inj (hpatch.symm.trans hpatch')
          obtain rfl := Option.some.inj (hused.symm.trans hold')
          exact hfailed ((happlied _ rfl hwhole).1.mpr happlies)
        · obtain ⟨happlies, hwritten⟩ := happlied _ rfl hwhole
          refine ⟨⟨patch, old, hpatch, hused, happlies.mp (not_not.mp hok)⟩, fun patch' old' written hpatch' hold' => ?_⟩
          obtain rfl := Option.some.inj (hpatch.symm.trans hpatch')
          obtain rfl := Option.some.inj (hused.symm.trans hold')
          exact hwritten (not_not.mp hok) written

end Turns

/-! ### What a run leaves of the source -/

/-- The files that a target touches when it takes its place. -/
def Replaced (target : Path) (q : Path) : Prop := q = patchName target ∨ q = target ∨ q = CACHE_TEMP_SOURCE

section Replaced
variable {abi : Abi} {t : Tools} {a : Args} {d : Disk} {target : Path}

theorem rename_step {path path' : Path} {r : Bool} {d' : Disk} (h : d.step (.rename path path') r d') :
    Touches (fun q => q = path ∨ q = path') d d' := by
  cases r with
  | false =>
    obtain rfl : d' = d := h
    exact Touches.refl _ _
  | true =>
    obtain rfl : d' = (d.setFile path' (d.files path)).setFile path none := h
    apply ((touches_one d path' _).mono fun _ hq => .inr hq).trans
    exact (touches_one _ path _).mono fun _ hq => .inl hq

theorem replaceTarget_does (target_sha1 : Digest) (used : FileContents) (ctx : Bytes) (made_copy : Bool) :
    Does (Replaced target) (replaceTarget t target target_sha1 used ctx made_copy) d fun _ _ => True := by
  refine does_ite (fun _ => does_pure trivial) fun _ => ?_
  refine does_ask (fun _ _ h => h) fun _ _ => does_ite (fun _ => does_pure trivial) fun _ => ?_
  refine does_ask (fun _ _ h => h) fun _ _ => does_ite (fun _ => does_pure trivial) fun _ => ?_
  refine does_call fun _ d' hrename => ⟨(rename_step hrename).mono fun q hq => ?_, ?_⟩
  · exact hq.imp id .inl
  · refine does_ite (fun _ => does_pure trivial) fun _ => does_ite (fun _ => ?_) fun _ => does_pure trivial
    refine does_call fun _ d'' hunlink => ⟨(unlink_step hunlink).mono fun q hq => ?_, does_pure trivial⟩
    exact .inr (.inr hq)

theorem patchFile_replaced (c : Chosen) (made_copy : Bool) :
    Does (Replaced target) (patchFile abi t a target c made_copy) d fun _ _ => True :=
  (patchFile_does abi t a target c made_copy).mono (fun _ hq => .inl hq) fun _ _ _ _ => trivial

/-- A run that uses the copy only puts the target in its place. -/
theorem generateFile_copy {c : Chosen} (hcopy : c.source_patch.isSome = false) (target_sha1 : Digest) :
    Does (Replaced target) (generateFile abi t a target target_sha1 c) d fun _ _ => True := by
  have hturn : ∀ d enough, Does (Replaced target) (turn abi t a target c enough false) d fun _ _ => True := by
    intro d enough
    refine does_ite (fun h => ?_) fun _ => patchFile_replaced c false
    rw [hcopy] at h
    cases h.2
  have hlast : ∀ d, Does (Replaced target) (lastTurn abi t a target target_sha1 c) d fun _ _ => True := by
    intro d
    refine does_bind (hturn d false) fun r d' _ _ => ?_
    cases r with
    | returned ret => exact does_pure trivial
    | failed made => exact does_pure trivial
    | patched ctx made => exact replaceTarget_does _ _ _ _
  refine does_ask (fun _ _ h => h) fun free _ => does_ite (fun _ => ?_) fun _ => hlast d
  refine does_bind (hturn d true) fun r d' _ _ => ?_
  cases r with
  | returned ret => exact does_pure trivial
  | failed made =>
    refine does_call fun _ d'' hunlink => ⟨(unlink_step hunlink).mono fun q hq => .inl hq, hlast d''⟩
  | patched ctx made => exact replaceTarget_does _ _ _ _

end Replaced

section Source
variable (abi : Abi) (a : Args)

/-- How the run goes: there is room on the target's file system before it starts or there is
not, and the source can be deleted. If `whole`, no write of the patched file fails. -/
def Undisturbed (room : Bool) (whole : Prop) (d₀ d : Disk) : (q : Call) → Answer q → Prop
  | .freeSpace path, (free : Nat) => ∀ target, a.targetName = .file target → path = topDir target → d = d₀ →
      enoughSpace abi a.target_size free = room
  | .write path data, (wrote : Int) => whole → ∀ target, a.targetName = .file target → path = patchName target →
      data ≠ [] → 0 < wrote
  | .unlink path, (done : Bool) => a.source = .file path → done = true
  | _, _ => True

def Disk.sourceStep (room : Bool) (whole : Prop) (d₀ d : Disk) (q : Call) (r : Answer q) (d' : Disk) : Prop :=
  d.readStep True q r d' ∧ Undisturbed abi a room whole d₀ d q r

variable {abi} {a} {t : Tools} {room : Bool} {whole : Prop} {d₀ d : Disk} {source target : Path}

theorem sourceStep_step {d d' : Disk} (q : Call) (r : Answer q)
    (h : Disk.sourceStep abi a room whole d₀ d q r d') : d.step q r d' := h.1.1

theorem Does.sourceSafe {α : Type} {U : Path → Prop} {x : Io α} {R R' : α → Disk → Prop} (h : Does U x d R)
    (hR : ∀ r d', Touches U d d' → R r d' → R' r d') : x.Safe (Disk.sourceStep abi a room whole d₀) (fun _ => True) R' d :=
  Prog.Safe.restrict (h.safe (fun _ _ => trivial) hR) fun _ _ _ _ => sourceStep_step _ _

theorem makeRoom_deletes (hsource : a.source = .file source) (file : FileContents) :
    (makeRoom abi a file).Safe (Disk.sourceStep abi a room whole d₀) (fun _ => True)
      (fun r d' => r.isSome = true → d'.files source = none) d := by
  unfold makeRoom
  rw [hsource]
  apply Prog.safe_bind (Prog.safe_any (backUp abi file))
  intro ok d' _
  refine Prog.safe_ite (fun _ => Prog.safe_pure trivial fun h => absurd h Bool.false_ne_true) fun _ => ?_
  refine Prog.safe_call trivial fun (r : Bool) d'' hstep => Prog.safe_pure trivial fun _ => ?_
  have hdone : r = true := hstep.2 hsource
  subst hdone
  obtain rfl : d'' = d'.setFile source none := hstep.1.1
  exact setFile_files ..

theorem accepts_source (htarget : a.targetName = .file target) :
    Accepts (Disk.sourceStep abi a room whole d₀) whole target := by
  intro d data wrote d' hstep
  exact ⟨hstep.1.1.1, fun hwhole => hstep.2 hwhole target htarget rfl⟩

theorem patchFile_turn (htarget : a.targetName = .file target) (c : Chosen) (made_copy : Bool) :
    (patchFile abi t a target c made_copy).Safe (Disk.sourceStep abi a room whole d₀) (fun _ => True)
      (fun r d' => r.Fits abi t a whole c ∧ Touches (Replaced target) d d') d := by
  apply ((patchFile_fits (accepts_source htarget) c made_copy).and ((patchFile_replaced c made_copy).sourceSafe fun _ _ ht _ => ht)).mono
  · exact fun _ _ => trivial
  · exact fun _ _ _ h => h

variable (hsource : a.source = .file source) (htarget : a.targetName = .file target) (hne : ¬Replaced target source)
  {c : Chosen} (hused : c.source_patch.isSome = true)
include hsource htarget hne hused

/-- A last turn that succeeds has deleted the source. -/
theorem lastTurn_deletes (target_sha1 : Digest) :
    (lastTurn abi t a target target_sha1 c).Safe (Disk.sourceStep abi a room whole d₀) (fun _ => True)
      (fun ret d' => ret = 0 → (whole → c.Applies abi t a) ∧ d'.files source = none) d := by
  have hturn : (turn abi t a target c false false).Safe (Disk.sourceStep abi a room whole d₀) (fun _ => True)
      (fun r d' => r.Fits abi t a whole c ∧ ∀ ctx made, r = .patched ctx made → d'.files source = none) d := by
    refine Prog.safe_ite (fun _ => ?_) fun h => absurd ⟨rfl, hused⟩ h
    apply Prog.safe_bind (makeRoom_deletes hsource c.source_file)
    intro r d' hdeleted
    cases r with
    | none =>
      refine Prog.safe_pure trivial ⟨rfl, fun ctx made heq => ?_⟩
      cases heq
    | some made =>
      apply (patchFile_turn htarget c made).mono fun _ _ => trivial
      intro r d'' _ h
      exact ⟨h.1, fun _ _ _ => (h.2.2 source hne).trans (hdeleted rfl)⟩
  apply Prog.safe_bind hturn
  intro r d' h
  obtain ⟨hfits, hdeleted⟩ := h
  cases r with
  | returned ret =>
    obtain rfl : ret = 1 := hfits
    exact Prog.safe_pure trivial fun h => absurd h (by decide)
  | failed made => exact Prog.safe_pure trivial fun h => absurd h (by decide)
  | patched ctx made =>
    apply (replaceTarget_does target_sha1 c.used ctx made).sourceSafe
    intro ret d'' ht _ _
    exact ⟨fun hwhole => (hfits hwhole).1, (ht.2 source hne).trans (hdeleted ctx made rfl)⟩

/-- A run that succeeds has deleted the source it used if there was no room. -/
theorem generateFile_source (target_sha1 : Digest) :
    (generateFile abi t a target target_sha1 c).Safe (Disk.sourceStep abi a room whole d) (fun _ => True)
      (fun ret d' => ret = 0 → if room then whole → d'.files source = d.files source else d'.files source = none) d := by
  refine Prog.safe_look trivial (fun r d' hstep => sourceStep_step _ r hstep) fun free hstep => ?_
  have hroom : enoughSpace abi a.target_size free = room := hstep.2 target htarget rfl rfl
  refine Prog.safe_ite (fun henough => ?_) fun henough => ?_
  · rw [henough] at hroom
    subst hroom
    have hfirst : turn abi t a target c true false = patchFile abi t a target c false := if_neg fun h => absurd h.1 (by decide)
    rw [hfirst]
    apply Prog.safe_bind (patchFile_turn htarget c false)
    intro r d' h
    obtain ⟨hfits, htouches⟩ := h
    cases r with
    | returned ret =>
      obtain rfl : ret = 1 := hfits
      exact Prog.safe_pure trivial fun h => absurd h (by decide)
    | failed made =>
      refine Prog.safe_call trivial fun r d'' _ => ?_
      apply (lastTurn_deletes hsource htarget hne hused target_sha1).mono fun _ _ => trivial
      intro ret d₃ _ h hret hwhole
      exact absurd ((h hret).1 hwhole) (hfits hwhole)
    | patched ctx made =>
      apply (replaceTarget_does target_sha1 c.used ctx made).sourceSafe
      intro ret d'' ht _ _ _
      exact (ht.2 source hne).trans (htouches.2 source hne)
  · rw [Bool.not_eq_true] at henough
    rw [henough] at hroom
    subst hroom
    apply (lastTurn_deletes hsource htarget hne hused target_sha1).mono fun _ _ => trivial
    intro ret d' _ h hret
    exact (h hret).2

end Source

section Part
variable {abi : Abi} {t : Tools} {a : Args} {solid : Prop} {d : Disk}

theorem Does.flashSafe {α : Type} {U : Path → Prop} {x : Io α} {I : Disk → Prop} {R R' : α → Disk → Prop} (h : Does U x d R)
    (hI : ∀ d', Touches U d d' → I d') (hR : ∀ r d', Touches U d d' → R r d' → R' r d') :
    x.Safe (Disk.flashStep solid) I R' d := Prog.Safe.restrict (h.safe hI hR) fun _ _ _ _ hstep => hstep.1

/-- A run on a partition touches no file outside the cache, and when it succeeds the partition
starts with the target. -/
theorem generatePart_leaves (p : Partition) {target_sha1 : Digest} (hsha1 : parseSha1 a.target_sha1 = some target_sha1)
    (c : Chosen) :
    (generatePart abi t a p target_sha1 c).Safe (Disk.flashStep solid) (Leaves InCache p d) (fun ret d' => solid → ret = 0 →
      ∃ content, content <+: d'.parts p.type p.device ∧ parseSha1 a.target_sha1 = some (t.sha1 content)) d := by
  have hgiveUp : ∀ {d'}, Leaves InCache p d d' → (pure 1 : Io Int).Safe (Disk.flashStep solid) (Leaves InCache p d)
      (fun ret d' => solid → ret = 0 →
        ∃ content, content <+: d'.parts p.type p.device ∧ parseSha1 a.target_sha1 = some (t.sha1 content)) d' :=
    fun hd' => Prog.safe_pure hd' fun _ h => absurd h (by decide)
  apply Prog.safe_bind ((backUp_does abi c.source_file).flashSafe (fun _ ht => ht.leaves p) fun _ _ ht _ => ht.leaves p)
  intro ok d' hd'
  refine Prog.safe_ite (fun _ => hgiveUp hd') fun _ => ?_
  cases c.patch with
  | none => exact ⟨hd', fun r => r.elim⟩
  | some patch =>
    cases c.used.data with
    | none => exact ⟨hd', fun r => r.elim⟩
    | some old =>
      refine Prog.safe_ite (fun _ => hgiveUp hd') fun _ => ?_
      refine Prog.safe_look hd' (fun _ _ h => h.1) fun _ _ => ?_
      refine Prog.safe_ite (fun _ => hgiveUp hd') fun _ => ?_
      refine Prog.safe_bind ((applyPatch_memory a.target_size abi t a old patch.data).flashSafe ?_ fun r _ ht h =>
        And.intro (eq_of_touches_nothing ht) h) fun r d'' h => ?_
      · intro d'' ht
        rwa [eq_of_touches_nothing ht]
      obtain ⟨hsame, hwhole⟩ := h
      subst d''
      cases r with
      | none => exact hgiveUp hd'
      | some applied =>
        obtain ⟨result, buffer, ctx⟩ := applied
        refine Prog.safe_ite (fun _ => hgiveUp hd') fun hresult => ?_
        obtain rfl := not_not.mp hresult
        obtain rfl := hwhole buffer ctx rfl
        refine Prog.safe_ite (fun _ => hgiveUp hd') fun hsha => ?_
        have hflashes : Flashes solid p (writeToPartition p buffer) d' _ := writeToPartition_flashes
        have hleaves : ∀ d'', Leaves Nothing p d' d'' → Leaves InCache p d d'' :=
          fun d'' h => hd'.trans ⟨fun q _ => h.files q id, h.parts⟩
        refine Prog.safe_bind (Prog.Safe.mono hflashes hleaves fun _ d'' h hfront => And.intro (hleaves d'' h) hfront) ?_
        intro ret d'' h
        obtain ⟨hd'', hfront⟩ := h
        refine Prog.safe_ite (fun _ => hgiveUp hd'') fun hret => ?_
        refine Prog.safe_call hd'' fun _ d₃ hunlink => ?_
        have htouches := unlink_step hunlink.1
        refine Prog.safe_pure ?_ fun hsolid _ => ⟨buffer, ?_, ?_⟩
        · exact hd''.trans ((htouches.mono fun q hq => hq ▸ inCache_copy).leaves p)
        · rw [htouches.1]
          exact hfront hsolid (not_not.mp hret)
        · rw [hsha1, not_not.mp hsha]

end Part

section Kept
variable {abi : Abi} {t : Tools} {a : Args} {room : Bool} {whole : Prop} {d d' : Disk} {source : Path}

/-- The source need not make room: the target is a partition or already right, or the source is
not used. -/
def Spared (t : Tools) (a : Args) (d : Disk) : Prop :=
  a.targetName.isPart = true ∨ IsTarget t a (d.load t a.targetName) ∨ ¬IsSource t a (d.load t a.source)

/-- **A source that is not the target.** In a run that succeeds it is kept if it is spared, or if
there is room and no write fails; it is deleted if it is not spared and there is no room. -/
theorem source_kept (hsource : a.source = .file source) (hne : a.targetName ≠ .file source) (hcache : ¬InCache source)
    (hpatch : ∀ target, a.targetName = .file target → source ≠ patchName target)
    (hexec : Prog.Exec (Disk.sourceStep abi a room whole d) d (applypatch abi t a) d' (some 0)) :
    (Spared t a d ∨ room = true ∧ whole → d'.files source = d.files source) ∧
      (d'.files source = d.files source → Spared t a d ∨ room = true) := by
  have hsafe : (applypatch abi t a).Safe (Disk.sourceStep abi a room whole d) (fun _ => True) (fun ret d' => ret = 0 →
      (Spared t a d ∨ room = true ∧ whole → d'.files source = d.files source) ∧
        (d'.files source = d.files source → Spared t a d ∨ room = true)) d := by
    have hload : ∀ name file, (loadFileContents t name file).Safe (Disk.sourceStep abi a room whole d) (· = d)
        (fun r _ => Finds True t d name r.2.data) d := by
      intro name file
      apply (Prog.Safe.restrict (loadFileContents_safe True t name file) fun _ _ _ _ h => h.1).mono fun _ h => h
      exact fun _ _ _ h => h.2
    apply applypatch_safe (fun _ _ _ _ => sourceStep_step _ _) hload trivial fun h => absurd h (by decide)
    · intro data _ hfinds hsha _
      exact ⟨fun _ => rfl, fun _ => .inl (.inr (.inl ⟨data, hfinds.eq.symm, hsha⟩))⟩
    intro target_sha1 c hsha1 hvalid hfrom
    obtain ⟨loaded, hloaded, hnot⟩ := hfrom.target
    rw [hloaded.eq] at hnot
    obtain ⟨loaded, hloaded, hused⟩ := hfrom.source
    rw [hloaded.eq] at hused
    unfold generateTarget
    cases htarget : a.targetName with
    | part p =>
      have hspared : Spared t a d := by
        left
        rw [htarget]
        rfl
      have hleaves : (generatePart abi t a p target_sha1 c).Safe (Disk.flashStep False) (Leaves InCache p d) _ d :=
        generatePart_leaves p hsha1 c
      apply (hleaves.restrict fun _ _ _ _ h => ⟨sourceStep_step _ _ h, False.elim⟩).mono fun _ _ => trivial
      intro ret d' h _ _
      exact ⟨fun _ => h.files source hcache, fun _ => .inl hspared⟩
    | file target =>
      have hreplaced : ¬Replaced target source := by
        intro h
        rcases h with h | h | h
        · exact hpatch target htarget h
        · exact hne (h ▸ htarget)
        · exact hcache (h ▸ inCache_copy)
      cases hsome : c.source_patch.isSome with
      | false =>
        have hspared : Spared t a d := by
          right
          right
          rw [← hused, hsome]
          exact Bool.false_ne_true
        apply (generateFile_copy hsome target_sha1).sourceSafe
        intro ret d' ht _ _
        exact ⟨fun _ => ht.2 source hreplaced, fun _ => .inl hspared⟩
      | true =>
        have hspared : ¬Spared t a d := by
          intro h
          rcases h with h | h | h
          · rw [htarget] at h
            exact absurd h Bool.false_ne_true
          · exact hnot h
          · exact h (hused.mp hsome)
        apply (generateFile_source hsource htarget hreplaced hsome target_sha1).mono fun _ _ => trivial
        intro ret d' _ h hret
        have hend := h hret
        cases room with
        | true => exact ⟨fun hkept => hend (hkept.resolve_left hspared).2, fun _ => .inr rfl⟩
        | false =>
          obtain ⟨data, _, _, hcontent, _⟩ := hvalid.source hsome
          rw [hsource] at hcontent
          obtain ⟨bytes, hbytes, _⟩ := hcontent
          refine ⟨fun hkept => absurd (hkept.resolve_left hspared).1 Bool.false_ne_true, fun hsame => ?_⟩
          rw [hbytes] at hsame
          cases hend.symm.trans hsame
  exact (hsafe.exec hexec).2 0 rfl rfl

end Kept

/-! ### A sample -/

theorem Machine.answer_readable (m : Machine) (d : Disk) (q : Call) (r : Answer q) (d' : Disk)
    (h : m.answer d q = some (r, d')) : Readable d q r := by
  cases q with
  | stat path =>
    cases h
    exact Option.map_eq_none_iff.mp
  | readFile path =>
    cases h
    exact id
  | openPart type device =>
    cases h
    rfl
  | readPart type device pos len =>
    cases h
    intro hnone
    split_ifs at hnone with hlen
    have hle := List.length_take_le len ((d.parts type device).drop pos)
    omega
  | _ => trivial

/-- The file becomes another one. -/
def moveArgs : Args := {sampleArgs "/system/app" with target := some (.file "/system/new".toList)}

def roomy : Machine where
  free _ := 1000000
  names _ := []
  writes _ data := data.length

def moveRun (m : Machine) : Disk × Option Int :=
  (applypatch .ilp32 sampleTools moveArgs).interp m.answer 30 (sampleDisk "/system/app")

theorem exec_moveRun (m : Machine) {M : Disk → (q : Call) → Answer q → Disk → Prop}
    (hM : ∀ d q r d', m.answer d q = some (r, d') → M d q r d') {ret : Int} (hreturned : (moveRun m).2 = some ret) :
    Prog.Exec M (sampleDisk "/system/app") (applypatch .ilp32 sampleTools moveArgs) (moveRun m).1 (some ret) := by
  have hexec := Prog.exec_interp hM 30 (applypatch .ilp32 sampleTools moveArgs) (sampleDisk "/system/app")
  rwa [show ((applypatch .ilp32 sampleTools moveArgs).interp m.answer 30 (sampleDisk "/system/app")).2 = _ from hreturned] at hexec

theorem roomy_undisturbed (d₀ d : Disk) (q : Call) (r : Answer q) (d' : Disk) (h : roomy.answer d q = some (r, d')) :
    Disk.sourceStep .ilp32 moveArgs true True d₀ d q r d' := by
  refine ⟨⟨roomy.answer_step d q r d' h, fun _ => roomy.answer_readable d q r d' h⟩, ?_⟩
  cases q with
  | freeSpace path =>
    cases h
    intro target _ _ _
    exact (by decide : enoughSpace .ilp32 1 1000000 = true)
  | write path data =>
    cases h
    intro _ target _ _ hdata
    have hpos := List.length_pos_iff.mpr hdata
    show 0 < min (data.length : Int) data.length
    omega
  | unlink path =>
    cases h
    exact fun _ => rfl
  | _ => trivial

/-- With room on the system the source is kept. -/
theorem source_kept_sample : (moveRun roomy).2 = some 0 ∧
    (moveRun roomy).1.files "/system/app".toList = (sampleDisk "/system/app").files "/system/app".toList := by
  have hreturned : (moveRun roomy).2 = some 0 := by decide
  refine ⟨hreturned, ?_⟩
  have hcache := (apart_sample.source _ rfl).1
  have hne : moveArgs.targetName ≠ .file "/system/app".toList := by decide
  have hpatch : ∀ target, moveArgs.targetName = .file target → "/system/app".toList ≠ patchName target := by
    intro target htarget
    obtain rfl := Name.file.inj htarget
    decide
  exact (source_kept rfl hne hcache hpatch (exec_moveRun roomy (roomy_undisturbed _) hreturned)).1 (.inr ⟨rfl, trivial⟩)

/-- Without room the source is deleted, and so is its copy. -/
theorem source_deleted : moveArgs.source ≠ moveArgs.targetName ∧
    ∃ d, Prog.Exec Disk.step (sampleDisk "/system/app") (applypatch .ilp32 sampleTools moveArgs) d (some 0) ∧
      (sampleDisk "/system/app").files "/system/app".toList = some [65] ∧ d.files "/system/app".toList = none := by
  refine ⟨by decide, _, exec_moveRun (cramped 100) (cramped 100).answer_step (by decide), rfl, by decide⟩

end Twrp.Patch
