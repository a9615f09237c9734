import Twrp.Patch.Apply

/-! What the parts of a run do to the disk.

For every function there is one statement: which files it may touch while it runs, and what
holds when it returns. -/
namespace Twrp.Patch
open Base

/-! ### Touching files -/

/-- Only the files in `U` have changed. -/
def Touches (U : Path → Prop) (d d' : Disk) : Prop := d'.parts = d.parts ∧ ∀ q, ¬U q → d'.files q = d.files q

section Touches
variable {U V : Path → Prop} {d d' d'' : Disk}

theorem Touches.refl (U : Path → Prop) (d : Disk) : Touches U d d := ⟨rfl, fun _ _ => rfl⟩

theorem Touches.trans (h : Touches U d d') (h' : Touches U d' d'') : Touches U d d'' :=
  ⟨h'.1.trans h.1, fun q hq => (h'.2 q hq).trans (h.2 q hq)⟩

theorem Touches.mono (h : Touches U d d') (hUV : ∀ q, U q → V q) : Touches V d d' :=
  ⟨h.1, fun q hq => h.2 q fun hu => hq (hUV q hu)⟩

theorem touches_one (d : Disk) (path : Path) (content : Option Bytes) :
    Touches (· = path) d (d.setFile path content) :=
  ⟨rfl, fun _ hq => Function.update_of_ne hq _ _⟩

end Touches

@[simp] theorem setFile_files (d : Disk) (path : Path) (content : Option Bytes) :
    (d.setFile path content).files path = content := Function.update_self ..

/-- A program that, from `d`, touches only `U` and ends with `R`. -/
def Does {α : Type} (U : Path → Prop) (x : Io α) (d : Disk) (R : α → Disk → Prop) : Prop :=
  x.Safe Disk.step (Touches U d) R d

section Does
variable {α β : Type} {U : Path → Prop} {d : Disk}

theorem Does.mono {V : Path → Prop} {x : Io α} {R R' : α → Disk → Prop} (h : Does U x d R) (hUV : ∀ q, U q → V q)
    (hR : ∀ a d', Touches U d d' → R a d' → R' a d') : Does V x d R' :=
  Prog.Safe.mono h (fun _ ht => ht.mono hUV) hR

theorem does_pure {a : α} {R : α → Disk → Prop} (h : R a d) : Does U (pure a) d R := ⟨Touches.refl U d, h⟩

/-- The second part goes on from where the first one ends. -/
theorem does_bind {x : Io α} {f : α → Io β} {R : α → Disk → Prop} {R' : β → Disk → Prop} (hx : Does U x d R)
    (hf : ∀ a d', Touches U d d' → R a d' → Does U (f a) d' R') : Does U (x >>= f) d R' := by
  refine Prog.safe_bind (Prog.Safe.keep hx) ?_
  rintro a d' ⟨ht, hr⟩
  exact Prog.Safe.mono (hf a d' ht hr) (fun _ ht' => ht.trans ht') fun _ _ _ h => h

/-- A call that changes nothing. -/
theorem does_ask {q : Call} {f : Answer q → Io β} {R : β → Disk → Prop}
    (hsame : ∀ r d', d.step q r d' → d' = d) (h : ∀ r, d.step q r d → Does U (f r) d R) : Does U (Prog.ask q >>= f) d R :=
  Prog.safe_look (Touches.refl U d) hsame h

/-- A call that touches a file in `U`. -/
theorem does_call {q : Call} {f : Answer q → Io β} {R : β → Disk → Prop}
    (h : ∀ r d', d.step q r d' → Touches U d d' ∧ Does U (f r) d' R) : Does U (Prog.ask q >>= f) d R := by
  refine Prog.safe_call (Touches.refl U d) fun r d' hstep => ?_
  obtain ⟨ht, hdoes⟩ := h r d' hstep
  exact Prog.Safe.mono hdoes (fun _ ht' => ht.trans ht') fun _ _ _ hr => hr

theorem does_ite {c : Prop} [Decidable c] {x y : Io α} {R : α → Disk → Prop} (hx : c → Does U x d R)
    (hy : ¬c → Does U y d R) : Does U (if c then x else y) d R := Prog.safe_ite hx hy

theorem does_map {x : Io α} {f : α → β} {R : β → Disk → Prop} (hx : Does U x d fun a d' => R (f a) d') :
    Does U (f <$> x) d R := does_bind hx fun _ _ _ h => does_pure h

theorem does_hang {R : α → Disk → Prop} : Does U hang d R := ⟨Touches.refl U d, fun r => r.elim⟩

end Does

/-! ### Loading -/

/-- What loading a name from the disk can give. -/
def Content (t : Tools) (d : Disk) : Name → Bytes → Prop
  | .file path, data => ∃ bytes, d.files path = some bytes ∧ t.mask bytes = some data
  | .part p, data => data <+: d.parts p.type p.device

/-- What a load has come to: the content with its size and SHA-1, or nothing. -/
structure Loaded (t : Tools) (d : Disk) (name : Name) (r : Int × FileContents) : Prop where
  ret : r.1 = if r.2.data.isSome then 0 else -1
  data : ∀ data, r.2.data = some data →
    Content t d name data ∧ r.2.size = data.length ∧ r.2.sha1 = t.sha1 data

/-- Nothing is touched. -/
abbrev Nothing : Path → Prop := fun _ => False

theorem eq_of_touches_nothing {d d' : Disk} (h : Touches Nothing d d') : d' = d := by
  obtain ⟨files, parts⟩ := d
  obtain ⟨files', parts'⟩ := d'
  obtain ⟨rfl, hfiles⟩ := h
  obtain rfl : files' = files := funext fun q => hfiles q id
  rfl

theorem loaded_none {t : Tools} {d : Disk} {name : Name} {file : FileContents} (h : file.data = none) :
    Loaded t d name (-1, file) := by
  refine ⟨by simp [h], fun data hdata => ?_⟩
  cases h.symm.trans hdata

section Loading
variable (t : Tools) {d : Disk}

theorem readNext_does (p : Partition) (pos len : Nat) :
    Does Nothing (readNext p pos len) d fun r d' => d' = d ∧ ∀ bytes, r = some bytes →
      bytes = ((d.parts p.type p.device).drop pos).take len ∧ bytes.length = len := by
  refine does_ite (fun _ => ?_) fun hlen => does_pure ⟨rfl, fun bytes hbytes => ?_⟩
  · rw [← Prog.bind_done (Sys.readPart _ _ _ _)]
    refine does_ask (fun r d' hstep => hstep.1) fun r hstep => does_pure ⟨rfl, hstep.2⟩
  · cases hbytes
    obtain rfl : len = 0 := by omega
    exact ⟨rfl, rfl⟩

theorem loadPairs_does (p : Partition) (pairs : List (Nat × CString)) {soFar : Bytes} (file : FileContents)
    (hsoFar : soFar <+: d.parts p.type p.device) :
    Does Nothing (loadPairs t p pairs soFar file) d fun r d' => d' = d ∧ Loaded t d (.part p) r := by
  induction pairs generalizing soFar file with
  | nil => exact does_pure ⟨rfl, loaded_none rfl⟩
  | cons pair rest ih =>
    obtain ⟨size, sha1sum⟩ := pair
    rw [loadPairs]
    refine does_bind (readNext_does p _ _) ?_
    rintro r d' - ⟨hd', hread⟩
    subst d'
    cases r with
    | none => exact does_pure ⟨rfl, loaded_none rfl⟩
    | some bytes =>
      have hfront : soFar ++ bytes <+: d.parts p.type p.device := by
        obtain ⟨tail, htail⟩ := hsoFar
        rw [← htail] at hread ⊢
        rw [(hread bytes rfl).1, List.drop_left, List.prefix_append_right_inj]
        exact List.take_prefix _ _
      dsimp only
      cases parseSha1 sha1sum with
      | none => exact does_pure ⟨rfl, loaded_none rfl⟩
      | some sha1 =>
        refine does_ite (fun hsha => does_pure ⟨rfl, rfl, fun data hdata => ?_⟩) fun _ => ih _ hfront
        cases hdata
        exact ⟨hfront, rfl, hsha.symm⟩

/-- Loading touches nothing. -/
theorem loadFileContents_does (name : Name) (file : FileContents) :
    Does Nothing (loadFileContents t name file) d fun r d' => d' = d ∧ Loaded t d name r := by
  cases name with
  | part p =>
    refine does_ite (fun _ => does_pure ⟨rfl, loaded_none rfl⟩) fun _ => ?_
    refine does_ask (fun r d' hstep => hstep) fun opened _ => ?_
    refine does_ite (fun _ => does_pure ⟨rfl, loaded_none rfl⟩) fun _ => ?_
    exact loadPairs_does t p _ _ (List.nil_prefix)
  | file path =>
    refine does_ask (fun r d' hstep => hstep.1) fun r hstat => ?_
    cases r with
    | none => exact does_pure ⟨rfl, loaded_none rfl⟩
    | some found =>
      refine does_ask (fun r d' hstep => hstep.1) fun r hread => ?_
      cases r with
      | none => exact does_pure ⟨rfl, loaded_none rfl⟩
      | some bytes =>
        dsimp only
        cases hmask : t.mask bytes with
        | none => exact does_pure ⟨rfl, loaded_none rfl⟩
        | some masked =>
          refine does_pure ⟨rfl, rfl, fun data hdata => ?_⟩
          cases hdata
          have hbytes := hread.2 bytes rfl
          obtain ⟨bytes', hbytes', hsize⟩ := hstat.2 found.1 found.2 rfl
          obtain rfl := Option.some.inj (hbytes.symm.trans hbytes')
          refine ⟨⟨bytes, hbytes, hmask⟩, ?_, rfl⟩
          show (found.1 : Int) = masked.length
          rw [t.mask_length hmask, hsize]

end Loading

/-! ### Saving -/

section Saving
variable {d : Disk} {path : Path}

theorem sinkLoop_does {old : Bytes} (fuel : Nat) (rest : Bytes) (done : Nat) (hold : d.files path = some old) :
    Does (· = path) (sinkLoop path fuel rest done) d fun n d' => ∃ k, k ≤ rest.length ∧ n = (done + k : Nat) ∧
      d'.files path = some (old ++ rest.take k) := by
  have hstop : ∃ k, k ≤ rest.length ∧ (done : Int) = (done + k : Nat) ∧ d.files path = some (old ++ rest.take k) :=
    ⟨0, Nat.zero_le _, rfl, by rw [List.take_zero, List.append_nil, hold]⟩
  induction fuel generalizing d old rest done with
  | zero => exact does_pure hstop
  | succ fuel ih =>
    refine does_ite (fun _ => does_pure hstop) fun _ => ?_
    refine does_call fun (wrote : Int) d' hstep => ?_
    obtain ⟨hle, hd'⟩ := hstep
    by_cases hfail : wrote ≤ 0
    · rw [if_pos hfail] at hd'
      subst d'
      refine ⟨Touches.refl _ _, ?_⟩
      rw [if_pos hfail]
      exact does_pure hstop
    · rw [if_neg hfail, hold] at hd'
      subst d'
      refine ⟨touches_one d path _, ?_⟩
      rw [if_neg hfail]
      have hfile : (d.setFile path (some ((some old).getD [] ++ rest.take wrote.toNat))).files path =
          some (old ++ rest.take wrote.toNat) := setFile_files ..
      refine (ih _ _ hfile ⟨0, Nat.zero_le _, rfl, by rw [List.take_zero, List.append_nil, hfile]⟩).mono (fun _ h => h) ?_
      rintro n d' - ⟨k, hk, rfl, hd'⟩
      rw [List.length_drop] at hk
      refine ⟨wrote.toNat + k, by omega, by rw [Nat.add_assoc], ?_⟩
      rw [hd', List.take_add, List.append_assoc]

/-- The sink appends the bytes it says it has written. -/
theorem fileSink_does {old : Bytes} (data : Bytes) (hold : d.files path = some old) :
    Does (· = path) (fileSink path data) d fun n d' => ∃ k, k ≤ data.length ∧ n = (k : Nat) ∧
      d'.files path = some (old ++ data.take k) := by
  refine (sinkLoop_does data.length data 0 hold).mono (fun _ h => h) ?_
  rintro n d' - ⟨k, hk, rfl, hd'⟩
  exact ⟨k, hk, by rw [Nat.zero_add], hd'⟩

theorem create_step {r : Bool} {d' : Disk} (h : d.step (.create path) r d') :
    Touches (· = path) d d' ∧ (r = true → d'.files path = some []) := by
  cases r with
  | false =>
    obtain rfl : d' = d := h
    exact ⟨Touches.refl _ _, fun hr => absurd hr Bool.false_ne_true⟩
  | true =>
    obtain rfl : d' = d.setFile path (some []) := h
    exact ⟨touches_one d path _, fun _ => setFile_files ..⟩

/-- A file that was saved holds the data. -/
theorem saveFileContents_does (file : FileContents) :
    Does (· = path) (saveFileContents path file) d fun ret d' => ret = -1 ∨ ret = 0 ∧
      ∀ data, file.data = some data → file.size = data.length → d'.files path = some data := by
  refine does_call fun r d' hstep => ?_
  obtain ⟨ht, hcreated⟩ := create_step hstep
  refine ⟨ht, ?_⟩
  cases r with
  | false => exact does_pure (.inl rfl)
  | true =>
    have hsink : Does (· = path) (sinkData path file.data) d' fun n d'' =>
        ∀ data, file.data = some data → n = (data.length : Int) → d''.files path = some data := by
      cases hdata : file.data with
      | none =>
        refine does_pure fun data hsome => ?_
        cases hsome
      | some data =>
        refine (fileSink_does data (hcreated rfl)).mono (fun _ h => h) ?_
        rintro n d'' - ⟨k, hk, rfl, hd''⟩ _ hsome hlen
        cases hsome
        rw [hd'', List.nil_append, List.take_of_length_le (by omega)]
    refine does_bind hsink fun n d'' _ hwritten => ?_
    refine does_ite (fun _ => does_pure (.inl rfl)) fun hsize => ?_
    refine does_ask (fun _ _ h => h) fun _ _ => does_ite (fun _ => does_pure (.inl rfl)) fun _ => ?_
    refine does_ask (fun _ _ h => h) fun _ _ => does_ite (fun _ => does_pure (.inl rfl)) fun _ => ?_
    refine does_pure (.inr ⟨rfl, fun data hdata hlen => hwritten data hdata ?_⟩)
    rw [not_not.mp hsize, hlen]

end Saving

/-! ### Room on the cache -/

/-- A file directly in one of the directories that `MakeFreeSpaceOnCache` clears. -/
def InCache (q : Path) : Prop := ∃ dir ∈ expendableDirs, ∃ name, '/' ∉ name ∧ q = join dir name

theorem inCache_copy : InCache CACHE_TEMP_SOURCE :=
  ⟨"/cache".toList, List.mem_cons_self, "saved.file".toList, by decide, rfl⟩

/-- What may be deleted for room: everything there but the copy. -/
def Expendable (q : Path) : Prop := InCache q ∧ q ≠ CACHE_TEMP_SOURCE

section Cache
variable {d : Disk}

theorem regularFiles_does {dir : Path} (hdir : dir ∈ expendableDirs) {names : List Path} (hnames : ∀ n ∈ names, '/' ∉ n) :
    Does Nothing (regularFiles dir names) d fun found _ => ∀ q ∈ found, Expendable q := by
  induction names with
  | nil => exact does_pure fun q hq => absurd hq List.not_mem_nil
  | cons name rest ih =>
    have hrest := ih fun n hn => hnames n (List.mem_cons_of_mem name hn)
    rw [regularFiles]
    refine does_ite (fun _ => hrest) fun hne => ?_
    refine does_ask (fun _ _ h => h.1) fun regular _ => ?_
    refine does_bind hrest fun later d' _ hlater => does_pure ?_
    split_ifs
    · intro q hq
      rcases List.mem_cons.mp hq with rfl | hq
      · exact ⟨⟨dir, hdir, name, hnames name List.mem_cons_self, rfl⟩, hne⟩
      · exact hlater q hq
    · exact hlater

theorem filesIn_does {dir : Path} (hdir : dir ∈ expendableDirs) :
    Does Nothing (filesIn dir) d fun found _ => ∀ q ∈ found, Expendable q := by
  refine does_ask (fun _ _ h => h.1) fun r hstep => ?_
  cases r with
  | none => exact does_pure fun q hq => absurd hq List.not_mem_nil
  | some names => exact regularFiles_does hdir (hstep.2 names rfl)

theorem findInDirs_does {dirs : List Path} (hdirs : ∀ dir ∈ dirs, dir ∈ expendableDirs) :
    Does Nothing (findInDirs dirs) d fun found _ => ∀ q ∈ found, Expendable q := by
  induction dirs generalizing d with
  | nil => exact does_pure fun q hq => absurd hq List.not_mem_nil
  | cons dir rest ih =>
    refine does_bind (filesIn_does (hdirs dir List.mem_cons_self)) fun here d' _ hhere => ?_
    refine does_bind (ih fun dir' h => hdirs dir' (List.mem_cons_of_mem dir h)) fun later d'' _ hlater => ?_
    refine does_pure fun q hq => ?_
    exact (List.mem_append.mp hq).elim (hhere q) (hlater q)

theorem findExpendableFiles_does :
    Does Nothing findExpendableFiles d fun r _ => ∀ names, r = some names → ∀ q, some q ∈ names → Expendable q := by
  refine does_bind (findInDirs_does fun _ h => h) fun found d' _ hfound => ?_
  refine does_ask (fun _ _ h => h) fun links _ => ?_
  cases links with
  | none =>
    refine does_pure fun names hnames => ?_
    cases hnames
  | some links =>
    refine does_pure fun names hnames q hq => ?_
    cases hnames
    obtain ⟨name, hname, heq⟩ := List.mem_map.mp hq
    split_ifs at heq
    cases heq
    exact hfound q hname

theorem unlink_step {path : Path} {r : Bool} {d' : Disk} (h : d.step (.unlink path) r d') : Touches (· = path) d d' := by
  cases r with
  | false =>
    obtain rfl : d' = d := h
    exact Touches.refl _ _
  | true =>
    obtain rfl : d' = d.setFile path none := h
    exact touches_one d path _

theorem deleteLoop_does (needed : Nat) {names : List (Option Path)} (hnames : ∀ q, some q ∈ names → Expendable q) (free : Nat) :
    Does Expendable (deleteLoop needed names free) d fun _ _ => True := by
  induction names generalizing d free with
  | nil => exact does_pure trivial
  | cons name rest ih =>
    have hrest := fun d free => ih (d := d) (fun q hq => hnames q (List.mem_cons_of_mem name hq)) free
    cases name with
    | none => exact does_ite (fun _ => hrest d free) fun _ => does_pure trivial
    | some q =>
      refine does_ite (fun _ => ?_) fun _ => does_pure trivial
      refine does_call fun r d' hstep => ⟨(unlink_step hstep).mono fun q' hq' => ?_, ?_⟩
      · rw [hq']
        exact hnames q List.mem_cons_self
      · exact does_ask (fun _ _ h => h) fun free' _ => hrest d' free'

/-- Making room deletes nothing but what is expendable. -/
theorem makeFreeSpaceOnCache_does (needed : Nat) : Does Expendable (makeFreeSpaceOnCache needed) d fun _ _ => True := by
  refine does_ask (fun _ _ h => h) fun (free : Nat) _ => ?_
  refine does_ite (fun _ => does_pure trivial) fun _ => ?_
  refine does_bind (findExpendableFiles_does.mono (fun _ h => h.elim) fun _ _ _ h => h) fun r d' _ hr => ?_
  cases r with
  | none => exact does_pure trivial
  | some names =>
    refine does_ite (fun _ => does_pure trivial) fun _ => ?_
    exact does_bind (deleteLoop_does needed (hr names rfl) free) fun _ _ _ _ => does_pure trivial

end Cache

/-- A source in hand that was backed up is in the cache. -/
theorem backUp_does (abi : Abi) {d : Disk} (file : FileContents) :
    Does InCache (backUp abi file) d fun ok d' => ok = true →
      ∀ data, file.data = some data → file.size = data.length → d'.files CACHE_TEMP_SOURCE = some data := by
  have hroom := makeFreeSpaceOnCache_does (d := d) (file.size % abi.word).toNat
  refine does_bind (hroom.mono (fun _ h => h.1) fun _ _ _ h => h) fun ret d' _ _ => ?_
  refine does_ite (fun _ => does_pure fun h => absurd h Bool.false_ne_true) fun _ => ?_
  have hsave : Does (· = CACHE_TEMP_SOURCE) (saveFileContents CACHE_TEMP_SOURCE file) d' _ := saveFileContents_does file
  refine does_bind (hsave.mono (fun q hq => ?_) fun _ _ _ h => h) fun ret d'' _ hsaved => ?_
  · rw [hq]
    exact inCache_copy
  · refine does_ite (fun _ => does_pure fun h => absurd h Bool.false_ne_true) fun hret => does_pure fun _ => ?_
    rcases hsaved with rfl | ⟨_, hdata⟩
    · exact absurd (by decide) hret
    · exact hdata

/-! ### Applying the patch -/

def Action.output : Action → Bytes
  | patched (some data) => data
  | raw data => data
  | deflated data => data
  | _ => []

/-- Everything an image patch wants written. -/
def output (actions : List Action) : Bytes := actions.flatMap Action.output

/-- What a patch that is reported as applied may have hashed and written: of a normal chunk that
could not be written whole nothing is hashed, and some of it may be written. -/
inductive Pushed : List Action → Bytes → Bytes → Prop where
  | nil : Pushed [] [] []
  | unpatched {rest : List Action} {hashed written : Bytes} :
      Pushed rest hashed written → Pushed (.patched none :: rest) hashed written
  | patched {rest : List Action} {hashed written : Bytes} (data : Bytes) :
      Pushed rest hashed written → Pushed (.patched (some data) :: rest) (data ++ hashed) (data ++ written)
  | leftOut {rest : List Action} {hashed written data : Bytes} (k : Nat) (hk : k < data.length) :
      Pushed rest hashed written → Pushed (.patched (some data) :: rest) hashed (data.take k ++ written)
  | raw {rest : List Action} {hashed written : Bytes} (data : Bytes) :
      Pushed rest hashed written → Pushed (.raw data :: rest) (data ++ hashed) (data ++ written)
  | deflated {rest : List Action} {hashed written : Bytes} (data : Bytes) :
      Pushed rest hashed written → Pushed (.deflated data :: rest) (data ++ hashed) (data ++ written)

/-- Where nothing was left out, what was written is what was hashed. -/
theorem Pushed.whole {actions : List Action} {hashed written : Bytes} (h : Pushed actions hashed written) :
    hashed.length ≤ (output actions).length ∧
      (hashed.length = (output actions).length → hashed = output actions ∧ written = hashed) := by
  have hcons : ∀ {action : Action} {rest : List Action} {data hashed written : Bytes}, action.output = data →
      (hashed.length ≤ (output rest).length ∧
        (hashed.length = (output rest).length → hashed = output rest ∧ written = hashed)) →
      (data ++ hashed).length ≤ (output (action :: rest)).length ∧
        ((data ++ hashed).length = (output (action :: rest)).length →
          data ++ hashed = output (action :: rest) ∧ data ++ written = data ++ hashed) := by
    rintro action rest data hashed written rfl ⟨hle, heq⟩
    have houtput : output (action :: rest) = action.output ++ output rest := rfl
    rw [houtput, List.length_append, List.length_append]
    refine ⟨by omega, fun hlen => ?_⟩
    obtain ⟨rfl, rfl⟩ := heq (by omega)
    exact ⟨rfl, rfl⟩
  induction h with
  | nil => exact ⟨le_rfl, fun _ => ⟨rfl, rfl⟩⟩
  | unpatched _ ih => exact ih
  | patched data _ ih => exact hcons rfl ih
  | @leftOut rest hashed written data k hk _ ih =>
    have houtput : output (.patched (some data) :: rest) = data ++ output rest := rfl
    rw [houtput, List.length_append]
    exact ⟨by omega, fun hlen => by omega⟩
  | raw data _ ih => exact hcons rfl ih
  | deflated data _ ih => exact hcons rfl ih

/-- A sink that keeps what it is given in some place: `content` is there, and it takes the first
`k` bytes of `data` when it says so. -/
def Keeps {σ : Type} (U : Path → Prop) (sink : σ → Bytes → Io (Int × σ)) (content : σ → Disk → Bytes → Prop) : Prop :=
  ∀ token d old data, content token d old → Does U (sink token data) d fun r d' =>
    ∃ k, k ≤ data.length ∧ (r.1 = data.length ↔ k = data.length) ∧ (k < data.length → r.1 < data.length) ∧
      content r.2 d' (old ++ data.take k)

section Perform
variable {σ : Type} {U : Path → Prop} {sink : σ → Bytes → Io (Int × σ)} {content : σ → Disk → Bytes → Prop}
  (hsink : Keeps U sink content)
include hsink

/-- What is reported as applied was pushed. -/
theorem perform_does (actions : List Action) {token : σ} {d : Disk} {old : Bytes} (ctx : Bytes)
    (hold : content token d old) :
    Does U (perform hang sink actions token ctx) d fun r d' => r.1 = 0 → ∃ hashed written, Pushed actions hashed written ∧
      r.2.2 = ctx ++ hashed ∧ content r.2.1 d' (old ++ written) := by
  induction actions generalizing token d old ctx with
  | nil =>
    refine does_pure fun _ => ⟨[], [], .nil, (List.append_nil ctx).symm, ?_⟩
    rwa [List.append_nil]
  | cons action rest ih =>
    -- one chunk that is hashed and written whole, and then the rest
    have hwhole : ∀ {token : σ} {d : Disk} {data : Bytes}, content token d (old ++ data) →
        (∀ hashed written, Pushed rest hashed written → Pushed (action :: rest) (data ++ hashed) (data ++ written)) →
        Does U (perform hang sink rest token (ctx ++ data)) d fun r d' => r.1 = 0 → ∃ hashed written,
          Pushed (action :: rest) hashed written ∧ r.2.2 = ctx ++ hashed ∧ content r.2.1 d' (old ++ written) := by
      intro token d data hcontent hpushed
      refine (ih (ctx ++ data) hcontent).mono (fun _ h => h) fun r d' _ h hret => ?_
      obtain ⟨hashed, written, hrest, hctx, hd'⟩ := h hret
      refine ⟨data ++ hashed, data ++ written, hpushed _ _ hrest, ?_, ?_⟩
      · rw [hctx, List.append_assoc]
      · rwa [List.append_assoc] at hd'
    have hfailed : ∀ {token : σ} {d : Disk} {ctx' : Bytes},
        Does U (pure (-1, token, ctx') : Io (Int × σ × Bytes)) d fun r d' => r.1 = 0 → ∃ hashed written,
          Pushed (action :: rest) hashed written ∧ r.2.2 = ctx ++ hashed ∧ content r.2.1 d' (old ++ written) :=
      does_pure fun hret => absurd hret (show ¬(-1 : Int) = 0 by decide)
    cases action with
    | patched found =>
      cases found with
      | none =>
        refine (ih ctx hold).mono (fun _ h => h) fun r d' _ h hret => ?_
        obtain ⟨hashed, written, hrest, hctx, hd'⟩ := h hret
        exact ⟨hashed, written, .unpatched hrest, hctx, hd'⟩
      | some data =>
        refine does_bind (hsink token d old data hold) ?_
        rintro ⟨wrote, token'⟩ d' - ⟨k, hk, hfull, hshort, hcontent⟩
        refine does_ite (fun hlt => ?_) fun hge => ?_
        · have hlt' : k < data.length := by
            refine lt_of_le_of_ne hk fun heq => ?_
            have hwrote : wrote = data.length := hfull.mpr heq
            omega
          refine (ih ctx hcontent).mono (fun _ h => h) fun r d'' _ h hret => ?_
          obtain ⟨hashed, written, hrest, hctx, hd''⟩ := h hret
          refine ⟨hashed, data.take k ++ written, .leftOut k hlt' hrest, hctx, ?_⟩
          rwa [List.append_assoc] at hd''
        · have hkeq : k = data.length := by
            by_contra hne
            exact hge (hshort (by omega))
          rw [List.take_of_length_le (le_of_eq hkeq.symm)] at hcontent
          exact hwhole hcontent fun _ _ h => .patched data h
    | raw data =>
      refine does_bind (hsink token d old data hold) ?_
      rintro ⟨wrote, token'⟩ d' - ⟨k, hk, hfull, hshort, hcontent⟩
      refine does_ite (fun _ => hfailed) fun heq => ?_
      rw [List.take_of_length_le (le_of_eq (hfull.mp (not_not.mp heq)).symm)] at hcontent
      exact hwhole hcontent fun _ _ h => .raw data h
    | deflated data =>
      refine does_bind (hsink token d old data hold) ?_
      rintro ⟨wrote, token'⟩ d' - ⟨k, hk, hfull, hshort, hcontent⟩
      refine does_ite (fun _ => hfailed) fun heq => ?_
      rw [List.take_of_length_le (le_of_eq (hfull.mp (not_not.mp heq)).symm)] at hcontent
      exact hwhole hcontent fun _ _ h => .deflated data h
    | fail => exact hfailed
    | stuck => exact does_hang

end Perform

/-- A patch of either format that is reported as applied. -/
inductive Applied (abi : Abi) (t : Tools) (a : Args) (old patch : Bytes) : Bytes → Bytes → Prop where
  | bsdiff {data : Bytes} (h : t.bspatch old patch 0 = some data) : Applied abi t a old patch data data
  | image {hashed written : Bytes} (h : Pushed (imageActions abi t.toCodec old patch a.bonus) hashed written) :
      Applied abi t a old patch hashed written

section Apply
variable {σ : Type} {U : Path → Prop} {sink : σ → Bytes → Io (Int × σ)} {content : σ → Disk → Bytes → Prop}

theorem applyPatch_does (abi : Abi) (t : Tools) (a : Args) (hsink : Keeps U sink content) (old patch : Bytes) {token : σ}
    {d : Disk} (hold : content token d []) :
    Does U (applyPatch abi t a sink old patch token) d fun r d' => ∀ token' ctx, r = some (0, token', ctx) →
      ∃ written, Applied abi t a old patch ctx written ∧ content token' d' written := by
  refine does_ite (fun _ => does_map ?_) fun _ => does_ite (fun _ => does_map ?_) fun _ => ?_
  · unfold applyBSDiffPatch
    cases hpatch : t.bspatch old patch 0 with
    | none =>
      refine does_pure fun token' ctx heq => ?_
      cases heq
    | some data =>
      refine does_bind (hsink token d [] data hold) ?_
      rintro ⟨wrote, token'⟩ d' - ⟨k, hk, hfull, hshort, hcontent⟩
      refine does_ite (fun _ => does_pure fun token' ctx heq => ?_) fun hge => does_pure fun token' ctx heq => ?_
      · cases heq
      · cases heq
        have hkeq : k = data.length := by
          by_contra hne
          exact hge (hshort (by omega))
        rw [List.nil_append, List.take_of_length_le (le_of_eq hkeq.symm)] at hcontent
        exact ⟨data, .bsdiff hpatch, hcontent⟩
  · refine (perform_does hsink _ [] hold).mono (fun _ h => h) fun r d' _ h token' ctx heq => ?_
    obtain rfl := Option.some.inj heq
    obtain ⟨hashed, written, hpushed, rfl, hcontent⟩ := h rfl
    exact ⟨written, .image hpushed, hcontent⟩
  · refine does_pure fun token' ctx heq => ?_
    cases heq

/-- The sink of a file. -/
theorem keeps_fileSink (path : Path) :
    Keeps (· = path) (fun (_ : Unit) data => (·, ()) <$> fileSink path data) fun _ d bytes => d.files path = some bytes := by
  intro token d old data hold
  refine does_map ((fileSink_does data hold).mono (fun _ h => h) ?_)
  rintro n d' - ⟨k, hk, rfl, hd'⟩
  exact ⟨k, hk, by simp, by simp, hd'⟩

/-- The sink in memory. -/
theorem keeps_memorySink (size : Nat) :
    Keeps Nothing (fun buffer data => pure (memorySink size buffer data)) fun buffer _ bytes =>
      buffer = bytes ∧ bytes.length ≤ size := by
  rintro old d _ data ⟨rfl, hfits⟩
  refine does_pure ?_
  by_cases hroom : size < old.length + data.length
  · have hsink : memorySink size old data = (-1, old) := if_pos hroom
    rw [hsink]
    refine ⟨0, Nat.zero_le _, ?_, fun _ => ?_, ?_⟩
    · dsimp only
      omega
    · dsimp only
      omega
    · rw [List.take_zero, List.append_nil]
      exact ⟨rfl, hfits⟩
  · have hsink : memorySink size old data = ((data.length : Int), old ++ data) := if_neg hroom
    rw [hsink]
    refine ⟨data.length, le_rfl, by simp, by simp, ?_⟩
    rw [List.take_length]
    refine ⟨rfl, ?_⟩
    rw [List.length_append]
    omega

end Apply

/-! ### A turn of the loop -/

section Turn
variable (abi : Abi) (t : Tools) (a : Args) {d : Disk}

/-- What a turn that ends with a patched file leaves in it. -/
def Patched (target : Path) (c : Chosen) (ctx : Bytes) (d' : Disk) : Prop :=
  ∃ patch old written, c.patch = some patch ∧ c.used.data = some old ∧ Applied abi t a old patch.data ctx written ∧
    d'.files (patchName target) = some written

theorem patchFile_does (target : Path) (c : Chosen) (made_copy : Bool) :
    Does (· = patchName target) (patchFile abi t a target c made_copy) d fun r d' =>
      ∀ ctx made, r = .patched ctx made → made = made_copy ∧ Patched abi t a target c ctx d' := by
  unfold patchFile
  cases hpatch : c.patch with
  | none => exact does_hang
  | some patch =>
    cases hused : c.used.data with
    | none => exact does_hang
    | some old =>
      refine does_ite (fun _ => does_pure fun ctx made heq => ?_) fun _ => ?_
      · cases heq
      · refine does_call fun r d' hstep => ?_
        obtain ⟨ht, hcreated⟩ := create_step hstep
        refine ⟨ht, ?_⟩
        cases r with
        | false =>
          refine does_pure fun ctx made heq => ?_
          cases heq
        | true =>
          refine does_bind (applyPatch_does abi t a (keeps_fileSink _) old patch.data (hcreated rfl)) fun r d'' _ happlied => ?_
          cases r with
          | none =>
            refine does_pure fun ctx made heq => ?_
            cases heq
          | some r =>
            obtain ⟨result, _, ctx⟩ := r
            refine does_ite (fun _ => does_pure fun ctx made heq => ?_) fun hret => does_pure fun ctx made heq => ?_
            · cases heq
            · cases heq
              obtain rfl := not_not.mp hret
              obtain ⟨written, hwritten, hfile⟩ := happlied _ _ rfl
              exact ⟨rfl, patch, old, written, hpatch, hused, hwritten, hfile⟩

end Turn

/-! ### A machine

One way to answer every call, as a table of what the machine has: what space is free, what the
directories list, and how much of a write goes through. Nothing else fails. -/

structure Machine where
  free : Path → Nat
  names : Path → List Path
  writes : Path → Bytes → Int

def Machine.answer (m : Machine) (d : Disk) : (q : Call) → Option (Answer q × Disk)
  | .uninit => some ((⟨[], none, 0, ⟨0, 0, 0⟩⟩ : FileContents), d)
  | .stat path => some (((d.files path).map fun bytes => (bytes.length, ⟨0o644, 0, 0⟩) : Option (Nat × Stat)), d)
  | .readFile path => some (d.files path, d)
  | .openPart _ _ => some (true, d)
  | .readPart type device pos len =>
    let bytes := ((d.parts type device).drop pos).take len
    some ((if bytes.length = len then some bytes else none : Option Bytes), d)
  | .create path => some (true, d.setFile path (some []))
  | .write path data =>
    let n := min (m.writes path data) data.length
    some (n, if n ≤ 0 then d else d.setFile path (some ((d.files path).getD [] ++ data.take n.toNat)))
  | .chmod _ _ => some (true, d)
  | .chown _ _ => some (true, d)
  | .unlink path => some (true, d.setFile path none)
  | .rename path path' => some (true, (d.setFile path' (d.files path)).setFile path none)
  | .freeSpace path => some (m.free path, d)
  | .listDir dir => some (some ((m.names dir).filter fun name => '/' ∉ name), d)
  | .isRegular path => some ((d.files path).isSome, d)
  | .openFiles => some (some [], d)
  | .malloc _ => some (true, d)
  | .openMtd _ => some (false, d)
  | .openDevice _ => some (true, d)
  | .writeDevice device pos data =>
    if pos + data.length ≤ (d.parts .EMMC device).length then
      some (.got data.length, d.setPart .EMMC device
        ((d.parts .EMMC device).take pos ++ data ++ (d.parts .EMMC device).drop (pos + data.length)))
    else some (.error, d.setPart .EMMC device
        ((d.parts .EMMC device).take pos ++ [] ++ (d.parts .EMMC device).drop (pos + 0)))
  | .readDevice device pos len => some (.got (((d.parts .EMMC device).drop pos).take len), d)
  | .closeDevice _ => some (true, d)
  | .patience => some ((1000 : Nat), d)
  | _ => none

theorem Machine.answer_step (m : Machine) (d : Disk) (q : Call) (r : Answer q) (d' : Disk)
    (h : m.answer d q = some (r, d')) : d.step q r d' := by
  cases q with
  | stat path =>
    cases h
    refine ⟨rfl, fun size st hsome => ?_⟩
    obtain ⟨bytes, hbytes, heq⟩ := Option.map_eq_some_iff.mp hsome
    exact ⟨bytes, hbytes, (Prod.mk.inj heq).1.symm⟩
  | readFile path =>
    cases h
    exact ⟨rfl, fun _ h => h⟩
  | readPart type device pos len =>
    cases h
    refine ⟨rfl, fun bytes hsome => ?_⟩
    split_ifs at hsome with hlen
    cases hsome
    exact ⟨rfl, hlen⟩
  | write path data =>
    cases h
    exact ⟨min_le_right _ _, rfl⟩
  | listDir dir =>
    cases h
    refine ⟨rfl, fun names hsome name hname => ?_⟩
    cases hsome
    simpa using (List.mem_filter.mp hname).2
  | isRegular path =>
    cases h
    refine ⟨rfl, fun hsome hnone => ?_⟩
    rw [hnone] at hsome
    cases hsome
  | writeDevice device pos data =>
    by_cases hfits : pos + data.length ≤ (d.parts .EMMC device).length
    · cases (if_pos hfits).symm.trans h
      exact ⟨data, rfl, le_rfl, rfl, hfits⟩
    · cases (if_neg hfits).symm.trans h
      exact ⟨[], rfl, rfl⟩
  | readDevice device pos len =>
    cases h
    refine ⟨rfl, List.length_take_le _ _, ?_⟩
    rw [List.length_take, List.take_eq_take_iff]
    omega
  | mtdBlocks device => cases h
  | mtdBlock device => cases h
  | mtdClose device data => cases h
  | hang => cases h
  | _ =>
    cases h
    rfl

end Twrp.Patch
