import Twrp.Tar.Files

/-! How much an archive holds.

The split walk and each thread of an encrypted backup keep the size of the archive in hand
and go on to the next archive when a file would not fit. Here a run is scanned for what is
in the archive in hand, what was in the archives already closed, and which names were
used. The size kept is never less than what the archive holds, as long as nothing wraps
around; and it passes the limit only for an archive with a single file that is not empty. -/
namespace Twrp.Tar
open Base

/-! ### What a run puts where -/

/-- The archive in hand, the contents of those closed before, and the names used. -/
structure Scan where
  current : List Path := []
  closed : List (List Path) := []
  names : List Path := []

def Scan.step (sc : Scan) : Sigma Ans → Scan
  | ⟨.createTar file, _⟩ => { sc with current := [], names := sc.names ++ [file] }
  | ⟨.append real _, true⟩ => { sc with current := sc.current ++ [real] }
  | ⟨.closeTar _, _⟩ => { sc with closed := sc.closed ++ [sc.current] }
  | _ => sc

def Scan.after (sc : Scan) (log : List (Sigma Ans)) : Scan := log.foldl Scan.step sc

theorem Scan.after_append (sc : Scan) (l l' : List (Sigma Ans)) : sc.after (l ++ l') = (sc.after l).after l' :=
  List.foldl_append

/-- The sizes of the regular files of a tree, which has no size anywhere else. -/
def Listing.Sized (sizes : Path → Nat) : Path → Listing → Prop
  | _, .nil => True
  | path, .leaf name kind rest => sizes (join path name) = kind.size ∧ rest.Sized sizes path
  | path, .dir name sub rest =>
    sizes (join path name) = 0 ∧ sizes (join path name ++ ['/']) = 0 ∧ sub.Sized sizes (join path name) ∧
      rest.Sized sizes path

section Sizes
variable (sizes : Path → Nat)

/-- The sizes of some files, added up. -/
def amount (files : List Path) : Nat := (files.map sizes).sum

/-- How many of them are not empty. -/
def filled (files : List Path) : Nat := files.countP fun p => sizes p ≠ 0

/-- Not more than fits, or one file alone, apart from empty ones. -/
def Limited (files : List Path) : Prop := amount sizes files ≤ maxArchiveSize ∨ filled sizes files = 1

@[simp] theorem amount_nil : amount sizes [] = 0 := rfl

@[simp] theorem filled_nil : filled sizes [] = 0 := rfl

theorem amount_append (a b : List Path) : amount sizes (a ++ b) = amount sizes a + amount sizes b := by
  simp [amount]

theorem filled_append (a b : List Path) : filled sizes (a ++ b) = filled sizes a + filled sizes b := List.countP_append

variable {sizes}

theorem filled_eq_zero {files : List Path} : filled sizes files = 0 ↔ amount sizes files = 0 := by
  unfold filled amount
  rw [List.countP_eq_zero, List.sum_eq_zero_iff_forall_eq_nat]
  simp

theorem filled_singleton_le (p : Path) : filled sizes [p] ≤ 1 := List.countP_le_length

theorem Limited.of_filled {files : List Path} (h : filled sizes files ≤ 1) : Limited sizes files := by
  by_cases hzero : filled sizes files = 0
  · left
    rw [filled_eq_zero.mp hzero]
    exact Nat.zero_le _
  · right
    omega

/-! ### Walks that stay in one archive -/

/-- Files with at most `n` bytes are put into the archive in hand. -/
def Fills (sizes : Path → Nat) (n : Nat) (log : List (Sigma Ans)) : Prop :=
  ∃ files, amount sizes files ≤ n ∧ ∀ sc : Scan, sc.after log = { sc with current := sc.current ++ files }

theorem Fills.nil (n : Nat) : Fills sizes n [] := ⟨[], Nat.zero_le n, fun sc => by simp [Scan.after]⟩

theorem Fills.append {m n : Nat} {l l' : List (Sigma Ans)} (h : Fills sizes m l) (h' : Fills sizes n l') :
    Fills sizes (m + n) (l ++ l') := by
  obtain ⟨files, hm, hfiles⟩ := h
  obtain ⟨files', hn, hfiles'⟩ := h'
  refine ⟨files ++ files', ?_, fun sc => ?_⟩
  · rw [amount_append]
    exact Nat.add_le_add hm hn
  · rw [Scan.after_append, hfiles, hfiles', List.append_assoc]

theorem Fills.mono {m n : Nat} {l : List (Sigma Ans)} (h : Fills sizes m l) (hle : m ≤ n) : Fills sizes n l := by
  obtain ⟨files, hm, hfiles⟩ := h
  exact ⟨files, Nat.le_trans hm hle, hfiles⟩

/-- A call of which the scan sees nothing. -/
theorem Fills.cons {n : Nat} {e : Sigma Ans} {l : List (Sigma Ans)} (h : Fills sizes n l) (he : ∀ sc, Scan.step sc e = sc) :
    Fills sizes n (e :: l) := by
  obtain ⟨files, hn, hfiles⟩ := h
  refine ⟨files, hn, fun sc => ?_⟩
  show (sc.step e).after l = _
  rw [he]
  exact hfiles sc

variable (sizes) in
theorem fills_tarAppendFile (real : Path) (save : Stored) (ok : Bool) : Fills sizes (sizes real) [⟨.append real save, ok⟩] := by
  cases ok with
  | false => exact (Fills.nil _).cons fun _ => rfl
  | true => exact ⟨[real], by simp [amount], fun _ => rfl⟩

variable (sizes) in
theorem post_addFile_fills (fn : Path) (includeRoot : Bool) : (addFile fn includeRoot).Post fun log _ => Fills sizes (sizes fn) log := by
  refine Prog.post_call (logs_tarAppendFile _ _) fun ok => ?_
  exact Prog.post_ite (fun _ => Prog.post_pure (fills_tarAppendFile _ _ _ _)) fun _ => Prog.post_pure (fills_tarAppendFile _ _ _ _)

theorem post_appendEntries_fills {listing : Listing} {path : Path} (h : listing.Sized sizes path) (save : Stored) :
    (appendEntries path save listing).Post fun log _ => Fills sizes listing.total log := by
  induction listing generalizing path save with
  | nil => exact Prog.post_pure (Fills.nil _)
  | leaf name kind rest ih =>
    obtain ⟨hsize, hrest⟩ := h
    refine Prog.post_check (logs_lstat _) (Prog.post_pure ((Fills.nil _).cons fun _ => rfl)) ?_
    have hfile := fun ok => (fills_tarAppendFile sizes (join path name) (save.join name) ok).mono (hsize.le)
    refine Prog.post_check (logs_tarAppendFile _ _) (Prog.post_pure ?_) ?_
    · exact ((hfile false).mono (Nat.le_add_right _ _)).cons fun _ => rfl
    · refine (ih hrest save).mono fun l _ hl => ?_
      exact ((hfile true).append hl).cons fun _ => rfl
  | dir name sub rest ihsub ihrest =>
    obtain ⟨hdir, _, hsub, hrest⟩ := h
    have hfile := fun ok => (fills_tarAppendFile sizes (join path name) (save.join name) ok).mono (hdir.le)
    refine Prog.post_check (logs_lstat _) (Prog.post_pure ((Fills.nil _).cons fun _ => rfl)) ?_
    refine Prog.post_check (logs_tarAppendFile _ _) (Prog.post_pure ?_) ?_
    · exact ((hfile false).mono (Nat.zero_le _)).cons fun _ => rfl
    refine Prog.post_check (logs_opendir _) (Prog.post_pure ?_) ?_
    · refine Fills.cons ?_ fun _ => rfl
      exact ((hfile true).append ((Fills.nil 0).cons fun _ => rfl)).mono (Nat.zero_le _)
    refine Prog.post_bind (ihsub hsub (save.join name)) fun l ret hl => ?_
    have hboth : ∀ {n : Nat} {l' : List (Sigma Ans)}, Fills sizes n l' → Fills sizes (sub.total + n)
        (⟨.lstat (join path name), true⟩ :: ⟨.append (join path name) (save.join name), true⟩ ::
          ⟨.opendir (join path name), true⟩ :: (l ++ l')) := by
      intro n l' hl'
      refine Fills.cons ?_ fun _ => rfl
      exact ((hfile true).append ((hl.append hl').cons fun _ => rfl)).mono (Nat.zero_add _).le
    refine Prog.post_ite (fun _ => Prog.post_pure ?_) fun _ => ?_
    · exact (hboth (Fills.nil 0)).mono (Nat.le_add_right _ _)
    · exact (ihrest hrest save).mono fun l' _ hl' => hboth hl'

theorem post_tarAppendTree_fills {sub : Listing} {path : Path} (hdir : sizes path = 0) (h : sub.Sized sizes path) (save : Stored) :
    (tarAppendTree path save sub).Post fun log _ => Fills sizes sub.total log := by
  have hfile := fun ok => (fills_tarAppendFile sizes path save ok).mono hdir.le
  refine Prog.post_check (logs_tarAppendFile _ _) (Prog.post_pure ((hfile false).mono (Nat.zero_le _))) ?_
  refine Prog.post_check (logs_opendir _) (Prog.post_pure ?_) ?_
  · exact ((hfile true).append ((Fills.nil 0).cons fun _ => rfl)).mono (Nat.zero_le _)
  · refine (post_appendEntries_fills h save).mono fun l _ hl => ?_
    exact ((hfile true).append (hl.cons fun _ => rfl)).mono (Nat.zero_add _).le

theorem post_tarEntries_fills (cfg : Config) (includeRoot : Bool) {listing : Listing} {tardir : Path}
    (h : listing.Sized sizes tardir) :
    (tarEntries cfg tardir includeRoot listing).Post fun log _ => Fills sizes listing.total log := by
  induction listing with
  | nil => exact Prog.post_pure (Fills.nil _)
  | leaf name kind rest ih =>
    obtain ⟨hsize, hrest⟩ := h
    have hskip : (tarEntries cfg tardir includeRoot rest).Post fun log _ => Fills sizes (kind.size + rest.total) log :=
      (ih hrest).mono fun _ _ hl => hl.mono (Nat.le_add_left _ _)
    refine Prog.post_ite (fun _ => hskip) fun _ => Prog.post_ite (fun _ => hskip) fun _ => ?_
    refine Prog.post_ite (fun _ => ?_) fun _ => hskip
    refine Prog.post_bind (post_addFile_fills sizes _ _) fun l ret hl => ?_
    rw [hsize] at hl
    refine Prog.post_ite (fun _ => Prog.post_pure ?_) fun _ => (ih hrest).mono fun l' _ hl' => hl.append hl'
    exact hl.append (Fills.nil _)
  | dir name sub rest _ ih =>
    obtain ⟨hdir, _, hsub, hrest⟩ := h
    have hskip : (tarEntries cfg tardir includeRoot rest).Post fun log _ => Fills sizes (sub.total + rest.total) log :=
      (ih hrest).mono fun _ _ hl => hl.mono (Nat.le_add_left _ _)
    refine Prog.post_ite (fun _ => hskip) fun _ => Prog.post_ite (fun _ => hskip) fun _ => ?_
    refine Prog.post_bind (post_tarAppendTree_fills hdir hsub _) fun l ret hl => ?_
    refine Prog.post_ite (fun _ => Prog.post_pure ?_) fun _ => (ih hrest).mono fun l' _ hl' => hl.append hl'
    exact hl.append (Fills.nil _)

theorem post_tarDirs_fills (cfg : Config) (includeRoot : Bool) {listing : Listing} {tardir : Path}
    (hdir : sizes (tardir ++ ['/']) = 0) (h : listing.Sized sizes tardir) :
    (tarDirs cfg tardir includeRoot listing).Post fun log _ => Fills sizes listing.total log := by
  refine Prog.post_check (logs_opendir _) (Prog.post_pure ((Fills.nil _).cons fun _ => rfl)) ?_
  have hentries : (tarEntries cfg tardir includeRoot listing).Post fun log _ =>
      Fills sizes listing.total (⟨.opendir tardir, true⟩ :: log) :=
    (post_tarEntries_fills cfg includeRoot h).mono fun l _ hl => hl.cons fun _ => rfl
  refine Prog.post_ite (fun _ => ?_) fun _ => hentries
  refine Prog.post_bind (post_addFile_fills sizes _ _) fun l ret hl => ?_
  rw [hdir] at hl
  refine Prog.post_ite (fun _ => Prog.post_pure ?_) fun _ => ?_
  · exact ((hl.append (Fills.nil 0)).mono (Nat.zero_le _)).cons fun _ => rfl
  · refine (post_tarEntries_fills cfg includeRoot h).mono fun l' _ hl' => ?_
    exact ((hl.append hl').mono (Nat.zero_add _).le).cons fun _ => rfl

theorem post_addFile_call (fn : Path) : (addFile fn true).Post fun log _ => ∃ save ok, log = [⟨.append fn save, ok⟩] := by
  refine Prog.post_call (logs_tarAppendFile _ _) fun ok => ?_
  exact Prog.post_ite (fun _ => Prog.post_pure ⟨_, ok, rfl⟩) fun _ => Prog.post_pure ⟨_, ok, rfl⟩

/-! ### The split walk -/

/-- The names of the first `n` archives of a split backup, of which there are at most a thousand. -/
def SplitNames (basefn : Path) (names : List Path) : Prop := ∃ n ≤ 1000, names = (List.range n).map (splitName basefn)

/-- The invariant: what is kept is not less than what the archive holds. -/
structure Kept (sizes : Path → Nat) (basefn : Path) (sc : Scan) (s : SplitState) : Prop where
  closed : ∀ files ∈ sc.closed, Limited sizes files
  held : amount sizes sc.current ≤ s.currentSize
  single : s.currentSize ≤ maxArchiveSize ∨ filled sizes sc.current ≤ 1
  names : sc.names = (List.range (s.fileCount + 1)).map (splitName basefn)
  count : s.fileCount ≤ 999

/-- What holds wherever the walk ends. -/
structure Sound (sizes : Path → Nat) (basefn : Path) (sc : Scan) : Prop where
  closed : ∀ files ∈ sc.closed, Limited sizes files
  names : SplitNames basefn sc.names

theorem Kept.limited {basefn : Path} {sc : Scan} {s : SplitState} (h : Kept sizes basefn sc s) : Limited sizes sc.current := by
  rcases h.single with hfits | hsingle
  · exact .inl (Nat.le_trans h.held hfits)
  · exact .of_filled hsingle

theorem Kept.sound {basefn : Path} {sc : Scan} {s : SplitState} (h : Kept sizes basefn sc s) : Sound sizes basefn sc :=
  ⟨h.closed, s.fileCount + 1, by have := h.count; omega, h.names⟩

/-- Files for which the size is counted, while they fit. -/
theorem Kept.fills {basefn : Path} {sc : Scan} {s : SplitState} (h : Kept sizes basefn sc s) {n : Nat} {l : List (Sigma Ans)}
    (hl : Fills sizes n l) (hfits : s.currentSize + n ≤ maxArchiveSize) :
    Kept sizes basefn (sc.after l) { s with currentSize := s.currentSize + n } := by
  obtain ⟨files, hn, hfiles⟩ := hl
  have hamount := h.held
  rw [hfiles]
  refine { h with held := ?_, single := .inl hfits }
  rw [amount_append]
  exact Nat.add_le_add hamount hn

/-- Entries that have no size. -/
theorem Kept.empty {basefn : Path} {sc : Scan} {s : SplitState} (h : Kept sizes basefn sc s) {l : List (Sigma Ans)}
    (hl : Fills sizes 0 l) : Kept sizes basefn (sc.after l) s := by
  obtain ⟨files, hn, hfiles⟩ := hl
  have hzero : amount sizes files = 0 := Nat.le_zero.mp hn
  rw [hfiles]
  refine { h with held := ?_, single := ?_ }
  · rw [amount_append, hzero]
    exact h.held
  · rw [filled_append, filled_eq_zero.mpr hzero]
    exact h.single

/-- What a part of the walk ends in, which comes by at most `n` bytes. -/
def Walks (sizes : Path → Nat) (basefn : Path) (sc : Scan) (n : Nat) (log : List (Sigma Ans)) (r : Int × SplitState) : Prop :=
  if r.1 < 0 then Sound sizes basefn (sc.after log) else Kept sizes basefn (sc.after log) r.2 ∧ r.2.currentSize ≤ n

section Split
variable {basefn : Path} {sc : Scan} {s : SplitState}

theorem Walks.failed {n : Nat} {log : List (Sigma Ans)} {s' : SplitState} (h : Sound sizes basefn (sc.after log)) :
    Walks sizes basefn sc n log (-1, s') := by
  unfold Walks
  rw [if_pos (show (-1 : Int) < 0 by decide)]
  exact h

theorem Walks.done {n : Nat} {log : List (Sigma Ans)} {s' : SplitState} (h : Kept sizes basefn (sc.after log) s')
    (hn : s'.currentSize ≤ n) : Walks sizes basefn sc n log (0, s') := by
  unfold Walks
  rw [if_neg (show ¬(0 : Int) < 0 by decide)]
  exact ⟨h, hn⟩

theorem Walks.mono {n m : Nat} {log : List (Sigma Ans)} {r : Int × SplitState} (h : Walks sizes basefn sc n log r) (hle : n ≤ m) :
    Walks sizes basefn sc m log r := by
  unfold Walks at h ⊢
  by_cases hret : r.1 < 0
  · rwa [if_pos hret] at h ⊢
  · rw [if_neg hret] at h ⊢
    exact ⟨h.1, h.2.trans hle⟩

/-- A first part that is gone through, and what follows it. -/
theorem Walks.after {n m : Nat} {l l' : List (Sigma Ans)} {r r' : Int × SplitState} (h : Walks sizes basefn sc n l r) (hr : ¬r.1 < 0)
    (hrest : ∀ sc', Kept sizes basefn sc' r.2 → r.2.currentSize ≤ n → Walks sizes basefn sc' m l' r') :
    Walks sizes basefn sc m (l ++ l') r' := by
  unfold Walks at h
  rw [if_neg hr] at h
  have hwalks := hrest _ h.1 h.2
  unfold Walks at hwalks ⊢
  rwa [Scan.after_append]

/-- After an archive is closed and before the next one is created. -/
theorem Kept.closing (h : Kept sizes basefn sc s) : Sound sizes basefn { sc with closed := sc.closed ++ [sc.current] } := by
  refine ⟨fun files hfiles => ?_, h.sound.names⟩
  rcases List.mem_append.mp hfiles with hbefore | hlast
  · exact h.closed files hbefore
  · rw [List.mem_singleton.mp hlast]
    exact h.limited

/-- The next archive, which is empty. -/
theorem Kept.next (h : Kept sizes basefn sc s) (hcount : ¬s.fileCount + 1 > 999) :
    Kept sizes basefn ⟨[], sc.closed ++ [sc.current], sc.names ++ [splitName basefn (s.fileCount + 1)]⟩
      ⟨splitName basefn (s.fileCount + 1), s.fileCount + 1, 0⟩ where
  closed := h.closing.closed
  held := Nat.zero_le _
  single := .inl (Nat.zero_le _)
  names := by
    rw [h.names, List.range_succ (n := s.fileCount + 1), List.map_append]
    rfl
  count := Nat.not_lt.mp hcount

theorem post_nextArchive_kept (h : Kept sizes basefn sc s) (size : Nat) :
    (nextArchive basefn size s).Post fun log r =>
      Walks sizes basefn sc s.currentSize log r ∧
        (¬r.1 < 0 → r.2.currentSize = 0 ∨ ull (r.2.currentSize + size) ≤ maxArchiveSize) := by
  refine Prog.post_ite (fun _ => ?_) fun hroom => ?_
  · refine Prog.post_call (logs_closeTar _) fun closed => ?_
    refine Prog.post_bind (Prog.post_ask (R := fun l r => l = [⟨.fileSize s.tarfn, r⟩]) fun _ => rfl) fun l n hl => ?_
    subst hl
    refine Prog.post_ite (fun _ => ?_) fun _ => Prog.post_ite (fun _ => ?_) fun hcount => ?_
    · exact Prog.post_pure ⟨.failed h.closing, fun hr => absurd (show (-1 : Int) < 0 by decide) hr⟩
    · refine Prog.post_bind (post_tooMany _) fun l _ hl => ?_
      subst hl
      exact Prog.post_pure ⟨.failed h.closing, fun hr => absurd (show (-1 : Int) < 0 by decide) hr⟩
    · have hnext := h.next hcount
      refine Prog.post_check (logs_createTar _) (Prog.post_pure ?_) (Prog.post_pure ?_)
      · exact ⟨.failed hnext.sound, fun hr => absurd (show (-1 : Int) < 0 by decide) hr⟩
      · exact ⟨.done hnext (Nat.zero_le _), fun _ => .inl rfl⟩
  · refine Prog.post_pure ⟨.done h (Nat.le_refl _), fun _ => ?_⟩
    by_cases hzero : s.currentSize = 0
    · exact .inl hzero
    · exact .inr (Nat.not_lt.mp fun hfull => hroom ⟨hzero, hfull⟩)

/-- One file in an archive that is empty or has room for it. -/
theorem Kept.file (h : Kept sizes basefn sc s) (fn : Path) (save : Stored) (ok : Bool)
    (hroom : s.currentSize = 0 ∨ s.currentSize + sizes fn ≤ maxArchiveSize) :
    Kept sizes basefn (sc.after [⟨.append fn save, ok⟩]) { s with currentSize := s.currentSize + sizes fn } := by
  rcases hroom with hzero | hfits
  · have hempty : amount sizes sc.current = 0 := by
      have hheld := h.held
      omega
    cases ok with
    | false =>
      refine { h with held := ?_, single := .inr ?_ }
      · exact Nat.le_trans h.held (Nat.le_add_right _ _)
      · exact (filled_eq_zero.mpr hempty).le.trans (Nat.zero_le _)
    | true =>
      refine { h with held := ?_, single := .inr ?_ }
      · show amount sizes (sc.current ++ [fn]) ≤ _
        rw [amount_append]
        exact Nat.add_le_add h.held (by simp [amount])
      · show filled sizes (sc.current ++ [fn]) ≤ 1
        rw [filled_append, filled_eq_zero.mpr hempty, Nat.zero_add]
        exact filled_singleton_le fn
  · exact h.fills (fills_tarAppendFile sizes fn save ok) hfits

theorem ull_small {n : Nat} (h : n < 18446744073709551616) : ull n = n := Nat.mod_eq_of_lt h

theorem post_addSplitFile_kept (h : Kept sizes basefn sc s) {fn : Path} {kind : Kind} (hsize : sizes fn = kind.size)
    (hroom : s.currentSize + kind.size < 18446744073709551616) :
    (addSplitFile basefn fn kind s).Post (Walks sizes basefn sc (s.currentSize + kind.size)) := by
  unfold addSplitFile
  by_cases hlnk : kind = .lnk
  · rw [if_pos hlnk]
    have hzero : sizes fn = 0 := by rw [hsize, hlnk]; rfl
    refine Prog.post_bind (Prog.post_pure (R := fun l r => l = [] ∧ r = (0, s)) ⟨rfl, rfl⟩) fun l r hr => ?_
    obtain ⟨rfl, rfl⟩ := hr
    refine Prog.post_bind (post_addFile_fills sizes fn true) fun l ret hl => ?_
    rw [hzero] at hl
    have hkept := h.empty hl
    refine Prog.post_ite (fun _ => Prog.post_pure (.failed ?_)) fun _ => Prog.post_pure ?_
    · simpa using hkept.sound
    · rw [if_pos hlnk]
      refine .done ?_ (Nat.le_add_right _ _)
      simpa using hkept
  · rw [if_neg hlnk]
    refine Prog.post_bind (post_nextArchive_kept h kind.size) fun l r hr => ?_
    obtain ⟨hwalk, hnext⟩ := hr
    apply Prog.post_ite
    · intro hret
      refine Prog.post_pure ?_
      unfold Walks at hwalk
      rw [if_pos hret] at hwalk
      exact .failed (by simpa using hwalk)
    · intro hret
      refine Prog.post_bind (post_addFile_call fn) fun l' ret hl' => ?_
      obtain ⟨save, ok, rfl⟩ := hl'
      have hstep : ∀ r' : Int × SplitState, (∀ sc', Kept sizes basefn sc' r.2 → r.2.currentSize ≤ s.currentSize →
          Walks sizes basefn sc' (s.currentSize + kind.size) [⟨.append fn save, ok⟩] r') →
          Walks sizes basefn sc (s.currentSize + kind.size) (l ++ ([⟨.append fn save, ok⟩] ++ [])) r' :=
        fun r' hr' => hwalk.after hret hr'
      have hfile : ∀ sc', Kept sizes basefn sc' r.2 → r.2.currentSize ≤ s.currentSize →
          Kept sizes basefn (sc'.after [⟨.append fn save, ok⟩]) { r.2 with currentSize := r.2.currentSize + kind.size } := by
        intro sc' hkept hle
        rw [← hsize]
        refine hkept.file fn save ok ((hnext hret).imp_right fun hfits => ?_)
        rw [hsize]
        rwa [ull_small (by omega)] at hfits
      refine Prog.post_ite (fun _ => Prog.post_pure (hstep _ fun sc' hkept hle => ?_)) fun _ =>
        Prog.post_pure (hstep _ fun sc' hkept hle => ?_)
      · exact .failed (hfile sc' hkept hle).sound
      · rw [if_neg hlnk, ull_small (by omega)]
        exact .done (hfile sc' hkept hle) (Nat.add_le_add_right hle _)

/-- The first part of a walk fails, or the rest starts from what it leaves. -/
theorem post_then_walk {n m : Nat} {x : Walk (Int × SplitState)} {f : SplitState → Walk (Int × SplitState)}
    (hx : x.Post (Walks sizes basefn sc n))
    (hf : ∀ sc' s', Kept sizes basefn sc' s' → s'.currentSize ≤ n → (f s').Post (Walks sizes basefn sc' m)) :
    Prog.Post (do
      let (ret, s) ← x
      if ret < 0 then return (-1, s)
      f s : Walk (Int × SplitState)) (Walks sizes basefn sc m) := by
  refine Prog.post_bind hx fun l r hr => ?_
  apply Prog.post_ite
  · intro hret
    refine Prog.post_pure ?_
    unfold Walks at hr
    rw [if_pos hret] at hr
    exact .failed (by simpa using hr)
  · intro hret l' r' hrun
    exact hr.after hret fun sc' hkept hle => hf sc' r.2 hkept hle l' r' hrun

theorem post_generateEntries_kept (cfg : Config) {path : Path} {listing : Listing} (hsized : listing.Sized sizes path)
    (h : Kept sizes basefn sc s) (hroom : s.currentSize + listing.total < 18446744073709551616) :
    (generateEntries cfg basefn path listing s).Post (Walks sizes basefn sc (s.currentSize + listing.total)) := by
  induction listing generalizing path sc s with
  | nil => exact Prog.post_pure (.done h (Nat.le_add_right _ _))
  | leaf name kind rest ih =>
    obtain ⟨hsize, hrest⟩ := hsized
    rw [Listing.total] at hroom ⊢
    have hgo : ∀ {sc' s'}, Kept sizes basefn sc' s' → s'.currentSize ≤ s.currentSize + kind.size →
        (generateEntries cfg basefn path rest s').Post (Walks sizes basefn sc' (s.currentSize + (kind.size + rest.total))) :=
      fun hkept hle => (ih hrest hkept (by omega)).mono fun _ _ hr => hr.mono (by omega)
    apply Prog.post_ite
    · intro _
      exact hgo h (Nat.le_add_right _ _)
    · intro _
      exact post_then_walk (post_addSplitFile_kept h hsize (by omega)) fun sc' s' hkept hle => hgo hkept hle
  | dir name sub rest ihsub ihrest =>
    obtain ⟨hdir, hroot, hsub, hrest⟩ := hsized
    rw [Listing.total] at hroom ⊢
    have hgo : ∀ {sc' s'}, Kept sizes basefn sc' s' → s'.currentSize ≤ s.currentSize + sub.total →
        (generateEntries cfg basefn path rest s').Post (Walks sizes basefn sc' (s.currentSize + (sub.total + rest.total))) :=
      fun hkept hle => (ihrest hrest hkept (by omega)).mono fun _ _ hr => hr.mono (by omega)
    have hfolder : ull (s.currentSize + sub.folderSize) = s.currentSize + sub.total := by
      rw [folderSize_eq, ull_add_right, ull_small (by omega)]
    apply Prog.post_ite
    · intro _
      exact hgo h (Nat.le_add_right _ _)
    · intro _
      rw [hfolder]
      apply Prog.post_ite
      · intro _
        -- the folder itself, then its entries one by one
        refine Prog.post_bind (post_addFile_fills sizes _ true) fun l ret hl => ?_
        rw [hdir] at hl
        have hkept := h.empty hl
        apply Prog.post_ite
        · intro _
          refine Prog.post_pure (.failed ?_)
          rw [List.append_nil]
          exact hkept.sound
        · intro _
          refine Prog.post_check (logs_opendir _) (Prog.post_pure (.failed ?_)) ?_
          · rw [Scan.after_append]
            exact hkept.sound
          · refine (post_then_walk (ihsub hsub hkept (by omega)) fun sc' s' hkept' hle => hgo hkept' hle).mono fun l' r hr => ?_
            unfold Walks at hr ⊢
            rwa [Scan.after_append]
      · intro hfits
        refine Prog.post_bind (post_tarDirs_fills cfg true hroot hsub) fun l ret hl => ?_
        have hkept := h.fills hl (Nat.not_lt.mp hfits)
        apply Prog.post_ite
        · intro _
          refine Prog.post_pure (.failed ?_)
          rw [List.append_nil]
          exact hkept.sound
        · intro _
          refine (hgo hkept (Nat.le_refl _)).mono fun l' r hr => ?_
          unfold Walks at hr ⊢
          rwa [Scan.after_append]

/-- `Split_Archive`, on a tree whose sizes add up without wrapping around. -/
theorem post_splitArchive_sound (cfg : Config) (tarfn tardir : Path) {tree : Listing} (hsized : tree.Sized sizes tardir)
    (hroom : tree.total < 18446744073709551616) :
    (splitArchive cfg tarfn tardir tree).Post fun log _ => Sound sizes tarfn ((Scan.mk [] [] []).after log) := by
  have hfirst : Kept sizes tarfn ⟨[], [], [splitName tarfn 0]⟩ ⟨splitName tarfn 0, 0, 0⟩ :=
    ⟨by simp, Nat.le_refl 0, .inl (Nat.zero_le _), rfl, Nat.zero_le _⟩
  have hwalk : (generateMultipleArchives cfg tarfn tardir tree ⟨splitName tarfn 0, 0, 0⟩).Post
      (Walks sizes tarfn ⟨[], [], [splitName tarfn 0]⟩ (0 + tree.total)) := by
    apply Prog.post_ite
    · intro _
      exact Prog.post_pure (.done hfirst (Nat.zero_le _))
    · intro _
      refine Prog.post_check (logs_opendir _) (Prog.post_pure (.failed hfirst.sound)) ?_
      exact post_generateEntries_kept cfg hsized hfirst ((Nat.zero_add _).trans_lt hroom)
  refine Prog.post_call (logs_createTar _) fun created => ?_
  refine Prog.post_bind hwalk fun l r hr => ?_
  unfold Walks at hr
  apply Prog.post_ite
  · intro hret
    rw [if_pos hret] at hr
    refine Prog.post_pure ?_
    rw [List.append_nil]
    exact hr
  · intro hret
    rw [if_neg hret] at hr
    refine Prog.post_call (logs_closeTar _) fun closed => Prog.post_pure ?_
    show Sound sizes tarfn (Scan.after ⟨[], [], [splitName tarfn 0]⟩ (l ++ [_]))
    rw [Scan.after_append]
    exact hr.1.closing

end Split

/-! ### One thread -/

/-- The answers that a file system gives in which the sizes are `sizes`. -/
structure Truthful (sizes : Path → Nat) (log : List (Sigma Ans)) : Prop where
  regular : ∀ p r, (⟨.stat p, r⟩ : Sigma Ans) ∈ log → sizes p ≠ 0 → r = some (Stat.mk true (sizes p))
  /-- an `off_t` that is not negative -/
  offset : ∀ p st, (⟨.stat p, some st⟩ : Sigma Ans) ∈ log → st.size < 9223372036854775808

/-- If a `stat` fails, what it leaves in place is `tame`. -/
structure Told (sizes : Path → Nat) (tame : Prop) (log : List (Sigma Ans)) : Prop extends Truthful sizes log where
  stale : ∀ p, (⟨.stat p, none⟩ : Sigma Ans) ∈ log → tame

theorem Told.left {tame : Prop} {l l' : List (Sigma Ans)} (h : Told sizes tame (l ++ l')) : Told sizes tame l where
  regular p r hr := h.regular p r (List.mem_append_left _ hr)
  offset p st hst := h.offset p st (List.mem_append_left _ hst)
  stale p hp := h.stale p (List.mem_append_left _ hp)

theorem Told.right {tame : Prop} {l l' : List (Sigma Ans)} (h : Told sizes tame (l ++ l')) : Told sizes tame l' where
  regular p r hr := h.regular p r (List.mem_append_right _ hr)
  offset p st hst := h.offset p st (List.mem_append_right _ hst)
  stale p hp := h.stale p (List.mem_append_right _ hp)

/-- What does not look like a regular file of a size that is negative. -/
def Stat.Tame (st : Stat) : Prop := st.isReg = true → st.size < 9223372036854775808

/-- The names of a thread: the first `n` of its hundred. -/
def partNames (basefn : Path) (threadId n : Nat) : List Path := (List.range n).map (partName basefn threadId)

/-- The invariant of a thread, which comes after others that used the names `before`. -/
structure PartKept (sizes : Path → Nat) (basefn : Path) (threadId : Nat) (before : List Path) (sc : Scan) (s : PartState) : Prop where
  closed : ∀ files ∈ sc.closed, Limited sizes files
  held : amount sizes sc.current ≤ s.currentSize
  single : s.currentSize ≤ maxArchiveSize ∨ filled sizes sc.current ≤ 1
  small : s.currentSize < 9223372036854775808
  names : sc.names = before ++ partNames basefn threadId (s.count + 1)
  count : s.count ≤ 99

/-- What holds wherever the thread ends. -/
structure PartSound (sizes : Path → Nat) (basefn : Path) (threadId : Nat) (before : List Path) (sc : Scan) : Prop where
  closed : ∀ files ∈ sc.closed, Limited sizes files
  names : ∃ n ≤ 100, sc.names = before ++ partNames basefn threadId n

section Part
variable {basefn : Path} {threadId : Nat} {before : List Path} {sc : Scan} {s : PartState}

theorem PartKept.limited (h : PartKept sizes basefn threadId before sc s) : Limited sizes sc.current := by
  rcases h.single with hfits | hsingle
  · exact .inl (Nat.le_trans h.held hfits)
  · exact .of_filled hsingle

/-- Another `stat` changes nothing of it. -/
theorem PartKept.restat (h : PartKept sizes basefn threadId before sc s) (st : Stat) :
    PartKept sizes basefn threadId before sc { s with st := st } :=
  ⟨h.closed, h.held, h.single, h.small, h.names, h.count⟩

theorem PartKept.sound (h : PartKept sizes basefn threadId before sc s) : PartSound sizes basefn threadId before sc :=
  ⟨h.closed, s.count + 1, by have := h.count; omega, h.names⟩

theorem PartKept.closing (h : PartKept sizes basefn threadId before sc s) :
    PartSound sizes basefn threadId before { sc with closed := sc.closed ++ [sc.current] } := by
  refine ⟨fun files hfiles => ?_, h.sound.names⟩
  rcases List.mem_append.mp hfiles with hbefore | hlast
  · exact h.closed files hbefore
  · rw [List.mem_singleton.mp hlast]
    exact h.limited

/-- An item that is not a regular file. -/
theorem PartKept.empty (h : PartKept sizes basefn threadId before sc s) {fn : Path} (hzero : sizes fn = 0) (save : Stored) (ok : Bool) :
    PartKept sizes basefn threadId before (sc.after [⟨.append fn save, ok⟩]) s := by
  cases ok with
  | false => exact h
  | true =>
    refine { h with held := ?_, single := ?_ }
    · show amount sizes (sc.current ++ [fn]) ≤ _
      rw [amount_append]
      simpa [amount, hzero] using h.held
    · show _ ∨ filled sizes (sc.current ++ [fn]) ≤ 1
      rw [filled_append]
      simpa [filled, hzero] using h.single

/-- A regular file that fits. -/
theorem PartKept.file (h : PartKept sizes basefn threadId before sc s) {fn : Path} {size : Nat} (hsize : sizes fn ≤ size)
    (hfits : s.currentSize + size ≤ maxArchiveSize) (save : Stored) (ok : Bool) :
    PartKept sizes basefn threadId before (sc.after [⟨.append fn save, ok⟩]) { s with currentSize := s.currentSize + size } := by
  have hsmall : s.currentSize + size < 9223372036854775808 := Nat.lt_of_le_of_lt hfits (by decide)
  have hheld := h.held
  cases ok with
  | false => exact { h with held := Nat.le_add_right_of_le hheld, single := .inl hfits, small := hsmall }
  | true =>
    refine { h with held := ?_, single := .inl hfits, small := hsmall }
    show amount sizes (sc.current ++ [fn]) ≤ _
    rw [amount_append]
    exact Nat.add_le_add hheld (by simpa [amount] using hsize)

/-- The first regular file of the next archive. -/
theorem PartKept.next (h : PartKept sizes basefn threadId before sc s) (hcount : ¬s.count + 1 > 99) {fn : Path} {size : Nat}
    (hsize : sizes fn ≤ size) (hsmall : size < 9223372036854775808) (save : Stored) (ok : Bool) :
    PartKept sizes basefn threadId before
      (Scan.after ⟨[], sc.closed ++ [sc.current], sc.names ++ [partName basefn threadId (s.count + 1)]⟩ [⟨.append fn save, ok⟩])
      { s with tarfn := partName basefn threadId (s.count + 1), count := s.count + 1, currentSize := size } := by
  have hnames : sc.names ++ [partName basefn threadId (s.count + 1)] = before ++ partNames basefn threadId (s.count + 1 + 1) := by
    rw [h.names, partNames, partNames, List.range_succ (n := s.count + 1), List.map_append, List.append_assoc]
    rfl
  cases ok with
  | false =>
    exact {
      closed := h.closing.closed
      held := Nat.zero_le _
      single := .inr (Nat.zero_le _)
      small := hsmall
      names := hnames
      count := Nat.not_lt.mp hcount }
  | true =>
    exact {
      closed := h.closing.closed
      held := by simpa [Scan.after, Scan.step, amount] using hsize
      single := .inr (filled_singleton_le fn)
      small := hsmall
      names := hnames
      count := Nat.not_lt.mp hcount }

/-- The archive is ready for the item `fn`, or the thread has given up. -/
def Ready (sizes : Path → Nat) (basefn : Path) (threadId : Nat) (before : List Path) (sc : Scan) (fn : Path) (st : Stat)
    (l : List (Sigma Ans)) (r : Int × PartState) : Prop :=
  if r.1 ≠ 0 then PartSound sizes basefn threadId before (sc.after l)
  else r.2.st = st ∧ ∀ save ok, PartKept sizes basefn threadId before (sc.after (l ++ [⟨.append fn save, ok⟩])) r.2

theorem Ready.stopped {fn : Path} {st : Stat} {l : List (Sigma Ans)} {ret : Int} {s' : PartState} (hret : ret ≠ 0)
    (h : PartSound sizes basefn threadId before (sc.after l)) : Ready sizes basefn threadId before sc fn st l (ret, s') := by
  unfold Ready
  rw [if_pos hret]
  exact h

theorem Ready.open {fn : Path} {st : Stat} {l : List (Sigma Ans)} {s' : PartState} (hst : s'.st = st)
    (h : ∀ save ok, PartKept sizes basefn threadId before (sc.after (l ++ [⟨.append fn save, ok⟩])) s') :
    Ready sizes basefn threadId before sc fn st l (0, s') := by
  unfold Ready
  rw [if_neg (not_not.mpr rfl)]
  exact ⟨hst, h⟩

theorem post_nextPart_ready (h : PartKept sizes basefn threadId before sc s) {fn : Path} (hsize : sizes fn ≤ s.st.size)
    (hsmall : s.st.size < 9223372036854775808) :
    (nextPart basefn threadId s.st.size s).Post (Ready sizes basefn threadId before sc fn s.st) := by
  have hheld := h.small
  unfold nextPart
  rw [ull_small (by omega), ull_small (by omega)]
  refine Prog.post_ite (fun _ => ?_) fun hfits => ?_
  · refine Prog.post_check (logs_closeTar _) (Prog.post_pure (.stopped (by decide) h.closing)) ?_
    refine Prog.post_ite (fun _ => ?_) fun hcount => ?_
    · refine Prog.post_bind (post_tooMany _) fun l _ hl => ?_
      subst hl
      exact Prog.post_pure (.stopped (by decide) h.closing)
    · refine Prog.post_check (logs_createTar _) (Prog.post_pure (.stopped (by decide) ?_)) (Prog.post_pure (.open rfl ?_))
      · exact ((h.next hcount hsize hsmall (.known fn) false).sound)
      · intro save ok
        exact h.next hcount hsize hsmall save ok
  · refine Prog.post_pure (.open rfl fun save ok => ?_)
    exact h.file hsize (Nat.not_lt.mp hfits) save ok

/-- What `stat` tells of an item in a run that is truthful. -/
theorem Told.item {tame : Prop} {fn : Path} {found : Option Stat} (h : Told sizes tame [⟨.stat fn, found⟩]) {last : Stat}
    (hlast : tame → last.Tame) :
    (found.getD last).Tame ∧ ((found.getD last).isReg = true → sizes fn ≤ (found.getD last).size) ∧
      ((found.getD last).isReg = false → sizes fn = 0) := by
  have hreg := h.regular fn found List.mem_cons_self
  cases found with
  | none =>
    have hzero : sizes fn = 0 := by
      by_contra hne
      exact nomatch hreg hne
    exact ⟨hlast (h.stale fn List.mem_cons_self), fun _ => hzero.le.trans (Nat.zero_le _), fun _ => hzero⟩
  | some st =>
    refine ⟨fun _ => h.offset fn st List.mem_cons_self, fun _ => ?_, fun hno => ?_⟩
    · by_cases hzero : sizes fn = 0
      · exact hzero.le.trans (Nat.zero_le _)
      · rw [Option.some.inj (hreg hzero)]
        exact Nat.le_refl _
    · by_contra hzero
      have hst : st = ⟨true, sizes fn⟩ := Option.some.inj (hreg hzero)
      rw [hst] at hno
      cases hno

theorem post_tarListItems_sound {tame : Prop} (list : List TarItem) (h : PartKept sizes basefn threadId before sc s)
    (hst : tame → s.st.Tame) :
    (tarListItems basefn threadId list s).Post fun log _ =>
      Told sizes tame log → PartSound sizes basefn threadId before (sc.after log) := by
  induction list generalizing sc s with
  | nil =>
    exact Prog.post_check (logs_closeTar _) (Prog.post_pure fun _ => h.closing) (Prog.post_pure fun _ => h.closing)
  | cons item rest ih =>
    refine Prog.post_ite (fun _ => ih h hst) fun _ => ?_
    refine Prog.post_bind (Prog.post_ask (R := fun l st => l = [⟨.stat item.fn, st⟩]) fun st => rfl) fun l found hl => ?_
    subst hl
    by_cases htrue : Told sizes tame [⟨.stat item.fn, found⟩]
    · obtain ⟨htame, hsize, hzero⟩ := htrue.item hst
      -- from an archive that is ready on
      have hgo : ∀ l r, Ready sizes basefn threadId before sc item.fn (found.getD s.st) l r → Prog.Post (do
            if r.1 ≠ 0 then return r.1
            if (← addFile item.fn true) ≠ 0 then return -1
            tarListItems basefn threadId rest r.2 : Walk Int)
          fun l' _ => Told sizes tame ([⟨.stat item.fn, found⟩] ++ (l ++ l')) →
            PartSound sizes basefn threadId before (sc.after ([⟨.stat item.fn, found⟩] ++ (l ++ l'))) := by
        intro l r hr
        unfold Ready at hr
        apply Prog.post_ite
        · intro hret
          rw [if_pos hret] at hr
          refine Prog.post_pure fun _ => ?_
          rw [List.append_nil]
          exact hr
        · intro hret
          rw [if_neg hret] at hr
          obtain ⟨hlast, hkept⟩ := hr
          refine Prog.post_bind (post_addFile_call item.fn) fun l' ret hl' => ?_
          obtain ⟨save, ok, rfl⟩ := hl'
          refine Prog.post_ite (fun _ => Prog.post_pure fun _ => (hkept save ok).sound) fun _ => ?_
          intro l'' r'' hrun htruth
          have hrest := ih (hkept save ok) (fun _ => hlast ▸ htame) l'' r'' hrun htruth.right.right.right
          rw [← Scan.after_append, List.append_assoc] at hrest
          exact hrest
      apply Prog.post_ite
      · intro hreg
        exact Prog.post_bind (post_nextPart_ready (h.restat _) (hsize hreg) (htame hreg)) hgo
      · intro hreg
        refine Prog.post_bind (Prog.post_pure (R := fun l r => l = [] ∧ r = ((0 : Int), { s with st := found.getD s.st })) ⟨rfl, rfl⟩)
          fun l r hr => hgo l r ?_
        obtain ⟨rfl, rfl⟩ := hr
        exact .open rfl fun save ok => (h.restat _).empty (hzero (Bool.eq_false_iff.mpr hreg)) save ok
    · intro l' r' _ htruth
      exact absurd htruth.left htrue

theorem post_createList_sound {tame : Prop} (job : Job) (list : List TarItem) (hclosed : ∀ files ∈ sc.closed, Limited sizes files)
    (hnames : sc.names = before) (hst : tame → (job.stack threadId).Tame) :
    (createList job list threadId).Post fun log _ =>
      Told sizes tame log → PartSound sizes job.tarfn threadId before (sc.after log) := by
  have hfirst : PartKept sizes job.tarfn threadId before ⟨[], sc.closed, sc.names ++ [partName job.tarfn threadId 0]⟩
      ⟨partName job.tarfn threadId 0, 0, 0, job.stack threadId⟩ :=
    ⟨hclosed, Nat.le_refl 0, .inl (Nat.zero_le _), show 0 < 9223372036854775808 by decide, by rw [hnames]; rfl, Nat.zero_le _⟩
  have hlist : (tarList job list threadId).Post fun log _ =>
      Told sizes tame log → PartSound sizes job.tarfn threadId before (sc.after log) := by
    refine Prog.post_check (logs_createTar _) (Prog.post_pure fun _ => hfirst.sound) ?_
    refine (post_tarListItems_sound list hfirst hst).mono fun l ret hl htruth => ?_
    exact hl (htruth.right (l := [_]))
  refine Prog.post_bind hlist fun l ret hl => ?_
  refine Prog.post_ite (fun _ => Prog.post_pure ?_) fun _ => Prog.post_pure ?_
  · rw [List.append_nil]
    exact hl
  · rw [List.append_nil]
    exact hl

end Part

/-! ### All threads -/

/-- Every archiver has used the first names of its hundred, and every archive that was closed is limited. -/
structure ThreadsSound (sizes : Path → Nat) (basefn : Path) (before : List Path) (ids : List Nat) (sc : Scan) : Prop where
  closed : ∀ files ∈ sc.closed, Limited sizes files
  names : ∃ used : List (Nat × Nat), used.map Prod.fst <+: ids ∧ (∀ u ∈ used, u.2 ≤ 100) ∧
    sc.names = before ++ used.flatMap fun u => partNames basefn u.1 u.2

theorem post_startThreads_sound {tame : Prop} (job : Job) (list : List TarItem) (ids : List Nat) {sc : Scan}
    (hclosed : ∀ files ∈ sc.closed, Limited sizes files) (hst : tame → ∀ i, (job.stack i).Tame) :
    (startThreads job list ids).Post fun log _ =>
      Told sizes tame log → ThreadsSound sizes job.tarfn sc.names ids (sc.after log) := by
  induction ids generalizing sc with
  | nil => exact Prog.post_pure fun _ => ⟨hclosed, [], by simp, by simp, by simp [Scan.after]⟩
  | cons i ids ih =>
    refine Prog.post_bind (Prog.post_ask (R := fun l created => l = [⟨.threadCreate i, created⟩]) fun _ => rfl) fun l created hl => ?_
    subst hl
    have hlist : (createList job list i).Post fun l _ => Told sizes tame l → PartSound sizes job.tarfn i sc.names (sc.after l) :=
      post_createList_sound job list hclosed rfl fun htame => hst htame i
    refine Prog.post_bind hlist fun l ret hl => ?_
    have hcreate : ∀ l', sc.after ([⟨.threadCreate i, created⟩] ++ l') = sc.after l' := fun _ => rfl
    by_cases hpart : PartSound sizes job.tarfn i sc.names (sc.after l)
    · obtain ⟨n, hn, hnames⟩ := hpart.names
      -- this thread, and `used` after it
      have hmore : ∀ {l'}, ThreadsSound sizes job.tarfn (sc.after l).names ids ((sc.after l).after l') →
          ThreadsSound sizes job.tarfn sc.names (i :: ids) (sc.after ([⟨.threadCreate i, created⟩] ++ (l ++ l'))) := by
        intro l' hrest
        rw [hcreate, Scan.after_append]
        obtain ⟨used, hids, hbound, hused⟩ := hrest.names
        refine ⟨hrest.closed, (i, n) :: used, ?_, ?_, ?_⟩
        · exact List.cons_prefix_cons.mpr ⟨rfl, hids⟩
        · exact List.forall_mem_cons.mpr ⟨hn, hbound⟩
        · rw [hused, hnames, List.append_assoc]
          rfl
      refine Prog.post_ite (fun _ => Prog.post_pure fun _ => hmore ?_) fun _ => ?_
      · exact ⟨hpart.closed, [], List.nil_prefix, by simp, by simp [Scan.after]⟩
      · refine Prog.post_bind (ih hpart.closed) fun l' r hl' => ?_
        have hend : Told sizes tame ([⟨.threadCreate i, created⟩] ++ (l ++ (l' ++ []))) →
            ThreadsSound sizes job.tarfn sc.names (i :: ids) (sc.after ([⟨.threadCreate i, created⟩] ++ (l ++ (l' ++ [])))) := by
          rw [List.append_nil]
          exact fun htruth => hmore (hl' htruth.right.right)
        cases r with
        | none => exact Prog.post_pure hend
        | some threads => exact Prog.post_pure hend
    · intro l' r _ htruth
      exact absurd (hl htruth.right.left) hpart

/-- A call of which the scan sees nothing. -/
def Call.isUnseen : Call → Bool
  | .createTar _ => false
  | .append _ _ => false
  | .closeTar _ => false
  | _ => true

theorem after_unseen {log : List (Sigma Ans)} (h : ∀ e ∈ log, e.1.isUnseen = true) (sc : Scan) : sc.after log = sc := by
  induction log with
  | nil => rfl
  | cons e log ih =>
    have hstep : sc.step e = sc := by
      obtain ⟨q, r⟩ := e
      have hq := h ⟨q, r⟩ List.mem_cons_self
      cases q with
      | createTar _ => cases hq
      | append _ _ => cases hq
      | closeTar _ => cases hq
      | _ => rfl
    show (sc.step e).after log = sc
    rw [hstep, ih fun e he => h e (List.mem_cons_of_mem _ he)]

theorem all_joinThreads (threads : List (Nat × Int)) : (joinThreads threads).All fun q => q.isUnseen = true := by
  induction threads with
  | nil => exact Prog.all_pure _
  | cons t rest ih =>
    refine Prog.all_bind (Prog.all_ask rfl) fun ok => Prog.all_ite (fun _ => Prog.all_pure _) fun _ => ?_
    exact Prog.all_ite (fun _ => Prog.all_pure _) fun _ => ih

/-- The archivers of a job in the order they run: the one that does not encrypt, and the threads. -/
def Job.archivers (job : Job) : List Nat := if job.userdata then 0 :: job.threads else job.threads

variable (sizes) in
theorem post_runLists_sound {tame : Prop} (job : Job) (lists : Lists) (hst : tame → ∀ i, (job.stack i).Tame) :
    (runLists job lists).Post fun log _ =>
      Told sizes tame log → ThreadsSound sizes job.tarfn [] job.archivers ((Scan.mk [] [] []).after log) := by
  have hnone : ∀ ids, ThreadsSound sizes job.tarfn [] ids ⟨[], [], []⟩ := fun ids => ⟨by simp, [], List.nil_prefix, by simp, rfl⟩
  -- the threads, from what the archiver before them has left
  have hthreads : ∀ (ret : Int) (sc : Scan), (∀ files ∈ sc.closed, Limited sizes files) → (runThreads job lists ret).Post fun l _ =>
      Told sizes tame l → ThreadsSound sizes job.tarfn sc.names job.threads (sc.after l) := by
    intro ret sc hclosed
    have hnone : ThreadsSound sizes job.tarfn sc.names job.threads sc := ⟨hclosed, [], List.nil_prefix, by simp, by simp⟩
    refine Prog.post_ite (fun _ => Prog.post_pure fun _ => hnone) fun _ => ?_
    refine Prog.post_check logs_pthreadAttr (Prog.post_pure fun _ => hnone) ?_
    refine Prog.post_bind (post_startThreads_sound job lists.encrypt job.threads hclosed hst) fun l r hl => ?_
    cases r with
    | none =>
      refine Prog.post_pure fun htruth => ?_
      rw [List.append_nil] at htruth ⊢
      exact hl (htruth.right (l := [_]))
    | some threads =>
      refine (Prog.post_all (all_joinThreads threads)).mono fun l' ret' hl' htruth => ?_
      show ThreadsSound sizes job.tarfn sc.names job.threads (sc.after (l ++ l'))
      rw [Scan.after_append, after_unseen hl']
      exact hl (htruth.right (l := [_])).left
  unfold runLists Job.archivers
  refine Prog.post_ite (fun _ => Prog.post_pure fun _ => hnone _) fun _ => ?_
  by_cases huser : job.userdata = true
  · simp only [if_pos huser]
    have hregular : (createList job lists.regular 0).Post fun l _ =>
        Told sizes tame l → PartSound sizes job.tarfn 0 [] ((Scan.mk [] [] []).after l) :=
      post_createList_sound job lists.regular (by simp) rfl fun htame => hst htame 0
    refine Prog.post_bind hregular fun l ret hl => ?_
    by_cases hpart : PartSound sizes job.tarfn 0 [] ((Scan.mk [] [] []).after l)
    · refine (hthreads ret _ hpart.closed).mono fun l' _ hl' htruth => ?_
      obtain ⟨n, hn, hnames⟩ := hpart.names
      have hrest := hl' htruth.right
      obtain ⟨used, hids, hbound, hused⟩ := hrest.names
      rw [Scan.after_append]
      refine ⟨hrest.closed, (0, n) :: used, ?_, ?_, ?_⟩
      · exact List.cons_prefix_cons.mpr ⟨rfl, hids⟩
      · exact List.forall_mem_cons.mpr ⟨hn, hbound⟩
      · rw [hused, hnames]
        rfl
    · exact fun l' r _ htruth => absurd (hl htruth.left) hpart
  · simp only [if_neg huser]
    refine Prog.post_bind (Prog.post_pure (R := fun l ret => l = [] ∧ ret = (0 : Int)) ⟨rfl, rfl⟩) fun l ret h => ?_
    obtain ⟨rfl, rfl⟩ := h
    exact hthreads 0 ⟨[], [], []⟩ (by simp)

theorem post_createEncrypted_sound {tame : Prop} (job : Job) (hst : tame → ∀ i, (job.stack i).Tame) :
    (createEncrypted job).Post fun log _ =>
      Told sizes tame log → ThreadsSound sizes job.tarfn [] job.archivers ((Scan.mk [] [] []).after log) := by
  refine Prog.post_bind (Prog.post_all (all_buildLists job)) fun l lists hl => ?_
  have hunseen : (Scan.mk [] [] []).after l = ⟨[], [], []⟩ := by
    refine after_unseen (fun e he => ?_) _
    obtain ⟨p, hp⟩ := hl e he
    rw [hp]
    rfl
  cases lists with
  | none =>
    refine Prog.post_pure fun _ => ?_
    rw [List.append_nil, hunseen]
    exact ⟨by simp, [], List.nil_prefix, by simp, rfl⟩
  | some lists =>
    refine (post_runLists_sound sizes job lists hst).mono fun l' _ hl' htruth => ?_
    rw [Scan.after_append, hunseen]
    exact hl' htruth.right

end Sizes

/-! ### Both modes -/

/-- A backup in more than one archive. -/
inductive Division where
  | split (cfg : Config) (tarfn tardir : Path) (tree : Listing)
  | threaded (job : Job)

namespace Division

def run : Division → Walk Int
  | split cfg tarfn tardir tree => splitArchive cfg tarfn tardir tree
  | threaded job => createEncrypted job

def tardir : Division → Path
  | split _ _ tardir _ => tardir
  | threaded job => job.tardir

def tree : Division → Listing
  | split _ _ _ tree => tree
  | threaded job => job.tree

/-- The name of archive `n`; a thread has a hundred numbers of its own. -/
def name : Division → Nat → Path
  | split _ tarfn _ _ => splitName tarfn
  | threaded job => splitName job.tarfn

/-- The numbers one after the other: from 0 on, or from `100 * i` on for archiver `i`, each
archiver once. -/
def Consecutive : Division → List Nat → Prop
  | split _ _ _ _, numbers => ∃ n ≤ 1000, numbers = List.range n
  | threaded job, numbers => ∃ used : List (Nat × Nat), used.map Prod.fst <+: job.archivers ∧ (∀ u ∈ used, u.2 ≤ 100) ∧
      numbers = used.flatMap fun u => List.range' (100 * u.1) u.2

/-- Every archive that is closed is limited, and the names used are consecutive and differ. -/
structure Keeps (d : Division) (sizes : Path → Nat) (log : List (Sigma Ans)) : Prop where
  closed : ∀ files ∈ ((Scan.mk [] [] []).after log).closed, Limited sizes files
  names : ∃ numbers, d.Consecutive numbers ∧ ((Scan.mk [] [] []).after log).names = numbers.map d.name
  nodup : ((Scan.mk [] [] []).after log).names.Nodup

/-- The sizes of a split backup add up without wrapping around; a thread does not take
what its `st` holds before the first `stat` for a file of a negative size. -/
def Fits : Division → List (Sigma Ans) → Prop
  | split _ _ _ tree, _ => tree.total < 18446744073709551616
  | threaded job, log => (∀ p, (⟨.stat p, none⟩ : Sigma Ans) ∉ log) ∨ ∀ i, (job.stack i).Tame

end Division

theorem nodup_splitNames (file : Path) {numbers : List Nat} (h : numbers.Nodup) : (numbers.map (splitName file)).Nodup :=
  h.map fun _ _ heq => padded_inj (List.append_cancel_left heq)

/-- The hundreds of different archivers do not meet. -/
theorem nodup_hundreds {used : List (Nat × Nat)} (hids : (used.map Prod.fst).Nodup) (hbound : ∀ u ∈ used, u.2 ≤ 100) :
    (used.flatMap fun u => List.range' (100 * u.1) u.2).Nodup := by
  rw [List.nodup_flatMap]
  refine ⟨fun u _ => List.nodup_range', ?_⟩
  refine (List.pairwise_map.mp hids).imp_of_mem fun hu hv hne => ?_
  intro n hn hn'
  have hu := hbound _ hu
  have hv := hbound _ hv
  have hn := List.mem_range'_1.mp hn
  have hn' := List.mem_range'_1.mp hn'
  omega

theorem archivers_lt (job : Job) {i : Nat} (hi : i ∈ job.archivers) : i < 10 := by
  have hlast := lastThread_lt job
  unfold Job.archivers Job.threads at hi
  split_ifs at hi
  · rcases List.mem_cons.mp hi with rfl | hi
    · decide
    · have := List.mem_range'_1.mp hi
      omega
  · have := List.mem_range'_1.mp hi
    omega

theorem nodup_archivers (job : Job) : job.archivers.Nodup := by
  unfold Job.archivers Job.threads
  split_ifs with huser
  · refine List.nodup_cons.mpr ⟨fun hzero => ?_, List.nodup_range'⟩
    have hpos := (List.mem_range'_1.mp hzero).1
    simp [Job.startThread, huser] at hpos
  · exact List.nodup_range'

/-- The names of a thread by their numbers. -/
theorem partNames_eq (file : Path) {i n : Nat} (hi : i < 10) (hn : n ≤ 100) :
    partNames file i n = (List.range' (100 * i) n).map (splitName file) := by
  rw [partNames, List.range'_eq_map_range, List.map_map]
  refine List.map_congr_left fun c hc => ?_
  exact partName_eq file hi (Nat.lt_of_lt_of_le (List.mem_range.mp hc) hn)

theorem archives_limited (d : Division) {sizes : Path → Nat} (hsized : d.tree.Sized sizes d.tardir) {log : List (Sigma Ans)} {ret : Int}
    (hrun : Prog.Runs d.run log ret) (htruth : Truthful sizes log) (hfits : d.Fits log) : d.Keeps sizes log := by
  cases d with
  | split cfg tarfn tardir tree =>
    have hsound := post_splitArchive_sound cfg tarfn tardir hsized hfits _ _ hrun
    obtain ⟨n, hn, hnames⟩ := hsound.names
    refine ⟨hsound.closed, ⟨List.range n, ⟨n, hn, rfl⟩, hnames⟩, ?_⟩
    rw [hnames]
    exact nodup_splitNames tarfn List.nodup_range
  | threaded job =>
    have htold : Told sizes (∀ i, (job.stack i).Tame) log :=
      { htruth with stale := fun p hp => hfits.resolve_left fun hno => hno p hp }
    have hsound := post_createEncrypted_sound job id _ _ hrun htold
    obtain ⟨used, hids, hbound, hused⟩ := hsound.names
    have hnames : ((Scan.mk [] [] []).after log).names =
        (used.flatMap fun u => List.range' (100 * u.1) u.2).map (splitName job.tarfn) := by
      rw [hused, List.nil_append, List.map_flatMap]
      refine List.flatMap_congr fun u hu => ?_
      exact partNames_eq job.tarfn (archivers_lt job (hids.subset (List.mem_map_of_mem hu))) (hbound u hu)
    refine ⟨hsound.closed, ⟨_, ⟨used, hids, hbound, rfl⟩, hnames⟩, ?_⟩
    rw [hnames]
    exact nodup_splitNames _ (nodup_hundreds (hids.sublist.nodup (nodup_archivers job)) hbound)

/-- Two scans of `/t` by one thread, with an `st` that is all ones at first. -/
def oneThread (tree : Listing) : Job :=
  ⟨⟨false, false, []⟩, false, 1, "b".toList, "/t".toList, tree, fun _ => ⟨true, 18446744073709551615⟩⟩

theorem archives_limited_file : (Division.threaded (oneThread (.leaf "a".toList (.reg 1) .nil))).Keeps
    (fun p => if p = "/t/a".toList then 1 else 0)
    (((createEncrypted (oneThread (.leaf "a".toList (.reg 1) .nil))).calls succeed).map fun q => ⟨q, succeed q⟩) := by
  refine archives_limited (.threaded (oneThread (.leaf "a".toList (.reg 1) .nil))) ⟨by decide, trivial⟩
    (Prog.runs_eval succeed _) ⟨fun p r hr hne => ?_, fun p st hst => ?_⟩ (.inl fun p hp => ?_)
  · obtain ⟨q, _, hq⟩ := List.mem_map.mp hr
    cases hq
    have hone : p = "/t/a".toList := by
      by_contra hp
      exact hne (if_neg hp)
    show some (Stat.mk true 1) = _
    rw [if_pos hone]
  · obtain ⟨q, _, hq⟩ := List.mem_map.mp hst
    cases hq
    decide
  · obtain ⟨q, _, hq⟩ := List.mem_map.mp hp
    cases hq

/-- A link to nowhere before two files that do not fit into one archive. -/
def dangling : Job :=
  oneThread (.leaf "a".toList .lnk (.leaf "b".toList (.reg 1) (.leaf "c".toList (.reg 1610612736) .nil)))

def danglingSizes (p : Path) : Nat := if p = "/t/b".toList then 1 else if p = "/t/c".toList then 1610612736 else 0

def danglingEnv : (q : Call) → Ans q
  | .stat p => if danglingSizes p = 0 then none else some ⟨true, danglingSizes p⟩
  | q => succeed q

/-- The size that was left in `st` wraps around with the first file. -/
theorem dangling_closed :
    ((Scan.mk [] [] []).after (((createEncrypted dangling).calls danglingEnv).map fun q => ⟨q, danglingEnv q⟩)).closed =
      [[], ["/t/a".toList, "/t/b".toList, "/t/c".toList]] := by decide

theorem not_archives_limited : ¬∀ (d : Division) (sizes : Path → Nat), d.tree.Sized sizes d.tardir →
    ∀ log ret, Prog.Runs d.run log ret → Truthful sizes log → d.Keeps sizes log := by
  intro hclaim
  have hsized : dangling.tree.Sized danglingSizes dangling.tardir := ⟨by decide, by decide, by decide, trivial⟩
  have hkeeps := hclaim (.threaded dangling) danglingSizes hsized _ _ (Prog.runs_eval danglingEnv _)
    ⟨fun p r hr hne => ?_, fun p st hst => ?_⟩
  · have hfiles := hkeeps.closed
    rw [show (Division.threaded dangling).run = createEncrypted dangling from rfl, dangling_closed] at hfiles
    have hlast := hfiles ["/t/a".toList, "/t/b".toList, "/t/c".toList] (by simp)
    rcases hlast with hamount | hfilled
    · exact absurd hamount (by decide)
    · exact absurd hfilled (by decide)
  · obtain ⟨q, _, hq⟩ := List.mem_map.mp hr
    cases hq
    exact if_neg hne
  · obtain ⟨q, _, hq⟩ := List.mem_map.mp hst
    obtain rfl : q = .stat p := congrArg Sigma.fst hq
    have hfound : (if danglingSizes p = 0 then none else some (Stat.mk true (danglingSizes p))) = some st :=
      eq_of_heq (Sigma.mk.inj hq).2
    obtain ⟨_, hsome⟩ := Option.ite_none_left_eq_some.mp hfound
    obtain rfl := Option.some.inj hsome
    show danglingSizes p < 9223372036854775808
    unfold danglingSizes
    split_ifs <;> decide

end Twrp.Tar
