import Twrp.Tar.Division
import Twrp.Tar.RoundTrip

/-! What each way of making a backup selects.

The same tree is archived in one archive, in archives split by size, or in lists divided
among threads. The selections differ: only the single archive stores the directory it
starts from; the threads store the contents of a directory at the top and not the
directory, and exclude no name; `tar_append_tree` excludes no name below the top. So they
agree only on trees whose top has little but files and links, and
`archived_set_iff` says which. -/
namespace Twrp.Tar
open Base

/-! ### Three backups of one tree -/

/-- A tree and the settings that the three backups of it share. -/
structure Modes where
  hasDataMedia : Bool
  /-- `tarexclude` -/
  exclude : Path
  userdata : Bool
  processors : Nat
  tarfn : Path
  tardir : Path
  tree : Listing
  stack : Nat → Stat

namespace Modes

/-- `has_data_media` is set where the build has `RECOVERY_SDCARD_ON_DATA`. -/
def cfg (m : Modes) : Config := ⟨m.hasDataMedia, m.hasDataMedia, splitSpaces m.exclude⟩

def job (m : Modes) : Job := ⟨m.cfg, m.userdata, m.processors, m.tarfn, m.tardir, m.tree, m.stack⟩

/-- A run of each of the three without an error. -/
structure Runs (m : Modes) (single split threaded : List (Sigma Ans)) : Prop where
  single : ∃ ret, Prog.Runs (create m.cfg m.tarfn m.tardir m.tree) single ret ∧ ¬Errs single
  split : ∃ ret, Prog.Runs (splitArchive m.cfg m.tarfn m.tardir m.tree) split ret ∧ ¬Errs split
  threaded : Prog.Runs (createEncrypted m.job) threaded 0 ∧ ¬Errs threaded

end Modes

/-- A path without the slash that `tarDirs` puts after the directory it starts from. -/
def trim (p : Path) : Path := if p.getLast? = some '/' then p.dropLast else p

/-- The original paths that a run has put into archives. -/
def Selects (log : List (Sigma Ans)) (q : Path) : Prop := ∃ p ∈ added log, trim p = q

/-- `Holds listing names`: these names lead to a regular file, a link or a directory. -/
inductive Holds : Listing → List Path → Prop where
  | file {name : Path} {kind : Kind} {rest : Listing} : kind.isFile = true → Holds (.leaf name kind rest) [name]
  | dir {name : Path} {sub rest : Listing} : Holds (.dir name sub rest) [name]
  | inside {name : Path} {sub rest : Listing} {names : List Path} :
      Holds sub names → Holds (.dir name sub rest) (name :: names)
  | afterLeaf {name : Path} {kind : Kind} {rest : Listing} {names : List Path} :
      Holds rest names → Holds (.leaf name kind rest) names
  | afterDir {name : Path} {sub rest : Listing} {names : List Path} :
      Holds rest names → Holds (.dir name sub rest) names

namespace Modes

/-- At or below `/data/media`, where it is left out. -/
def InMedia (m : Modes) (q : Path) : Prop := m.hasDataMedia = true ∧ Under "/data/media".toList q

/-- The three runs select the same paths; excluded names are left out at every depth, and
but for them only `/data/media` is. -/
structure SameSet (m : Modes) (single split threaded : List (Sigma Ans)) : Prop where
  split : ∀ q, Selects split q ↔ Selects single q
  threaded : ∀ q, Selects threaded q ↔ Selects single q
  excluded : ∀ names, Holds m.tree names → (∃ n ∈ names, n ∈ m.cfg.excluded) →
    ¬Selects single (names.foldl join m.tardir)
  media : ∀ q, m.InMedia q → ¬Selects single q
  complete : ∀ names, Holds m.tree names → (∀ n ∈ names, n ∉ m.cfg.excluded) →
    ¬m.InMedia (names.foldl join m.tardir) → Selects single (names.foldl join m.tardir)
  root : ['.'] ∉ m.cfg.excluded → ¬m.InMedia m.tardir → Selects single m.tardir

/-- The entry is `/data/media` itself, where that is left out. -/
def isMedia (m : Modes) (name : Path) : Prop := m.hasDataMedia = true ∧ join m.tardir name = "/data/media".toList

/-- What the entries at the top must be. A file or link is listed by the threads exactly
when it is not excluded; a directory is excluded, and the threads list nothing of it. -/
def Plain (m : Modes) : Listing → Prop
  | .nil => True
  | .leaf name kind rest =>
    (m.isMedia name ∨ (kind.isFile = true →
      (m.cfg.skipsMedia (join m.tardir name) = true ↔ name ∈ m.cfg.excluded))) ∧ m.Plain rest
  | .dir name sub rest =>
    (m.isMedia name ∨ name ∈ m.cfg.excluded ∧
      (m.cfg.skipsMedia (join m.tardir name) = true ∨ name = lostFound ∨
        visits m.cfg (join m.tardir name) sub = [])) ∧ m.Plain rest

/-- The files and links at the top that are selected. -/
def kept (m : Modes) : Listing → List Path
  | .nil => []
  | .leaf name kind rest =>
    if kind.isFile = true ∧ m.cfg.skipsMedia (join m.tardir name) = false then join m.tardir name :: m.kept rest
    else m.kept rest
  | .dir _ _ rest => m.kept rest

end Modes

/-! ### Paths -/

theorem trim_eq {p : Path} (h : p.getLast? ≠ some '/') : trim p = p := if_neg h

theorem join_last {d name : Path} (hn : GoodName name) : (join d name).getLast? ≠ some '/' := by
  show (d ++ (['/'] ++ name)).getLast? ≠ some '/'
  rw [← List.append_assoc]
  exact last_append_noSlash _ hn.nonempty hn.noSlash

theorem visits_last (cfg : Config) (path : Path) (listing : Listing) (hwf : listing.WellFormed) :
    ∀ p ∈ paths (visits cfg path listing), p.getLast? ≠ some '/' := by
  induction listing generalizing path with
  | nil => intro p hp; cases hp
  | leaf name kind rest ih =>
    obtain ⟨hname, _, hrest⟩ := hwf
    intro p hp
    rw [visits] at hp
    split_ifs at hp
    · exact ih path hrest p hp
    · rcases List.mem_cons.mp hp with rfl | hp
      · exact join_last hname
      · exact ih path hrest p hp
  | dir name sub rest ihsub ihrest =>
    obtain ⟨hname, _, hsub, hrest⟩ := hwf
    intro p hp
    rw [visits] at hp
    split_ifs at hp
    · exact ihrest path hrest p hp
    · rw [paths_cons, paths_append] at hp
      rcases List.mem_cons.mp hp with rfl | hp
      · exact join_last hname
      · rcases List.mem_append.mp hp with hp | hp
        · exact ihsub _ hsub p hp
        · exact ihrest path hrest p hp

/-- Names lead to a path under the first of them. -/
theorem under_foldl (d : Path) (names : List Path) : Under d (names.foldl join d) := by
  induction names generalizing d with
  | nil => exact .inl rfl
  | cons name names ih => exact (ih (join d name)).of_join

theorem join_ne_under {d name p : Path} (h : Under (join d name) p) : p ≠ d := by
  have hlen : d.length < p.length := by
    rcases h with rfl | ⟨t, rfl⟩
    · simp [join]
    · simp [join]
  rintro rfl
  exact lt_irrefl _ hlen

/-- A path has one directory and one name. -/
theorem join_inj {d e m n : Path} (hm : '/' ∉ m) (hn : '/' ∉ n) (h : join d m = join e n) : d = e ∧ m = n := by
  have hlast : ∀ (d k : Path), '/' ∉ k → (join d k).reverse.takeWhile (· != '/') = k.reverse := by
    intro d k hk
    have hpos : ∀ c ∈ k.reverse, (c != '/') = true := by
      intro c hc
      simp only [bne_iff_ne, ne_eq]
      rintro rfl
      exact hk (List.mem_reverse.mp hc)
    have hrev : (join d k).reverse = k.reverse ++ '/' :: d.reverse := by simp [join]
    rw [hrev, List.takeWhile_append_of_pos hpos]
    simp
  have hname : m = n := by
    have := (hlast d m hm).symm.trans ((congrArg (fun p => p.reverse.takeWhile (· != '/')) h).trans (hlast e n hn))
    exact List.reverse_injective this
  subst hname
  exact ⟨List.append_cancel_right h, rfl⟩

/-- `/data/media` is the entry `media` of `/data`. -/
theorem join_eq_media {tardir name : Path} (hn : GoodName name) :
    join tardir name = "/data/media".toList ↔ tardir = "/data".toList ∧ name = "media".toList := by
  have hmedia : "/data/media".toList = join "/data".toList "media".toList := by decide
  rw [hmedia]
  constructor
  · intro h
    exact join_inj hn.noSlash (by decide) h
  · rintro ⟨rfl, rfl⟩
    rfl

/-! ### The single archive and the split ones -/

/-- The walk returns well and adds these paths, if no call reports an error. -/
def Adds (ps : List Path) (log : List (Sigma Ans)) (ret : Int) : Prop := ¬Errs log → added log = ps ∧ ret = 0

theorem Adds.errs {ps : List Path} {log : List (Sigma Ans)} {ret : Int} (h : Errs log) : Adds ps log ret :=
  fun herr => absurd h herr

namespace Modes
variable {m : Modes}

theorem skipsMedia_of_isMedia {name : Path} (h : m.isMedia name) : m.cfg.skipsMedia (join m.tardir name) = true := by
  rw [Config.skipsMedia, h.2]
  simp only [cfg, h.1, Bool.true_and]
  decide

/-- The test of `tarDirs` for the storage of the data partition. -/
theorem isMedia_iff (hdir : Proper m.tardir) {name : Path} (hn : GoodName name) :
    (m.cfg.sdcardOnData = true ∧ (m.tardir = "/data".toList ∨ m.tardir = "/data/".toList) ∧ name = "media".toList) ↔
      m.isMedia name := by
  rw [isMedia, join_eq_media hn]
  have hslash : m.tardir ≠ "/data/".toList := by
    intro h
    exact hdir.last (by rw [h]; decide)
  simp only [hslash, or_false]
  rfl

theorem post_tarEntries (hdir : Proper m.tardir) {listing : Listing} (hwf : listing.WellFormed)
    (hplain : m.Plain listing) : (tarEntries m.cfg m.tardir false listing).Post (Adds (m.kept listing)) := by
  have hnotRoot : m.tardir ≠ ['/'] := by
    intro h
    exact hdir.last (by rw [h]; rfl)
  induction listing with
  | nil => exact Prog.post_pure fun _ => ⟨rfl, rfl⟩
  | leaf name kind rest ih =>
    obtain ⟨hname, _, hrest⟩ := hwf
    obtain ⟨hhere, hplain⟩ := hplain
    have hnext := ih hrest hplain
    unfold tarEntries kept
    by_cases hmedia : m.isMedia name
    · rw [if_pos ((isMedia_iff hdir hname).mpr hmedia), if_neg]
      · exact hnext
      · rw [skipsMedia_of_isMedia hmedia]
        simp
    · rw [if_neg (mt (isMedia_iff hdir hname).mp hmedia)]
      have hagree := hhere.resolve_left hmedia
      by_cases hfile : kind.isFile = true
      · have hdevice : kind.isDevice = false := by
          cases kind <;> first | rfl | cases hfile
        by_cases hskip : name ∈ m.cfg.excluded
        · rw [if_pos (by simp [Config.skip, hskip]), if_neg]
          · exact hnext
          · simp [(hagree hfile).mpr hskip]
        · have hkeep : m.cfg.skipsMedia (join m.tardir name) = false := by
            rw [← Bool.not_eq_true]
            exact mt (hagree hfile).mp hskip
          rw [if_neg (by simp [Config.skip, hskip, hdevice]), if_pos ⟨hnotRoot, hfile⟩, if_pos ⟨hfile, hkeep⟩]
          refine Prog.post_bind (post_addFile _ false) fun l ret hadd => ?_
          rcases hadd with ⟨rfl, hadd⟩ | ⟨rfl, _, herr⟩
          · refine hnext.mono fun l' ret' h herr => ?_
            obtain ⟨hrest, hret⟩ := h (not_errs_append herr).2
            rw [added_append, hadd, hrest]
            exact ⟨rfl, hret⟩
          · exact Prog.post_pure (.errs (herr.left []))
      · have hdrop : ¬(kind.isFile = true ∧ m.cfg.skipsMedia (join m.tardir name) = false) := fun h => hfile h.1
        rw [if_neg hdrop]
        refine Prog.post_ite (fun _ => hnext) fun _ => ?_
        rw [if_neg fun h => hfile h.2]
        exact hnext
  | dir name sub rest _ ih =>
    obtain ⟨hname, _, _, hrest⟩ := hwf
    obtain ⟨hhere, hplain⟩ := hplain
    have hnext := ih hrest hplain
    unfold tarEntries
    rcases hhere with hmedia | ⟨hskip, _⟩
    · rw [if_pos ((isMedia_iff hdir hname).mpr hmedia)]
      exact hnext
    · refine Prog.post_ite (fun _ => hnext) fun _ => ?_
      rw [if_pos (by simp [Config.skip, hskip])]
      exact hnext

/-- The directory the walk starts from is stored, unless `.` is excluded or its name is
`lost+found`. -/
def StoresRoot (m : Modes) : Prop := ['.'] ∉ m.cfg.excluded ∧ basename (m.tardir ++ ['/']) ≠ lostFound

theorem post_create (hdir : Proper m.tardir) (hwf : m.tree.WellFormed) (hplain : m.Plain m.tree)
    (hroot : ¬m.StoresRoot) : (create m.cfg m.tarfn m.tardir m.tree).Post (Adds (m.kept m.tree)) := by
  refine Prog.post_check (logs_createTar _) (Prog.post_pure (.errs (errs_cons rfl _))) ?_
  have hdirs : (tarDirs m.cfg m.tardir false m.tree).Post (Adds (m.kept m.tree)) := by
    refine Prog.post_check (logs_opendir _) (Prog.post_pure (.errs (errs_cons rfl _))) ?_
    rw [if_neg (by simpa [StoresRoot, Config.skip] using hroot)]
    refine (post_tarEntries hdir hwf hplain).mono fun l ret h herr => ?_
    exact h (not_errs_append (l := [_]) herr).2
  refine Prog.post_bind hdirs fun l ret h => ?_
  refine Prog.post_ite (fun hret => Prog.post_pure ?_) fun _ => ?_
  · intro herr
    have hzero := (h (not_errs_append (not_errs_append (l := [_]) herr).2).1).2
    rw [hret] at hzero
    cases hzero
  · refine Prog.post_check (logs_closeTar _) (Prog.post_pure (.errs (((errs_cons rfl _).right l).right [_]))) ?_
    refine Prog.post_pure fun herr => ⟨?_, rfl⟩
    have hall := not_errs_append (not_errs_append (l := [_]) herr).2
    show added (l ++ [_]) = _
    rw [added_append, (h hall.1).1]
    exact List.append_nil _

/-- The split walk returns well and adds these paths, if no call reports an error. -/
def AddsSplit (ps : List Path) (log : List (Sigma Ans)) (r : Int × SplitState) : Prop := Adds ps log r.1

theorem post_nextArchive (basefn : Path) (size : Nat) (s : SplitState) :
    (nextArchive basefn size s).Post (AddsSplit []) := by
  refine Prog.post_ite (fun _ => ?_) fun _ => Prog.post_pure fun _ => ⟨rfl, rfl⟩
  refine Prog.post_bind (logs_closeTar _) ?_
  rintro _ ok rfl
  refine Prog.post_bind (Prog.post_ask (R := fun l n => l = [⟨.fileSize s.tarfn, n⟩]) fun n => rfl) ?_
  rintro _ n rfl
  refine Prog.post_ite (fun hzero => Prog.post_pure ?_) fun _ => Prog.post_ite (fun _ => ?_) fun _ => ?_
  · have hreport : reportsError ⟨.fileSize s.tarfn, n⟩ = true := by
      rw [hzero]
      rfl
    exact .errs ((errs_cons hreport []).right [_])
  · refine Prog.post_bind (post_tooMany _) ?_
    rintro _ _ rfl
    exact Prog.post_pure (.errs (((errs_cons rfl []).right [_]).right [_]))
  · refine Prog.post_check (logs_createTar _) (Prog.post_pure (.errs (((errs_cons rfl []).right [_]).right [_]))) ?_
    exact Prog.post_pure fun _ => ⟨rfl, rfl⟩

theorem post_addSplitFile (basefn fn : Path) (kind : Kind) (s : SplitState) :
    (addSplitFile basefn fn kind s).Post (AddsSplit [fn]) := by
  -- the archive is ready, or it could not be made so
  have hnext : ∀ (l : List (Sigma Ans)) (r : Int × SplitState), AddsSplit [] l r →
      Prog.Post (do
        if r.1 < 0 then return (-1, r.2)
        if (← addFile fn true) < 0 then return (-1, r.2)
        return (0, if kind = .lnk then r.2 else {r.2 with currentSize := ull (r.2.currentSize + kind.size)}) :
          Walk (Int × SplitState)) fun l' r' => AddsSplit [fn] (l ++ l') r' := by
    intro l r h
    refine Prog.post_ite (fun hret => Prog.post_pure fun herr => ?_) fun _ => ?_
    · have hzero := (h (not_errs_append herr).1).2
      rw [hzero] at hret
      exact absurd hret (lt_irrefl _)
    · refine Prog.post_bind (post_addFile fn true) fun l' ret hadd => ?_
      rcases hadd with ⟨rfl, hadd⟩ | ⟨rfl, _, herr⟩
      · refine Prog.post_pure fun herr => ⟨?_, rfl⟩
        rw [added_append, (h (not_errs_append herr).1).1, added_append, hadd]
        rfl
      · exact Prog.post_pure (.errs ((herr.left []).right l))
  unfold addSplitFile
  refine Prog.post_ite (fun _ => ?_) fun _ => ?_
  · exact Prog.post_bind (Prog.post_pure fun _ => ⟨rfl, rfl⟩) hnext
  · exact Prog.post_bind (post_nextArchive _ _ _) hnext

theorem post_generateEntries (basefn : Path) {listing : Listing} (hplain : m.Plain listing) (s : SplitState) :
    (generateEntries m.cfg basefn m.tardir listing s).Post (AddsSplit (m.kept listing)) := by
  induction listing generalizing s with
  | nil => exact Prog.post_pure fun _ => ⟨rfl, rfl⟩
  | leaf name kind rest ih =>
    obtain ⟨hhere, hplain⟩ := hplain
    unfold generateEntries kept
    by_cases hkeep : kind.isFile = true ∧ m.cfg.skipsMedia (join m.tardir name) = false
    · have hskip : name ∉ m.cfg.excluded := by
        intro hskip
        rcases hhere with hmedia | hagree
        · rw [skipsMedia_of_isMedia hmedia] at hkeep
          cases hkeep.2
        · rw [(hagree hkeep.1).mpr hskip] at hkeep
          cases hkeep.2
      rw [if_pos hkeep, if_neg (by simp [Config.skip, hskip, hkeep.1, hkeep.2])]
      refine Prog.post_bind (post_addSplitFile basefn _ kind s) fun l r h => ?_
      refine Prog.post_ite (fun hret => Prog.post_pure fun herr => ?_) fun _ => ?_
      · have hzero := (h (not_errs_append herr).1).2
        rw [hzero] at hret
        exact absurd hret (lt_irrefl _)
      · refine (ih hplain r.2).mono fun l' r' hrest herr => ?_
        rw [added_append, (h (not_errs_append herr).1).1, (hrest (not_errs_append herr).2).1]
        exact ⟨rfl, (hrest (not_errs_append herr).2).2⟩
    · have hdrop : (m.cfg.skip name || m.cfg.skipsMedia (join m.tardir name) || !kind.isFile) = true := by
        by_cases hfile : kind.isFile = true
        · have hmedia : m.cfg.skipsMedia (join m.tardir name) = true := by
            rw [← Bool.not_eq_false]
            exact fun h => hkeep ⟨hfile, h⟩
          simp [hmedia]
        · simp [hfile]
      rw [if_neg hkeep, if_pos hdrop]
      exact ih hplain s
  | dir name sub rest _ ih =>
    obtain ⟨hhere, hplain⟩ := hplain
    have hdrop : (m.cfg.skip name || m.cfg.skipsMedia (join m.tardir name)) = true := by
      rcases hhere with hmedia | ⟨hskip, _⟩
      · simp [skipsMedia_of_isMedia hmedia]
      · simp [Config.skip, hskip]
    unfold generateEntries
    rw [if_pos hdrop]
    exact ih hplain s

theorem kept_of_skipsMedia (h : m.cfg.skipsMedia m.tardir = true) (listing : Listing) : m.kept listing = [] := by
  have hbelow : ∀ name, m.cfg.skipsMedia (join m.tardir name) = true := by
    intro name
    by_contra hname
    rw [Bool.not_eq_true] at hname
    rw [skipsMedia_append (t := '/' :: name) hname] at h
    cases h
  induction listing with
  | nil => rfl
  | leaf name kind rest ih =>
    rw [kept, if_neg (by simp [hbelow name])]
    exact ih
  | dir name sub rest _ ih => exact ih

theorem post_splitArchive (hplain : m.Plain m.tree) :
    (splitArchive m.cfg m.tarfn m.tardir m.tree).Post fun log _ => ¬Errs log → added log = m.kept m.tree := by
  have hwalk : ∀ s, (generateMultipleArchives m.cfg m.tarfn m.tardir m.tree s).Post (AddsSplit (m.kept m.tree)) := by
    intro s
    refine Prog.post_ite (fun hmedia => Prog.post_pure fun _ => ?_) fun _ => ?_
    · rw [kept_of_skipsMedia hmedia]
      exact ⟨rfl, rfl⟩
    · refine Prog.post_check (logs_opendir _) (Prog.post_pure (.errs (errs_cons rfl _))) ?_
      refine (post_generateEntries m.tarfn hplain s).mono fun l r h herr => ?_
      exact h (not_errs_append (l := [_]) herr).2
  refine Prog.post_bind (logs_createTar _) ?_
  rintro _ ok rfl
  refine Prog.post_bind (hwalk _) fun l r h => ?_
  refine Prog.post_ite (fun hret => Prog.post_pure fun herr => ?_) fun _ => ?_
  · have hzero := (h (not_errs_append (not_errs_append herr).2).1).2
    rw [hzero] at hret
    exact absurd hret (lt_irrefl _)
  · refine Prog.post_bind (logs_closeTar _) ?_
    rintro _ ok rfl
    refine Prog.post_pure fun herr => ?_
    have hl := (h (not_errs_append (not_errs_append herr).2).1).1
    rw [added_append, added_append, hl]
    simp [added, archived]

end Modes

/-! ### What the threads list -/

/-- All that a job lists. -/
def Job.listed (job : Job) (listing : Listing) : List Path :=
  paths (job.regularVisits listing) ++ paths (job.encryptVisits listing)

theorem listed_underNames {job : Job} {listing : Listing} {p : Path} (hp : p ∈ job.listed listing) :
    UnderNames job.tardir listing.names p := by
  rcases List.mem_append.mp hp with hp | hp
  · exact regularVisits_underNames job listing p hp
  · exact encryptVisits_underNames job listing p hp

theorem mem_listed_leaf {job : Job} {name : Path} {kind : Kind} {rest : Listing} {p : Path} :
    p ∈ job.listed (.leaf name kind rest) ↔
      (kind.isFile = true ∧ job.cfg.skipsMedia (join job.tardir name) = false ∧ p = join job.tardir name) ∨
        p ∈ job.listed rest := by
  unfold Job.listed
  rw [Job.regularVisits, Job.encryptVisits]
  by_cases hfile : kind.isFile = true
  · by_cases hmedia : job.cfg.skipsMedia (join job.tardir name) = true
    · simp [hfile, hmedia]
    · simp [hfile, hmedia, paths_cons, Visit.fn]
      tauto
  · simp [hfile]

theorem mem_listed_dir {job : Job} {name : Path} {sub rest : Listing} {p : Path} :
    p ∈ job.listed (.dir name sub rest) ↔
      (job.cfg.skipsMedia (join job.tardir name) = false ∧ name ≠ lostFound ∧
        p ∈ paths (visits job.cfg (join job.tardir name) sub)) ∨ p ∈ job.listed rest := by
  unfold Job.listed
  rw [Job.regularVisits, Job.encryptVisits]
  by_cases hlost : name = lostFound
  · simp [hlost]
  · by_cases hmedia : job.cfg.skipsMedia (join job.tardir name) = true
    · simp [hmedia]
    · by_cases hreg : job.isRegular name = true
      · simp [hlost, hmedia, hreg, paths_append]
      · simp [hlost, hmedia, hreg, paths_append]
        tauto

theorem visits_skipsMedia (cfg : Config) (path : Path) (listing : Listing) :
    ∀ p ∈ paths (visits cfg path listing), cfg.skipsMedia p = false := by
  induction listing generalizing path with
  | nil => intro p hp; cases hp
  | leaf name kind rest ih =>
    intro p hp
    rw [visits] at hp
    split_ifs at hp with h
    · exact ih path p hp
    · rcases List.mem_cons.mp hp with rfl | hp
      · simp only [Bool.or_eq_true, not_or, Bool.not_eq_true] at h
        exact h.1
      · exact ih path p hp
  | dir name sub rest ihsub ihrest =>
    intro p hp
    rw [visits] at hp
    split_ifs at hp with h
    · exact ihrest path p hp
    · rw [paths_cons, paths_append] at hp
      rcases List.mem_cons.mp hp with rfl | hp
      · simp only [Bool.or_eq_true, not_or, Bool.not_eq_true] at h
        exact h.1
      · rcases List.mem_append.mp hp with hp | hp
        · exact ihsub _ p hp
        · exact ihrest path p hp

theorem visits_holds (cfg : Config) (path : Path) (listing : Listing) :
    ∀ p ∈ paths (visits cfg path listing), ∃ names, Holds listing names ∧ p = names.foldl join path := by
  induction listing generalizing path with
  | nil => intro p hp; cases hp
  | leaf name kind rest ih =>
    intro p hp
    have hnext : p ∈ paths (visits cfg path rest) → ∃ names, Holds (.leaf name kind rest) names ∧ p = names.foldl join path := by
      intro hp
      obtain ⟨names, hholds, hpath⟩ := ih path p hp
      exact ⟨names, .afterLeaf hholds, hpath⟩
    rw [visits] at hp
    split_ifs at hp with h
    · exact hnext hp
    · rcases List.mem_cons.mp hp with rfl | hp
      · simp only [Bool.or_eq_true, not_or] at h
        exact ⟨[name], .file (by simpa using h.2), rfl⟩
      · exact hnext hp
  | dir name sub rest ihsub ihrest =>
    intro p hp
    have hnext : p ∈ paths (visits cfg path rest) → ∃ names, Holds (.dir name sub rest) names ∧ p = names.foldl join path := by
      intro hp
      obtain ⟨names, hholds, hpath⟩ := ihrest path p hp
      exact ⟨names, .afterDir hholds, hpath⟩
    rw [visits] at hp
    split_ifs at hp
    · exact hnext hp
    · rw [paths_cons, paths_append] at hp
      rcases List.mem_cons.mp hp with rfl | hp
      · exact ⟨[name], .dir, rfl⟩
      · rcases List.mem_append.mp hp with hp | hp
        · obtain ⟨names, hholds, hpath⟩ := ihsub _ p hp
          exact ⟨name :: names, .inside hholds, hpath⟩
        · exact hnext hp

theorem listed_skipsMedia {job : Job} {listing : Listing} {p : Path} (hp : p ∈ job.listed listing) :
    job.cfg.skipsMedia p = false := by
  induction listing with
  | nil => cases hp
  | leaf name kind rest ih =>
    rcases mem_listed_leaf.mp hp with ⟨_, hmedia, rfl⟩ | hp
    · exact hmedia
    · exact ih hp
  | dir name sub rest _ ih =>
    rcases mem_listed_dir.mp hp with ⟨_, _, hp⟩ | hp
    · exact visits_skipsMedia _ _ _ p hp
    · exact ih hp

theorem listed_last {job : Job} {listing : Listing} (hwf : listing.WellFormed) {p : Path}
    (hp : p ∈ job.listed listing) : p.getLast? ≠ some '/' := by
  induction listing with
  | nil => cases hp
  | leaf name kind rest ih =>
    obtain ⟨hname, _, hrest⟩ := hwf
    rcases mem_listed_leaf.mp hp with ⟨_, _, rfl⟩ | hp
    · exact join_last hname
    · exact ih hrest hp
  | dir name sub rest _ ih =>
    obtain ⟨_, _, hsub, hrest⟩ := hwf
    rcases mem_listed_dir.mp hp with ⟨_, _, hp⟩ | hp
    · exact visits_last _ _ _ hsub p hp
    · exact ih hrest hp

/-- The directories at the top. -/
def Listing.dirNames : Listing → List Path
  | .nil => []
  | .leaf _ _ rest => rest.dirNames
  | .dir name _ rest => name :: rest.dirNames

theorem dirNames_subset {listing : Listing} {n : Path} (h : n ∈ listing.dirNames) : n ∈ listing.names := by
  induction listing with
  | nil => cases h
  | leaf name kind rest ih => exact List.mem_cons_of_mem _ (ih h)
  | dir name sub rest _ ih =>
    rcases List.mem_cons.mp h with rfl | h
    · exact List.mem_cons_self
    · exact List.mem_cons_of_mem _ (ih h)

/-- A directory at the top is not listed itself. -/
theorem dir_not_listed {job : Job} {listing : Listing} (hwf : listing.WellFormed) {n : Path}
    (hn : n ∈ listing.dirNames) : join job.tardir n ∉ job.listed listing := by
  induction listing with
  | nil => cases hn
  | leaf name kind rest ih =>
    obtain ⟨hname, hnew, hrest⟩ := hwf
    intro hmem
    rcases mem_listed_leaf.mp hmem with ⟨_, _, heq⟩ | hmem
    · have hsame := join_inj (mem_names_good hrest (dirNames_subset hn)).noSlash hname.noSlash heq
      exact hnew (hsame.2 ▸ dirNames_subset hn)
    · exact ih hrest hn hmem
  | dir name sub rest _ ih =>
    obtain ⟨hname, hnew, hsub, hrest⟩ := hwf
    intro hmem
    rcases List.mem_cons.mp hn with rfl | hn
    · rcases mem_listed_dir.mp hmem with ⟨_, _, hmem⟩ | hmem
      · obtain ⟨k, _, hk⟩ := visits_underNames _ _ _ _ hmem
        exact join_ne_under hk rfl
      · exact not_underNames hname hnew hrest (.inl rfl) (listed_underNames hmem)
    · rcases mem_listed_dir.mp hmem with ⟨_, _, hmem⟩ | hmem
      · obtain ⟨k, _, hk⟩ := visits_underNames _ _ _ _ hmem
        have hsame := under_unique hname.noSlash (mem_names_good hrest (dirNames_subset hn)).noSlash hk.of_join (.inl rfl)
        exact hnew (hsame ▸ dirNames_subset hn)
      · exact ih hrest hn hmem

/-! ### When the selections agree -/

theorem holds_head {listing : Listing} {names : List Path} (h : Holds listing names) :
    ∃ c cs, names = c :: cs ∧ c ∈ listing.names := by
  induction h with
  | @file name kind rest _ => exact ⟨name, [], rfl, List.mem_cons_self⟩
  | @dir name sub rest => exact ⟨name, [], rfl, List.mem_cons_self⟩
  | @inside name sub rest names _ _ => exact ⟨name, names, rfl, List.mem_cons_self⟩
  | afterLeaf _ ih =>
    obtain ⟨c, cs, hnames, hc⟩ := ih
    exact ⟨c, cs, hnames, List.mem_cons_of_mem _ hc⟩
  | afterDir _ ih =>
    obtain ⟨c, cs, hnames, hc⟩ := ih
    exact ⟨c, cs, hnames, List.mem_cons_of_mem _ hc⟩

theorem under_media_skips {cfg : Config} {q : Path} (hmedia : cfg.hasDataMedia = true)
    (hq : Under "/data/media".toList q) : cfg.skipsMedia q = true := by
  simp only [Config.skipsMedia, hmedia, dataMediaPrefix, Bool.true_and, List.isPrefixOf_iff_prefix]
  rcases hq with rfl | ⟨t, rfl⟩
  · exact List.prefix_refl _
  · exact List.prefix_append _ _

namespace Modes
variable {m : Modes}

/-- Below a directory outside `/data/media`, an entry is inside only if it is
`/data/media`. -/
theorem isMedia_of_inMedia (hout : ¬m.InMedia m.tardir) {name : Path} (hn : GoodName name)
    (h : m.InMedia (join m.tardir name)) : m.isMedia name := by
  refine ⟨h.1, ?_⟩
  rcases h.2 with heq | ⟨t, heq⟩
  · exact heq
  · exfalso
    refine hout ⟨h.1, ?_⟩
    -- the last component of the path is the name, so the directory is inside too
    by_cases hslash : '/' ∈ t
    · obtain ⟨a, b, rfl, hb⟩ := exists_last_slash hslash
      have hjoin : join "/data/media".toList (join a b) = join (join "/data/media".toList a) b := by simp [join]
      rw [hjoin] at heq
      exact .inr ⟨a, (join_inj hn.noSlash hb heq).1⟩
    · exact .inl (join_inj hn.noSlash hslash heq).1

/-- What must hold of each entry, from what is asked of the listed paths. -/
theorem plain_of_listed (hout : ¬m.InMedia m.tardir) {listed : List Path} (hskips : ∀ p ∈ listed, m.cfg.skipsMedia p = false)
    {listing : Listing} (hwf : listing.WellFormed) (hsub : ∀ p ∈ m.job.listed listing, p ∈ listed)
    (hdirs : ∀ n ∈ listing.dirNames, join m.tardir n ∉ listed)
    (hexcluded : ∀ names, Holds listing names → (∃ n ∈ names, n ∈ m.cfg.excluded) → names.foldl join m.tardir ∉ listed)
    (hcomplete : ∀ names, Holds listing names → (∀ n ∈ names, n ∉ m.cfg.excluded) →
      ¬m.InMedia (names.foldl join m.tardir) → names.foldl join m.tardir ∈ listed) : m.Plain listing := by
  induction listing with
  | nil => trivial
  | leaf name kind rest ih =>
    obtain ⟨hname, _, hrest⟩ := hwf
    refine ⟨?_, ih hrest (fun p hp => hsub p (mem_listed_leaf.mpr (.inr hp))) hdirs
      (fun names h => hexcluded names (.afterLeaf h)) fun names h => hcomplete names (.afterLeaf h)⟩
    by_cases hmedia : m.isMedia name
    · exact .inl hmedia
    · refine .inr fun hfile => ⟨fun hskip => ?_, fun hexcl => ?_⟩
      · by_contra hexcl
        have hmem := hcomplete [name] (.file hfile) (by simpa using hexcl) fun h =>
          hmedia (isMedia_of_inMedia hout hname h)
        exact absurd hskip (by rw [show m.cfg.skipsMedia (join m.tardir name) = false from hskips _ hmem]; decide)
      · by_contra hskip
        rw [Bool.not_eq_true] at hskip
        refine hexcluded [name] (.file hfile) ⟨name, List.mem_cons_self, hexcl⟩ ?_
        exact hsub _ (mem_listed_leaf.mpr (.inl ⟨hfile, hskip, rfl⟩))
  | dir name sub rest _ ih =>
    obtain ⟨hname, _, _, hrest⟩ := hwf
    refine ⟨?_, ih hrest (fun p hp => hsub p (mem_listed_dir.mpr (.inr hp)))
      (fun n hn => hdirs n (List.mem_cons_of_mem _ hn))
      (fun names h => hexcluded names (.afterDir h)) fun names h => hcomplete names (.afterDir h)⟩
    by_cases hmedia : m.isMedia name
    · exact .inl hmedia
    · have hexcl : name ∈ m.cfg.excluded := by
        by_contra hexcl
        refine hdirs name List.mem_cons_self (hcomplete [name] .dir (by simpa using hexcl) fun h => ?_)
        exact hmedia (isMedia_of_inMedia hout hname h)
      refine .inr ⟨hexcl, ?_⟩
      by_contra hlists
      simp only [not_or, Bool.not_eq_true] at hlists
      obtain ⟨v, vs, hvisits⟩ := List.exists_cons_of_ne_nil hlists.2.2
      have hv : v.fn ∈ paths (visits m.cfg (join m.tardir name) sub) := by
        rw [hvisits]
        exact List.mem_cons_self
      obtain ⟨names, hholds, hpath⟩ := visits_holds _ _ _ _ hv
      refine hexcluded (name :: names) (.inside hholds) ⟨name, List.mem_cons_self, hexcl⟩ ?_
      have hmem := hsub v.fn (mem_listed_dir.mpr (.inl ⟨hlists.1, hlists.2.1, hv⟩))
      rw [hpath] at hmem
      exact hmem

theorem mem_kept {listing : Listing} (hwf : listing.WellFormed) (hplain : m.Plain listing) {p : Path}
    (hp : p ∈ m.kept listing) : ∃ name, GoodName name ∧ p = join m.tardir name ∧ name ∉ m.cfg.excluded ∧
      m.cfg.skipsMedia p = false := by
  induction listing with
  | nil => cases hp
  | leaf name kind rest ih =>
    obtain ⟨hname, _, hrest⟩ := hwf
    obtain ⟨hhere, hplain⟩ := hplain
    rw [kept] at hp
    split_ifs at hp with hkeep
    · rcases List.mem_cons.mp hp with rfl | hp
      · refine ⟨name, hname, rfl, fun hexcl => ?_, hkeep.2⟩
        rcases hhere with hmedia | hagree
        · rw [skipsMedia_of_isMedia hmedia] at hkeep
          cases hkeep.2
        · rw [(hagree hkeep.1).mpr hexcl] at hkeep
          cases hkeep.2
      · exact ih hrest hplain hp
    · exact ih hrest hplain hp
  | dir name sub rest _ ih => exact ih hwf.2.2.2 hplain.2 hp

/-- On a plain tree the threads list the files and links at the top, and nothing else. -/
theorem mem_listed_plain {listing : Listing} (hplain : m.Plain listing) {p : Path} :
    p ∈ m.job.listed listing ↔ p ∈ m.kept listing := by
  induction listing with
  | nil => exact Iff.rfl
  | leaf name kind rest ih =>
    rw [mem_listed_leaf, ih hplain.2, kept]
    split_ifs with hkeep
    · rw [List.mem_cons]
      exact or_congr_left ⟨fun h => h.2.2, fun h => ⟨hkeep.1, hkeep.2, h⟩⟩
    · exact ⟨fun h => h.resolve_left fun h => hkeep ⟨h.1, h.2.1⟩, .inr⟩
  | dir name sub rest _ ih =>
    rw [mem_listed_dir, ih hplain.2]
    refine ⟨fun h => h.resolve_left fun hhere => ?_, .inr⟩
    rcases hplain.1 with hmedia | ⟨_, hnone⟩
    · have hskip : m.job.cfg.skipsMedia (join m.job.tardir name) = true := skipsMedia_of_isMedia hmedia
      rw [hskip] at hhere
      cases hhere.1
    · rcases hnone with hskip | hlost | hvisits
      · rw [show m.job.cfg.skipsMedia (join m.job.tardir name) = true from hskip] at hhere
        cases hhere.1
      · exact hhere.2.1 hlost
      · have hnil : visits m.job.cfg (join m.job.tardir name) sub = [] := hvisits
        rw [hnil] at hhere
        cases hhere.2.2

theorem kept_complete (hplain : m.Plain m.tree) {names : List Path} (hholds : Holds m.tree names)
    (hexcl : ∀ n ∈ names, n ∉ m.cfg.excluded) (hmedia : ¬m.InMedia (names.foldl join m.tardir)) :
    names.foldl join m.tardir ∈ m.kept m.tree := by
  generalize m.tree = listing at hplain hholds
  have hinside : ∀ {name : Path} (names : List Path), m.isMedia name →
      m.InMedia (names.foldl join (join m.tardir name)) := by
    intro name names h
    refine ⟨h.1, ?_⟩
    rw [← h.2]
    exact under_foldl _ _
  induction hholds with
  | @file name kind rest hfile =>
    rcases hplain.1 with hm | hagree
    · exact absurd (hinside [] hm) hmedia
    · have hkeep : m.cfg.skipsMedia (join m.tardir name) = false := by
        rw [← Bool.not_eq_true]
        exact fun h => hexcl name List.mem_cons_self ((hagree hfile).mp h)
      rw [kept, if_pos ⟨hfile, hkeep⟩]
      exact List.mem_cons_self
  | @dir name sub rest =>
    rcases hplain.1 with hm | ⟨hskip, _⟩
    · exact absurd (hinside [] hm) hmedia
    · exact absurd hskip (hexcl name List.mem_cons_self)
  | @inside name sub rest names _ _ =>
    rcases hplain.1 with hm | ⟨hskip, _⟩
    · exact absurd (hinside names hm) hmedia
    · exact absurd hskip (hexcl name List.mem_cons_self)
  | @afterLeaf name kind rest names _ ih =>
    have hrest := ih hexcl hmedia hplain.2
    rw [kept]
    split_ifs
    · exact List.mem_cons_of_mem _ hrest
    · exact hrest
  | afterDir _ ih => exact ih hexcl hmedia hplain.2

/-- Selecting the files and links at the top is all that is asked of a plain tree. -/
theorem excluded_not_kept (hwf : m.tree.WellFormed) (hplain : m.Plain m.tree) {names : List Path}
    (hholds : Holds m.tree names) (hexcl : ∃ n ∈ names, n ∈ m.cfg.excluded) :
    names.foldl join m.tardir ∉ m.kept m.tree := by
  intro hmem
  obtain ⟨name, hname, hpath, hkept, _⟩ := mem_kept hwf hplain hmem
  obtain ⟨c, cs, rfl, hc⟩ := holds_head hholds
  have hunder : Under (join m.tardir c) (join m.tardir name) := hpath ▸ under_foldl (join m.tardir c) cs
  have hsame : c = name := under_unique (mem_names_good hwf hc).noSlash hname.noSlash hunder (.inl rfl)
  subst hsame
  cases cs with
  | nil =>
    obtain ⟨n, hn, hexcl⟩ := hexcl
    rw [List.mem_singleton.mp hn] at hexcl
    exact hkept hexcl
  | cons d ds => exact join_ne_under (under_foldl (join (join m.tardir c) d) ds) hpath

section Iff
variable {single split threaded : List (Sigma Ans)}

theorem selects_threaded (hwf : m.tree.WellFormed) (hcores : 1 ≤ m.processors)
    (hsize : m.tree.total < 18446744073709551616) (hruns : m.Runs single split threaded) (q : Path) :
    Selects threaded q ↔ q ∈ m.job.listed m.tree := by
  have hone : 1 ≤ m.job.cores := by
    show 1 ≤ if m.processors > 8 then 8 else m.processors
    split_ifs <;> omega
  have hmem := mem_added_createEncrypted hone (by exact hsize) hruns.threaded.1 hruns.threaded.2
  constructor
  · rintro ⟨p, hp, rfl⟩
    have hlisted := (hmem p).mp hp
    rw [trim_eq (listed_last hwf hlisted)]
    exact hlisted
  · intro hq
    exact ⟨q, (hmem q).mpr hq, trim_eq (listed_last hwf hq)⟩

/-- What is selected, where exactly the files and links at the top are added. -/
theorem selects_kept (hwf : m.tree.WellFormed) (hplain : m.Plain m.tree) {log : List (Sigma Ans)}
    (hlog : added log = m.kept m.tree) (q : Path) : Selects log q ↔ q ∈ m.kept m.tree := by
  have htrim : ∀ p ∈ m.kept m.tree, trim p = p := by
    intro p hp
    obtain ⟨name, hname, rfl, _⟩ := mem_kept hwf hplain hp
    exact trim_eq (join_last hname)
  unfold Selects
  rw [hlog]
  constructor
  · rintro ⟨p, hp, rfl⟩
    rw [htrim p hp]
    exact hp
  · intro hq
    exact ⟨q, hq, htrim q hq⟩

/-- **The archived set.** Three backups of one tree that run without an error select the
same paths, and those that are asked for, exactly when `.` is an excluded name and the
entries at the top are plain. -/
theorem archived_set_iff (hdir : Proper m.tardir) (hout : ¬m.InMedia m.tardir) (hwf : m.tree.WellFormed)
    (hcores : 1 ≤ m.processors) (hsize : m.tree.total < 18446744073709551616)
    (hruns : m.Runs single split threaded) :
    m.SameSet single split threaded ↔ ['.'] ∈ m.cfg.excluded ∧ m.Plain m.tree := by
  have hthreaded := selects_threaded hwf hcores hsize hruns
  constructor
  · intro h
    have hlisted : ∀ q, Selects single q ↔ q ∈ m.job.listed m.tree := fun q => (h.threaded q).symm.trans (hthreaded q)
    constructor
    · by_contra hdot
      obtain ⟨n, _, hn⟩ := listed_underNames ((hlisted m.tardir).mp (h.root hdot hout))
      exact join_ne_under hn rfl
    · refine plain_of_listed hout (fun p hp => listed_skipsMedia hp) hwf (fun p hp => hp)
        (fun n hn => dir_not_listed hwf hn) (fun names hholds hexcl => ?_) fun names hholds hexcl hmedia => ?_
      · exact mt (hlisted _).mpr (h.excluded names hholds hexcl)
      · exact (hlisted _).mp (h.complete names hholds hexcl hmedia)
  · rintro ⟨hdot, hplain⟩
    obtain ⟨_, hsingle, herr⟩ := hruns.single
    obtain ⟨_, hsplit, herr'⟩ := hruns.split
    have hroot : ¬m.StoresRoot := fun h => h.1 hdot
    have hselects := selects_kept hwf hplain (post_create hdir hwf hplain hroot _ _ hsingle herr).1
    have hselects' := selects_kept hwf hplain (post_splitArchive hplain _ _ hsplit herr')
    refine ⟨fun q => ?_, fun q => ?_, fun names hholds hexcl => ?_, fun q hq => ?_, fun names hholds hexcl hmedia => ?_,
      fun hno => absurd hdot hno⟩
    · rw [hselects, hselects']
    · rw [hselects, hthreaded, mem_listed_plain hplain]
    · rw [hselects]
      exact excluded_not_kept hwf hplain hholds hexcl
    · rw [hselects]
      intro hmem
      obtain ⟨_, _, _, _, hskip⟩ := mem_kept hwf hplain hmem
      have hmedia : m.cfg.skipsMedia q = true := under_media_skips hq.1 hq.2
      rw [hskip] at hmedia
      cases hmedia
    · rw [hselects]
      exact kept_complete hplain hholds hexcl hmedia

end Iff

end Modes

/-- A backup of `/data` on one core. -/
def dataModes (exclude : Path) (tree : Listing) : Modes where
  hasDataMedia := true
  exclude := exclude
  userdata := false
  processors := 1
  tarfn := "data.ext4.win".toList
  tardir := "/data".toList
  tree := tree
  stack := fun _ => ⟨false, 0⟩

/-- The log of a walk in which every call succeeds. -/
def logOf {α : Type} (x : Walk α) : List (Sigma Ans) := (x.calls succeed).map fun q => ⟨q, succeed q⟩

theorem dataModes_proper (exclude : Path) (tree : Listing) : Proper (dataModes exclude tree).tardir := by
  refine Root.proper ⟨"data".toList, ?_, by decide, by decide⟩
  show "/data".toList = _
  decide

theorem dataModes_out (exclude : Path) (tree : Listing) : ¬(dataModes exclude tree).InMedia (dataModes exclude tree).tardir := by
  rintro ⟨_, hunder⟩
  have hskip : Config.skipsMedia ⟨true, true, []⟩ "/data".toList = true := under_media_skips rfl hunder
  exact absurd hskip (by decide)

/-- Storage, a file and a link, with `.` excluded. -/
theorem archived_set_plain :
    ∃ single split threaded, (dataModes "dalvik-cache .".toList (.dir "media".toList (.leaf ['f'] (.reg 7) .nil)
        (.leaf ['g'] (.reg 5) (.leaf ['l'] .lnk .nil)))).Runs single split threaded ∧
      ((dataModes "dalvik-cache .".toList (.dir "media".toList (.leaf ['f'] (.reg 7) .nil)
        (.leaf ['g'] (.reg 5) (.leaf ['l'] .lnk .nil)))).SameSet single split threaded ↔
        ['.'] ∈ splitSpaces "dalvik-cache .".toList ∧
          (dataModes "dalvik-cache .".toList (.dir "media".toList (.leaf ['f'] (.reg 7) .nil)
            (.leaf ['g'] (.reg 5) (.leaf ['l'] .lnk .nil)))).Plain (.dir "media".toList (.leaf ['f'] (.reg 7) .nil)
              (.leaf ['g'] (.reg 5) (.leaf ['l'] .lnk .nil)))) := by
  generalize hm : dataModes "dalvik-cache .".toList (.dir "media".toList (.leaf ['f'] (.reg 7) .nil)
    (.leaf ['g'] (.reg 5) (.leaf ['l'] .lnk .nil))) = m
  have hruns : m.Runs (logOf (create m.cfg m.tarfn m.tardir m.tree)) (logOf (splitArchive m.cfg m.tarfn m.tardir m.tree))
      (logOf (createEncrypted m.job)) := by
    subst hm
    refine ⟨⟨_, Prog.runs_eval succeed _, not_errs_eval _ _ ?_⟩, ⟨_, Prog.runs_eval succeed _, not_errs_eval _ _ ?_⟩,
      Prog.runs_eval succeed _, not_errs_eval _ _ ?_⟩
    all_goals decide
  refine ⟨_, _, _, hruns, ?_⟩
  subst hm
  exact Modes.archived_set_iff (dataModes_proper _ _) (dataModes_out _ _) (by decide) (by decide) (by decide) hruns

/-- A directory excluded by name is archived where it is not at the top. -/
theorem archived_set_nested :
    ∃ single split threaded, (dataModes "dalvik-cache".toList
        (.dir "app".toList (.dir "dalvik-cache".toList .nil .nil) .nil)).Runs single split threaded ∧
      ¬(dataModes "dalvik-cache".toList
        (.dir "app".toList (.dir "dalvik-cache".toList .nil .nil) .nil)).SameSet single split threaded := by
  generalize hm : dataModes "dalvik-cache".toList (.dir "app".toList (.dir "dalvik-cache".toList .nil .nil) .nil) = m
  have hruns : m.Runs (logOf (create m.cfg m.tarfn m.tardir m.tree)) (logOf (splitArchive m.cfg m.tarfn m.tardir m.tree))
      (logOf (createEncrypted m.job)) := by
    subst hm
    refine ⟨⟨_, Prog.runs_eval succeed _, not_errs_eval _ _ ?_⟩, ⟨_, Prog.runs_eval succeed _, not_errs_eval _ _ ?_⟩,
      Prog.runs_eval succeed _, not_errs_eval _ _ ?_⟩
    all_goals decide
  refine ⟨_, _, _, hruns, fun h => ?_⟩
  have hholds : Holds m.tree ["app".toList, "dalvik-cache".toList] := by
    subst hm
    exact .inside .dir
  refine h.excluded _ hholds ?_ ?_
  · subst hm
    decide
  · subst hm
    refine ⟨"/data/app/dalvik-cache".toList, ?_, ?_⟩
    all_goals decide

end Twrp.Tar
