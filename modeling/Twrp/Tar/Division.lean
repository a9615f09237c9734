import Mathlib.Data.List.Nodup
import Mathlib.Data.List.Perm.Basic
import Mathlib.Data.List.TakeWhile
import Mathlib.Tactic.Linarith
import Twrp.Tar.Threads

/-! How the encrypted backup divides its work.

A walk that lists a tree is a fold of `visit` over the items it comes by (`visits`),
unless a directory does not open. The number of the thread in hand is bounded by an
amortised count: each move to the next thread is paid for by a running size that passed
the target, and the target is more than an equal share of what the first scan added up.

What is listed: every regular file and link, except below directories named
`lost+found` and, where `/data/media` is left out, at paths that start with its name. -/
namespace Twrp.Tar
open Base

/-! ### Walks as folds -/

/-- An item that a walk comes by. -/
inductive Visit where
  | dir (fn : Path)
  | file (fn : Path) (size : Nat)
  /-- a file at the top, where the target is not looked at -/
  | top (fn : Path) (size : Nat)

namespace Visit

def fn : Visit → Path
  | dir fn => fn
  | file fn _ => fn
  | top fn _ => fn

def size : Visit → Nat
  | dir _ => 0
  | file _ size => size
  | top _ size => size

end Visit

def ListState.visit (target : Nat) (s : ListState) : Visit → ListState
  | .dir fn => s.push fn
  | .file fn size => ((s.push fn).count size).advance target
  | .top fn size => (s.push fn).count size

/-- The items that `Generate_TarList` comes by in `path`. -/
def visits (cfg : Config) (path : Path) : Listing → List Visit
  | .nil => []
  | .leaf name kind rest =>
    if cfg.skipsMedia (join path name) || !kind.isFile then visits cfg path rest
    else .file (join path name) kind.size :: visits cfg path rest
  | .dir name sub rest =>
    if cfg.skipsMedia (join path name) || name = lostFound then visits cfg path rest
    else .dir (join path name) :: (visits cfg (join path name) sub ++ visits cfg path rest)

namespace Job

/-- The items of `RegularList`. -/
def regularVisits (job : Job) : Listing → List Visit
  | .nil => []
  | .leaf _ _ rest => job.regularVisits rest
  | .dir name sub rest =>
    if job.cfg.skipsMedia (join job.tardir name) || name = lostFound || !job.isRegular name then
      job.regularVisits rest
    else visits job.cfg (join job.tardir name) sub ++ job.regularVisits rest

/-- The items of `EncryptList`. -/
def encryptVisits (job : Job) : Listing → List Visit
  | .nil => []
  | .leaf name kind rest =>
    if job.cfg.skipsMedia (join job.tardir name) || !kind.isFile then job.encryptVisits rest
    else .top (join job.tardir name) kind.size :: job.encryptVisits rest
  | .dir name sub rest =>
    if job.cfg.skipsMedia (join job.tardir name) || name = lostFound || job.isRegular name then
      job.encryptVisits rest
    else visits job.cfg (join job.tardir name) sub ++ job.encryptVisits rest

end Job

/-- A directory that did not open. -/
def NotOpened (log : List (Sigma Ans)) : Prop := ∃ p, (⟨.opendir p, false⟩ : Sigma Ans) ∈ log

theorem NotOpened.left {l : List (Sigma Ans)} (h : NotOpened l) (l' : List (Sigma Ans)) : NotOpened (l ++ l') := by
  obtain ⟨p, hp⟩ := h
  exact ⟨p, List.mem_append_left _ hp⟩

theorem NotOpened.right {l : List (Sigma Ans)} (h : NotOpened l) (l' : List (Sigma Ans)) : NotOpened (l' ++ l) := by
  obtain ⟨p, hp⟩ := h
  exact ⟨p, List.mem_append_right _ hp⟩

/-- What a listing walk ends in. -/
def Listed (vs : List Visit) (target : Nat) (s : ListState) (log : List (Sigma Ans)) (r : Int × ListState) : Prop :=
  r = (0, vs.foldl (ListState.visit target) s) ∨ r.1 = -1 ∧ NotOpened log

theorem post_tarListEntries (cfg : Config) (target : Nat) (path : Path) (listing : Listing) (s : ListState) :
    (tarListEntries cfg target path listing s).Post (Listed (visits cfg path listing) target s) := by
  induction listing generalizing path s with
  | nil => exact Prog.post_pure (.inl rfl)
  | leaf name kind rest ih =>
    unfold tarListEntries visits
    by_cases h : (cfg.skipsMedia (join path name) || !kind.isFile) = true
    · simp only [if_pos h]
      exact ih path s
    · simp only [if_neg h]
      exact ih path _
  | dir name sub rest ihsub ihrest =>
    unfold tarListEntries visits
    by_cases h : (cfg.skipsMedia (join path name) || name = lostFound) = true
    · simp only [if_pos h]
      exact ihrest path s
    · simp only [if_neg h]
      refine Prog.post_check (logs_opendir _) (Prog.post_pure (.inr ⟨rfl, _, List.mem_cons_self⟩)) ?_
      refine Prog.post_bind (ihsub (join path name) _) fun l r hr => ?_
      rcases hr with rfl | ⟨hret, hno⟩
      · refine (ihrest path _).mono fun l' r' hr' => ?_
        rcases hr' with rfl | ⟨hret, hno⟩
        · left
          simp only [List.foldl_cons, List.foldl_append, ListState.visit]
        · exact .inr ⟨hret, (hno.right l).right [_]⟩
      · obtain ⟨ret, s'⟩ := r
        cases hret
        exact Prog.post_pure (.inr ⟨rfl, (hno.left []).right [_]⟩)

theorem post_generateTarList (cfg : Config) (target : Nat) (path : Path) (listing : Listing) (s : ListState)
    (hmedia : cfg.skipsMedia path = false) :
    (generateTarList cfg target path listing s).Post (Listed (visits cfg path listing) target s) := by
  unfold generateTarList
  rw [hmedia]
  refine Prog.post_check (logs_opendir _) (Prog.post_pure (.inr ⟨rfl, _, List.mem_cons_self⟩)) ?_
  refine (post_tarListEntries cfg target path listing s).mono fun l r hr => ?_
  rcases hr with rfl | ⟨hret, hno⟩
  · exact .inl rfl
  · exact .inr ⟨hret, hno.right [_]⟩

/-! ### Sizes -/

/-- The sum of all regular files, at any depth. -/
def Listing.total : Listing → Nat
  | .nil => 0
  | .leaf _ kind rest => kind.size + rest.total
  | .dir _ sub rest => sub.total + rest.total

theorem ull_add (m n : Nat) : ull (ull m + ull n) = ull (m + n) := (Nat.add_mod m n _).symm

theorem ull_add_left (m n : Nat) : ull (ull m + n) = ull (m + n) := Nat.mod_add_mod m _ n

theorem ull_add_right (m n : Nat) : ull (m + ull n) = ull (m + n) := Nat.add_mod_mod m n _

theorem ull_le (n : Nat) : ull n ≤ n := Nat.mod_le _ _

theorem ull_lt (n : Nat) : ull n < 18446744073709551616 := Nat.mod_lt _ (by decide)

theorem folderSize_eq (listing : Listing) : listing.folderSize = ull listing.total := by
  induction listing with
  | nil => rfl
  | leaf name kind rest ih =>
    cases kind with
    | reg size => rw [Listing.folderSize, ih, ull_add_right]; rfl
    | lnk => simpa [Listing.folderSize, Listing.total, Kind.size] using ih
    | blk => simpa [Listing.folderSize, Listing.total, Kind.size] using ih
    | chr => simpa [Listing.folderSize, Listing.total, Kind.size] using ih
    | fifo => simpa [Listing.folderSize, Listing.total, Kind.size] using ih
    | sock => simpa [Listing.folderSize, Listing.total, Kind.size] using ih
  | dir name sub rest ihsub ihrest => rw [Listing.folderSize, ihsub, ihrest, ull_add]; rfl

/-- What the first scan adds up, without overflow. -/
def Job.encryptTotal (job : Job) : Listing → Nat
  | .nil => 0
  | .leaf name kind rest =>
    if job.cfg.skipsMedia (join job.tardir name) then job.encryptTotal rest
    else kind.size + job.encryptTotal rest
  | .dir name sub rest =>
    if job.cfg.skipsMedia (join job.tardir name) || name = lostFound || job.isRegular name then
      job.encryptTotal rest
    else sub.total + job.encryptTotal rest

theorem encryptTotal_le (job : Job) (listing : Listing) : job.encryptTotal listing ≤ listing.total := by
  induction listing with
  | nil => exact le_refl 0
  | leaf name kind rest ih =>
    rw [Job.encryptTotal, Listing.total]
    split_ifs <;> omega
  | dir name sub rest _ ih =>
    rw [Job.encryptTotal, Listing.total]
    split_ifs <;> omega

/-- The sizes of the items of a walk, added up. -/
def weight (vs : List Visit) : Nat := (vs.map Visit.size).sum

theorem weight_cons (v : Visit) (vs : List Visit) : weight (v :: vs) = v.size + weight vs := by
  simp [weight]

theorem weight_append (vs ws : List Visit) : weight (vs ++ ws) = weight vs + weight ws := by
  simp [weight]

theorem weight_visits_le (cfg : Config) (path : Path) (listing : Listing) :
    weight (visits cfg path listing) ≤ listing.total := by
  induction listing generalizing path with
  | nil => exact le_refl 0
  | leaf name kind rest ih =>
    have hrest := ih path
    unfold visits Listing.total
    split_ifs
    · omega
    · rw [weight_cons, Visit.size]
      omega
  | dir name sub rest ihsub ihrest =>
    have hsub := ihsub (join path name)
    have hrest := ihrest path
    unfold visits Listing.total
    split_ifs
    · omega
    · rw [weight_cons, weight_append, Visit.size]
      omega

/-- The second scan sees no more than the first has added up. -/
theorem weight_encryptVisits_le (job : Job) (listing : Listing) :
    weight (job.encryptVisits listing) ≤ job.encryptTotal listing := by
  induction listing with
  | nil => exact le_refl 0
  | leaf name kind rest ih =>
    unfold Job.encryptVisits Job.encryptTotal
    by_cases hmedia : job.cfg.skipsMedia (join job.tardir name) = true
    · simpa [hmedia] using ih
    · by_cases hfile : kind.isFile = true
      · simp only [hmedia, hfile, Bool.not_true, Bool.or_self, Bool.false_eq_true, if_false, weight_cons, Visit.size]
        omega
      · simp only [hmedia, hfile, Bool.not_false, Bool.or_true, Bool.false_eq_true, if_false, if_true]
        omega
  | dir name sub rest _ ih =>
    have hsub := weight_visits_le job.cfg (join job.tardir name) sub
    unfold Job.encryptVisits Job.encryptTotal
    split_ifs
    · exact ih
    · rw [weight_append]
      omega

/-! ### The lists that are built -/

theorem post_firstEntries (job : Job) (listing : Listing) (s : FirstScan) (n : Nat) (hn : s.encryptSize = ull n) :
    (firstEntries job listing s).Post fun log r =>
      r = some ⟨ull (n + job.encryptTotal listing),
        (job.regularVisits listing).foldl (ListState.visit 0) s.regular⟩ ∨ r = none ∧ NotOpened log := by
  induction listing generalizing s n with
  | nil =>
    refine Prog.post_pure (.inl ?_)
    show some s = some ⟨ull (n + 0), s.regular⟩
    rw [Nat.add_zero, ← hn]
  | leaf name kind rest ih =>
    unfold firstEntries Job.encryptTotal Job.regularVisits
    by_cases h : job.cfg.skipsMedia (join job.tardir name) = true
    · simp only [if_pos h]
      exact ih s n hn
    · simp only [if_neg h, ← Nat.add_assoc]
      refine ih _ (n + kind.size) ?_
      rw [hn, ull_add_left]
  | dir name sub rest _ ih =>
    unfold firstEntries Job.encryptTotal Job.regularVisits
    by_cases h : (job.cfg.skipsMedia (join job.tardir name) || name = lostFound) = true
    · simp only [h, Bool.true_or, if_true]
      exact ih s n hn
    · have hmedia : job.cfg.skipsMedia (join job.tardir name) = false := by
        simp only [Bool.or_eq_true, not_or] at h
        simpa using h.1
      by_cases hreg : job.isRegular name = true
      · simp only [h, hreg, Bool.not_true, Bool.or_false, Bool.or_true, Bool.false_eq_true, if_true, if_false]
        refine Prog.post_bind (post_generateTarList job.cfg 0 _ sub s.regular hmedia) fun l r hr => ?_
        rcases hr with rfl | ⟨hret, hno⟩
        · have hnext := ih ⟨s.encryptSize,
            (visits job.cfg (join job.tardir name) sub).foldl (ListState.visit 0) s.regular⟩ n hn
          refine hnext.mono fun l' r' hr' => ?_
          rcases hr' with rfl | ⟨hr', hno⟩
          · left
            rw [List.foldl_append]
          · exact .inr ⟨hr', hno.right l⟩
        · obtain ⟨ret, s'⟩ := r
          cases hret
          exact Prog.post_pure (.inr ⟨rfl, hno.left []⟩)
      · simp only [h, hreg, Bool.not_false, Bool.or_false, Bool.or_true, Bool.false_eq_true, if_true, if_false,
          ← Nat.add_assoc]
        refine ih _ (n + sub.total) ?_
        rw [hn, folderSize_eq, ull_add]

theorem post_secondEntries (job : Job) (target : Nat) (listing : Listing) (s : ListState) :
    (secondEntries job target listing s).Post fun log r =>
      r = some ((job.encryptVisits listing).foldl (ListState.visit target) s) ∨ r = none ∧ NotOpened log := by
  induction listing generalizing s with
  | nil => exact Prog.post_pure (.inl rfl)
  | leaf name kind rest ih =>
    unfold secondEntries Job.encryptVisits
    by_cases h : (job.cfg.skipsMedia (join job.tardir name) || !kind.isFile) = true
    · simp only [if_pos h]
      exact ih s
    · simp only [if_neg h]
      exact ih _
  | dir name sub rest _ ih =>
    unfold secondEntries Job.encryptVisits
    by_cases h : (job.cfg.skipsMedia (join job.tardir name) || name = lostFound || job.isRegular name) = true
    · simp only [if_pos h]
      exact ih s
    · simp only [if_neg h]
      have hmedia : job.cfg.skipsMedia (join job.tardir name) = false := by
        simp only [Bool.or_eq_true, not_or] at h
        simpa using h.1.1
      refine Prog.post_bind (post_generateTarList job.cfg target _ sub s hmedia) fun l r hr => ?_
      rcases hr with rfl | ⟨hret, hno⟩
      · refine (ih _).mono fun l' r' hr' => ?_
        rcases hr' with rfl | ⟨hr', hno⟩
        · left
          rw [List.foldl_append]
        · exact .inr ⟨hr', hno.right l⟩
      · obtain ⟨ret, s'⟩ := r
        cases hret
        exact Prog.post_pure (.inr ⟨rfl, hno.left []⟩)

/-- The lists of a job, when every directory opens. -/
def Job.lists (job : Job) : Lists :=
  let s := (job.encryptVisits job.tree).foldl (ListState.visit (job.target (ull (job.encryptTotal job.tree))))
    ⟨[], job.startThread, 0⟩
  ⟨((job.regularVisits job.tree).foldl (ListState.visit 0) ⟨[], 0, 0⟩).list, s.list, s.threadId⟩

/-- The scans build the lists of the job, unless a directory does not open. -/
theorem post_buildLists (job : Job) :
    (buildLists job).Post fun log r => r = some job.lists ∨ r = none ∧ NotOpened log := by
  refine Prog.post_check (logs_opendir _) (Prog.post_pure (.inr ⟨rfl, _, List.mem_cons_self⟩)) ?_
  refine Prog.post_bind (post_firstEntries job job.tree ⟨0, [], 0, 0⟩ 0 rfl) fun l r hr => ?_
  rcases hr with rfl | ⟨rfl, hno⟩
  · have hno : ∀ p l', NotOpened (l' ++ [⟨.opendir p, false⟩]) := fun p l' => ⟨p, by simp⟩
    refine Prog.post_check (logs_opendir _) (Prog.post_pure (.inr ⟨rfl, hno _ (_ :: l)⟩)) ?_
    refine Prog.post_bind (post_secondEntries job _ job.tree _) fun l' r hr => ?_
    rcases hr with rfl | ⟨rfl, hno⟩
    · refine Prog.post_pure (.inl ?_)
      simp only [Job.lists, Nat.zero_add]
    · exact Prog.post_pure (.inr ⟨rfl, ((((hno.left []).right [_]).right l).right [_])⟩)
  · exact Prog.post_pure (.inr ⟨rfl, (hno.left []).right [_]⟩)

/-! ### The thread in hand -/

/-- The amortised count. Each thread before the one in hand has been paid for with more
than `target` bytes of the `seen` ones, and the items listed belong to the threads from
`start` to the one in hand. -/
structure Bounded (start target seen : Nat) (s : ListState) : Prop where
  first : start ≤ s.threadId
  spent : s.threadId * (target + 1) + s.currentSize ≤ start * (target + 1) + seen
  items : ∀ item ∈ s.list, start ≤ item.threadId ∧ item.threadId ≤ s.threadId

section Bounded
variable {start target seen : Nat} {s : ListState}

theorem Bounded.push (h : Bounded start target seen s) (fn : Path) : Bounded start target seen (s.push fn) := by
  refine ⟨h.first, h.spent, fun item hitem => ?_⟩
  rcases List.mem_append.mp hitem with hold | hnew
  · exact h.items item hold
  · rw [List.mem_singleton.mp hnew]
    exact ⟨h.first, le_refl _⟩

theorem Bounded.count (h : Bounded start target seen s) (size : Nat) :
    Bounded start target (seen + size) (s.count size) := by
  refine ⟨h.first, ?_, h.items⟩
  have hspent := h.spent
  have hle := ull_le (s.currentSize + size)
  show s.threadId * (target + 1) + ull (s.currentSize + size) ≤ _
  omega

theorem Bounded.advance (h : Bounded start target seen s)
    (hlimit : start * (target + 1) + seen < 4294967296 * (target + 1)) :
    Bounded start target seen (s.advance target) := by
  unfold ListState.advance
  split_ifs with hfull
  · -- the running size pays for the thread that ends here
    have hpaid : (s.threadId + 1) * (target + 1) ≤ start * (target + 1) + seen := by
      have hspent := h.spent
      rw [Nat.add_mul]
      omega
    have hsmall : s.threadId + 1 < 4294967296 :=
      Nat.lt_of_mul_lt_mul_right (lt_of_le_of_lt hpaid hlimit)
    have hmod : (s.threadId + 1) % 4294967296 = s.threadId + 1 := Nat.mod_eq_of_lt hsmall
    have hfirst := h.first
    refine ⟨?_, ?_, fun item hitem => ?_⟩
    · show start ≤ (s.threadId + 1) % 4294967296
      omega
    · show (s.threadId + 1) % 4294967296 * (target + 1) + 0 ≤ _
      rw [hmod]
      exact hpaid
    · have hold := h.items item hitem
      refine ⟨hold.1, ?_⟩
      show item.threadId ≤ (s.threadId + 1) % 4294967296
      omega
  · exact h

theorem Bounded.visit (h : Bounded start target seen s) (v : Visit)
    (hlimit : start * (target + 1) + (seen + v.size) < 4294967296 * (target + 1)) :
    Bounded start target (seen + v.size) (s.visit target v) := by
  cases v with
  | dir fn => exact h.push fn
  | file fn size => exact ((h.push fn).count size).advance hlimit
  | top fn size => exact (h.push fn).count size

/-- The count along a whole walk. -/
theorem Bounded.run (h : Bounded start target seen s) (vs : List Visit)
    (hlimit : start * (target + 1) + (seen + weight vs) < 4294967296 * (target + 1)) :
    Bounded start target (seen + weight vs) (vs.foldl (ListState.visit target) s) := by
  induction vs generalizing seen s with
  | nil => exact h
  | cons v vs ih =>
    rw [weight_cons] at hlimit ⊢
    rw [← Nat.add_assoc]
    exact ih (h.visit v (by omega)) (by omega)

end Bounded

/-- A target that wraps to zero and one that no running size reaches are the same. -/
theorem visit_ull {target : Nat} (h : target ≤ 18446744073709551616) (s : ListState) (v : Visit) :
    s.visit (ull target) v = s.visit target v := by
  cases v with
  | dir fn => rfl
  | top fn size => rfl
  | file fn size =>
    rcases Nat.lt_or_ge target 18446744073709551616 with hlt | hge
    · rw [show ull target = target from Nat.mod_eq_of_lt hlt]
    · obtain rfl : target = 18446744073709551616 := by omega
      have hsize : ((s.push fn).count size).currentSize < 18446744073709551616 := ull_lt _
      show ListState.advance _ _ = ListState.advance _ _
      rw [ListState.advance, ListState.advance, if_neg (fun hfull => hfull.2.1 rfl), if_neg (by omega)]

/-! ### What is listed -/

/-- `p` is `d`, or below it. -/
def Under (d p : Path) : Prop := p = d ∨ ∃ t, p = join d t

theorem Under.of_join {d name p : Path} (h : Under (join d name) p) : Under d p := by
  rcases h with rfl | ⟨t, rfl⟩
  · exact .inr ⟨name, rfl⟩
  · exact .inr ⟨name ++ '/' :: t, by simp [join]⟩

/-- A path is under one entry of a directory only. -/
theorem under_unique {d m n p : Path} (hm : '/' ∉ m) (hn : '/' ∉ n) (hpm : Under (join d m) p)
    (hpn : Under (join d n) p) : m = n := by
  have hfirst : ∀ k : Path, '/' ∉ k → Under (join d k) p → (p.drop (d.length + 1)).takeWhile (· != '/') = k := by
    intro k hk hp
    have hall : k.takeWhile (· != '/') = k := by
      rw [List.takeWhile_eq_self_iff]
      intro c hc
      simp only [bne_iff_ne, ne_eq]
      rintro rfl
      exact hk hc
    have hdrop : ∀ t : Path, (d ++ '/' :: t).drop (d.length + 1) = t := by
      intro t
      simp
    rcases hp with rfl | ⟨t, rfl⟩
    · rw [join, hdrop, hall]
    · have hjoin : join (join d k) t = d ++ '/' :: (k ++ '/' :: t) := by simp [join]
      rw [hjoin, hdrop, List.takeWhile_append_of_pos]
      · simp
      · intro c hc
        simp only [bne_iff_ne, ne_eq]
        rintro rfl
        exact hk hc
  rw [← hfirst m hm hpm, hfirst n hn hpn]

theorem mem_names_good {listing : Listing} (h : listing.WellFormed) {n : Path} (hn : n ∈ listing.names) :
    GoodName n := by
  induction listing with
  | nil => cases hn
  | leaf name kind rest ih =>
    obtain ⟨hname, _, hrest⟩ := h
    rcases List.mem_cons.mp hn with rfl | hn
    · exact hname
    · exact ih hrest hn
  | dir name sub rest _ ih =>
    obtain ⟨hname, _, _, hrest⟩ := h
    rcases List.mem_cons.mp hn with rfl | hn
    · exact hname
    · exact ih hrest hn

/-- The paths of the items of a walk. -/
def paths (vs : List Visit) : List Path := vs.map Visit.fn

theorem paths_cons (v : Visit) (vs : List Visit) : paths (v :: vs) = v.fn :: paths vs := rfl

theorem paths_append (vs ws : List Visit) : paths (vs ++ ws) = paths vs ++ paths ws := List.map_append

/-- Paths under the entries of a directory. -/
def UnderNames (d : Path) (names : List Path) (p : Path) : Prop := ∃ n ∈ names, Under (join d n) p

theorem underNames_cons {d name p : Path} {names : List Path} :
    UnderNames d (name :: names) p ↔ Under (join d name) p ∨ UnderNames d names p := by
  simp [UnderNames]

/-- What is under the entries is not under another entry. -/
theorem not_underNames {d name p : Path} {rest : Listing} (hname : GoodName name) (hnew : name ∉ rest.names)
    (hwf : rest.WellFormed) (hp : Under (join d name) p) : ¬UnderNames d rest.names p := by
  rintro ⟨n, hn, hpn⟩
  have heq := under_unique hname.noSlash (mem_names_good hwf hn).noSlash hp hpn
  exact hnew (heq ▸ hn)

theorem visits_underNames (cfg : Config) (path : Path) (listing : Listing) :
    ∀ p ∈ paths (visits cfg path listing), UnderNames path listing.names p := by
  induction listing generalizing path with
  | nil => intro p hp; cases hp
  | leaf name kind rest ih =>
    intro p hp
    rw [Listing.names, underNames_cons]
    rw [visits] at hp
    split_ifs at hp
    · exact .inr (ih path p hp)
    · rcases List.mem_cons.mp hp with rfl | hp
      · exact .inl (.inl rfl)
      · exact .inr (ih path p hp)
  | dir name sub rest ihsub ihrest =>
    intro p hp
    rw [Listing.names, underNames_cons]
    rw [visits] at hp
    split_ifs at hp
    · exact .inr (ihrest path p hp)
    · rw [paths_cons, paths_append] at hp
      rcases List.mem_cons.mp hp with rfl | hp
      · exact .inl (.inl rfl)
      · rcases List.mem_append.mp hp with hp | hp
        · obtain ⟨n, _, hn⟩ := ihsub (join path name) p hp
          exact .inl hn.of_join
        · exact .inr (ihrest path p hp)

theorem visits_nodup (cfg : Config) (path : Path) (listing : Listing) (hwf : listing.WellFormed) :
    (paths (visits cfg path listing)).Nodup := by
  induction listing generalizing path with
  | nil => exact List.nodup_nil
  | leaf name kind rest ih =>
    obtain ⟨hname, hnew, hrest⟩ := hwf
    rw [visits]
    split_ifs
    · exact ih path hrest
    · refine List.nodup_cons.mpr ⟨fun hmem => ?_, ih path hrest⟩
      exact not_underNames hname hnew hrest (.inl rfl) (visits_underNames cfg path rest _ hmem)
  | dir name sub rest ihsub ihrest =>
    obtain ⟨hname, hnew, hsub, hrest⟩ := hwf
    rw [visits]
    split_ifs
    · exact ihrest path hrest
    · rw [paths_cons, paths_append]
      refine List.nodup_cons.mpr ⟨fun hmem => ?_, ?_⟩
      · rcases List.mem_append.mp hmem with hmem | hmem
        · -- what is below the directory is longer than the directory
          obtain ⟨n, _, hn⟩ := visits_underNames cfg _ sub _ hmem
          have hlen : ∀ t, Visit.fn (.dir (join path name)) ≠ join (join path name) t := by
            intro t heq
            simpa [join, Visit.fn] using congrArg List.length heq
          rcases hn with heq | ⟨t, heq⟩
          · exact hlen _ heq
          · exact hlen (n ++ '/' :: t) (by rw [heq]; simp [join])
        · exact not_underNames hname hnew hrest (.inl rfl) (visits_underNames cfg path rest _ hmem)
      · refine List.nodup_append.mpr ⟨ihsub _ hsub, ihrest path hrest, ?_⟩
        rintro p hp _ hq rfl
        obtain ⟨n, _, hn⟩ := visits_underNames cfg _ sub p hp
        exact not_underNames hname hnew hrest hn.of_join (visits_underNames cfg path rest p hq)

theorem regularVisits_underNames (job : Job) (listing : Listing) :
    ∀ p ∈ paths (job.regularVisits listing), UnderNames job.tardir listing.names p := by
  induction listing with
  | nil => intro p hp; cases hp
  | leaf name kind rest ih =>
    intro p hp
    rw [Listing.names, underNames_cons]
    exact .inr (ih p hp)
  | dir name sub rest _ ih =>
    intro p hp
    rw [Listing.names, underNames_cons]
    rw [Job.regularVisits] at hp
    split_ifs at hp
    · exact .inr (ih p hp)
    · rw [paths_append] at hp
      rcases List.mem_append.mp hp with hp | hp
      · obtain ⟨n, _, hn⟩ := visits_underNames _ _ _ p hp
        exact .inl hn.of_join
      · exact .inr (ih p hp)

theorem encryptVisits_underNames (job : Job) (listing : Listing) :
    ∀ p ∈ paths (job.encryptVisits listing), UnderNames job.tardir listing.names p := by
  induction listing with
  | nil => intro p hp; cases hp
  | leaf name kind rest ih =>
    intro p hp
    rw [Listing.names, underNames_cons]
    rw [Job.encryptVisits] at hp
    split_ifs at hp
    · exact .inr (ih p hp)
    · rcases List.mem_cons.mp hp with rfl | hp
      · exact .inl (.inl rfl)
      · exact .inr (ih p hp)
  | dir name sub rest _ ih =>
    intro p hp
    rw [Listing.names, underNames_cons]
    rw [Job.encryptVisits] at hp
    split_ifs at hp
    · exact .inr (ih p hp)
    · rw [paths_append] at hp
      rcases List.mem_append.mp hp with hp | hp
      · obtain ⟨n, _, hn⟩ := visits_underNames _ _ _ p hp
        exact .inl hn.of_join
      · exact .inr (ih p hp)

/-- No path is listed twice, in one list or in both. -/
theorem lists_nodup (job : Job) (listing : Listing) (hwf : listing.WellFormed) :
    (paths (job.regularVisits listing) ++ paths (job.encryptVisits listing)).Nodup := by
  induction listing with
  | nil => exact List.nodup_nil
  | leaf name kind rest ih =>
    obtain ⟨hname, hnew, hrest⟩ := hwf
    rw [Job.regularVisits, Job.encryptVisits]
    split_ifs
    · exact ih hrest
    · rw [paths_cons, List.perm_middle.nodup_iff]
      refine List.nodup_cons.mpr ⟨fun hmem => ?_, ih hrest⟩
      refine not_underNames (d := job.tardir) (p := join job.tardir name) hname hnew hrest (.inl rfl) ?_
      rcases List.mem_append.mp hmem with hmem | hmem
      · exact regularVisits_underNames job rest _ hmem
      · exact encryptVisits_underNames job rest _ hmem
  | dir name sub rest _ ih =>
    obtain ⟨hname, hnew, hsub, hrest⟩ := hwf
    -- the items of one directory, apart from those of the rest
    have hone : ∀ ws : List Path, ws.Perm (paths (job.regularVisits rest) ++ paths (job.encryptVisits rest)) →
        (paths (visits job.cfg (join job.tardir name) sub) ++ ws).Nodup := by
      intro ws hperm
      refine List.nodup_append.mpr ⟨visits_nodup _ _ sub hsub, hperm.nodup_iff.mpr (ih hrest), ?_⟩
      rintro p hp _ hq rfl
      obtain ⟨n, _, hn⟩ := visits_underNames _ _ sub p hp
      refine not_underNames hname hnew hrest hn.of_join ?_
      rcases List.mem_append.mp (hperm.mem_iff.mp hq) with hq | hq
      · exact regularVisits_underNames job rest p hq
      · exact encryptVisits_underNames job rest p hq
    rw [Job.regularVisits, Job.encryptVisits]
    by_cases h : (job.cfg.skipsMedia (join job.tardir name) || name = lostFound) = true
    · simp only [h, Bool.true_or, if_true]
      exact ih hrest
    · by_cases hreg : job.isRegular name = true
      · simp only [h, hreg, Bool.not_true, Bool.or_false, Bool.or_true, Bool.false_eq_true, if_true, if_false,
          paths_append, List.append_assoc]
        exact hone _ (List.Perm.refl _)
      · simp only [h, hreg, Bool.not_false, Bool.or_false, Bool.or_true, Bool.false_eq_true, if_true, if_false,
          paths_append]
        rw [List.perm_append_comm.nodup_iff, List.append_assoc]
        exact hone _ List.perm_append_comm

/-- `FileAt listing dirs name kind`: the entry `name` of the directory reached through
`dirs` is of this kind. -/
inductive FileAt : Listing → List Path → Path → Kind → Prop where
  | here {name : Path} {kind : Kind} {rest : Listing} : FileAt (.leaf name kind rest) [] name kind
  | afterLeaf {name : Path} {kind : Kind} {rest : Listing} {dirs : List Path} {n : Path} {k : Kind} :
      FileAt rest dirs n k → FileAt (.leaf name kind rest) dirs n k
  | inside {name : Path} {sub rest : Listing} {dirs : List Path} {n : Path} {k : Kind} :
      FileAt sub dirs n k → FileAt (.dir name sub rest) (name :: dirs) n k
  | afterDir {name : Path} {sub rest : Listing} {dirs : List Path} {n : Path} {k : Kind} :
      FileAt rest dirs n k → FileAt (.dir name sub rest) dirs n k

/-- The path of an entry. -/
def pathBelow (path : Path) (dirs : List Path) (name : Path) : Path := join (dirs.foldl join path) name

theorem pathBelow_extends (path : Path) (dirs : List Path) (name : Path) :
    ∃ t, pathBelow path dirs name = path ++ t := by
  induction dirs generalizing path with
  | nil => exact ⟨'/' :: name, rfl⟩
  | cons d dirs ih =>
    obtain ⟨t, ht⟩ := ih (join path d)
    exact ⟨'/' :: d ++ t, by rw [show pathBelow path (d :: dirs) name = pathBelow (join path d) dirs name from rfl, ht]; simp [join]⟩

/-- A path below one that is skipped is skipped itself. -/
theorem skipsMedia_append {cfg : Config} {p t : Path} (h : cfg.skipsMedia (p ++ t) = false) :
    cfg.skipsMedia p = false := by
  by_contra hp
  simp only [Config.skipsMedia, dataMediaPrefix, Bool.not_eq_false, Bool.and_eq_true,
    List.isPrefixOf_iff_prefix] at hp
  have hskip : cfg.skipsMedia (p ++ t) = true := by
    simp only [Config.skipsMedia, dataMediaPrefix, Bool.and_eq_true, List.isPrefixOf_iff_prefix]
    exact ⟨hp.1, hp.2.trans (List.prefix_append _ _)⟩
  rw [hskip] at h
  cases h

theorem skipsMedia_below {cfg : Config} {path name : Path} {dirs : List Path} {n : Path}
    (h : cfg.skipsMedia (pathBelow path (name :: dirs) n) = false) : cfg.skipsMedia (join path name) = false := by
  obtain ⟨t, ht⟩ := pathBelow_extends (join path name) dirs n
  rw [show pathBelow path (name :: dirs) n = join path name ++ t from ht] at h
  exact skipsMedia_append h

theorem mem_visits {cfg : Config} {path : Path} {listing : Listing} {dirs : List Path} {n : Path} {k : Kind}
    (h : FileAt listing dirs n k) (hfile : k.isFile = true) (hlost : lostFound ∉ dirs)
    (hmedia : cfg.skipsMedia (pathBelow path dirs n) = false) :
    pathBelow path dirs n ∈ paths (visits cfg path listing) := by
  induction h generalizing path with
  | @here name kind rest =>
    have hkeep : ¬(cfg.skipsMedia (join path name) || !kind.isFile) = true := by
      rw [show cfg.skipsMedia (join path name) = false from hmedia, hfile]
      decide
    rw [visits, if_neg hkeep]
    exact List.mem_cons_self
  | afterLeaf _ ih =>
    have hrest := ih hfile hlost hmedia
    rw [visits]
    split_ifs
    · exact hrest
    · exact List.mem_cons_of_mem _ hrest
  | @inside name sub rest dirs n k _ ih =>
    simp only [List.mem_cons, not_or] at hlost
    have hkeep : ¬(cfg.skipsMedia (join path name) || name = lostFound) = true := by
      rw [skipsMedia_below hmedia]
      simpa using fun h => hlost.1 h.symm
    rw [visits, if_neg hkeep, paths_cons, paths_append]
    exact List.mem_cons_of_mem _ (List.mem_append_left _ (ih hfile hlost.2 hmedia))
  | afterDir _ ih =>
    have hrest := ih hfile hlost hmedia
    rw [visits]
    split_ifs
    · exact hrest
    · rw [paths_cons, paths_append]
      exact List.mem_cons_of_mem _ (List.mem_append_right _ hrest)

theorem mem_lists {job : Job} {listing : Listing} {dirs : List Path} {n : Path} {k : Kind}
    (h : FileAt listing dirs n k) (hfile : k.isFile = true) (hlost : lostFound ∉ dirs)
    (hmedia : job.cfg.skipsMedia (pathBelow job.tardir dirs n) = false) :
    pathBelow job.tardir dirs n ∈ paths (job.regularVisits listing) ++ paths (job.encryptVisits listing) := by
  rw [List.mem_append]
  induction h with
  | @here name kind rest =>
    have hkeep : ¬(job.cfg.skipsMedia (join job.tardir name) || !kind.isFile) = true := by
      rw [show job.cfg.skipsMedia (join job.tardir name) = false from hmedia, hfile]
      decide
    rw [Job.encryptVisits, if_neg hkeep]
    exact .inr List.mem_cons_self
  | afterLeaf _ ih =>
    rw [Job.regularVisits, Job.encryptVisits]
    refine (ih hfile hlost hmedia).imp_right fun hrest => ?_
    split_ifs
    · exact hrest
    · exact List.mem_cons_of_mem _ hrest
  | @inside name sub rest dirs n k hin _ =>
    simp only [List.mem_cons, not_or] at hlost
    have hsub : pathBelow job.tardir (name :: dirs) n ∈ paths (visits job.cfg (join job.tardir name) sub) :=
      mem_visits hin hfile hlost.2 hmedia
    have hname : name ≠ lostFound := fun h => hlost.1 h.symm
    rw [Job.regularVisits, Job.encryptVisits, skipsMedia_below hmedia]
    by_cases hreg : job.isRegular name = true
    · left
      simp only [hname, hreg, decide_false, Bool.or_false, Bool.not_true, Bool.false_eq_true, if_false, paths_append]
      exact List.mem_append_left _ hsub
    · right
      simp only [hname, hreg, decide_false, Bool.or_false, Bool.false_eq_true, if_false, paths_append]
      exact List.mem_append_left _ hsub
  | afterDir _ ih =>
    rw [Job.regularVisits, Job.encryptVisits]
    refine (ih hfile hlost hmedia).imp (fun hrest => ?_) fun hrest => ?_
    · split_ifs
      · exact hrest
      · rw [paths_append]
        exact List.mem_append_right _ hrest
    · split_ifs
      · exact hrest
      · rw [paths_append]
        exact List.mem_append_right _ hrest

/-! ### What the archivers add -/

/-- The paths a run has put into archives, in order. -/
def added (log : List (Sigma Ans)) : List Path := (archived log).map Prod.fst

theorem added_append (l l' : List (Sigma Ans)) : added (l ++ l') = added l ++ added l' := by
  simp [added, archived]

/-- A run in which some call reported an error. -/
def Errs (log : List (Sigma Ans)) : Prop := ∃ e ∈ log, reportsError e = true

theorem Errs.left {l : List (Sigma Ans)} (h : Errs l) (l' : List (Sigma Ans)) : Errs (l ++ l') := by
  obtain ⟨e, he, herr⟩ := h
  exact ⟨e, List.mem_append_left _ he, herr⟩

theorem Errs.right {l : List (Sigma Ans)} (h : Errs l) (l' : List (Sigma Ans)) : Errs (l' ++ l) := by
  obtain ⟨e, he, herr⟩ := h
  exact ⟨e, List.mem_append_right _ he, herr⟩

/-- The run against a fixed table, where no answer of the table reports an error. -/
theorem not_errs_eval {α : Type} (env : (q : Call) → Ans q) (x : Walk α)
    (h : ∀ q ∈ x.calls env, reportsError ⟨q, env q⟩ = false) : ¬Errs ((x.calls env).map fun q => ⟨q, env q⟩) := by
  rintro ⟨e, he, herr⟩
  obtain ⟨q, hq, rfl⟩ := List.mem_map.mp he
  rw [h q hq] at herr
  cases herr

theorem post_addFile (fn : Path) (includeRoot : Bool) :
    (addFile fn includeRoot).Post fun log ret =>
      ret = 0 ∧ added log = [fn] ∨ ret = -1 ∧ added log = [] ∧ Errs log := by
  refine Prog.post_bind (logs_tarAppendFile _ _) ?_
  rintro _ ok rfl
  cases ok with
  | false => exact Prog.post_pure (.inr ⟨rfl, rfl, _, List.mem_cons_self, rfl⟩)
  | true => exact Prog.post_pure (.inl ⟨rfl, rfl⟩)

theorem errs_cons {e : Sigma Ans} (h : reportsError e = true) (l : List (Sigma Ans)) : Errs (e :: l) :=
  ⟨e, List.mem_cons_self, h⟩

theorem post_nextPart (basefn : Path) (threadId size : Nat) (s : PartState) :
    (nextPart basefn threadId size s).Post fun log r => added log = [] ∧ (r.1 ≠ 0 → Errs log) := by
  refine Prog.post_ite (fun _ => ?_) fun _ => Prog.post_pure ⟨rfl, fun h => absurd rfl h⟩
  refine Prog.post_check (logs_closeTar _) (Prog.post_pure ⟨rfl, fun _ => errs_cons rfl _⟩) ?_
  refine Prog.post_ite (fun _ => ?_) fun _ => ?_
  · refine Prog.post_bind (post_tooMany _) ?_
    rintro _ _ rfl
    exact Prog.post_pure ⟨rfl, fun _ => (errs_cons rfl []).right [_]⟩
  · refine Prog.post_check (logs_createTar _) (Prog.post_pure ⟨rfl, fun _ => (errs_cons rfl []).right [_]⟩) ?_
    exact Prog.post_pure ⟨rfl, fun h => absurd rfl h⟩

/-- The items of a thread. -/
def share (list : List TarItem) (threadId : Nat) : List Path :=
  (list.filter fun item => item.threadId = threadId).map TarItem.fn

/-- An archiver adds its share in order: all of it when it returns 0, and otherwise up to
an error. -/
def Archives (list : List TarItem) (threadId : Nat) (log : List (Sigma Ans)) (ret : Int) : Prop :=
  added log <+: share list threadId ∧ (ret = 0 → added log = share list threadId) ∧ (ret ≠ 0 → Errs log)

theorem post_tarListItems (basefn : Path) (threadId : Nat) (list : List TarItem) (s : PartState) :
    (tarListItems basefn threadId list s).Post (Archives list threadId) := by
  induction list generalizing s with
  | nil =>
    refine Prog.post_check (logs_closeTar _) (Prog.post_pure ?_) (Prog.post_pure ?_)
    · exact ⟨List.nil_prefix, fun _ => rfl, fun _ => errs_cons rfl _⟩
    · exact ⟨List.nil_prefix, fun _ => rfl, fun h => absurd rfl h⟩
  | cons item rest ih =>
    unfold tarListItems
    by_cases hmine : item.threadId = threadId
    · have hshare : share (item :: rest) threadId = item.fn :: share rest threadId := by
        simp [share, hmine]
      rw [if_neg (not_not.mpr hmine)]
      refine Prog.post_bind (Prog.post_ask (R := fun l st => l = [⟨_, st⟩]) fun st => rfl) ?_
      rintro _ st rfl
      -- the archive is ready, or it could not be made so
      have hnext : ∀ (l : List (Sigma Ans)) (r : Int × PartState), added l = [] ∧ (r.1 ≠ 0 → Errs l) →
          Prog.Post (do
            if r.1 ≠ 0 then return r.1
            if (← addFile item.fn true) ≠ 0 then return -1
            tarListItems basefn threadId rest r.2 : Walk Int)
            fun l' ret => Archives (item :: rest) threadId ([⟨.stat item.fn, st⟩] ++ (l ++ l')) ret := by
        rintro l r ⟨hl, herr⟩
        refine Prog.post_ite (fun hret => Prog.post_pure ?_) fun hret => ?_
        · refine ⟨?_, fun h => absurd h hret, fun _ => ((herr hret).left []).right [_]⟩
          rw [added_append, added_append, hl]
          exact List.nil_prefix
        · refine Prog.post_bind (post_addFile item.fn true) fun l' ret hadd => ?_
          rcases hadd with ⟨rfl, hadd⟩ | ⟨rfl, hadd, herr'⟩
          · refine (ih r.2).mono fun l'' ret' hrest => ?_
            have hlog : added ([⟨.stat item.fn, st⟩] ++ (l ++ (l' ++ l''))) = item.fn :: added l'' := by
              simp only [added_append, hl, hadd]
              rfl
            refine ⟨?_, fun h => ?_, fun h => (((hrest.2.2 h).right l').right l).right [_]⟩
            · rw [hshare, hlog]
              exact List.cons_prefix_cons.mpr ⟨rfl, hrest.1⟩
            · rw [hshare, hlog, hrest.2.1 h]
          · refine Prog.post_pure ⟨?_, fun h => absurd h (by decide), fun _ => ((herr'.left []).right l).right [_]⟩
            simp only [added_append, hl, hadd]
            exact List.nil_prefix
      refine Prog.post_ite (fun _ => ?_) fun _ => ?_
      · exact Prog.post_bind (post_nextPart _ _ _ _) hnext
      · exact Prog.post_bind (Prog.post_pure ⟨rfl, fun h => absurd rfl h⟩) hnext
    · have hshare : share (item :: rest) threadId = share rest threadId := by
        simp [share, hmine]
      rw [if_pos hmine]
      unfold Archives
      rw [hshare]
      exact ih s

theorem post_tarList (job : Job) (list : List TarItem) (threadId : Nat) :
    (tarList job list threadId).Post (Archives list threadId) := by
  refine Prog.post_check (logs_createTar _) (Prog.post_pure ?_) ?_
  · exact ⟨List.nil_prefix, fun h => absurd h (by decide), fun _ => errs_cons rfl _⟩
  · refine (post_tarListItems _ _ list _).mono fun l ret h => ?_
    exact ⟨h.1, h.2.1, fun hret => (h.2.2 hret).right [_]⟩

theorem post_createList (job : Job) (list : List TarItem) (threadId : Nat) :
    (createList job list threadId).Post fun log ret =>
      (added log).Sublist (share list threadId) ∧ (¬Errs log → added log = share list threadId ∧ ret = 0) := by
  refine Prog.post_bind (post_tarList job list threadId) fun l ret h => ?_
  have hok : ¬Errs l → ret = 0 := fun herr => not_not.mp fun hret => herr (h.2.2 hret)
  refine Prog.post_ite (fun hret => Prog.post_pure ?_) fun hret => Prog.post_pure ?_
  · rw [List.append_nil]
    refine ⟨h.1.sublist, fun herr => absurd (hok herr) ?_⟩
    rw [hret]
    decide
  · rw [List.append_nil]
    exact ⟨h.1.sublist, fun herr => ⟨h.2.1 (hok herr), rfl⟩⟩

theorem not_errs_append {l l' : List (Sigma Ans)} (h : ¬Errs (l ++ l')) : ¬Errs l ∧ ¬Errs l' :=
  ⟨fun hl => h (hl.left l'), fun hl => h (hl.right l)⟩

/-- A thread that is created adds its share, and so does one that is not. -/
theorem post_startThreads (job : Job) (list : List TarItem) (ids : List Nat) :
    (startThreads job list ids).Post fun log r =>
      (added log).Sublist (ids.flatMap (share list)) ∧
        (¬Errs log → added log = ids.flatMap (share list) ∧ ∃ threads, r = some threads ∧ ∀ t ∈ threads, t.2 = 0) := by
  induction ids with
  | nil => exact Prog.post_pure ⟨List.nil_sublist _, fun _ => ⟨rfl, [], rfl, by simp⟩⟩
  | cons i ids ih =>
    refine Prog.post_bind (Prog.post_ask (R := fun l _ => added l = []) fun _ => rfl) fun l created hl => ?_
    refine Prog.post_bind (post_createList job list i) fun l' ret hlist => ?_
    have hlog : ∀ l'', added (l ++ (l' ++ l'')) = added l' ++ added l'' := by
      intro l''
      rw [added_append, added_append, hl]
      rfl
    simp only [List.flatMap_cons]
    refine Prog.post_ite (fun hfail => Prog.post_pure ?_) fun _ => ?_
    · refine ⟨?_, fun herr => absurd (hlist.2 (not_errs_append (not_errs_append herr).2).1).2 hfail.2⟩
      rw [hlog]
      exact hlist.1.append (List.nil_sublist _)
    · refine Prog.post_bind ih fun l'' r hrest => ?_
      have hsub : (added (l ++ (l' ++ (l'' ++ [])))).Sublist (share list i ++ ids.flatMap (share list)) := by
        rw [List.append_nil, hlog]
        exact hlist.1.append hrest.1
      have hall : ¬Errs (l ++ (l' ++ (l'' ++ []))) → added l' = share list i ∧ ret = 0 ∧
          added l'' = ids.flatMap (share list) ∧ ∃ threads, r = some threads ∧ ∀ t ∈ threads, t.2 = 0 := by
        intro herr
        obtain ⟨herr', herr''⟩ := not_errs_append (not_errs_append herr).2
        have hmine := hlist.2 herr'
        exact ⟨hmine.1, hmine.2, hrest.2 (not_errs_append herr'').1⟩
      cases r with
      | none =>
        refine Prog.post_pure ⟨hsub, fun herr => ?_⟩
        obtain ⟨_, _, _, threads, hthreads, _⟩ := hall herr
        cases hthreads
      | some threads =>
        refine Prog.post_pure ⟨hsub, fun herr => ?_⟩
        obtain ⟨hmine, hret, hadded, _, hthreads, hzero⟩ := hall herr
        cases hthreads
        refine ⟨by rw [List.append_nil, hlog, hmine, hadded], _, rfl, fun t ht => ?_⟩
        split at ht
        · rcases List.mem_cons.mp ht with rfl | ht
          · exact hret
          · exact hzero t ht
        · exact hzero t ht

/-- A run in which the thread calls failed. -/
def ThreadFails (log : List (Sigma Ans)) : Prop :=
  (⟨.threadAttr, false⟩ : Sigma Ans) ∈ log ∨ ∃ i, (⟨.threadJoin i, false⟩ : Sigma Ans) ∈ log

theorem ThreadFails.right {l : List (Sigma Ans)} (h : ThreadFails l) (l' : List (Sigma Ans)) : ThreadFails (l' ++ l) :=
  h.imp (List.mem_append_right _) fun ⟨i, hi⟩ => ⟨i, List.mem_append_right _ hi⟩

theorem logs_pthreadAttr : Prog.Logs (fun ok => ⟨.threadAttr, ok⟩) pthreadAttr := Prog.post_ask fun _ => rfl

theorem logs_pthreadJoin (i : Nat) : Prog.Logs (fun ok => ⟨.threadJoin i, ok⟩) (pthreadJoin i) := Prog.post_ask fun _ => rfl

theorem post_joinThreads (threads : List (Nat × Int)) :
    (joinThreads threads).Post fun log ret =>
      added log = [] ∧ ((∀ t ∈ threads, t.2 = 0) → ret = 0 ∨ ThreadFails log) := by
  induction threads with
  | nil => exact Prog.post_pure ⟨rfl, fun _ => .inl rfl⟩
  | cons t rest ih =>
    obtain ⟨i, code⟩ := t
    refine Prog.post_check (logs_pthreadJoin i) (Prog.post_pure ⟨rfl, fun _ => .inr (.inr ⟨i, List.mem_cons_self⟩)⟩) ?_
    refine Prog.post_ite (fun hcode => Prog.post_pure ⟨rfl, fun hzero => ?_⟩) fun _ => ?_
    · exact absurd (hzero _ List.mem_cons_self) hcode
    · refine ih.mono fun l ret h => ⟨h.1, fun hzero => ?_⟩
      exact (h.2 fun t ht => hzero t (List.mem_cons_of_mem _ ht)).imp_right fun hfail => hfail.right [_]

/-- All that the archivers of a job are given. -/
def Job.shares (job : Job) (lists : Lists) : List Path :=
  (if job.userdata then share lists.regular 0 else []) ++ job.threads.flatMap (share lists.encrypt)

theorem post_runLists (job : Job) (lists : Lists) (hthread : lists.threadId ≤ job.lastThread) :
    (runLists job lists).Post fun log ret =>
      (added log).Sublist (job.shares lists) ∧
        (¬Errs log → (ret = 0 → added log = job.shares lists) ∧ (ret = 0 ∨ ThreadFails log)) := by
  have hstart : ∀ (l : List (Sigma Ans)) (ret : Int) (first : List Path),
      (added l).Sublist first → (¬Errs l → added l = first ∧ ret = 0) → (runThreads job lists ret).Post fun l' ret' =>
          (added (l ++ l')).Sublist (first ++ job.threads.flatMap (share lists.encrypt)) ∧ (¬Errs (l ++ l') →
            (ret' = 0 → added (l ++ l') = first ++ job.threads.flatMap (share lists.encrypt)) ∧
              (ret' = 0 ∨ ThreadFails (l ++ l'))) := by
    intro l ret first hsub hall
    have hstop : ∀ l', added l' = [] → (added (l ++ l')).Sublist (first ++ job.threads.flatMap (share lists.encrypt)) := by
      intro l' hl'
      rw [added_append, hl', List.append_nil]
      exact hsub.trans (List.sublist_append_left _ _)
    refine Prog.post_ite (fun hret => Prog.post_pure ?_) fun hret => ?_
    · exact ⟨hstop [] rfl, fun herr => absurd (hall (not_errs_append herr).1).2 hret⟩
    · refine Prog.post_check logs_pthreadAttr (Prog.post_pure ⟨hstop _ rfl, fun _ => ⟨?_, .inr (.inl ?_)⟩⟩) ?_
      · intro h
        cases h
      · simp
      · refine Prog.post_bind (post_startThreads job lists.encrypt job.threads) fun l' r hrest => ?_
        have hlog : ∀ l'', added l'' = [] → added (l ++ ⟨.threadAttr, true⟩ :: (l' ++ l'')) = added l ++ added l' := by
          intro l'' hl''
          rw [added_append]
          show added l ++ added (l' ++ l'') = _
          rw [added_append, hl'', List.append_nil]
        cases r with
        | none =>
          refine Prog.post_pure ⟨?_, fun herr => ?_⟩
          · rw [hlog [] rfl]
            exact hsub.append hrest.1
          · obtain ⟨_, threads, hthreads, _⟩ :=
              hrest.2 (not_errs_append (not_errs_append (not_errs_append herr).2 (l := [_])).2).1
            cases hthreads
        | some threads =>
          refine (post_joinThreads threads).mono fun l'' ret' hjoin => ⟨?_, fun herr => ?_⟩
          · rw [hlog l'' hjoin.1]
            exact hsub.append hrest.1
          · obtain ⟨hadded, _, hthreads, hzero⟩ :=
              hrest.2 (not_errs_append (not_errs_append (not_errs_append herr).2 (l := [_])).2).1
            cases hthreads
            refine ⟨fun _ => ?_, (hjoin.2 hzero).imp_right fun hfail => ((hfail.right l').right [_]).right l⟩
            rw [hlog l'' hjoin.1, (hall (not_errs_append herr).1).1, hadded]
  unfold runLists Job.shares
  rw [if_neg (Nat.not_lt.mpr hthread)]
  by_cases huser : job.userdata = true
  · simp only [if_pos huser]
    exact Prog.post_bind (post_createList job lists.regular 0) fun l ret h => hstart l ret _ h.1 h.2
  · simp only [if_neg huser]
    exact Prog.post_bind (Prog.post_pure (R := fun l ret => l = [] ∧ ret = 0) ⟨rfl, rfl⟩) fun l ret h =>
      hstart l ret [] (by rw [h.1]; exact List.nil_sublist _) fun _ => ⟨by rw [h.1]; rfl, h.2⟩

/-! ### The division -/

/-- The threads of a list of numbers take, together, the items with these numbers. -/
theorem count_flatMap_share (p : Path) (list : List TarItem) (ids : List Nat) (hids : ids.Nodup) :
    (ids.flatMap (share list)).count p = ((list.filter fun item => item.threadId ∈ ids).map TarItem.fn).count p := by
  have hstep : ∀ (i : Nat) (ids : List Nat), i ∉ ids → ∀ list : List TarItem,
      (share list i).count p + ((list.filter fun item => item.threadId ∈ ids).map TarItem.fn).count p =
        ((list.filter fun item => item.threadId ∈ i :: ids).map TarItem.fn).count p := by
    intro i ids hi list
    induction list with
    | nil => rfl
    | cons item rest ih =>
      by_cases hmine : item.threadId = i
      · simp only [share, List.filter_cons, hmine, decide_true, decide_false, List.mem_cons, true_or,
          if_true, if_false, Bool.false_eq_true, List.map_cons, List.count_cons, hi] at ih ⊢
        omega
      · by_cases hother : item.threadId ∈ ids
        · simp only [share, List.filter_cons, hmine, hother, decide_true, decide_false, List.mem_cons, or_true,
            if_true, if_false, Bool.false_eq_true, List.map_cons, List.count_cons] at ih ⊢
          omega
        · simp only [share, List.filter_cons, hmine, hother, decide_false, List.mem_cons, or_self,
            if_false, Bool.false_eq_true] at ih ⊢
          exact ih
  induction ids with
  | nil => simp
  | cons i ids ih =>
    obtain ⟨hi, hids⟩ := List.nodup_cons.mp hids
    rw [List.flatMap_cons, List.count_append, ih hids, hstep i ids hi list]

theorem visit_list (target : Nat) (s : ListState) (v : Visit) :
    (s.visit target v).list = s.list ++ [⟨v.fn, s.threadId⟩] := by
  have hadvance : ∀ s : ListState, (s.advance target).list = s.list := by
    intro s
    unfold ListState.advance
    split_ifs <;> rfl
  cases v with
  | dir fn => rfl
  | top fn size => rfl
  | file fn size => exact hadvance _

theorem foldl_visit_paths (target : Nat) (vs : List Visit) (s : ListState) :
    (vs.foldl (ListState.visit target) s).list.map TarItem.fn = s.list.map TarItem.fn ++ paths vs := by
  induction vs generalizing s with
  | nil => simp [paths]
  | cons v vs ih =>
    rw [List.foldl_cons, ih, visit_list, List.map_append, paths_cons, List.append_assoc]
    rfl

/-- With no target the first thread gets everything. -/
theorem foldl_visit_zero (vs : List Visit) (s : ListState) (hs : ∀ item ∈ s.list, item.threadId = s.threadId) :
    ∀ item ∈ (vs.foldl (ListState.visit 0) s).list, item.threadId = s.threadId := by
  induction vs generalizing s with
  | nil => exact hs
  | cons v vs ih =>
    have hid : (s.visit 0 v).threadId = s.threadId := by
      cases v <;> simp [ListState.visit, ListState.push, ListState.count, ListState.advance]
    rw [List.foldl_cons, ← hid]
    refine ih _ fun item hitem => ?_
    rw [visit_list] at hitem
    rw [hid]
    rcases List.mem_append.mp hitem with hold | hnew
    · exact hs item hold
    · rw [List.mem_singleton.mp hnew]

/-- The target is more than an equal share. -/
theorem lt_cores_mul (job : Job) (hcores : 1 ≤ job.cores) (size : Nat) :
    size < job.cores * (size / job.cores + 1 + 1) := by
  have hdiv := Nat.div_add_mod size job.cores
  have hmod := Nat.mod_lt size (show 0 < job.cores from hcores)
  rw [Nat.mul_add, Nat.mul_add]
  omega

theorem cores_le (job : Job) : job.cores ≤ 8 := by
  unfold Job.cores
  split_ifs <;> omega

/-- The thread numbers given out, where the sizes do not overflow. -/
theorem lists_bounded (job : Job) (hcores : 1 ≤ job.cores) (hsize : job.tree.total < 18446744073709551616) :
    job.lists.threadId ≤ job.lastThread ∧
      ∀ item ∈ job.lists.encrypt, job.startThread ≤ item.threadId ∧ item.threadId ≤ job.lastThread := by
  have htotal := encryptTotal_le job job.tree
  have hull : ull (job.encryptTotal job.tree) = job.encryptTotal job.tree := Nat.mod_eq_of_lt (by omega)
  have hweight := weight_encryptVisits_le job job.tree
  generalize hE : job.encryptTotal job.tree = E at *
  have hle : E / job.cores + 1 ≤ 18446744073709551616 := by
    have := Nat.div_le_self E job.cores
    omega
  have hvisit : ListState.visit (job.target E) = ListState.visit (E / job.cores + 1) := by
    funext s v
    exact visit_ull hle s v
  have hshare := lt_cores_mul job hcores E
  have hcap := cores_le job
  have hstart : job.startThread ≤ 1 := by
    unfold Job.startThread
    split_ifs <;> omega
  -- the share of one thread, `T`, as an unknown of its own
  generalize hT : E / job.cores + 1 = T at *
  have hlimit : job.startThread * (T + 1) + weight (job.encryptVisits job.tree) <
      (job.startThread + job.cores) * (T + 1) := by
    rw [Nat.add_mul]
    omega
  have hwide : (job.startThread + job.cores) * (T + 1) ≤ 4294967296 * (T + 1) :=
    Nat.mul_le_mul_right _ (by omega)
  have hinit : Bounded job.startThread T 0 ⟨[], job.startThread, 0⟩ := ⟨le_refl _, le_refl _, by simp⟩
  have hrun := hinit.run (job.encryptVisits job.tree) (by omega)
  rw [Nat.zero_add] at hrun
  have hlast : ((job.encryptVisits job.tree).foldl (ListState.visit T) ⟨[], job.startThread, 0⟩).threadId ≤
      job.lastThread := by
    have hspent := hrun.spent
    have hid := Nat.lt_of_mul_lt_mul_right (lt_of_le_of_lt (le_trans (Nat.le_add_right _ _) hspent) hlimit)
    unfold Job.lastThread
    unfold Job.startThread at hid ⊢
    split_ifs at hid ⊢ <;> omega
  have hlists : job.lists = ⟨((job.regularVisits job.tree).foldl (ListState.visit 0) ⟨[], 0, 0⟩).list,
      ((job.encryptVisits job.tree).foldl (ListState.visit T) ⟨[], job.startThread, 0⟩).list,
      ((job.encryptVisits job.tree).foldl (ListState.visit T) ⟨[], job.startThread, 0⟩).threadId⟩ := by
    rw [Job.lists, hE, hull, hvisit]
  rw [hlists]
  refine ⟨hlast, fun item hitem => ?_⟩
  have hold := hrun.items item hitem
  exact ⟨hold.1, le_trans hold.2 hlast⟩

/-- What the division comes to, for the lists it ends with. -/
structure Divided (job : Job) (lists : Lists) : Prop where
  /-- every regular file and link is listed once, in one of the two lists -/
  once : ∀ dirs name kind, FileAt job.tree dirs name kind → kind.isFile = true → lostFound ∉ dirs →
    job.cfg.skipsMedia (pathBelow job.tardir dirs name) = false →
    ((lists.regular ++ lists.encrypt).map TarItem.fn).count (pathBelow job.tardir dirs name) = 1
  range : ∀ item ∈ lists.encrypt, job.startThread ≤ item.threadId ∧ item.threadId ≤ job.lastThread
  /-- there are no more threads than cores -/
  enough : lists.threadId ≤ job.lastThread
  /-- no item is added twice, and each is added where no call reports an error -/
  adds : ∀ log ret, Prog.Runs (runLists job lists) log ret → ∀ item ∈ lists.regular ++ lists.encrypt,
    (added log).count item.fn ≤ 1 ∧
      (¬Errs log → (ret = 0 → (added log).count item.fn = 1) ∧ (ret = 0 ∨ ThreadFails log))

theorem lists_paths (job : Job) :
    job.lists.regular.map TarItem.fn = paths (job.regularVisits job.tree) ∧
      job.lists.encrypt.map TarItem.fn = paths (job.encryptVisits job.tree) := by
  constructor
  · exact foldl_visit_paths 0 _ _
  · exact foldl_visit_paths _ _ _

theorem lists_paths_nodup (job : Job) (hwf : job.tree.WellFormed) :
    ((job.lists.regular ++ job.lists.encrypt).map TarItem.fn).Nodup := by
  rw [List.map_append, (lists_paths job).1, (lists_paths job).2]
  exact lists_nodup job job.tree hwf

theorem regularVisits_nil (job : Job) (huser : ¬job.userdata = true) (listing : Listing) :
    job.regularVisits listing = [] := by
  have hreg : ∀ name, job.isRegular name = false := by
    intro name
    simp [Job.isRegular, huser]
  induction listing with
  | nil => rfl
  | leaf name kind rest ih => exact ih
  | dir name sub rest _ ih =>
    rw [Job.regularVisits, hreg name, if_pos (by simp)]
    exact ih

/-- The archivers are given each item that is listed, once. -/
theorem count_shares (job : Job) (hcores : 1 ≤ job.cores) (hsize : job.tree.total < 18446744073709551616) (p : Path) :
    (job.shares job.lists).count p = ((job.lists.regular ++ job.lists.encrypt).map TarItem.fn).count p := by
  have hencrypt : (job.threads.flatMap (share job.lists.encrypt)).count p =
      (job.lists.encrypt.map TarItem.fn).count p := by
    rw [count_flatMap_share p _ job.threads List.nodup_range', List.filter_eq_self.mpr]
    intro item hitem
    have hrange := (lists_bounded job hcores hsize).2 item hitem
    simp only [Job.threads, List.mem_range'_1, decide_eq_true_eq]
    omega
  have hregular : (if job.userdata then share job.lists.regular 0 else []) = job.lists.regular.map TarItem.fn := by
    split_ifs with huser
    · have hzero := foldl_visit_zero (job.regularVisits job.tree) ⟨[], 0, 0⟩ (by simp)
      rw [share, List.filter_eq_self.mpr]
      intro item hitem
      simpa using hzero item hitem
    · rw [(lists_paths job).1, regularVisits_nil job huser]
      rfl
  rw [Job.shares, List.count_append, hencrypt, hregular, List.map_append, List.count_append]

/-! ### The child as a whole -/

/-- The scans only open directories. -/
def Opens (q : Call) : Prop := ∃ p, q = .opendir p

theorem all_tarListEntries (cfg : Config) (target : Nat) (path : Path) (listing : Listing) (s : ListState) :
    (tarListEntries cfg target path listing s).All Opens := by
  induction listing generalizing path s with
  | nil => exact Prog.all_pure _
  | leaf name kind rest ih => exact Prog.all_ite (fun _ => ih _ _) fun _ => ih _ _
  | dir name sub rest ihsub ihrest =>
    refine Prog.all_ite (fun _ => ihrest _ _) fun _ => ?_
    refine Prog.all_bind (Prog.all_ask ⟨_, rfl⟩) fun ok => Prog.all_ite (fun _ => Prog.all_pure _) fun _ => ?_
    refine Prog.all_bind (ihsub _ _) fun r => ?_
    exact Prog.all_ite (fun _ => Prog.all_pure _) fun _ => ihrest _ _

theorem all_generateTarList (cfg : Config) (target : Nat) (path : Path) (listing : Listing) (s : ListState) :
    (generateTarList cfg target path listing s).All Opens := by
  refine Prog.all_ite (fun _ => Prog.all_pure _) fun _ => ?_
  refine Prog.all_bind (Prog.all_ask ⟨_, rfl⟩) fun ok => Prog.all_ite (fun _ => Prog.all_pure _) fun _ => ?_
  exact all_tarListEntries cfg target path listing s

theorem all_firstEntries (job : Job) (listing : Listing) (s : FirstScan) : (firstEntries job listing s).All Opens := by
  induction listing generalizing s with
  | nil => exact Prog.all_pure _
  | leaf name kind rest ih => exact Prog.all_ite (fun _ => ih _) fun _ => ih _
  | dir name sub rest _ ih =>
    refine Prog.all_ite (fun _ => ih _) fun _ => Prog.all_ite (fun _ => ?_) fun _ => ih _
    refine Prog.all_bind (all_generateTarList _ _ _ _ _) fun r => ?_
    exact Prog.all_ite (fun _ => Prog.all_pure _) fun _ => ih _

theorem all_secondEntries (job : Job) (target : Nat) (listing : Listing) (s : ListState) :
    (secondEntries job target listing s).All Opens := by
  induction listing generalizing s with
  | nil => exact Prog.all_pure _
  | leaf name kind rest ih => exact Prog.all_ite (fun _ => ih _) fun _ => ih _
  | dir name sub rest _ ih =>
    refine Prog.all_ite (fun _ => ih _) fun _ => ?_
    refine Prog.all_bind (all_generateTarList _ _ _ _ _) fun r => ?_
    exact Prog.all_ite (fun _ => Prog.all_pure _) fun _ => ih _

theorem all_buildLists (job : Job) : (buildLists job).All Opens := by
  refine Prog.all_bind (Prog.all_ask ⟨_, rfl⟩) fun ok => Prog.all_ite (fun _ => Prog.all_pure _) fun _ => ?_
  refine Prog.all_bind (all_firstEntries _ _ _) fun first => ?_
  cases first with
  | none => exact Prog.all_pure _
  | some first =>
    refine Prog.all_bind (Prog.all_ask ⟨_, rfl⟩) fun ok => Prog.all_ite (fun _ => Prog.all_pure _) fun _ => ?_
    refine Prog.all_bind (all_secondEntries _ _ _ _) fun s => ?_
    cases s with
    | none => exact Prog.all_pure _
    | some s => exact Prog.all_pure _

theorem added_of_opens {log : List (Sigma Ans)} (h : ∀ e ∈ log, Opens e.1) : added log = [] := by
  induction log with
  | nil => rfl
  | cons e log ih =>
    obtain ⟨q, r⟩ := e
    obtain ⟨p, hp⟩ := h ⟨q, r⟩ List.mem_cons_self
    subst hp
    exact ih fun e he => h e (List.mem_cons_of_mem _ he)

/-- A child that ends well and without an error adds exactly what is listed. -/
theorem mem_added_createEncrypted {job : Job} (hcores : 1 ≤ job.cores) (hsize : job.tree.total < 18446744073709551616)
    {log : List (Sigma Ans)} (hrun : Prog.Runs (createEncrypted job) log 0) (herr : ¬Errs log) (p : Path) :
    p ∈ added log ↔ p ∈ paths (job.regularVisits job.tree) ++ paths (job.encryptVisits job.tree) := by
  obtain ⟨l, r, l', rfl, hbuild, hrest⟩ := Prog.runs_bind.mp hrun
  rcases post_buildLists job l r hbuild with rfl | ⟨rfl, _⟩
  · have hl : added l = [] := added_of_opens (hbuild.all (all_buildLists job))
    have hadded : added l' = job.shares job.lists :=
      ((post_runLists job job.lists (lists_bounded job hcores hsize).1 l' 0 hrest).2 (not_errs_append herr).2).1 rfl
    rw [added_append, hl, List.nil_append, hadded, ← List.count_pos_iff, count_shares job hcores hsize,
      List.count_pos_iff, List.map_append, (lists_paths job).1, (lists_paths job).2]
  · cases (Prog.runs_pure.mp hrest).2

/-! ### The promise -/

theorem lists_divided (job : Job) (hwf : job.tree.WellFormed) (hcores : 1 ≤ job.cores)
    (hsize : job.tree.total < 18446744073709551616) : Divided job job.lists := by
  obtain ⟨henough, hrange⟩ := lists_bounded job hcores hsize
  have hnodup := lists_paths_nodup job hwf
  refine ⟨fun dirs name kind hat hfile hlost hmedia => ?_, hrange, henough, fun log ret hrun item hitem => ?_⟩
  · refine List.count_eq_one_of_mem hnodup ?_
    rw [List.map_append, (lists_paths job).1, (lists_paths job).2]
    exact mem_lists hat hfile hlost hmedia
  · have hone : (job.shares job.lists).count item.fn = 1 := by
      rw [count_shares job hcores hsize]
      exact List.count_eq_one_of_mem hnodup (List.mem_map_of_mem hitem)
    obtain ⟨hsub, hall⟩ := post_runLists job job.lists henough log ret hrun
    refine ⟨hone ▸ hsub.count_le item.fn, fun herr => ⟨fun hret => ?_, (hall herr).2⟩⟩
    rw [(hall herr).1 hret]
    exact hone

/-- **Division of work.** Where the sizes add up to less than 2⁶⁴ bytes, the two scans end
with lists that divide the work, or with a directory that did not open. -/
theorem threads_divide_work (job : Job) (hwf : job.tree.WellFormed) (hcores : 1 ≤ job.processors)
    (hsize : job.tree.total < 18446744073709551616) :
    (∀ log lists, Prog.Runs (buildLists job) log (some lists) → Divided job lists) ∧
      ∀ log, Prog.Runs (buildLists job) log none → NotOpened log := by
  have hone : 1 ≤ job.cores := by
    unfold Job.cores
    split_ifs <;> omega
  constructor
  · intro log lists hrun
    rcases post_buildLists job log _ hrun with hlists | ⟨hnone, _⟩
    · cases hlists
      exact lists_divided job hwf hone hsize
    · cases hnone
  · intro log hrun
    rcases post_buildLists job log _ hrun with hlists | ⟨_, hno⟩
    · cases hlists
    · exact hno

/-- A backup of `/data` on one core, without userdata encryption. -/
def plainJob (hasDataMedia : Bool) (tree : Listing) : Job where
  cfg := ⟨hasDataMedia, hasDataMedia, []⟩
  userdata := false
  processors := 1
  tarfn := "data.ext4.win".toList
  tardir := "/data".toList
  tree := tree
  stack := fun _ => ⟨false, 0⟩

theorem threads_divide_work_small :
    (.dir ['a'] (.leaf ['f'] (.reg 5) .nil) (.leaf ['l'] .lnk .nil) : Listing).WellFormed ∧
      (∀ log lists, Prog.Runs (buildLists (plainJob true (.dir ['a'] (.leaf ['f'] (.reg 5) .nil) (.leaf ['l'] .lnk .nil))))
        log (some lists) → Divided (plainJob true (.dir ['a'] (.leaf ['f'] (.reg 5) .nil) (.leaf ['l'] .lnk .nil))) lists) ∧
      ∀ log, Prog.Runs (buildLists (plainJob true (.dir ['a'] (.leaf ['f'] (.reg 5) .nil) (.leaf ['l'] .lnk .nil))))
        log none → NotOpened log :=
  ⟨by decide, threads_divide_work _ (by decide) (by decide) (by decide)⟩

/-- The first `n` files of 1.5 GB, by number. -/
def bigFiles : Nat → Listing
  | 0 => .nil
  | n + 1 => .leaf (decimal n) (.reg maxArchiveSize) (bigFiles n)

/-- Calls that all succeed, on files of 1.5 GB. -/
def succeedBig : (q : Call) → Ans q
  | .stat _ => some ⟨true, maxArchiveSize⟩
  | q => succeed q

/-- What is not listed, or not added, though it is outside `/data/media`: a file in
`lost+found`; a file whose name starts as `media` does; anything, where sizes add up past
2⁶⁴ bytes and the division gives up; and the last file of a thread that needs more than
a hundred archives. -/
theorem threads_divide_work_gaps :
    (FileAt (.dir lostFound (.leaf ['f'] (.reg 1) .nil) .nil) [lostFound] ['f'] (.reg 1) ∧
      ∃ lists, (buildLists (plainJob false (.dir lostFound (.leaf ['f'] (.reg 1) .nil) .nil))).eval succeed = some lists ∧
        ((lists.regular ++ lists.encrypt).map TarItem.fn).count "/data/lost+found/f".toList = 0) ∧
    (FileAt (.leaf "mediaserver".toList (.reg 1) .nil) [] "mediaserver".toList (.reg 1) ∧
      ∃ lists, (buildLists (plainJob true (.leaf "mediaserver".toList (.reg 1) .nil))).eval succeed = some lists ∧
        ((lists.regular ++ lists.encrypt).map TarItem.fn).count "/data/mediaserver".toList = 0) ∧
    (∃ lists, (buildLists (plainJob false (.dir ['d'] (.leaf ['a'] (.reg 9223372036854775808)
        (.leaf ['b'] (.reg 9223372036854775808) .nil)) .nil))).eval succeed = some lists ∧
      lists.threadId > (plainJob false .nil).lastThread) ∧
    ((createEncrypted (plainJob false (bigFiles 101))).eval succeedBig = 0 ∧
      (∃ lists, (buildLists (plainJob false (bigFiles 101))).eval succeedBig = some lists ∧
        "/data/0".toList ∈ lists.encrypt.map TarItem.fn) ∧
      Call.append "/data/0".toList (.known "/data/0".toList) ∉
        (createEncrypted (plainJob false (bigFiles 101))).calls succeedBig) := by
  refine ⟨⟨.inside .here, _, rfl, by decide⟩, ⟨.here, _, rfl, by decide⟩, ⟨_, rfl, by decide⟩,
    by decide +kernel, ⟨_, rfl, by decide +kernel⟩, by decide +kernel⟩

end Twrp.Tar
