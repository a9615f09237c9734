import Twrp.Base.Folders

/-! Making a directory with all that lead to it (`TWFunc::Recursive_Mkdir`).

The path is searched for slashes from its third byte on, and a directory is made of what
stands before each; the last of these is made once more after the loop, and nothing is made of
what follows the last slash. So a path without a slash at its end is not made whole, and a path
without any is not tried at all; what is there already passes as made, a file as well. On which
paths and directories it does what it returns all the same is `Works`, exactly
(`recursiveMkdir_sound_iff`). -/
namespace Twrp.Functions
open Base

/-! ### The code -/

/-- A call of `mkdir`, and its error. -/
structure Call where
  path : List UInt8
  result : Option Errno

/-- `mkdir(..) && errno != EEXIST` -/
def Call.Failed (c : Call) : Prop := c.result ≠ none ∧ c.result ≠ some .exist

instance (c : Call) : Decidable c.Failed := inferInstanceAs (Decidable (_ ∧ _))

structure World where
  folders : Folders
  calls : List Call

section Code
-- which call fails for a reason that the directories do not give
variable (fault : Nat → Option Nat)

def World.mkdir (w : World) (path : List UInt8) : Call × World :=
  match fault w.calls.length with
  | some code => (⟨path, some (.other code)⟩, {w with calls := w.calls ++ [⟨path, some (.other code)⟩]})
  | none =>
    let (result, folders) := w.folders.mkdir path
    (⟨path, result⟩, ⟨folders, w.calls ++ [⟨path, result⟩]⟩)

/-- The loop: `seen` is the path up to where `find` is, `wholePath` what was made last. -/
def mkdirFrom (seen wholePath : List UInt8) : List UInt8 → World → Bool × World
  | [], w =>
    let (c, w) := w.mkdir fault wholePath
    (!decide c.Failed, w)
  | b :: rest, w =>
    if b = 47 then
      let (c, w) := w.mkdir fault seen
      if c.Failed then (false, w) else mkdirFrom (seen ++ [b]) seen rest w
    else mkdirFrom (seen ++ [b]) wholePath rest w

/-- `Recursive_Mkdir` -/
def recursiveMkdir (path : List UInt8) (t : Folders) : Bool × World :=
  mkdirFrom fault (path.take 2) [] (path.drop 2) ⟨t, []⟩

end Code

/-! ### The calls in a row -/

/-- What stands before each slash of the rest. -/
def cuts (seen : List UInt8) : List UInt8 → List (List UInt8)
  | [] => []
  | b :: rest => if b = 47 then seen :: cuts (seen ++ [b]) rest else cuts (seen ++ [b]) rest

/-- What directories are made of. -/
def cutsOf (path : List UInt8) : List (List UInt8) := cuts (path.take 2) (path.drop 2)

section Row
variable (fault : Nat → Option Nat)

def makeAll : List (List UInt8) → World → Bool × World
  | [], w => (true, w)
  | p :: ps, w =>
    let (c, w) := w.mkdir fault p
    if c.Failed then (false, w) else makeAll ps w

theorem mkdirFrom_makeAll (seen wholePath rest : List UInt8) (w : World) :
    mkdirFrom fault seen wholePath rest w =
      makeAll fault (cuts seen rest ++ [((cuts seen rest).getLast?).getD wholePath]) w := by
  induction rest generalizing seen wholePath w with
  | nil =>
    simp only [mkdirFrom, cuts, List.getLast?_nil, Option.getD_none, List.nil_append, makeAll]
    split <;> simp [*]
  | cons b rest ih =>
    rw [mkdirFrom, cuts]
    by_cases hb : b = 47
    · rw [if_pos hb, if_pos hb, List.cons_append, makeAll]
      simp only [ih]
      cases hcuts : cuts (seen ++ [b]) rest with
      | nil => rfl
      | cons p ps => simp [List.getLast?_cons]
    · rw [if_neg hb, if_neg hb]
      exact ih _ _ _

theorem recursiveMkdir_makeAll (path : List UInt8) (t : Folders) :
    recursiveMkdir fault path t = makeAll fault (cutsOf path ++ [((cutsOf path).getLast?).getD []]) ⟨t, []⟩ :=
  mkdirFrom_makeAll fault _ _ _ _

end Row

/-! ### The prefixes of a path -/

section Cuts
variable {seen rest p : List UInt8}

/-- A slash follows each of them. -/
theorem of_mem_cuts (h : p ∈ cuts seen rest) : seen <+: p ∧ ∃ later, seen ++ rest = p ++ 47 :: later := by
  induction rest generalizing seen with
  | nil => cases h
  | cons b rest ih =>
    have hstep (hmem : p ∈ cuts (seen ++ [b]) rest) : seen <+: p ∧ ∃ later, seen ++ b :: rest = p ++ 47 :: later := by
      obtain ⟨hpre, later, heq⟩ := ih hmem
      exact ⟨(List.prefix_append seen [b]).trans hpre, later, by rw [← heq, List.append_assoc, List.singleton_append]⟩
    rw [cuts] at h
    by_cases hb : b = 47
    · rw [if_pos hb] at h
      obtain rfl | h := List.mem_cons.mp h
      · exact ⟨List.prefix_rfl, rest, by rw [hb]⟩
      · exact hstep h
    · rw [if_neg hb] at h
      exact hstep h

/-- There is no slash before the first. -/
theorem cuts_head (h : (cuts seen rest).head? = some p) : ∃ word, 47 ∉ word ∧ p = seen ++ word := by
  induction rest generalizing seen with
  | nil => cases h
  | cons b rest ih =>
    rw [cuts] at h
    by_cases hb : b = 47
    · rw [if_pos hb, List.head?_cons] at h
      obtain rfl := Option.some.inj h
      exact ⟨[], List.not_mem_nil, (List.append_nil seen).symm⟩
    · rw [if_neg hb] at h
      obtain ⟨word, hword, rfl⟩ := ih h
      refine ⟨b :: word, ?_, by simp⟩
      simp [hword, Ne.symm hb]

/-- There is none after the last. -/
theorem cuts_last (h : (cuts seen rest).getLast? = some p) : ∃ later, seen ++ rest = p ++ 47 :: later ∧ 47 ∉ later := by
  induction rest generalizing seen with
  | nil => cases h
  | cons b rest ih =>
    have hassoc : seen ++ b :: rest = seen ++ [b] ++ rest := by simp
    rw [cuts] at h
    by_cases hb : b = 47
    · rw [if_pos hb] at h
      cases hcuts : cuts (seen ++ [b]) rest with
      | nil =>
        rw [hcuts] at h
        obtain rfl : seen = p := by simpa using h
        refine ⟨rest, by rw [hb], ?_⟩
        intro hmem
        obtain ⟨word, later, rfl, hword⟩ := List.eq_append_cons_of_mem hmem
        have hcut : ∀ q word : List UInt8, cuts q (word ++ 47 :: later) ≠ [] := by
          intro q word
          induction word generalizing q with
          | nil => simp [cuts]
          | cons c word ih =>
            rw [List.cons_append, cuts]
            split
            · simp
            · exact ih _
        exact hcut _ _ hcuts
      | cons q qs =>
        rw [hcuts] at h
        rw [hassoc]
        apply ih
        rw [hcuts]
        simpa [List.getLast?_cons] using h
    · rw [if_neg hb] at h
      rw [hassoc]
      exact ih h

/-- None has more names than the last. -/
theorem length_le_last {last : List UInt8} (h : p ∈ cuts seen rest) (hlast : (cuts seen rest).getLast? = some last) :
    (namesOf p).length ≤ (namesOf last).length := by
  induction rest generalizing seen with
  | nil => cases h
  | cons b rest ih =>
    rw [cuts] at h hlast
    by_cases hb : b = 47
    · rw [if_pos hb] at h hlast
      cases hcuts : cuts (seen ++ [b]) rest with
      | nil =>
        rw [hcuts] at h hlast
        obtain rfl := List.mem_singleton.mp h
        obtain rfl : p = last := by simpa using hlast
        exact le_refl _
      | cons q qs =>
        have hlater : (cuts (seen ++ [b]) rest).getLast? = some last := by
          rw [hcuts] at hlast ⊢
          simpa [List.getLast?_cons] using hlast
        obtain rfl | h := List.mem_cons.mp h
        · obtain ⟨tail, htail⟩ := (of_mem_cuts (List.mem_of_getLast? hlater)).1
          rw [← htail, hb, List.append_assoc, List.singleton_append, namesOf, namesOf, splitString_append,
            List.length_append]
          exact Nat.le_add_right _ _
        · exact ih h hlater
    · rw [if_neg hb] at h hlast
      exact ih h hlast

/-- From one to the next there is one name more at most. -/
theorem cuts_chain (seen rest : List UInt8) :
    (cuts seen rest).IsChain fun p q => (namesOf q).length ≤ (namesOf p).length + 1 := by
  induction rest generalizing seen with
  | nil => exact List.isChain_nil
  | cons b rest ih =>
    rw [cuts]
    by_cases hb : b = 47
    · rw [if_pos hb, List.isChain_cons]
      refine ⟨?_, ih _⟩
      intro q hq
      obtain ⟨word, hword, rfl⟩ := cuts_head hq
      rw [hb, List.append_assoc, List.singleton_append, namesOf, splitString_append, List.length_append]
      exact Nat.add_le_add_left (length_splitString_free 47 hword) _
    · rw [if_neg hb]
      exact ih _

end Cuts

/-- The prefix is not empty, and its names are the first of the path. -/
structure Leads (path p : List UInt8) : Prop where
  ne : p ≠ []
  front : p <+: path
  names : namesOf p <+: namesOf path

theorem leads_of_mem {path p : List UInt8} (h : p ∈ cutsOf path) : Leads path p := by
  obtain ⟨hseen, later, heq⟩ := of_mem_cuts h
  rw [List.take_append_drop] at heq
  refine ⟨?_, ⟨47 :: later, heq.symm⟩, ?_⟩
  · intro hnil
    subst hnil
    have htake := List.prefix_nil.mp hseen
    have hpath : path = [] := by simpa using htake
    rw [hpath] at heq
    cases heq
  · rw [heq, namesOf, namesOf, splitString_append]
    exact List.prefix_append _ _

/-- The first is two names at most. -/
theorem length_first {path p : List UInt8} (h : (cutsOf path).head? = some p) : (namesOf p).length ≤ 2 := by
  obtain ⟨word, hword, rfl⟩ := cuts_head h
  have hshort : (namesOf (path.take 2)).length ≤ 1 := by
    obtain _ | ⟨x, _ | ⟨y, rest⟩⟩ := path
    · exact Nat.zero_le 1
    · by_cases hx : x = 47 <;> simp [namesOf, splitString, List.splitOn_cons_eq_if_modifyHead, hx]
    · by_cases hx : x = 47 <;> by_cases hy : y = 47 <;>
        simp [namesOf, splitString, List.splitOn_cons_eq_if_modifyHead, hx, hy]
  exact (length_splitString_append_free 47 _ hword).trans (Nat.succ_le_succ hshort)

/-- After the last there is one name at most. -/
theorem length_last {path p : List UInt8} (h : (cutsOf path).getLast? = some p) :
    (namesOf path).length ≤ (namesOf p).length + 1 := by
  obtain ⟨later, heq, hlater⟩ := cuts_last h
  rw [List.take_append_drop] at heq
  rw [heq, namesOf, splitString_append, List.length_append]
  exact Nat.add_le_add_left (length_splitString_free 47 hlater) _

section Leads
variable {path p : List UInt8} (h : Leads path p) (t : Folders)
include h

theorem Leads.start : t.start p = t.start path := by
  obtain ⟨rest, heq⟩ := h.front
  rw [Folders.start, Folders.start, ← heq, List.head?_append_of_ne_nil _ h.ne]

theorem Leads.stop {i : Nat} (hi : i ≤ (namesOf p).length) : t.stop p i = t.stop path i := by
  obtain ⟨rest, heq⟩ := h.names
  rw [Folders.stop, Folders.stop, h.start, ← heq, List.take_append_of_le_length hi]

theorem Leads.placeOf : t.placeOf p = t.stop path (namesOf p).length := by
  rw [← Folders.stop_end, h.stop t (le_refl _)]

theorem Leads.open_iff : t.Open p ↔ ∀ i < (namesOf p).length, t.entry (t.stop path i) = some .dir := by
  apply forall₂_congr
  intro i hi
  rw [h.stop t (Nat.le_of_lt hi)]

end Leads

/-! ### One call -/

/-- What calls change: directories come to places of the path. -/
structure Grown (t t' : Folders) (places : List Place) : Prop where
  cwd : t'.cwd = t.cwd
  kept : ∀ q, t.entry q ≠ none → t'.entry q = t.entry q
  new : ∀ q, t.entry q = none → t'.entry q ≠ none → t'.entry q = some .dir ∧ q ∈ places

theorem Grown.refl (t : Folders) (places : List Place) : Grown t t places :=
  ⟨rfl, fun _ _ => rfl, fun _ hnone hsome => absurd hnone hsome⟩

theorem Grown.trans {t₁ t₂ t₃ : Folders} {a b : List Place} (h : Grown t₁ t₂ a) (h' : Grown t₂ t₃ b) :
    Grown t₁ t₃ (a ++ b) where
  cwd := h'.cwd.trans h.cwd
  kept := by
    intro q hq
    rw [h'.kept q (by rwa [h.kept q hq]), h.kept q hq]
  new := by
    intro q hnone hsome
    by_cases hmid : t₂.entry q = none
    · obtain ⟨hdir, hmem⟩ := h'.new q hmid hsome
      exact ⟨hdir, List.mem_append_right a hmem⟩
    · obtain ⟨hdir, hmem⟩ := h.new q hnone hmid
      exact ⟨by rw [h'.kept q hmid, hdir], List.mem_append_left b hmem⟩

theorem Grown.dir {t t' : Folders} {places : List Place} (h : Grown t t' places) {q : Place}
    (hq : t.entry q = some .dir) : t'.entry q = some .dir := by rw [h.kept q (by rw [hq]; simp), hq]

theorem Grown.stop {t t' : Folders} {places : List Place} (h : Grown t t' places) (path : List UInt8) (i : Nat) :
    t'.stop path i = t.stop path i := by rw [Folders.stop, Folders.stop, Folders.start, Folders.start, h.cwd]

theorem grown_of_reached {t t' : Folders} {p : List UInt8} (h : Folders.Reached t t' p) : Grown t t' [t.placeOf p] where
  cwd := h.cwd
  kept := by
    intro q hq
    rw [h.entry, if_neg]
    intro hand
    exact hq hand.2
  new := by
    intro q hnone hsome
    rw [h.entry] at hsome ⊢
    by_cases hq : q = t.placeOf p
    · rw [if_pos ⟨hq, hnone⟩]
      exact ⟨rfl, List.mem_singleton.mpr hq⟩
    · rw [if_neg fun hand => hq hand.1] at hsome
      exact absurd hnone hsome

section Call
variable {fault : Nat → Option Nat} {w : World} {p : List UInt8}

theorem mkdir_path : (w.mkdir fault p).1.path = p := by
  unfold World.mkdir
  split <;> rfl

theorem mkdir_calls : (w.mkdir fault p).2.calls = w.calls ++ [(w.mkdir fault p).1] := by
  unfold World.mkdir
  split <;> rfl

/-- A call that does not fail has walked to the last name, and there is something. -/
theorem mkdir_passed (hok : ¬(w.mkdir fault p).1.Failed) :
    p ≠ [] ∧ w.folders.Open p ∧ Folders.Reached w.folders (w.mkdir fault p).2.folders p := by
  unfold World.mkdir at hok ⊢
  cases hfault : fault w.calls.length with
  | some code =>
    rw [hfault] at hok
    exact absurd ⟨by simp, by simp⟩ hok
  | none =>
    rw [hfault] at hok
    simp only at hok ⊢
    by_cases hgood : p ≠ [] ∧ w.folders.Open p
    · exact ⟨hgood.1, hgood.2, (Folders.mkdir_reached hgood.1 hgood.2).2⟩
    · have hbad : p = [] ∨ ¬w.folders.Open p := or_iff_not_imp_left.mpr fun hnil hopen => hgood ⟨hnil, hopen⟩
      obtain ⟨e, hrun, hne⟩ := Folders.mkdir_failed hbad
      rw [hrun] at hok
      exact absurd ⟨by simp, by simpa using hne⟩ hok

/-- Where nothing else is wrong, a call that can be walked passes. -/
theorem mkdir_faultless (hp : p ≠ []) (hopen : w.folders.Open p) (hfault : fault w.calls.length = none) :
    ¬(w.mkdir fault p).1.Failed := by
  obtain ⟨hresult, -⟩ := Folders.mkdir_reached hp hopen
  unfold World.mkdir
  rw [hfault]
  intro ⟨hnone, hexist⟩
  exact hresult.elim hnone hexist

end Call

/-! ### The calls together -/

section Run
variable {fault : Nat → Option Nat}

theorem makeAll_cons (p : List UInt8) (ps : List (List UInt8)) (w : World) : makeAll fault (p :: ps) w =
    if (w.mkdir fault p).1.Failed then (false, (w.mkdir fault p).2) else makeAll fault ps (w.mkdir fault p).2 := rfl

/-- Where the calls pass, all are walked to, and what is new are directories there. -/
theorem makeAll_true {ps : List (List UInt8)} {w w' : World} (h : makeAll fault ps w = (true, w')) :
    Grown w.folders w'.folders (ps.map w.folders.placeOf) ∧
      ∀ p ∈ ps, w'.folders.Open p ∧ w'.folders.entry (w'.folders.placeOf p) ≠ none := by
  induction ps generalizing w with
  | nil =>
    obtain rfl := (Prod.mk.inj h).2
    exact ⟨Grown.refl _ _, fun p hp => absurd hp List.not_mem_nil⟩
  | cons p ps ih =>
    rw [makeAll_cons] at h
    by_cases hfailed : (w.mkdir fault p).1.Failed
    · rw [if_pos hfailed] at h
      cases (Prod.mk.inj h).1
    · rw [if_neg hfailed] at h
      obtain ⟨-, hopen, hreached⟩ := mkdir_passed hfailed
      obtain ⟨hgrown, hall⟩ := ih h
      have hfirst := grown_of_reached hreached
      have hplace (q : List UInt8) : (w.mkdir fault p).2.folders.placeOf q = w.folders.placeOf q := by
        rw [Folders.placeOf, Folders.placeOf, Folders.start, Folders.start, hreached.cwd]
      have hboth : Grown w.folders w'.folders ([w.folders.placeOf p] ++ ps.map w.folders.placeOf) := by
        rw [funext hplace] at hgrown
        exact hfirst.trans hgrown
      refine ⟨hboth, ?_⟩
      intro q hq
      obtain rfl | hq := List.mem_cons.mp hq
      · constructor
        · intro i hi
          rw [hboth.stop]
          exact hboth.dir (hopen i hi)
        · have hthere : (w.mkdir fault q).2.folders.entry (w.folders.placeOf q) ≠ none := by
            rw [hreached.entry]
            split
            · simp
            · rename_i hno
              exact fun hnone => hno ⟨rfl, hnone⟩
          have hsame : w'.folders.placeOf q = w.folders.placeOf q := by
            rw [Folders.placeOf, Folders.placeOf, Folders.start, Folders.start, hboth.cwd]
          rw [hsame, hgrown.kept _ hthere]
          exact hthere
      · exact hall q hq

theorem makeAll_head {p : List UInt8} {ps : List (List UInt8)} {w w' : World}
    (h : makeAll fault (p :: ps) w = (true, w')) : w.folders.Open p := by
  rw [makeAll_cons] at h
  by_cases hfailed : (w.mkdir fault p).1.Failed
  · rw [if_pos hfailed] at h
    cases (Prod.mk.inj h).1
  · exact (mkdir_passed hfailed).2.1

/-- Where they do not, one has failed. -/
theorem makeAll_false {ps : List (List UInt8)} {w w' : World} (h : makeAll fault ps w = (false, w')) :
    ∃ c ∈ w'.calls, c.path ∈ ps ∧ c.Failed := by
  induction ps generalizing w with
  | nil => cases (Prod.mk.inj h).1
  | cons p ps ih =>
    rw [makeAll_cons] at h
    by_cases hfailed : (w.mkdir fault p).1.Failed
    · rw [if_pos hfailed] at h
      obtain rfl := (Prod.mk.inj h).2
      refine ⟨(w.mkdir fault p).1, ?_, ?_, hfailed⟩
      · rw [mkdir_calls]
        exact List.mem_append_right _ (List.mem_singleton_self _)
      · rw [mkdir_path]
        exact List.mem_cons_self
    · rw [if_neg hfailed] at h
      obtain ⟨c, hc, hpath, hfail⟩ := ih h
      exact ⟨c, hc, List.mem_cons_of_mem p hpath, hfail⟩

/-- Without other faults the calls pass, once the first can be walked and no file is in the way. -/
theorem makeAll_faultless {path : List UInt8} {ps : List (List UInt8)} {w : World} {m : Nat}
    (hleads : ∀ p ∈ ps, Leads path p)
    (hchain : ps.IsChain fun p q => (namesOf q).length ≤ (namesOf p).length + 1)
    (hm : ∀ p ∈ ps, (namesOf p).length ≤ m) (hfirst : ∀ p, ps.head? = some p → w.folders.Open p)
    (hfile : ∀ i < m, w.folders.entry (w.folders.stop path i) ≠ some .file) :
    (makeAll (fun _ => none) ps w).1 = true := by
  induction ps generalizing w with
  | nil => rfl
  | cons p ps ih =>
    have hp := hleads p List.mem_cons_self
    have hopen := hfirst p rfl
    have hpassed : ¬(w.mkdir (fun _ => none) p).1.Failed := mkdir_faultless hp.ne hopen rfl
    obtain ⟨-, -, hreached⟩ := mkdir_passed hpassed
    have hgrown := grown_of_reached hreached
    rw [makeAll_cons, if_neg hpassed]
    obtain ⟨hnext, hchain⟩ := List.isChain_cons.mp hchain
    apply ih (fun q hq => hleads q (List.mem_cons_of_mem p hq)) hchain (fun q hq => hm q (List.mem_cons_of_mem p hq))
    · intro q hq
      have hmem : q ∈ p :: ps := List.mem_cons_of_mem p (List.mem_of_mem_head? hq)
      have hlen := hnext q hq
      have hle := hm q hmem
      rw [(hleads q hmem).open_iff]
      intro i hi
      rw [hgrown.stop]
      by_cases hlt : i < (namesOf p).length
      · apply hgrown.dir
        rw [← hp.stop w.folders (Nat.le_of_lt hlt)]
        exact hopen i hlt
      · -- the place that was just made
        obtain rfl : i = (namesOf p).length := by omega
        have hnofile := hfile _ (Nat.lt_of_lt_of_le hi hle)
        rw [hreached.entry, hp.placeOf]
        cases hentry : w.folders.entry (w.folders.stop path (namesOf p).length) with
        | none => simp
        | some e =>
          cases e with
          | dir => simp
          | file => exact absurd hentry hnofile
    · intro i hi
      rw [hgrown.stop]
      intro hbad
      by_cases hnone : w.folders.entry (w.folders.stop path i) = none
      · obtain ⟨hdir, -⟩ := hgrown.new _ hnone (by rw [hbad]; simp)
        rw [hdir] at hbad
        cases hbad
      · rw [hgrown.kept _ hnone] at hbad
        exact hfile i hi hbad

end Run

/-! ### What is returned, and what is there -/

/-- Every prefix directory of a path is there, the last component included. -/
def AllThere (t : Folders) (path : List UInt8) : Prop :=
  ∀ i ≤ (namesOf path).length, ∃ place, t.walk (t.start path) ((namesOf path).take i) = .ok place ∧
    t.entry place = some .dir

theorem allThere_iff {t : Folders} {path : List UInt8} :
    AllThere t path ↔ ∀ i ≤ (namesOf path).length, t.entry (t.stop path i) = some .dir := by
  constructor
  · intro h i hi
    obtain ⟨place, hwalk, hdir⟩ := h i hi
    rw [Folders.stop, ← (Folders.walk_ok_iff.mp hwalk).1]
    exact hdir
  · intro h i hi
    refine ⟨_, Folders.walk_ok_iff.mpr ⟨rfl, ?_⟩, h i hi⟩
    intro j hj
    rw [List.length_take] at hj
    rw [List.take_take, Nat.min_eq_left (by omega)]
    exact h j (by omega)

/-- What is returned is so. -/
structure Sound (path : List UInt8) (run : Bool × World) : Prop where
  made : run.1 = true → AllThere run.2.folders path
  /-- a directory of the path was tried, and failed -/
  failed : run.1 = false → ∃ c ∈ run.2.calls, c.path ≠ [] ∧ c.path <+: path ∧ c.Failed

/-- A directory that is made on the way cannot be: a file is there, or a first name of one
byte is missing, which is skipped. -/
def Blocked (t : Folders) (path first last : List UInt8) : Prop :=
  (∃ i < (namesOf last).length, t.entry (t.stop path i) = some .file) ∨
    ((namesOf first).length = 2 ∧ t.entry (t.stop path 1) = none)

/-- The last directory made is no file, and the path names this or another on the way to it, or
what was there. -/
def Complete (t : Folders) (path last : List UInt8) : Prop :=
  t.entry (t.placeOf last) ≠ some .file ∧
    (t.entry (t.placeOf path) = some .dir ∨ ∃ i ≤ (namesOf last).length, t.placeOf path = t.stop path i)

/-- The paths and directories on which it does what it returns. -/
def Works (path : List UInt8) (t : Folders) : Prop :=
  ∃ first last, (cutsOf path).head? = some first ∧ (cutsOf path).getLast? = some last ∧
    (Blocked t path first last ∨ Complete t path last)

section Sound
variable {path first last : List UInt8} {t : Folders} (hfirst : (cutsOf path).head? = some first)
  (hlast : (cutsOf path).getLast? = some last)
include hlast

theorem leads_calls : ∀ p ∈ cutsOf path ++ [last], Leads path p := by
  intro p hp
  obtain hp | hp := List.mem_append.mp hp
  · exact leads_of_mem hp
  · rw [List.mem_singleton.mp hp]
    exact leads_of_mem (List.mem_of_getLast? hlast)

theorem length_calls : ∀ p ∈ cutsOf path ++ [last], (namesOf p).length ≤ (namesOf last).length := by
  intro p hp
  obtain hp | hp := List.mem_append.mp hp
  · exact length_le_last hp hlast
  · rw [List.mem_singleton.mp hp]

theorem run_calls (fault : Nat → Option Nat) :
    recursiveMkdir fault path t = makeAll fault (cutsOf path ++ [last]) ⟨t, []⟩ := by
  rw [recursiveMkdir_makeAll, hlast]
  rfl

/-- What is there when it returns true. -/
theorem allThere_of_complete (hcomplete : Complete t path last) {fault : Nat → Option Nat} {w : World}
    (hrun : recursiveMkdir fault path t = (true, w)) : AllThere w.folders path := by
  rw [run_calls hlast] at hrun
  obtain ⟨hgrown, hall⟩ := makeAll_true hrun
  have hleads := leads_of_mem (List.mem_of_getLast? hlast)
  obtain ⟨hopen, hthere⟩ := hall last (List.mem_append_right _ (List.mem_singleton_self last))
  obtain ⟨hnofile, hend⟩ := hcomplete
  have hmade : ∀ i ≤ (namesOf last).length, w.folders.entry (t.stop path i) = some .dir := by
    intro i hi
    by_cases hlt : i < (namesOf last).length
    · rw [← hgrown.stop, ← hleads.stop w.folders (Nat.le_of_lt hlt)]
      exact hopen i hlt
    · obtain rfl : i = (namesOf last).length := by omega
      rw [hleads.placeOf] at hnofile
      rw [hleads.placeOf, hgrown.stop] at hthere
      cases hentry : t.entry (t.stop path (namesOf last).length) with
      | none => exact (hgrown.new _ hentry hthere).1
      | some e =>
        cases e with
        | dir => exact hgrown.dir hentry
        | file => exact absurd hentry hnofile
  rw [allThere_iff]
  intro i hi
  have hlen := length_last hlast
  rw [hgrown.stop]
  by_cases hle : i ≤ (namesOf last).length
  · exact hmade i hle
  · obtain rfl : i = (namesOf path).length := by omega
    rw [Folders.stop_end]
    obtain hdir | ⟨j, hj, hsame⟩ := hend
    · exact hgrown.dir hdir
    · rw [hsame]
      exact hmade j hj

/-- What was there before it could return true. -/
theorem complete_of_allThere {fault : Nat → Option Nat} {w : World} (hrun : recursiveMkdir fault path t = (true, w))
    (hthere : AllThere w.folders path) : Complete t path last := by
  rw [run_calls hlast] at hrun
  obtain ⟨hgrown, -⟩ := makeAll_true hrun
  have hleads := leads_of_mem (List.mem_of_getLast? hlast)
  have hdir := allThere_iff.mp hthere
  constructor
  · intro hfile
    have hlastdir := hdir _ hleads.names.length_le
    rw [hgrown.stop, ← hleads.placeOf, hgrown.kept _ (by rw [hfile]; simp), hfile] at hlastdir
    cases hlastdir
  · have hpath := hdir _ (le_refl _)
    rw [hgrown.stop, Folders.stop_end] at hpath
    by_cases hnone : t.entry (t.placeOf path) = none
    · obtain ⟨-, hmem⟩ := hgrown.new _ hnone (by rw [hpath]; simp)
      obtain ⟨p, hp, hplace⟩ := List.mem_map.mp hmem
      right
      refine ⟨(namesOf p).length, length_calls hlast p hp, ?_⟩
      rw [← (leads_calls hlast p hp).placeOf]
      exact hplace.symm
    · left
      rw [← hgrown.kept _ hnone, hpath]

include hfirst

/-- Where nothing is in the way and nothing else goes wrong, it returns true. -/
theorem passes (hfree : ¬Blocked t path first last) : (recursiveMkdir (fun _ => none) path t).1 = true := by
  unfold Blocked at hfree
  push Not at hfree
  obtain ⟨hfile, hskipped⟩ := hfree
  obtain ⟨rest, hcuts⟩ : ∃ rest, cutsOf path = first :: rest := by
    obtain ⟨p, rest, heq⟩ := List.exists_cons_of_ne_nil (l := cutsOf path) (by intro h; rw [h] at hfirst; cases hfirst)
    rw [heq] at hfirst
    obtain rfl := Option.some.inj hfirst
    exact ⟨rest, heq⟩
  rw [run_calls hlast]
  apply makeAll_faultless (leads_calls hlast) _ (length_calls hlast) _ hfile
  · apply List.isChain_append.mpr
    refine ⟨cuts_chain _ _, List.isChain_singleton last, ?_⟩
    intro p hp q hq
    rw [hlast] at hp
    obtain rfl : last = p := by simpa using hp
    obtain rfl : last = q := by simpa using hq
    exact Nat.le_succ _
  · intro p hp
    rw [hcuts] at hp
    obtain rfl : first = p := by simpa using hp
    have hmem : first ∈ cutsOf path := by
      rw [hcuts]
      exact List.mem_cons_self
    have hshort := length_first hfirst
    have hle := length_le_last hmem hlast
    rw [(leads_of_mem hmem).open_iff]
    intro i hi
    obtain rfl | rfl : i = 0 ∨ i = 1 := by omega
    · exact Folders.start_dir path
    · have hthere := hskipped (by omega)
      have hno := hfile 1 (by omega)
      cases hentry : t.entry (t.stop path 1) with
      | none => exact absurd hentry hthere
      | some e =>
        cases e with
        | dir => rfl
        | file => exact absurd hentry hno

/-- Where something is, it does not. -/
theorem blocked_false (hblocked : Blocked t path first last) {fault : Nat → Option Nat} {w : World} :
    recursiveMkdir fault path t ≠ (true, w) := by
  intro hrun
  rw [run_calls hlast] at hrun
  obtain ⟨hgrown, hall⟩ := makeAll_true hrun
  obtain ⟨i, hi, hfile⟩ | ⟨htwo, hnone⟩ := hblocked
  · have hopen := (hall last (List.mem_append_right _ (List.mem_singleton_self last))).1
    have hdir := hopen i hi
    rw [(leads_of_mem (List.mem_of_getLast? hlast)).stop _ (Nat.le_of_lt hi), hgrown.stop,
      hgrown.kept _ (by rw [hfile]; simp), hfile] at hdir
    cases hdir
  · obtain ⟨p, rest, heq⟩ := List.exists_cons_of_ne_nil (l := cutsOf path) (by intro h; rw [h] at hfirst; cases hfirst)
    have hmem := List.mem_of_mem_head? hfirst
    rw [heq] at hfirst hrun
    obtain rfl : p = first := Option.some.inj hfirst
    have hopen := makeAll_head hrun
    have hdir := hopen 1 (by omega)
    rw [(leads_of_mem hmem).stop _ (by omega), hnone] at hdir
    cases hdir

end Sound

/-- What `Recursive_Mkdir` returns is so, whatever else goes wrong, exactly on these paths and
directories. -/
theorem recursiveMkdir_sound_iff (path : List UInt8) (t : Folders) :
    (∀ fault, Sound path (recursiveMkdir fault path t)) ↔ Works path t := by
  cases hcuts : cutsOf path with
  | nil =>
    -- the only call is that of the empty path
    have hrun : recursiveMkdir (fun _ => none) path t = (false, ⟨t, [⟨[], some .noent⟩]⟩) := by
      rw [recursiveMkdir_makeAll, hcuts]
      rfl
    constructor
    · intro h
      have hfailed := (h fun _ => none).failed
      rw [hrun] at hfailed
      obtain ⟨c, hc, hne, -⟩ := hfailed rfl
      rw [List.mem_singleton.mp hc] at hne
      exact absurd rfl hne
    · intro ⟨first, last, hfirst, _⟩
      rw [hcuts] at hfirst
      cases hfirst
  | cons first rest =>
    have hfirst : (cutsOf path).head? = some first := by rw [hcuts]; rfl
    obtain ⟨last, hlast⟩ : ∃ last, (cutsOf path).getLast? = some last := by
      rw [hcuts, List.getLast?_cons]
      exact ⟨_, rfl⟩
    constructor
    · intro h
      refine ⟨first, last, hfirst, hlast, ?_⟩
      by_cases hblocked : Blocked t path first last
      · exact Or.inl hblocked
      · have htrue := passes hfirst hlast hblocked
        right
        exact complete_of_allThere hlast (Prod.ext htrue rfl) ((h fun _ => none).made htrue)
    · intro ⟨first', last', hfirst', hlast', hworks⟩ fault
      obtain rfl := Option.some.inj (hfirst.symm.trans hfirst')
      obtain rfl := Option.some.inj (hlast.symm.trans hlast')
      cases hrun : recursiveMkdir fault path t with
      | mk ok w =>
        cases ok with
        | true =>
          obtain hblocked | hcomplete := hworks
          · exact absurd hrun (blocked_false hfirst hlast hblocked)
          · exact ⟨fun _ => allThere_of_complete hlast hcomplete hrun, fun hbad => Bool.noConfusion hbad⟩
        | false =>
          refine ⟨fun hbad => Bool.noConfusion hbad, fun _ => ?_⟩
          rw [run_calls hlast] at hrun
          obtain ⟨c, hc, hpath, hfailed⟩ := makeAll_false hrun
          have hleads := leads_calls hlast c.path hpath
          exact ⟨c, hc, hleads.ne, hleads.front, hfailed⟩

/-- Nothing but the root. -/
def bareFolders : Folders where
  entry q := if q = [] then some .dir else none
  cwd := []
  root := rfl
  parent := by
    intro place name h
    simp at h
  here := rfl

/-- Of `/a/b` only `/a` is made, and true is returned. -/
theorem not_sound_open : ¬∀ fault, Sound [47, 97, 47, 98] (recursiveMkdir fault [47, 97, 47, 98] bareFolders) := by
  intro h
  have hreturned : (recursiveMkdir (fun _ => none) [47, 97, 47, 98] bareFolders).1 = true := by decide
  have hthere := allThere_iff.mp ((h fun _ => none).made hreturned) 2 (by decide)
  exact absurd hthere (by decide)

example : (recursiveMkdir (fun _ => none) [47, 97, 47, 98, 47] bareFolders).2.folders.entry [[97], [98]] = some .dir := by
  decide

end Twrp.Functions
