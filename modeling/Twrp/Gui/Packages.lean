import Twrp.Base.CString

/-! The packages of the page manager (`PageManager::LoadPackage`, `SelectPackage`, `ReloadPackage`).

A package is a theme: a page set that is registered under a name. One set is the current one, and one the
base, which overlays are taken from. `LoadPackage` takes the set that it tried to load for the base, if there
is none, also when it did not load or when its name was taken; `ReloadPackage` clears the base before it knows
whether the package loads. Which sequences of calls leave nothing half done is `Met`, exactly
(`allOrNothing_iff`). -/
namespace Twrp.Gui.Packages
open Base

/-! ### Themes -/

/-- What is looked at of a theme's document: the names of its pages, where it has a list of them. -/
structure Root where
  pages : Option (List (Option CString))

/-- A parsed document, and its root node if it is one of those looked for. -/
structure Document where
  root : Option Root

/-- `PageSet::Load`: 0 if there is a page that has a name. Nothing comes of it where the root is missing, since
it is followed all the same. -/
def Document.load (doc : Document) : Option Int :=
  doc.root.map fun root =>
    match root.pages with
    | none => -1
    | some names => if names.any fun n => n.getD "" ≠ "" then 0 else -1

/-- An entry of an archive: whether there is memory for it, and what is in it if it can be extracted. -/
structure Entry where
  malloc : Bool
  extracted : Option Document

inductive PackageFile where
  | archive (portrait landscape : Option Entry)
  /-- not an archive: `stat`, `malloc` and `open`, and what the file holds -/
  | plain (stat malloc opened : Bool) (doc : Document)

/-- The document of a package, nothing where `LoadPackage` leaves early; and the rotation, which a theme
without a landscape layout sets back. -/
def PackageFile.fetch (rotation : Int) : PackageFile → Option Document × Int
  | .plain stat malloc opened doc => (if stat && malloc && opened then some doc else none, rotation)
  | .archive portrait landscape =>
    let (uiXml, rotation) :=
      if rotation % 180 = 0 then (portrait, rotation)
      else
        match landscape with
        | some entry => (some entry, rotation)
        | none => (portrait, 0)
    (uiXml.bind fun entry => if entry.malloc then entry.extracted else none, rotation)

/-! ### The manager -/

/-- Page sets are told apart by when they were made. -/
abbrev SetId := Nat

structure Manager where
  mPageSets : CString → Option SetId
  mCurrentSet : Option SetId
  mBaseSet : Option SetId
  /-- the rotation of the screen -/
  rotation : Int
  /-- the documents of the page sets made so far -/
  made : List Document

namespace Manager

def initial (rotation : Int) : Manager := ⟨fun _ => none, none, none, rotation, []⟩

/-- `mPageSets.insert`, which leaves an entry that is there as it is. -/
def insert (m : Manager) (name : CString) (set : SetId) : Manager :=
  {m with mPageSets := fun n => if n = name then some ((m.mPageSets n).getD set) else m.mPageSets n}

def erase (m : Manager) (name : CString) : Manager :=
  {m with mPageSets := fun n => if n = name then none else m.mPageSets n}

def loadPackage (m : Manager) (name : CString) (package : PackageFile) : Option (Manager × Int) :=
  let (doc, rotation) := package.fetch m.rotation
  let m := {m with rotation := rotation}
  match doc with
  | none => some (m, -1)
  | some doc =>
    let pageSet := m.mCurrentSet
    let set := m.made.length
    let m := {m with mCurrentSet := some set, made := m.made ++ [doc]}
    match doc.load with
    | none => none
    | some ret =>
      let m := if ret = 0 then m.insert name set else m
      -- the first package is the base
      let m := if m.mBaseSet = none then {m with mBaseSet := m.mCurrentSet} else m
      some ({m with mCurrentSet := pageSet}, ret)

def selectPackage (m : Manager) (name : CString) : Manager :=
  match m.mPageSets name with
  | some tmp => {m with mCurrentSet := some tmp}
  | none => m

def reloadPackage (m : Manager) (name : CString) (package : PackageFile) : Option (Manager × Int) :=
  match m.mPageSets name with
  | none => some (m, -1)
  | some set =>
    match {m.erase name with mBaseSet := none}.loadPackage name package with
    | none => none
    | some (m, ret) =>
      if ret ≠ 0 then some (m.insert name set, -1)
      else
        let m := if m.mCurrentSet = some set then m.selectPackage name else m
        let m := if m.mBaseSet = some set then {m with mBaseSet := m.mCurrentSet} else m
        some (m, 0)

end Manager

/-! ### Calls -/

inductive Call where
  | loadPackage (name : CString) (package : PackageFile)
  | selectPackage (name : CString)
  | reloadPackage (name : CString) (package : PackageFile)

namespace Call

def run (m : Manager) : Call → Option (Manager × Int)
  | .loadPackage name package => m.loadPackage name package
  | .selectPackage name => some (m.selectPackage name, 0)
  | .reloadPackage name package => m.reloadPackage name package

end Call

/-- A page set that loaded, and is registered. -/
structure Manager.Holds (m : Manager) (set : SetId) : Prop where
  loaded : (m.made[set]?).bind Document.load = some 0
  registered : ∃ name, m.mPageSets name = some set

structure Manager.Good (m : Manager) : Prop where
  current : ∀ set, m.mCurrentSet = some set → m.Holds set
  base : ∀ set, m.mBaseSet = some set → m.Holds set

/-- A reload that returns an error leaves the manager's sets as they were. -/
structure Manager.Same (m m' : Manager) : Prop where
  mPageSets : m'.mPageSets = m.mPageSets
  mCurrentSet : m'.mCurrentSet = m.mCurrentSet
  mBaseSet : m'.mBaseSet = m.mBaseSet

def Call.isReload : Call → Bool
  | .reloadPackage _ _ => true
  | _ => false

/-- Every state of the run is good, every call returns, and a reload that fails has changed nothing. -/
def AllOrNothing : List Call → Manager → Prop
  | [], m => m.Good
  | c :: calls, m => m.Good ∧ ∃ m' ret, c.run m = some (m', ret) ∧
      (c.isReload = true ∧ ret ≠ 0 → m.Same m') ∧ AllOrNothing calls m'

/-- A theme that loads. -/
def Document.Loads (doc : Document) : Prop := doc.load = some 0

/-- What a call needs of the state before it. -/
def Call.Met (m : Manager) : Call → Prop
  | .loadPackage name package =>
    ∀ doc, (package.fetch m.rotation).1 = some doc →
      doc.root ≠ none ∧ (m.mBaseSet ≠ none ∨ doc.Loads ∧ m.mPageSets name = none)
  | .selectPackage _ => True
  | .reloadPackage name package =>
    m.mPageSets name ≠ none →
      match (package.fetch m.rotation).1 with
      | none => m.mBaseSet = none
      | some doc => doc.Loads

/-- Every call of the run meets it. -/
def Met : List Call → Manager → Prop
  | [], _ => True
  | c :: calls, m => c.Met m ∧ ∀ m' ret, c.run m = some (m', ret) → Met calls m'

/-! ### One call -/

namespace Manager

/-- The registered sets all loaded. -/
def Registered (m : Manager) : Prop :=
  ∀ name set, m.mPageSets name = some set → (m.made[set]?).bind Document.load = some 0

/-- The manager behind a package whose document was read and came to `ret`. -/
def afterLoad (m : Manager) (name : CString) (doc : Document) (rotation ret : Int) : Manager where
  mPageSets := if ret = 0 then (m.insert name m.made.length).mPageSets else m.mPageSets
  mCurrentSet := m.mCurrentSet
  mBaseSet := m.mBaseSet <|> some m.made.length
  rotation := rotation
  made := m.made ++ [doc]

section Load
variable {m : Manager} {name : CString} {package : PackageFile} {doc : Document} {ret : Int}

theorem loadPackage_early (h : (package.fetch m.rotation).1 = none) :
    m.loadPackage name package = some ({m with rotation := (package.fetch m.rotation).2}, -1) := by
  rw [loadPackage]
  dsimp only
  rw [h]

theorem loadPackage_crash (h : (package.fetch m.rotation).1 = some doc) (hload : doc.load = none) :
    m.loadPackage name package = none := by
  rw [loadPackage]
  dsimp only
  rw [h]
  dsimp only
  rw [hload]

theorem loadPackage_loads (h : (package.fetch m.rotation).1 = some doc) (hload : doc.load = some ret) :
    m.loadPackage name package = some (m.afterLoad name doc (package.fetch m.rotation).2 ret, ret) := by
  rw [loadPackage]
  dsimp only
  rw [h]
  dsimp only
  rw [hload]
  dsimp only
  rw [afterLoad]
  cases hbase : m.mBaseSet with
  | none => split_ifs <;> simp_all [insert]
  | some base => split_ifs <;> simp_all [insert]

theorem insert_kept {set s : SetId} {n : CString} (h : m.mPageSets n = some s) : (m.insert name set).mPageSets n = some s := by
  show (if n = name then some ((m.mPageSets n).getD set) else m.mPageSets n) = some s
  rw [h, Option.getD_some, ite_self]

theorem Holds.afterLoad {set : SetId} (h : m.Holds set) (name : CString) (doc : Document) (rotation ret : Int) :
    (m.afterLoad name doc rotation ret).Holds set where
  loaded := by
    obtain ⟨d, hd, _⟩ := Option.bind_eq_some_iff.mp h.loaded
    have hlt : set < m.made.length := (List.getElem?_eq_some_iff.mp hd).1
    rw [Manager.afterLoad, List.getElem?_append_left hlt]
    exact h.loaded
  registered := by
    obtain ⟨n, hn⟩ := h.registered
    refine ⟨n, ?_⟩
    show (if ret = 0 then (m.insert name m.made.length).mPageSets else m.mPageSets) n = some set
    split_ifs
    · exact insert_kept hn
    · exact hn

end Load

/-! ### What a call keeps -/

theorem afterLoad_registered {m : Manager} (h : m.Registered) {name : CString} {doc : Document} {rotation ret : Int}
    (hload : doc.load = some ret) : (m.afterLoad name doc rotation ret).Registered := by
  have hold {n : CString} {set : SetId} (hn : m.mPageSets n = some set) :
      (((m.made ++ [doc])[set]?).bind Document.load) = some 0 :=
    (Holds.afterLoad ⟨h n set hn, n, hn⟩ name doc rotation ret).loaded
  intro n set hset
  change (if ret = 0 then (m.insert name m.made.length).mPageSets else m.mPageSets) n = some set at hset
  show (((m.made ++ [doc])[set]?).bind Document.load) = some 0
  split_ifs at hset with hret
  · change (if n = name then some ((m.mPageSets n).getD m.made.length) else m.mPageSets n) = some set at hset
    split_ifs at hset with hn
    · cases hentry : m.mPageSets n with
      | some s =>
        rw [hentry, Option.getD_some] at hset
        exact hold (hentry.trans hset)
      | none =>
        rw [hentry, Option.getD_none] at hset
        obtain rfl := Option.some.inj hset
        rw [List.getElem?_concat_length, Option.bind_some, hload, hret]
    · exact hold hset
  · exact hold hset

/-- What was registered has been made before. -/
theorem Registered.lt {m : Manager} (h : m.Registered) {name : CString} {set : SetId} (hset : m.mPageSets name = some set) :
    set < m.made.length := by
  obtain ⟨d, hd, _⟩ := Option.bind_eq_some_iff.mp (h name set hset)
  exact (List.getElem?_eq_some_iff.mp hd).1

section Call
variable {m m' : Manager} {name : CString} {package : PackageFile} {ret : Int}

theorem registered_loadPackage (h : m.Registered) (hrun : m.loadPackage name package = some (m', ret)) : m'.Registered := by
  cases hdoc : (package.fetch m.rotation).1 with
  | none =>
    rw [loadPackage_early hdoc] at hrun
    obtain ⟨rfl, rfl⟩ := Prod.mk.inj (Option.some.inj hrun)
    exact h
  | some doc =>
    cases hload : doc.load with
    | none =>
      rw [loadPackage_crash hdoc hload] at hrun
      exact nomatch hrun
    | some r =>
      rw [loadPackage_loads hdoc hload] at hrun
      obtain ⟨rfl, rfl⟩ := Prod.mk.inj (Option.some.inj hrun)
      exact afterLoad_registered h hload

/-- The set just loaded can be the base exactly when it loaded and its name was free. -/
theorem afterLoad_holds (h : m.Registered) {doc : Document} {rotation : Int} (hload : doc.load = some ret) :
    (m.afterLoad name doc rotation ret).Holds m.made.length ↔ doc.Loads ∧ m.mPageSets name = none := by
  have hmade : ((m.made ++ [doc])[m.made.length]?).bind Document.load = some ret := by
    rw [List.getElem?_concat_length, Option.bind_some, hload]
  constructor
  · intro ⟨hloaded, n, hn⟩
    obtain rfl : ret = 0 := Option.some.inj (hmade.symm.trans hloaded)
    refine ⟨hload, ?_⟩
    change (if n = name then some ((m.mPageSets n).getD m.made.length) else m.mPageSets n) = some m.made.length at hn
    split_ifs at hn with hname
    · subst hname
      cases hentry : m.mPageSets n with
      | none => rfl
      | some s =>
        rw [hentry, Option.getD_some] at hn
        exact absurd (h.lt (hentry.trans hn)) (Nat.lt_irrefl _)
    · exact absurd (h.lt hn) (Nat.lt_irrefl _)
  · intro ⟨hloads, hfree⟩
    obtain rfl : ret = 0 := Option.some.inj (hload.symm.trans hloads)
    refine ⟨hmade, name, ?_⟩
    show (if name = name then some ((m.mPageSets name).getD m.made.length) else m.mPageSets name) = some m.made.length
    rw [if_pos rfl, hfree, Option.getD_none]

theorem afterLoad_good (hgood : m.Good) {doc : Document} {rotation : Int} :
    (m.afterLoad name doc rotation ret).Good ↔
      m.mBaseSet ≠ none ∨ (m.afterLoad name doc rotation ret).Holds m.made.length := by
  have hcurrent (set : SetId) (hset : m.mCurrentSet = some set) := (hgood.current set hset).afterLoad name doc rotation ret
  cases hbase : m.mBaseSet with
  | some b =>
    refine iff_of_true ⟨hcurrent, fun set hset => ?_⟩ (.inl nofun)
    have hb : (m.afterLoad name doc rotation ret).mBaseSet = some b := by
      rw [afterLoad, hbase]
      rfl
    obtain rfl := Option.some.inj (hb.symm.trans hset)
    exact (hgood.base b hbase).afterLoad name doc rotation ret
  | none =>
    have hb : (m.afterLoad name doc rotation ret).mBaseSet = some m.made.length := by
      rw [afterLoad, hbase]
      rfl
    refine ⟨fun h => .inr (h.base _ hb), fun h => ⟨hcurrent, fun set hset => ?_⟩⟩
    obtain rfl := Option.some.inj (hb.symm.trans hset)
    exact h.resolve_left (· rfl)

theorem load_none_iff {doc : Document} : doc.load = none ↔ doc.root = none := by
  rw [Document.load, Option.map_eq_none_iff]

theorem loadPackage_iff (hgood : m.Good) (hreg : m.Registered) :
    (Call.loadPackage name package).Met m ↔ ∃ m' ret, m.loadPackage name package = some (m', ret) ∧ m'.Good := by
  rw [Call.Met]
  cases hdoc : (package.fetch m.rotation).1 with
  | none =>
    rw [loadPackage_early hdoc]
    exact iff_of_true nofun ⟨_, _, rfl, ⟨fun set h => ⟨(hgood.current set h).loaded, (hgood.current set h).registered⟩,
      fun set h => ⟨(hgood.base set h).loaded, (hgood.base set h).registered⟩⟩⟩
  | some doc =>
    have hmet : (∀ d, some doc = some d → d.root ≠ none ∧ (m.mBaseSet ≠ none ∨ d.Loads ∧ m.mPageSets name = none)) ↔
        doc.root ≠ none ∧ (m.mBaseSet ≠ none ∨ doc.Loads ∧ m.mPageSets name = none) :=
      ⟨fun h => h doc rfl, fun h d hd => Option.some.inj hd ▸ h⟩
    rw [hmet]
    cases hload : doc.load with
    | none =>
      rw [loadPackage_crash hdoc hload]
      exact iff_of_false (fun h => h.1 (load_none_iff.mp hload)) fun ⟨_, _, h, _⟩ => nomatch h
    | some r =>
      have hroot : doc.root ≠ none := fun h => nomatch hload.symm.trans (load_none_iff.mpr h)
      rw [loadPackage_loads hdoc hload, ← afterLoad_holds hreg hload, and_iff_right hroot, ← afterLoad_good hgood]
      exact ⟨fun h => ⟨_, _, rfl, h⟩, fun ⟨m', r', hrun, h⟩ => (Prod.mk.inj (Option.some.inj hrun)).1 ▸ h⟩

/-! ### Reloading -/

/-- What `ReloadPackage` loads into. -/
def cleared (m : Manager) (name : CString) : Manager := {m.erase name with mBaseSet := none}

theorem cleared_registered (h : m.Registered) (name : CString) : (m.cleared name).Registered := by
  intro n set hset
  change (if n = name then none else m.mPageSets n) = some set at hset
  split_ifs at hset
  exact h n set hset

theorem cleared_free (m : Manager) (name : CString) : (m.cleared name).mPageSets name = none := if_pos rfl

/-- A set that is taken out and put back. -/
theorem insert_erase {set : SetId} (hset : m.mPageSets name = some set) :
    (((m.cleared name).insert name set).mPageSets) = m.mPageSets := by
  funext n
  show (if n = name then some ((if n = name then none else m.mPageSets n).getD set) else if n = name then none else m.mPageSets n) =
    m.mPageSets n
  by_cases hn : n = name
  · subst hn
    rw [if_pos rfl, if_pos rfl, hset, Option.getD_none]
  · rw [if_neg hn, if_neg hn]

/-- The set of the name is the new one, and the others are where they were. -/
theorem afterLoad_cleared {doc : Document} {rotation : Int} (n : CString) :
    ((m.cleared name).afterLoad name doc rotation 0).mPageSets n = if n = name then some m.made.length else m.mPageSets n := by
  show (if n = name then some ((if n = name then none else m.mPageSets n).getD m.made.length)
    else if n = name then none else m.mPageSets n) = _
  split_ifs <;> rfl

theorem afterLoad_base {doc : Document} {rotation : Int} :
    ((m.cleared name).afterLoad name doc rotation ret).mBaseSet = some m.made.length := rfl

section Runs
variable {set : SetId} {m₁ : Manager}

theorem reloadPackage_crash (hset : m.mPageSets name = some set) (h : (m.cleared name).loadPackage name package = none) :
    m.reloadPackage name package = none := by
  rw [reloadPackage, hset]
  show (match (m.cleared name).loadPackage name package with | none => none | some (m, ret) => _) = none
  rw [h]

theorem reloadPackage_failed (hset : m.mPageSets name = some set)
    (h : (m.cleared name).loadPackage name package = some (m₁, ret)) (hret : ret ≠ 0) :
    m.reloadPackage name package = some (m₁.insert name set, -1) := by
  rw [reloadPackage, hset]
  show (match (m.cleared name).loadPackage name package with | none => none | some (m, ret) => _) = _
  rw [h]
  exact if_pos hret

theorem reloadPackage_done (hset : m.mPageSets name = some set)
    (h : (m.cleared name).loadPackage name package = some (m₁, 0)) {new : SetId}
    (hnew : m₁.mPageSets name = some new) (hbase : m₁.mBaseSet ≠ some set) :
    m.reloadPackage name package =
      some (if m₁.mCurrentSet = some set then {m₁ with mCurrentSet := some new} else m₁, 0) := by
  have hselect : m₁.selectPackage name = {m₁ with mCurrentSet := some new} := by rw [selectPackage, hnew]
  rw [reloadPackage, hset]
  show (match (m.cleared name).loadPackage name package with | none => none | some (m, ret) => _) = _
  rw [h]
  dsimp only
  rw [if_neg (not_not.mpr rfl), if_neg, hselect]
  split_ifs
  · rw [hselect]
    exact hbase
  · exact hbase

end Runs

/-- The manager behind a reload that succeeds. -/
theorem reloadPackage_loads (hgood : m.Good) (hreg : m.Registered) {set : SetId} (hset : m.mPageSets name = some set)
    {doc : Document} (hdoc : (package.fetch m.rotation).1 = some doc) (hload : doc.Loads) :
    ∃ m', m.reloadPackage name package = some (m', 0) ∧ m'.Good ∧ m'.Registered := by
  let m₁ := (m.cleared name).afterLoad name doc (package.fetch m.rotation).2 0
  have hloaded : (m.cleared name).loadPackage name package = some (m₁, 0) := loadPackage_loads hdoc hload
  have hnew : m₁.Holds m.made.length :=
    (afterLoad_holds (cleared_registered hreg name) hload).mpr ⟨hload, cleared_free m name⟩
  have hname : m₁.mPageSets name = some m.made.length := by rw [afterLoad_cleared, if_pos rfl]
  have hbase : m₁.mBaseSet ≠ some set := by
    rw [afterLoad_base]
    exact fun h => Nat.ne_of_gt (hreg.lt hset) (Option.some.inj h)
  have hkept : m₁.Registered := afterLoad_registered (cleared_registered hreg name) hload
  have hbaseGood (s : SetId) (h : m₁.mBaseSet = some s) : m₁.Holds s := by
    obtain rfl : m.made.length = s := Option.some.inj h
    exact hnew
  refine ⟨_, reloadPackage_done hset hloaded hname hbase, ?_⟩
  split_ifs with hcurrent
  · refine ⟨⟨fun s hs => ?_, fun s hs => ⟨(hbaseGood s hs).loaded, (hbaseGood s hs).registered⟩⟩, hkept⟩
    obtain rfl : m.made.length = s := Option.some.inj hs
    exact ⟨hnew.loaded, hnew.registered⟩
  · refine ⟨⟨fun s hs => ?_, hbaseGood⟩, hkept⟩
    obtain ⟨hloadedOld, n, hn⟩ := hgood.current s hs
    have hne : n ≠ name := by
      rintro rfl
      exact hcurrent (hs.trans (hn.symm.trans hset))
    have hreg₁ : m₁.mPageSets n = some s := by rw [afterLoad_cleared, if_neg hne, hn]
    exact ⟨hkept n s hreg₁, n, hreg₁⟩

/-- A reload returns, and has changed nothing where it returns an error, exactly where it is met. -/
theorem reloadPackage_iff (hgood : m.Good) (hreg : m.Registered) :
    (Call.reloadPackage name package).Met m ↔
      ∃ m' ret, m.reloadPackage name package = some (m', ret) ∧ (ret ≠ 0 → m.Same m') ∧ m'.Good := by
  rw [Call.Met]
  cases hset : m.mPageSets name with
  | none =>
    have hrun : m.reloadPackage name package = some (m, -1) := by rw [reloadPackage, hset]
    exact iff_of_true (fun h => absurd rfl h) ⟨m, -1, hrun, fun _ => ⟨rfl, rfl, rfl⟩, hgood⟩
  | some set =>
    rw [forall_prop_of_true nofun]
    cases hdoc : (package.fetch m.rotation).1 with
    | none =>
      -- put back, but for the base
      let m' := ({m.cleared name with rotation := (package.fetch m.rotation).2} : Manager).insert name set
      have hrun : m.reloadPackage name package = some (m', -1) :=
        reloadPackage_failed hset (loadPackage_early hdoc) (by decide)
      have hsets : m'.mPageSets = m.mPageSets := insert_erase hset
      constructor
      · intro hbase
        refine ⟨m', -1, hrun, fun _ => ⟨hsets, rfl, hbase.symm⟩, ⟨fun s hs => ?_, nofun⟩⟩
        obtain ⟨hloaded, n, hn⟩ := hgood.current s hs
        exact ⟨hloaded, n, (congrFun hsets n).trans hn⟩
      · intro ⟨m'', ret, hrun', hsame, _⟩
        obtain ⟨rfl, rfl⟩ := Prod.mk.inj (Option.some.inj (hrun.symm.trans hrun'))
        exact (hsame (by decide)).mBaseSet.symm
    | some doc =>
      cases hload : doc.load with
      | none =>
        rw [reloadPackage_crash hset (loadPackage_crash hdoc hload)]
        exact iff_of_false (fun h => nomatch hload.symm.trans h) fun ⟨_, _, h, _⟩ => nomatch h
      | some ret =>
        by_cases hret : ret = 0
        · subst hret
          obtain ⟨m', hrun, hgood', _⟩ := reloadPackage_loads hgood hreg hset hdoc hload
          exact iff_of_true hload ⟨m', 0, hrun, fun h => absurd rfl h, hgood'⟩
        · -- the set that did not load is the base
          have hrun := reloadPackage_failed hset (loadPackage_loads hdoc hload) hret
          refine iff_of_false (fun h => hret (Option.some.inj (hload.symm.trans h))) fun ⟨m', r, hrun', _, hgood'⟩ => ?_
          obtain ⟨rfl, rfl⟩ := Prod.mk.inj (Option.some.inj (hrun.symm.trans hrun'))
          have hloaded := (hgood'.base m.made.length rfl).loaded
          change ((m.made ++ [doc])[m.made.length]?).bind Document.load = some 0 at hloaded
          rw [List.getElem?_concat_length, Option.bind_some, hload] at hloaded
          exact hret (Option.some.inj hloaded)

theorem registered_insert {set : SetId} (h : m.Registered) (hset : (m.made[set]?).bind Document.load = some 0) :
    (m.insert name set).Registered := by
  intro n s hs
  change (if n = name then some ((m.mPageSets n).getD set) else m.mPageSets n) = some s at hs
  split_ifs at hs
  · cases hentry : m.mPageSets n with
    | some s' =>
      rw [hentry, Option.getD_some] at hs
      exact h n s (hentry.trans hs)
    | none =>
      rw [hentry, Option.getD_none] at hs
      obtain rfl := Option.some.inj hs
      exact hset
  · exact h n s hs

theorem registered_reloadPackage (hgood : m.Good) (hreg : m.Registered)
    (hmet : (Call.reloadPackage name package).Met m) (hrun : m.reloadPackage name package = some (m', ret)) :
    m'.Registered := by
  cases hset : m.mPageSets name with
  | none =>
    rw [reloadPackage, hset] at hrun
    exact (Prod.mk.inj (Option.some.inj hrun)).1 ▸ hreg
  | some set =>
    have hcall := hmet (by rw [hset]; nofun)
    cases hdoc : (package.fetch m.rotation).1 with
    | none =>
      have hrun' := reloadPackage_failed hset (loadPackage_early (m := m.cleared name) hdoc) (by decide)
      rw [hrun'] at hrun
      rw [← (Prod.mk.inj (Option.some.inj hrun)).1]
      exact registered_insert (cleared_registered hreg name) (hreg name set hset)
    | some doc =>
      rw [hdoc] at hcall
      obtain ⟨m'', hrun', _, hreg'⟩ := reloadPackage_loads hgood hreg hset hdoc hcall
      rw [hrun'] at hrun
      exact (Prod.mk.inj (Option.some.inj hrun)).1 ▸ hreg'

end Call

theorem selectPackage_good {m : Manager} (hgood : m.Good) (hreg : m.Registered) (name : CString) :
    (m.selectPackage name).Good ∧ (m.selectPackage name).Registered := by
  rw [selectPackage]
  cases hset : m.mPageSets name with
  | none => exact ⟨hgood, hreg⟩
  | some set =>
    refine ⟨⟨fun s hs => ?_, fun s hs => ⟨(hgood.base s hs).loaded, (hgood.base s hs).registered⟩⟩, hreg⟩
    obtain rfl := Option.some.inj hs
    exact ⟨hreg name set hset, name, hset⟩

end Manager

/-! ### Runs -/

/-- One call is all or nothing exactly when it is met. -/
theorem Call.met_iff {m : Manager} (hgood : m.Good) (hreg : m.Registered) (c : Call) :
    c.Met m ↔ ∃ m' ret, c.run m = some (m', ret) ∧ (c.isReload = true ∧ ret ≠ 0 → m.Same m') ∧ m'.Good := by
  cases c with
  | loadPackage name package =>
    rw [Manager.loadPackage_iff hgood hreg]
    exact exists_congr fun m' => exists_congr fun ret => and_congr_right fun _ => (and_iff_right (nomatch ·.1)).symm
  | selectPackage name => exact iff_of_true trivial ⟨_, 0, rfl, fun h => absurd rfl h.2, (Manager.selectPackage_good hgood hreg name).1⟩
  | reloadPackage name package =>
    rw [Manager.reloadPackage_iff hgood hreg]
    exact exists_congr fun m' => exists_congr fun ret => and_congr_right fun _ =>
      and_congr_left fun _ => ⟨fun h hret => h hret.2, fun h hret => h ⟨rfl, hret⟩⟩

theorem Call.registered {m m' : Manager} {ret : Int} (hgood : m.Good) (hreg : m.Registered) {c : Call} (hmet : c.Met m)
    (hrun : c.run m = some (m', ret)) : m'.Registered := by
  cases c with
  | loadPackage name package => exact Manager.registered_loadPackage hreg hrun
  | selectPackage name =>
    obtain ⟨rfl, rfl⟩ := Prod.mk.inj (Option.some.inj hrun)
    exact (Manager.selectPackage_good hgood hreg name).2
  | reloadPackage name package => exact Manager.registered_reloadPackage hgood hreg hmet hrun

theorem AllOrNothing.good {calls : List Call} {m : Manager} (h : AllOrNothing calls m) : m.Good := by
  cases calls with
  | nil => exact h
  | cons c calls => exact h.1

theorem allOrNothing_from {m : Manager} (hgood : m.Good) (hreg : m.Registered) (calls : List Call) :
    AllOrNothing calls m ↔ Met calls m := by
  induction calls generalizing m with
  | nil => exact iff_of_true hgood trivial
  | cons c calls ih =>
    rw [AllOrNothing, Met, and_iff_right hgood]
    constructor
    · intro ⟨m', ret, hrun, hsame, hrest⟩
      have hmet := (c.met_iff hgood hreg).mpr ⟨m', ret, hrun, hsame, hrest.good⟩
      refine ⟨hmet, fun m'' ret' hrun' => ?_⟩
      obtain ⟨rfl, rfl⟩ := Prod.mk.inj (Option.some.inj (hrun.symm.trans hrun'))
      exact (ih hrest.good (Call.registered hgood hreg hmet hrun)).mp hrest
    · intro ⟨hmet, hrest⟩
      obtain ⟨m', ret, hrun, hsame, hgood'⟩ := (c.met_iff hgood hreg).mp hmet
      exact ⟨m', ret, hrun, hsame, (ih hgood' (Call.registered hgood hreg hmet hrun)).mpr (hrest m' ret hrun)⟩

theorem good_initial (rotation : Int) : (Manager.initial rotation).Good := ⟨nofun, nofun⟩

theorem registered_initial (rotation : Int) : (Manager.initial rotation).Registered := nofun

/-- A run from the start is all or nothing exactly when each of its calls is met. -/
theorem allOrNothing_iff (calls : List Call) (rotation : Int) :
    AllOrNothing calls (.initial rotation) ↔ Met calls (.initial rotation) :=
  allOrNothing_from (good_initial rotation) (registered_initial rotation) calls

/-- A theme with one page, and the path of one that is not there. -/
def stock : PackageFile := .plain true true true ⟨some ⟨some [some (CString.ofString "main")]⟩⟩

def missing : PackageFile := .plain false true true ⟨none⟩

/-- A reload from a path that is not there returns an error, and has lost the base. -/
theorem missing_not_allOrNothing : ¬ AllOrNothing [.loadPackage "TWRP" stock, .reloadPackage "TWRP" missing] (.initial 0) := by
  rw [allOrNothing_from (good_initial 0) (registered_initial 0)]
  intro h
  have hreload := (h.2 _ 0 rfl).1 (by decide)
  exact nomatch hreload

end Twrp.Gui.Packages
