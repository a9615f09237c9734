import Twrp.Base.Line

/-! Directories by place, and `mkdir`.

A place is the names from the root down. A path is walked name by name, from the root or from
the working directory, and every place left behind must be a directory (`walk_ok_iff`); `.`
stays and `..` goes up. There are no symbolic links. `mkdir` walks to its last name and makes
that place where there is nothing yet (`mkdir_reached`, `mkdir_failed`). -/
namespace Twrp.Base

abbrev Place := List (List UInt8)

inductive Entry where
  | dir
  | file
deriving DecidableEq

structure Folders where
  entry : Place → Option Entry
  cwd : Place
  root : entry [] = some .dir
  parent : ∀ place name, entry (place ++ [name]) ≠ none → entry place = some .dir
  here : entry cwd = some .dir

inductive Errno where
  | exist
  | noent
  | notdir
  /-- any other reason -/
  | other (code : Nat)
deriving DecidableEq

/-- The names of a path. -/
def namesOf (path : List UInt8) : Place := splitString 47 path

/-- The place that a name leads to. -/
def enter (place : Place) (name : List UInt8) : Place :=
  if name = [46] then place else if name = [46, 46] then place.dropLast else place ++ [name]

namespace Folders
variable (t : Folders)

/-- Where a path starts. -/
def start (path : List UInt8) : Place := if path.head? = some 47 then [] else t.cwd

/-- The place after the first `i` names of a path. -/
def stop (path : List UInt8) (i : Nat) : Place := ((namesOf path).take i).foldl enter (t.start path)

def placeOf (path : List UInt8) : Place := (namesOf path).foldl enter (t.start path)

def walk (place : Place) : Place → Except Errno Place
  | [] => .ok place
  | name :: rest =>
    match t.entry place with
    | some .dir => walk (enter place name) rest
    | some .file => .error .notdir
    | none => .error .noent

/-- With a directory at a place whose parent is one. -/
def add (place : Place) : Folders :=
  if h : place ≠ [] ∧ t.entry place.dropLast = some .dir then
    { entry := fun q => if q = place then some .dir else t.entry q
      cwd := t.cwd
      root := by rw [if_neg (Ne.symm h.1)]; exact t.root
      parent := by
        intro q name hq
        by_cases hhere : q = place
        · exact if_pos hhere
        · rw [if_neg hhere]
          by_cases hnew : q ++ [name] = place
          · rw [← hnew, List.dropLast_concat] at h
            exact h.2
          · rw [if_neg hnew] at hq
            exact t.parent q name hq
      here := by
        split
        · rfl
        · exact t.here }
  else t

/-- What `mkdir` returns, and the directories after it. -/
def mkdir (path : List UInt8) : Option Errno × Folders :=
  if path = [] then (some .noent, t)
  else
    match t.walk (t.start path) (namesOf path) with
    | .error e => (some e, t)
    | .ok place =>
      match t.entry place with
      | some _ => (some .exist, t)
      | none => (none, t.add place)

variable {t}

/-! ### Walking -/

theorem start_dir (path : List UInt8) : t.entry (t.start path) = some .dir := by
  unfold start
  split
  · exact t.root
  · exact t.here

theorem stop_end (path : List UInt8) : t.stop path (namesOf path).length = t.placeOf path := by
  rw [stop, List.take_length, placeOf]

/-- The way up from a directory is one. -/
theorem dropLast_dir {place : Place} (h : t.entry place = some .dir) : t.entry place.dropLast = some .dir := by
  induction place using List.reverseRecOn with
  | nil => exact h
  | append_singleton place name _ =>
    rw [List.dropLast_concat]
    exact t.parent place name (by rw [h]; simp)

/-- What is not there yet is a new name in its directory. -/
theorem enter_none {place : Place} {name : List UInt8} (h : t.entry place = some .dir)
    (hnone : t.entry (enter place name) = none) : enter place name = place ++ [name] := by
  unfold enter at hnone ⊢
  by_cases hdot : name = [46]
  · rw [if_pos hdot, h] at hnone
    cases hnone
  · rw [if_neg hdot] at hnone ⊢
    by_cases hup : name = [46, 46]
    · rw [if_pos hup, dropLast_dir h] at hnone
      cases hnone
    · rw [if_neg hup]

theorem walk_ok_iff {place q : Place} {names : Place} : t.walk place names = .ok q ↔
    q = names.foldl enter place ∧ ∀ i < names.length, t.entry ((names.take i).foldl enter place) = some .dir := by
  induction names generalizing place with
  | nil => simp [walk, eq_comm]
  | cons name rest ih =>
    have hall : (∀ i < (name :: rest).length, t.entry (((name :: rest).take i).foldl enter place) = some .dir) ↔
        t.entry place = some .dir ∧
          ∀ i < rest.length, t.entry ((rest.take i).foldl enter (enter place name)) = some .dir := by
      constructor
      · intro h
        exact ⟨h 0 (Nat.succ_pos _), fun i hi => h (i + 1) (Nat.succ_lt_succ hi)⟩
      · intro ⟨hplace, hrest⟩ i hi
        cases i with
        | zero => exact hplace
        | succ i => exact hrest i (Nat.lt_of_succ_lt_succ hi)
    rw [hall, List.foldl_cons, walk]
    cases hentry : t.entry place with
    | none => simp
    | some e =>
      cases e with
      | dir => simp [ih]
      | file => simp

/-- A path can be walked to its last name. -/
def Open (t : Folders) (path : List UInt8) : Prop := ∀ i < (namesOf path).length, t.entry (t.stop path i) = some .dir

theorem walk_of_open {path : List UInt8} (h : t.Open path) :
    t.walk (t.start path) (namesOf path) = .ok (t.placeOf path) := walk_ok_iff.mpr ⟨rfl, h⟩

/-- A walk does not end with `EEXIST`. -/
theorem walk_error {place : Place} {names : Place} {e : Errno} (h : t.walk place names = .error e) : e ≠ .exist := by
  induction names generalizing place with
  | nil => cases h
  | cons name rest ih =>
    rw [walk] at h
    cases hentry : t.entry place with
    | none =>
      simp only [hentry, Except.error.injEq] at h
      simp [← h]
    | some k =>
      cases k with
      | dir =>
        simp only [hentry] at h
        exact ih h
      | file =>
        simp only [hentry, Except.error.injEq] at h
        simp [← h]

/-! ### Making -/

theorem add_entry {place : Place} (hne : place ≠ []) (h : t.entry place.dropLast = some .dir) (q : Place) :
    (t.add place).entry q = if q = place then some .dir else t.entry q := by
  rw [add, dif_pos ⟨hne, h⟩]

theorem add_cwd (place : Place) : (t.add place).cwd = t.cwd := by
  unfold add
  split <;> rfl

/-- The place that a walk ends at can be made where nothing is. -/
theorem placeOf_new {path : List UInt8} (hopen : t.Open path) (hnone : t.entry (t.placeOf path) = none) :
    t.placeOf path ≠ [] ∧ t.entry (t.placeOf path).dropLast = some .dir := by
  unfold Open stop at hopen
  unfold placeOf at hnone ⊢
  obtain hnil | ⟨front, name, hnames⟩ := List.eq_nil_or_concat' (namesOf path)
  · rw [hnil, List.foldl_nil, start_dir] at hnone
    cases hnone
  · rw [hnames] at hopen hnone ⊢
    have hfront := hopen front.length (by simp)
    rw [List.take_left] at hfront
    rw [List.foldl_append, List.foldl_cons, List.foldl_nil] at hnone ⊢
    rw [enter_none hfront hnone, List.dropLast_concat]
    exact ⟨by simp, hfront⟩

/-- What a call of `mkdir` that gets to the last name leaves. -/
structure Reached (t t' : Folders) (path : List UInt8) : Prop where
  cwd : t'.cwd = t.cwd
  entry : ∀ q, t'.entry q = if q = t.placeOf path ∧ t.entry q = none then some .dir else t.entry q

theorem mkdir_reached {path : List UInt8} (hne : path ≠ []) (hopen : t.Open path) :
    ((t.mkdir path).1 = none ∨ (t.mkdir path).1 = some .exist) ∧ Reached t (t.mkdir path).2 path := by
  rw [mkdir, if_neg hne, walk_of_open hopen]
  cases hentry : t.entry (t.placeOf path) with
  | some e =>
    simp only [hentry]
    refine ⟨Or.inr trivial, rfl, ?_⟩
    intro q
    have hno : ¬(q = t.placeOf path ∧ t.entry q = none) := by
      intro ⟨hq, hnone⟩
      rw [hq, hentry] at hnone
      cases hnone
    exact (if_neg hno).symm
  | none =>
    obtain ⟨hplace, hparent⟩ := placeOf_new hopen hentry
    simp only [hentry]
    refine ⟨Or.inl trivial, add_cwd _, ?_⟩
    intro q
    rw [add_entry hplace hparent]
    by_cases hq : q = t.placeOf path
    · simp [hq, hentry]
    · simp [hq]

theorem mkdir_failed {path : List UInt8} (h : path = [] ∨ ¬t.Open path) :
    ∃ e, t.mkdir path = (some e, t) ∧ e ≠ .exist := by
  unfold mkdir
  by_cases hne : path = []
  · exact ⟨.noent, if_pos hne, by decide⟩
  · rw [if_neg hne]
    have hclosed := h.resolve_left hne
    cases hwalk : t.walk (t.start path) (namesOf path) with
    | error e => exact ⟨e, rfl, walk_error hwalk⟩
    | ok q => exact absurd (walk_ok_iff.mp hwalk).2 hclosed

end Folders

end Twrp.Base
