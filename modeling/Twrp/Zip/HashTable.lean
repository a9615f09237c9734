import Mathlib.Data.Nat.Count
import Mathlib.Tactic

/-! The hash table of the archive reader (`Hash.c`): open addressing with linear probing.

A search starts at the slot of the hash and goes on, around the end of the table, to the first slot
that is empty or holds a match. Items that compare equal are found by the first of them that was
added: the later ones are not added at all. -/
namespace Twrp.Zip

/-- A slot: no data, `HASH_TOMBSTONE`, or an item with its hash. -/
inductive Slot (α : Type) where
  | empty
  | tombstone
  | item (hashValue : UInt32) (data : α)

def Slot.isEmpty {α : Type} : Slot α → Bool
  | empty => true
  | _ => false

structure HashTable (α : Type) where
  tableSize : Nat
  /-- The slots; those from `tableSize` on are not there. -/
  slots : Nat → Slot α
  numEntries : Nat
  numDeadEntries : Nat

def LOAD_NUMER : Nat := 5
def LOAD_DENOM : Nat := 8

def mzHashSize (size : Nat) : Nat := size * LOAD_DENOM / LOAD_NUMER + 1

/-- `x |= x >> n` -/
def smear (n x : Nat) : Nat := x ||| x >>> n

def roundUpPower2 (val : Nat) : Nat := (smear 16 (smear 8 (smear 4 (smear 2 (smear 1 (val - 1))))) + 1) % 4294967296

def mzHashTableCreate (α : Type) (initialSize : Nat) : HashTable α := ⟨roundUpPower2 initialSize, fun _ => .empty, 0, 0⟩

namespace HashTable
variable {α : Type}

/-- The slot a search starts at. -/
def start (size : Nat) (hash : UInt32) : Nat := hash.toNat &&& (size - 1)

/-- The next slot, around the end of the table. -/
def next (size i : Nat) : Nat := if i + 1 = size then 0 else i + 1

/-- The loop of a search; `none` when it has gone round a table without an empty slot and goes on for
ever. -/
def probe (t : HashTable α) (itemHash : UInt32) (isMatch : α → Bool) : (left : Nat) → Nat → Option Nat
  | 0, _ => none
  | left + 1, i =>
    match t.slots i with
    | .empty => some i
    | .tombstone => t.probe itemHash isMatch left (next t.tableSize i)
    | .item hashValue data =>
      if hashValue = itemHash ∧ isMatch data then some i else t.probe itemHash isMatch left (next t.tableSize i)

/-- The search for a new spot when the table is resized. -/
def spot (size : Nat) (slots : Nat → Slot α) : (left : Nat) → Nat → Nat
  | 0, i => i
  | left + 1, i => if (slots i).isEmpty then i else spot size slots left (next size i)

/-- One slot of the old table, put into the new one. -/
def reinsert (newSize : Nat) (slots : Nat → Slot α) : Slot α → Nat → Slot α
  | .item hashValue data => Function.update slots (spot newSize slots newSize (start newSize hashValue)) (.item hashValue data)
  | _ => slots

def resizeHash (t : HashTable α) (newSize : Nat) : HashTable α where
  tableSize := newSize
  slots := (List.range t.tableSize).foldl (fun slots i => reinsert newSize slots (t.slots i)) fun _ => .empty
  numEntries := t.numEntries
  numDeadEntries := 0

/-- A new item in an empty slot. -/
def put (t : HashTable α) (i : Nat) (itemHash : UInt32) (item : α) : HashTable α where
  tableSize := t.tableSize
  slots := Function.update t.slots i (.item itemHash item)
  numEntries := t.numEntries + 1
  numDeadEntries := t.numDeadEntries

/-- The same; a table that gets too full is resized. -/
def add (t : HashTable α) (i : Nat) (itemHash : UInt32) (item : α) : HashTable α :=
  let added := t.put i itemHash item
  if (added.numEntries + added.numDeadEntries) * LOAD_DENOM > added.tableSize * LOAD_NUMER then
    added.resizeHash (added.tableSize * 2)
  else added

/-- `mzHashTableLookup` without adding: the item found, if any; `none` if the search goes on for ever. -/
def lookup (t : HashTable α) (itemHash : UInt32) (isMatch : α → Bool) : Option (Option α) :=
  (t.probe itemHash isMatch t.tableSize (start t.tableSize itemHash)).map fun i =>
    match t.slots i with
    | .item _ data => some data
    | _ => none

/-- `mzHashTableLookup` with adding: the table then. -/
def lookupAdd (t : HashTable α) (itemHash : UInt32) (isMatch : α → Bool) (item : α) : Option (HashTable α) :=
  (t.probe itemHash isMatch t.tableSize (start t.tableSize itemHash)).map fun i =>
    if (t.slots i).isEmpty then t.add i itemHash item else t

end HashTable

theorem le_smear (n x : Nat) : x ≤ smear n x := Nat.left_le_or

theorem smear_lt {n x k : Nat} (h : x < 2 ^ k) : smear n x < 2 ^ k :=
  Nat.or_lt_two_pow h (Nat.lt_of_le_of_lt (Nat.shiftRight_le _ _) h)

/-- The size of a table is not less than what was asked for. -/
theorem le_roundUpPower2 {val : Nat} (hpos : 0 < val) (hlt : val < 2 ^ 31) : val ≤ roundUpPower2 val := by
  have hsmear : val - 1 ≤ smear 16 (smear 8 (smear 4 (smear 2 (smear 1 (val - 1))))) :=
    (le_smear 1 _).trans ((le_smear 2 _).trans ((le_smear 4 _).trans ((le_smear 8 _).trans (le_smear 16 _))))
  have hbound : smear 16 (smear 8 (smear 4 (smear 2 (smear 1 (val - 1))))) < 2 ^ 31 :=
    smear_lt (smear_lt (smear_lt (smear_lt (smear_lt (by omega)))))
  unfold roundUpPower2
  rw [Nat.mod_eq_of_lt (by omega)]
  omega

namespace HashTable
variable {α : Type} {t : HashTable α} {itemHash : UInt32} {isMatch : α → Bool}

/-- A search ends at such a slot. -/
def Stops (itemHash : UInt32) (isMatch : α → Bool) : Slot α → Prop
  | .empty => True
  | .tombstone => False
  | .item hashValue data => hashValue = itemHash ∧ isMatch data = true

@[simp] theorem put_tableSize (t : HashTable α) (i : Nat) (h : UInt32) (d : α) : (t.put i h d).tableSize = t.tableSize := rfl

@[simp] theorem put_self (t : HashTable α) (i : Nat) (h : UInt32) (d : α) : (t.put i h d).slots i = .item h d :=
  Function.update_self i _ _

theorem put_other (t : HashTable α) {i j : Nat} (hne : j ≠ i) (h : UInt32) (d : α) : (t.put i h d).slots j = t.slots j :=
  Function.update_of_ne hne _ _

theorem next_mod {size : Nat} (hpos : 0 < size) (s : Nat) : next size (s % size) = (s + 1) % size := by
  have hlt := Nat.mod_lt s hpos
  rw [← Nat.mod_add_mod s size 1, next]
  split
  · rename_i heq
    rw [heq, Nat.mod_self]
  · exact (Nat.mod_eq_of_lt (by omega)).symm

/-- A search finds the first slot of its path at which it can end. -/
theorem probe_first (hpos : 0 < t.tableSize) {k s left : Nat} (hk : k < left)
    (hstop : Stops itemHash isMatch (t.slots ((s + k) % t.tableSize)))
    (hgo : ∀ j < k, ¬Stops itemHash isMatch (t.slots ((s + j) % t.tableSize))) :
    t.probe itemHash isMatch left (s % t.tableSize) = some ((s + k) % t.tableSize) := by
  induction k generalizing s left with
  | zero =>
    obtain ⟨left, rfl⟩ := Nat.exists_eq_succ_of_ne_zero (Nat.ne_of_gt hk)
    rw [Nat.add_zero] at hstop ⊢
    rw [probe]
    cases hslot : t.slots (s % t.tableSize) with
    | empty => rfl
    | tombstone =>
      rw [hslot] at hstop
      exact hstop.elim
    | item hashValue data =>
      rw [hslot] at hstop
      exact if_pos hstop
  | succ k ih =>
    obtain ⟨left, rfl⟩ := Nat.exists_eq_succ_of_ne_zero (Nat.ne_of_gt (Nat.zero_lt_of_lt hk))
    have hnext : t.probe itemHash isMatch left (next t.tableSize (s % t.tableSize)) = some ((s + (k + 1)) % t.tableSize) := by
      rw [next_mod hpos, ih (by omega) (by rwa [Nat.add_right_comm, Nat.add_assoc]) fun j hj => ?_, Nat.add_right_comm, Nat.add_assoc]
      have := hgo (j + 1) (by omega)
      rwa [← Nat.add_assoc, Nat.add_right_comm] at this
    have hfirst := hgo 0 (Nat.succ_pos k)
    rw [Nat.add_zero] at hfirst
    rw [probe]
    cases hslot : t.slots (s % t.tableSize) with
    | empty =>
      rw [hslot] at hfirst
      exact absurd trivial hfirst
    | tombstone => exact hnext
    | item hashValue data =>
      rw [hslot] at hfirst
      exact (if_neg hfirst).trans hnext

section Table
variable {κ : Type} [DecidableEq κ] (key : α → κ) (hash : κ → UInt32)

/-- A table that holds, for each key, the first item of a list that has it. -/
structure Holds (t : HashTable α) (es : List α) : Prop where
  pos : 0 < t.tableSize
  dead : t.numDeadEntries = 0
  count : Nat.count (fun i => (t.slots i).isEmpty = false) t.tableSize = t.numEntries
  noTombstone : ∀ i, t.slots i ≠ .tombstone
  items : ∀ i hashValue d, t.slots i = .item hashValue d → hashValue = hash (key d) ∧ es.find? (fun e => key e = key d) = some d
  reach : ∀ d, es.find? (fun e => key e = key d) = some d → ∃ k < t.tableSize,
    t.slots ((start t.tableSize (hash (key d)) + k) % t.tableSize) = .item (hash (key d)) d ∧
      ∀ j < k, (t.slots ((start t.tableSize (hash (key d)) + j) % t.tableSize)).isEmpty = false

variable {key} {hash} {es : List α} {k : κ}

theorem start_lt {size : Nat} (hpos : 0 < size) (h : UInt32) : start size h < size := by
  have : start size h ≤ size - 1 := Nat.and_le_right
  omega

/-- A table that is not full has an empty slot on every path. -/
theorem Holds.exists_empty (h : Holds key hash t es) (hroom : t.numEntries < t.tableSize) (s : Nat) (hs : s < t.tableSize) :
    ∃ k < t.tableSize, (t.slots ((s + k) % t.tableSize)).isEmpty = true := by
  by_contra hcon
  have hall : ∀ i < t.tableSize, (t.slots i).isEmpty = false := by
    intro i hi
    rw [← Bool.not_eq_true]
    intro hempty
    apply hcon
    by_cases hle : s ≤ i
    · exact ⟨i - s, by omega, by rwa [Nat.add_sub_of_le hle, Nat.mod_eq_of_lt hi]⟩
    · have hround : s + (i + t.tableSize - s) = i + t.tableSize := by omega
      exact ⟨i + t.tableSize - s, by omega, by rwa [hround, Nat.add_mod_right, Nat.mod_eq_of_lt hi]⟩
  have := h.count
  rw [Nat.count_iff_forall.mpr hall] at this
  omega

/-- Where a search for a key ends: at the item found by that key, or at an empty slot when there is none. -/
theorem Holds.search (h : Holds key hash t es) (hroom : t.numEntries < t.tableSize) (k : κ) :
    ∃ n < t.tableSize, t.probe (hash k) (fun d => key d = k) t.tableSize (start t.tableSize (hash k)) =
        some ((start t.tableSize (hash k) + n) % t.tableSize) ∧
      (∀ j < n, (t.slots ((start t.tableSize (hash k) + j) % t.tableSize)).isEmpty = false) ∧
      match es.find? (fun e => key e = k) with
      | none => t.slots ((start t.tableSize (hash k) + n) % t.tableSize) = .empty
      | some d => t.slots ((start t.tableSize (hash k) + n) % t.tableSize) = .item (hash k) d := by
  classical
  have hs := start_lt h.pos (hash k)
  -- the first slot of the path at which the search can end
  have hex : ∃ n, n < t.tableSize ∧ Stops (hash k) (fun d => decide (key d = k)) (t.slots ((start t.tableSize (hash k) + n) % t.tableSize)) := by
    obtain ⟨n, hn, hempty⟩ := h.exists_empty hroom _ hs
    refine ⟨n, hn, ?_⟩
    cases hslot : t.slots ((start t.tableSize (hash k) + n) % t.tableSize) <;> rw [hslot] at hempty <;> simp [Slot.isEmpty] at hempty
    trivial
  obtain ⟨hn, hstop⟩ := Nat.find_spec hex
  have hgo : ∀ j < Nat.find hex, ¬Stops (hash k) (fun d => decide (key d = k)) (t.slots ((start t.tableSize (hash k) + j) % t.tableSize)) := by
    intro j hj hcon
    exact Nat.find_min hex hj ⟨by omega, hcon⟩
  have hpath : ∀ j < Nat.find hex, (t.slots ((start t.tableSize (hash k) + j) % t.tableSize)).isEmpty = false := by
    intro j hj
    have := hgo j hj
    cases hslot : t.slots ((start t.tableSize (hash k) + j) % t.tableSize) with
    | empty =>
      rw [hslot] at this
      exact absurd trivial this
    | tombstone => rfl
    | item => rfl
  refine ⟨Nat.find hex, hn, ?_, hpath, ?_⟩
  · have hprobe := probe_first h.pos hn hstop hgo
    rwa [Nat.mod_eq_of_lt hs] at hprobe
  · cases hslot : t.slots ((start t.tableSize (hash k) + Nat.find hex) % t.tableSize) with
    | empty =>
      -- an item with that key would have been met on the way
      cases hfind : es.find? (fun e => decide (key e = k)) with
      | none => rfl
      | some d =>
        have hkey : key d = k := by simpa using List.find?_some hfind
        subst hkey
        obtain ⟨m, hm, hitem, hbefore⟩ := h.reach d hfind
        have hle : Nat.find hex ≤ m := by
          apply Nat.find_min'
          refine ⟨hm, ?_⟩
          rw [hitem]
          exact ⟨rfl, by simp⟩
        rcases Nat.lt_or_eq_of_le hle with hlt | heq
        · have := hbefore _ hlt
          rw [hslot] at this
          exact absurd this (by simp [Slot.isEmpty])
        · rw [heq] at hslot
          rw [hslot] at hitem
          exact absurd hitem (by simp)
    | tombstone => exact absurd hslot (h.noTombstone _)
    | item hashValue d =>
      rw [hslot] at hstop
      have hkey : key d = k := by simpa using hstop.2
      have hfind := (h.items _ _ _ hslot).2
      rw [hkey] at hfind
      rw [hfind, hstop.1]

/-- A lookup finds the first item with the key. -/
theorem Holds.lookup_eq (h : Holds key hash t es) (hroom : t.numEntries < t.tableSize) (k : κ) :
    t.lookup (hash k) (fun d => key d = k) = some (es.find? (fun e => key e = k)) := by
  obtain ⟨n, -, hprobe, -, hslot⟩ := h.search hroom k
  rw [lookup, hprobe, Option.map_some]
  cases hfind : es.find? (fun e => decide (key e = k)) with
  | none =>
    rw [hfind] at hslot
    simp only [hslot]
  | some d =>
    rw [hfind] at hslot
    simp only [hslot]

/-- One more slot is taken. -/
theorem count_put {i : Nat} (hi : i < t.tableSize) (hempty : t.slots i = .empty) (hashValue : UInt32) (d : α) :
    Nat.count (fun j => ((t.put i hashValue d).slots j).isEmpty = false) t.tableSize =
      Nat.count (fun j => (t.slots j).isEmpty = false) t.tableSize + 1 := by
  have hinsert : (Finset.range t.tableSize).filter (fun j => ((t.put i hashValue d).slots j).isEmpty = false) =
      insert i ((Finset.range t.tableSize).filter fun j => (t.slots j).isEmpty = false) := by
    ext j
    rw [Finset.mem_insert, Finset.mem_filter, Finset.mem_filter, Finset.mem_range]
    by_cases hj : j = i
    · subst hj
      simp [Slot.isEmpty, hi]
    · simp [hj, put_other t hj]
  have hnot : i ∉ (Finset.range t.tableSize).filter fun j => (t.slots j).isEmpty = false := by
    rw [Finset.mem_filter, hempty]
    exact fun h => Bool.noConfusion h.2
  rw [Nat.count_eq_card_filter_range, Nat.count_eq_card_filter_range, hinsert, Finset.card_insert_of_notMem hnot]

/-- An item whose key is there is left out. -/
theorem Holds.known (h : Holds key hash t es) {e : α} {d : α} (hd : es.find? (fun d => key d = key e) = some d) :
    Holds key hash t (es ++ [e]) where
  pos := h.pos
  dead := h.dead
  count := h.count
  noTombstone := h.noTombstone
  items := by
    intro i hashValue d' hslot
    obtain ⟨hvalue, hfind⟩ := h.items i hashValue d' hslot
    exact ⟨hvalue, by rw [List.find?_append, hfind, Option.some_or]⟩
  reach := by
    intro d' hfind
    apply h.reach d'
    rw [List.find?_append] at hfind
    cases hold : es.find? (fun e => decide (key e = key d')) with
    | some d'' =>
      rw [hold, Option.some_or] at hfind
      exact hfind
    | none =>
      rw [hold, Option.none_or] at hfind
      have hkey : key e = key d' := by
        have := List.mem_of_find?_eq_some hfind
        rw [List.mem_singleton.mp this]
      rw [hkey, hold] at hd
      exact absurd hd (by simp)

/-- A new item goes to the slot where the search for it ended. -/
theorem Holds.new (h : Holds key hash t es) {e : α} (hnone : es.find? (fun d => key d = key e) = none) {n : Nat}
    (hempty : t.slots ((start t.tableSize (hash (key e)) + n) % t.tableSize) = .empty) (hn : n < t.tableSize)
    (hpath : ∀ j < n, (t.slots ((start t.tableSize (hash (key e)) + j) % t.tableSize)).isEmpty = false) :
    Holds key hash (t.put ((start t.tableSize (hash (key e)) + n) % t.tableSize) (hash (key e)) e) (es ++ [e]) where
  pos := h.pos
  dead := h.dead
  count := (count_put (Nat.mod_lt _ h.pos) hempty _ _).trans (congrArg (· + 1) h.count)
  noTombstone := by
    intro i
    by_cases hi : i = (start t.tableSize (hash (key e)) + n) % t.tableSize
    · simp [hi]
    · rw [put_other t hi]
      exact h.noTombstone i
  items := by
    intro i hashValue d hslot
    by_cases hi : i = (start t.tableSize (hash (key e)) + n) % t.tableSize
    · rw [hi, put_self] at hslot
      obtain ⟨rfl, rfl⟩ := Slot.item.inj hslot
      exact ⟨rfl, by rw [List.find?_append, hnone]; simp⟩
    · rw [put_other t hi] at hslot
      obtain ⟨hvalue, hfind⟩ := h.items i hashValue d hslot
      exact ⟨hvalue, by rw [List.find?_append, hfind, Option.some_or]⟩
  reach := by
    intro d hfind
    have hkept : ∀ i, (t.slots i).isEmpty = false →
        ((t.put ((start t.tableSize (hash (key e)) + n) % t.tableSize) (hash (key e)) e).slots i).isEmpty = false := by
      intro i hi
      by_cases heq : i = (start t.tableSize (hash (key e)) + n) % t.tableSize
      · rw [heq, put_self]
        rfl
      · rwa [put_other t heq]
    rw [List.find?_append] at hfind
    cases hold : es.find? (fun e => decide (key e = key d)) with
    | some d' =>
      rw [hold, Option.some_or] at hfind
      obtain rfl := Option.some.inj hfind
      obtain ⟨m, hm, hitem, hbefore⟩ := h.reach _ hold
      refine ⟨m, hm, ?_, fun j hj => hkept _ (hbefore j hj)⟩
      rw [put_tableSize, put_other, hitem]
      intro heq
      rw [heq, hempty] at hitem
      exact absurd hitem (by simp)
    | none =>
      rw [hold, Option.none_or] at hfind
      obtain rfl := List.mem_singleton.mp (List.mem_of_find?_eq_some hfind)
      exact ⟨n, hn, put_self _ _ _ _, fun j hj => hkept _ (hpath j hj)⟩

/-- Adding an item, in a table that is not resized for it. -/
theorem Holds.lookupAdd_eq (h : Holds key hash t es) (hload : (t.numEntries + 1) * LOAD_DENOM ≤ t.tableSize * LOAD_NUMER) (e : α) :
    ∃ t', t.lookupAdd (hash (key e)) (fun d => key d = key e) e = some t' ∧ Holds key hash t' (es ++ [e]) ∧
      t'.tableSize = t.tableSize ∧ t'.numEntries ≤ t.numEntries + 1 := by
  have hroom : t.numEntries < t.tableSize := by
    unfold LOAD_DENOM LOAD_NUMER at hload
    omega
  obtain ⟨n, hn, hprobe, hpath, hslot⟩ := h.search hroom (key e)
  rw [lookupAdd, hprobe, Option.map_some]
  cases hfind : es.find? (fun d => decide (key d = key e)) with
  | some d =>
    rw [hfind] at hslot
    simp only [hslot]
    exact ⟨t, rfl, h.known hfind, rfl, Nat.le_succ _⟩
  | none =>
    rw [hfind] at hslot
    have hdead := h.dead
    have hadd : t.add ((start t.tableSize (hash (key e)) + n) % t.tableSize) (hash (key e)) e =
        t.put ((start t.tableSize (hash (key e)) + n) % t.tableSize) (hash (key e)) e := by
      apply if_neg
      show ¬(t.numEntries + 1 + t.numDeadEntries) * LOAD_DENOM > t.tableSize * LOAD_NUMER
      rw [hdead, Nat.add_zero]
      exact Nat.not_lt.mpr hload
    refine ⟨_, ?_, h.new hfind hslot hn hpath, rfl, le_refl _⟩
    rw [hslot, ← hadd]
    rfl

/-- Items added one after the other. -/
def addAll (key : α → κ) (hash : κ → UInt32) (t : HashTable α) : List α → Option (HashTable α)
  | [] => some t
  | e :: es => (t.lookupAdd (hash (key e)) (fun d => key d = key e) e).bind fun t => addAll key hash t es

theorem Holds.addAll_eq (h : Holds key hash t es) {more : List α}
    (hload : (t.numEntries + more.length) * LOAD_DENOM ≤ t.tableSize * LOAD_NUMER) :
    ∃ t', addAll key hash t more = some t' ∧ Holds key hash t' (es ++ more) ∧
      t'.tableSize = t.tableSize ∧ t'.numEntries ≤ t.numEntries + more.length := by
  induction more generalizing t es with
  | nil => exact ⟨t, rfl, by rwa [List.append_nil], rfl, le_refl _⟩
  | cons e more ih =>
    rw [List.length_cons] at hload
    unfold LOAD_DENOM LOAD_NUMER at hload ih
    obtain ⟨t₁, hadd, h₁, hsize, hnum⟩ := h.lookupAdd_eq (by unfold LOAD_DENOM LOAD_NUMER; omega) e
    obtain ⟨t₂, hrest, h₂, hsize₂, hnum₂⟩ := ih h₁ (by omega)
    refine ⟨t₂, ?_, ?_, hsize₂.trans hsize, ?_⟩
    · rw [addAll, hadd]
      exact hrest
    · rwa [List.append_assoc, List.singleton_append] at h₂
    · rw [List.length_cons]
      omega

theorem holds_create {n : Nat} (hn : n < 2 ^ 28) : Holds key hash (mzHashTableCreate α (mzHashSize n)) [] where
  pos := by
    have : mzHashSize n ≤ (mzHashTableCreate α (mzHashSize n)).tableSize :=
      le_roundUpPower2 (Nat.succ_pos _) (by unfold mzHashSize LOAD_DENOM LOAD_NUMER; omega)
    exact Nat.lt_of_lt_of_le (Nat.succ_pos _) this
  dead := rfl
  count := by
    rw [Nat.count_iff_forall_not.mpr]
    · rfl
    · intro i _
      simp [mzHashTableCreate, Slot.isEmpty]
  noTombstone := by
    intro i
    simp [mzHashTableCreate]
  items := by
    intro i hashValue d hslot
    simp [mzHashTableCreate] at hslot
  reach := by
    intro d hfind
    simp at hfind

/-- A table made for so many items holds them without being resized, and finds the first with a key. -/
theorem lookup_addAll (key : α → κ) (hash : κ → UInt32) (es : List α) (hes : es.length < 2 ^ 28) :
    ∃ t, addAll key hash (mzHashTableCreate α (mzHashSize es.length)) es = some t ∧
      ∀ k, t.lookup (hash k) (fun d => key d = k) = some (es.find? (fun e => key e = k)) := by
  have hsize : mzHashSize es.length ≤ (mzHashTableCreate α (mzHashSize es.length)).tableSize :=
    le_roundUpPower2 (Nat.succ_pos _) (by unfold mzHashSize LOAD_DENOM LOAD_NUMER; omega)
  have hnum : (mzHashTableCreate α (mzHashSize es.length)).numEntries = 0 := rfl
  have hbound : es.length * 8 < mzHashSize es.length * 5 := by
    unfold mzHashSize LOAD_DENOM LOAD_NUMER
    omega
  have hload : ((mzHashTableCreate α (mzHashSize es.length)).numEntries + es.length) * LOAD_DENOM ≤
      (mzHashTableCreate α (mzHashSize es.length)).tableSize * LOAD_NUMER := by
    unfold LOAD_DENOM LOAD_NUMER
    omega
  have hnew : Holds key hash (mzHashTableCreate α (mzHashSize es.length)) [] := holds_create hes
  obtain ⟨t, hadd, h, hsame, hle⟩ := hnew.addAll_eq hload
  refine ⟨t, hadd, fun k => ?_⟩
  have := h.lookup_eq (by omega) k
  rwa [List.nil_append] at this

end Table

end HashTable

end Twrp.Zip
