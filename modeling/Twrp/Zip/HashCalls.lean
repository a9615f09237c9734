import Mathlib.Data.Nat.Size
import Twrp.Base.Memory
import Twrp.Zip.HashTable

/-! The calls of a hash table (`Hash.c`), with removals and in the integers of the source.

A removal leaves a tombstone behind, which every search steps over: a search ends because some slot is
always NULL. The load that brings about a resize counts the tombstones, and a resize drops them. The
sizes are `int`s: what is computed from the size of a very large table wraps around, and so does the
rounding of the size that is asked for. -/
namespace Twrp.Zip.HashCalls
open Base HashTable

/-- Why a call does not return. -/
inductive Fault where
  | assertion
  /-- it aborts, because it was refused memory -/
  | noMemory
  /-- it reads behind the slots -/
  | outside
  | hang
deriving DecidableEq

def sizeofHashTable : Abi → Nat
  | .ilp32 => 20
  | .lp64 => 32

/-- `calloc` of so many slots, each of the size of a table: it may be refused, and is if there are not so
many bytes. -/
def calloc (abi : Abi) (granted : Bool) (count : Int) : Bool := granted && decide (abi.ofLong count * sizeofHashTable abi < abi.word)

/-- `roundUpPower2`, also of 0. -/
def roundUpPower2 (val : Nat) : Nat :=
  (smear 16 (smear 8 (smear 4 (smear 2 (smear 1 ((val + 4294967295) % 4294967296))))) + 1) % 4294967296

/-- A loop that goes from slot to slot until it stops. If it has not when it has been at each, it never
does. -/
def walk (stops : Nat → Bool) (next : Nat → Nat) : (left : Nat) → Nat → Except Fault Nat
  | 0, _ => .error .hang
  | left + 1, i => if stops i then .ok i else walk stops next left (next i)

/-- The next slot. A table of one slot has no other, and its end is where the search leaves it. -/
def advance (size i : Nat) : Nat := if i + 1 = size ∧ size ≠ 1 then 0 else i + 1

section Calls
variable {α : Type}

def isTombstone : Slot α → Bool
  | .tombstone => true
  | _ => false

def isItem : Slot α → Bool
  | .item _ _ => true
  | _ => false

/-- How many of the first `size` slots are of some kind. -/
def countSlots (kind : Slot α → Bool) (slots : Nat → Slot α) (size : Nat) : Nat := (List.range size).countP fun i => kind (slots i)

def countTombStones (t : HashTable α) : Nat := countSlots isTombstone t.slots t.tableSize

/-- `mzHashTableCreate`; no table if there is no memory. -/
def mzHashTableCreate (α : Type) (abi : Abi) (granted : Bool) (initialSize : Nat) : Except Fault (Option (HashTable α)) :=
  if initialSize = 0 then .error .assertion
  else
    let tableSize := int (roundUpPower2 (initialSize % 4294967296))
    .ok (if calloc abi granted tableSize then some ⟨tableSize.toNat, fun _ => .empty, 0, 0⟩ else none)

/-- Probe for a new spot, wrapping around. -/
def putBack (newSize : Nat) (slots : Nat → Slot α) : Slot α → Except Fault (Nat → Slot α)
  | .item hashValue data => do
    let newIdx ← walk (fun i => (slots i).isEmpty) (fun i => (i + 1) &&& (newSize - 1)) newSize (start newSize hashValue)
    .ok (Function.update slots newIdx (.item hashValue data))
  | _ => .ok slots

/-- The new slots of `resizeHash`, when the first `n` of the old ones have been gone through. -/
def rehash (old : Nat → Slot α) (newSize : Nat) : (n : Nat) → Except Fault (Nat → Slot α)
  | 0 => .ok fun _ => .empty
  | n + 1 => do
    let slots ← rehash old newSize n
    putBack newSize slots (old n)

/-- `resizeHash`: no table if there is no memory. -/
def resizeHash (abi : Abi) (granted : Bool) (t : HashTable α) (newSize : Int) : Except Fault (Option (HashTable α)) :=
  if countTombStones t ≠ t.numDeadEntries then .error .assertion
  else if !calloc abi granted newSize then .ok none
  else do
    let slots ← rehash t.slots newSize.toNat t.tableSize
    let t : HashTable α := ⟨newSize.toNat, slots, t.numEntries, 0⟩
    if countTombStones t ≠ 0 then .error .assertion else .ok (some t)

/-- See if an entry brings the table too close to full. -/
def settle (abi : Abi) (granted : Bool) (t : HashTable α) : Except Fault (HashTable α) := do
  let t ←
    if int ((t.numEntries + t.numDeadEntries) * LOAD_DENOM) > int (t.tableSize * LOAD_NUMER) then do
      match ← resizeHash abi granted t (int (t.tableSize * 2)) with
      | none => .error .noMemory
      | some t => .ok t
    else .ok t
  if t.numEntries < t.tableSize then .ok t else .error .assertion

/-- Where a lookup stops. -/
def lookupStops (itemHash : UInt32) (cmp : α → Bool) : Slot α → Bool
  | .empty => true
  | .tombstone => false
  | .item hashValue data => hashValue = itemHash && cmp data

/-- Where a removal stops. -/
def removeStops [DecidableEq α] (item : α) : Slot α → Bool
  | .empty => true
  | .tombstone => false
  | .item _ data => data = item

/-- The search of a call, from the slot of the hash on. -/
def search (t : HashTable α) (itemHash : UInt32) (stops : Slot α → Bool) : Except Fault Nat :=
  walk (fun i => decide (i = t.tableSize) || stops (t.slots i)) (advance t.tableSize) (t.tableSize + 1) (start t.tableSize itemHash)

/-- `mzHashTableLookup`; `item` is there if it is to be added. -/
def mzHashTableLookup (abi : Abi) (granted : Bool) (t : HashTable α) (itemHash : UInt32) (cmp : α → Bool) (item : Option α) :
    Except Fault (Option α × HashTable α) :=
  if t.tableSize = 0 then .error .assertion
  else do
    let i ← search t itemHash (lookupStops itemHash cmp)
    if i = t.tableSize then .error .outside
    else
      match t.slots i, item with
      | .item _ data, _ => .ok (some data, t)
      | _, some item => do
        let t ← settle abi granted (t.put i itemHash item)
        .ok (some item, t)
      | _, none => .ok (none, t)

/-- `mzHashTableRemove` -/
def mzHashTableRemove [DecidableEq α] (t : HashTable α) (itemHash : UInt32) (item : α) : Except Fault (Bool × HashTable α) :=
  if t.tableSize = 0 then .error .assertion
  else do
    let i ← search t itemHash (removeStops item)
    if i = t.tableSize then .ok (false, t)
    else
      match t.slots i with
      | .item _ _ => .ok (true, ⟨t.tableSize, Function.update t.slots i .tombstone, t.numEntries - 1, t.numDeadEntries + 1⟩)
      | _ => .ok (false, t)

end Calls

/-! ### What the calls are for -/

/-- A call of a user who gives an item the hash of what it is compared by. -/
inductive HashCall (α κ : Type) where
  | lookup (k : κ)
  | lookupAdd (item : α)
  | remove (item : α)

inductive HashResult (α : Type) where
  | item (found : Option α)
  | removed (ok : Bool)
deriving DecidableEq

section Run
variable {α κ : Type} [DecidableEq α] [DecidableEq κ] (abi : Abi) (key : α → κ) (hash : κ → UInt32)

def perform (granted : Bool) (t : HashTable α) : HashCall α κ → Except Fault (HashResult α × HashTable α)
  | .lookup k => do
    let (found, t) ← mzHashTableLookup abi granted t (hash k) (fun d => key d = k) none
    .ok (.item found, t)
  | .lookupAdd item => do
    let (found, t) ← mzHashTableLookup abi granted t (hash (key item)) (fun d => key d = key item) (some item)
    .ok (.item found, t)
  | .remove item => do
    let (ok, t) ← mzHashTableRemove t (hash (key item)) item
    .ok (.removed ok, t)

/-- The same of a map. -/
def mapStep (m : κ → Option α) : HashCall α κ → HashResult α × (κ → Option α)
  | .lookup k => (.item (m k), m)
  | .lookupAdd item =>
    match m (key item) with
    | some d => (.item (some d), m)
    | none => (.item (some item), Function.update m (key item) (some item))
  | .remove item => if m (key item) = some item then (.removed true, Function.update m (key item) none) else (.removed false, m)

/-- Some slot is NULL, and the counts are right. -/
structure Sound (t : HashTable α) : Prop where
  null : ∃ i < t.tableSize, t.slots i = .empty
  live : countSlots isItem t.slots t.tableSize = t.numEntries
  dead : countTombStones t = t.numDeadEntries

/-- Each call ends, with the result that a map gives, or for want of memory; the table is sound all along.
With a call goes whether memory is to be had. -/
def Behaves (t : HashTable α) (m : κ → Option α) : List (HashCall α κ × Bool) → Prop
  | [] => Sound t
  | (c, granted) :: calls => Sound t ∧
    match perform abi key hash granted t c with
    | .error fault => fault = .noMemory
    | .ok (result, t') => result = (mapStep key m c).1 ∧ Behaves t' (mapStep key m c).2 calls

/-- A table that is created behaves like a map, whatever it is called for. -/
def CreatesMap (initialSize : Nat) : Prop :=
  ∀ granted calls,
    match mzHashTableCreate α abi granted initialSize with
    | .error _ => False
    | .ok none => True
    | .ok (some t) => Behaves abi key hash t (fun _ => none) calls

end Run

/-! ### The rounding -/

/-- `y` has a bit where `x` has one within the next `m`. -/
def Spread (m x y : Nat) : Prop := ∀ j, y.testBit j = true ↔ ∃ d < m, x.testBit (j + d) = true

theorem Spread.smear {m x y : Nat} (h : Spread m x y) : Spread (m + m) x (smear m y) := by
  intro j
  rw [Zip.smear, Nat.testBit_or, Nat.testBit_shiftRight, Bool.or_eq_true, h, h]
  constructor
  · rintro (⟨d, hd, hbit⟩ | ⟨d, hd, hbit⟩)
    · exact ⟨d, by omega, hbit⟩
    · exact ⟨m + d, by omega, by rwa [← Nat.add_assoc, Nat.add_comm j m]⟩
  · rintro ⟨d, hd, hbit⟩
    rcases Nat.lt_or_ge d m with hlt | hge
    · exact .inl ⟨d, hlt, hbit⟩
    · refine .inr ⟨d - m, by omega, ?_⟩
      rwa [Nat.add_comm m j, Nat.add_assoc, Nat.add_sub_of_le hge]

/-- All bits are set up to the highest one. -/
theorem smeared {x : Nat} (hx : x < 2 ^ 32) : smear 16 (smear 8 (smear 4 (smear 2 (smear 1 x)))) = 2 ^ x.size - 1 := by
  have hone : Spread 1 x x := fun j => ⟨fun h => ⟨0, Nat.one_pos, h⟩, fun ⟨d, hd, h⟩ => by
    obtain rfl : d = 0 := by omega
    exact h⟩
  have hall := hone.smear.smear.smear.smear.smear
  have hsize : x.size ≤ 32 := Nat.size_le.mpr hx
  apply Nat.eq_of_testBit_eq
  intro j
  rw [Bool.eq_iff_iff, Nat.testBit_two_pow_sub_one, decide_eq_true_eq, hall]
  constructor
  · rintro ⟨d, -, hbit⟩
    have hle : 2 ^ (j + d) ≤ x := Nat.ge_two_pow_of_testBit hbit
    have := Nat.lt_size.mpr hle
    omega
  · intro hj
    have hlow : 2 ^ (x.size - 1) ≤ x := Nat.lt_size.mp (by omega)
    have hhigh : x < 2 ^ (x.size - 1 + 1) := by
      rw [Nat.sub_add_cancel (by omega)]
      exact Nat.lt_size_self x
    refine ⟨x.size - 1 - j, by omega, ?_⟩
    rw [Nat.add_sub_of_le (by omega)]
    exact Nat.testBit_of_two_pow_le_and_two_pow_add_one_gt hlow hhigh

theorem roundUpPower2_small {val : Nat} (hpos : 0 < val) (hle : val ≤ 2 ^ 31) : ∃ k ≤ 31, roundUpPower2 val = 2 ^ k := by
  have hx : (val + 4294967295) % 4294967296 = val - 1 := by omega
  have hlt : val - 1 < 2 ^ 31 := by omega
  have hsize : (val - 1).size ≤ 31 := Nat.size_le.mpr hlt
  refine ⟨(val - 1).size, hsize, ?_⟩
  have hpow : 2 ^ (val - 1).size ≤ 2 ^ 31 := Nat.pow_le_pow_right (by decide) hsize
  rw [roundUpPower2, hx, smeared (by omega), Nat.sub_add_cancel Nat.one_le_two_pow, Nat.mod_eq_of_lt (by omega)]

/-- No table has the size that these are rounded to. -/
theorem roundUpPower2_large {val : Nat} (hlt : val < 2 ^ 32) (h : val = 0 ∨ 2 ^ 31 < val) : roundUpPower2 val = 0 := by
  have hx : 2 ^ 31 ≤ (val + 4294967295) % 4294967296 := by omega
  have hx' : (val + 4294967295) % 4294967296 < 2 ^ 32 := by omega
  have hsize : ((val + 4294967295) % 4294967296).size = 32 :=
    le_antisymm (Nat.size_le.mpr hx') (Nat.lt_size.mpr hx)
  rw [roundUpPower2, smeared hx', hsize]
  rfl

/-! ### Searches -/

theorem ok_bind {α β : Type} (a : α) (f : α → Except Fault β) : (Except.ok a >>= f) = f a := rfl

section Walk
variable {stops : Nat → Bool} {next : Nat → Nat} {size : Nat}

theorem walk_first (hpos : 0 < size) (hnext : ∀ i < size, 1 < size → next i = (i + 1) % size) {n s left : Nat} (hn : n < size)
    (hleft : n < left) (hstop : stops ((s + n) % size) = true) (hgo : ∀ j < n, stops ((s + j) % size) = false) :
    walk stops next left (s % size) = .ok ((s + n) % size) := by
  induction n generalizing s left with
  | zero =>
    obtain ⟨left, rfl⟩ := Nat.exists_eq_succ_of_ne_zero (Nat.ne_of_gt hleft)
    exact if_pos hstop
  | succ n ih =>
    obtain ⟨left, rfl⟩ := Nat.exists_eq_succ_of_ne_zero (Nat.ne_of_gt (Nat.zero_lt_of_lt hleft))
    have hfirst := hgo 0 (Nat.succ_pos n)
    rw [Nat.add_zero] at hfirst
    have hrest : walk stops next left ((s + 1) % size) = .ok ((s + 1 + n) % size) := by
      refine ih (by omega) (by omega) ?_ fun j hj => ?_
      · rwa [Nat.add_assoc, Nat.add_comm 1 n]
      · rw [Nat.add_assoc, Nat.add_comm 1 j]
        exact hgo (j + 1) (by omega)
    rw [walk, if_neg (by simp [hfirst]), hnext _ (Nat.mod_lt _ hpos) (by omega), Nat.mod_add_mod, hrest, Nat.add_assoc, Nat.add_comm 1 n]

variable (stops) in
/-- Where there is a slot to stop at, the loop stops at the first on its way. -/
theorem walk_ends (hnext : ∀ i < size, 1 < size → next i = (i + 1) % size) {s left : Nat} (hs : s < size) (hleft : size ≤ left)
    (hex : ∃ i < size, stops i = true) :
    ∃ n < size, walk stops next left s = .ok ((s + n) % size) ∧ stops ((s + n) % size) = true ∧ ∀ j < n, stops ((s + j) % size) = false := by
  obtain ⟨i, hi, hstop⟩ := hex
  have hround : ∃ n, n < size ∧ stops ((s + n) % size) = true := by
    rcases Nat.lt_or_ge i s with hlt | hge
    · refine ⟨i + size - s, by omega, ?_⟩
      have hsum : s + (i + size - s) = i + size := by omega
      rwa [hsum, Nat.add_mod_right, Nat.mod_eq_of_lt hi]
    · refine ⟨i - s, by omega, ?_⟩
      rwa [Nat.add_sub_of_le hge, Nat.mod_eq_of_lt hi]
  obtain ⟨hn, hstop⟩ := Nat.find_spec hround
  have hgo : ∀ j < Nat.find hround, stops ((s + j) % size) = false := by
    intro j hj
    have hnot := Nat.find_min hround hj
    rw [not_and, Bool.not_eq_true] at hnot
    exact hnot (hj.trans hn)
  refine ⟨Nat.find hround, hn, ?_, hstop, hgo⟩
  have hwalk := walk_first (Nat.zero_lt_of_lt hs) hnext hn (hn.trans_le hleft) hstop hgo
  rwa [Nat.mod_eq_of_lt hs] at hwalk

theorem advance_eq {i : Nat} (hi : i < size) (hsize : 1 < size) : advance size i = (i + 1) % size := by
  unfold advance
  split_ifs with h
  · rw [h.1, Nat.mod_self]
  · rw [Nat.mod_eq_of_lt (by omega)]

end Walk

/-! ### Counting -/

section Count
variable {α : Type} {slots : Nat → Slot α} {size : Nat}

theorem countSlots_succ (kind : Slot α → Bool) (slots : Nat → Slot α) (size : Nat) :
    countSlots kind slots (size + 1) = countSlots kind slots size + if kind (slots size) then 1 else 0 := by
  rw [countSlots, List.range_succ, List.countP_append, List.countP_singleton]
  rfl

variable (slots) in
/-- One slot is changed. -/
theorem countSlots_update (kind : Slot α → Bool) {i : Nat} (hi : i < size) (s : Slot α) :
    countSlots kind (Function.update slots i s) size + (if kind (slots i) then 1 else 0) = countSlots kind slots size + if kind s then 1 else 0 := by
  induction size with
  | zero => omega
  | succ size ih =>
    rw [countSlots_succ, countSlots_succ]
    rcases Nat.lt_or_eq_of_le (Nat.le_of_lt_succ hi) with hlt | rfl
    · rw [Function.update_of_ne (Nat.ne_of_gt hlt)]
      have := ih hlt
      omega
    · have hsame : countSlots kind (Function.update slots i s) i = countSlots kind slots i := by
        apply List.countP_congr
        intro j hj
        rw [Function.update_of_ne (Nat.ne_of_lt (List.mem_range.mp hj))]
      rw [hsame, Function.update_self]
      omega

theorem countSlots_mono (kind : Slot α → Bool) (slots : Nat → Slot α) {n m : Nat} (h : n ≤ m) : countSlots kind slots n ≤ countSlots kind slots m :=
  (List.range_sublist.mpr h).countP_le

theorem isEmpty_iff {s : Slot α} : s.isEmpty = true ↔ s = .empty := by
  cases s <;> simp [Slot.isEmpty]

theorem countSlots_all (slots : Nat → Slot α) (size : Nat) :
    countSlots isItem slots size + countSlots isTombstone slots size + countSlots Slot.isEmpty slots size = size := by
  induction size with
  | zero => rfl
  | succ size ih =>
    rw [countSlots_succ, countSlots_succ, countSlots_succ]
    cases slots size <;> simp only [isItem, isTombstone, Slot.isEmpty, if_true, Bool.false_eq_true, if_false] <;> omega

variable (slots size) in
/-- With fewer items and tombstones than slots, some slot is NULL. -/
theorem exists_empty (h : countSlots isItem slots size + countSlots isTombstone slots size < size) : ∃ i < size, slots i = .empty := by
  have hall := countSlots_all slots size
  have hpos : 0 < countSlots Slot.isEmpty slots size := by omega
  obtain ⟨i, hi, hempty⟩ := List.countP_pos_iff.mp hpos
  exact ⟨i, List.mem_range.mp hi, isEmpty_iff.mp hempty⟩

end Count

/-! ### Where the items are -/

section Placed
variable {α κ : Type} (key : α → κ) (hash : κ → UInt32)

/-- The slots hold the items of `P`, no two of one key, each where a search for it comes to. -/
structure Placed (size : Nat) (slots : Nat → Slot α) (P : α → Prop) : Prop where
  items : ∀ i < size, ∀ h d, slots i = .item h d → h = hash (key d) ∧ P d
  reach : ∀ d, P d → ∃ n < size, slots ((start size (hash (key d)) + n) % size) = .item (hash (key d)) d ∧
    ∀ j < n, slots ((start size (hash (key d)) + j) % size) ≠ .empty
  unique : ∀ i < size, ∀ j < size, ∀ h d h' d', slots i = .item h d → slots j = .item h' d' → key d = key d' → i = j

variable {key hash} {size : Nat} {slots : Nat → Slot α} {P : α → Prop}

theorem placed_empty : Placed key hash size (fun _ => .empty) fun _ : α => False where
  items := fun _ _ _ _ h => by cases h
  reach := fun _ h => h.elim
  unique := fun _ _ _ _ _ _ _ _ h => by cases h

theorem Placed.congr {Q : α → Prop} (h : Placed key hash size slots P) (hPQ : ∀ d, P d ↔ Q d) : Placed key hash size slots Q := by
  rwa [← funext fun d => propext (hPQ d)]

theorem Placed.key_inj (h : Placed key hash size slots P) {d d' : α} (hd : P d) (hd' : P d') (hkey : key d = key d') : d = d' := by
  obtain ⟨n, hn, hslot, -⟩ := h.reach d hd
  obtain ⟨n', -, hslot', -⟩ := h.reach d' hd'
  have hpos := Nat.zero_lt_of_lt hn
  rw [h.unique _ (Nat.mod_lt _ hpos) _ (Nat.mod_lt _ hpos) _ _ _ _ hslot hslot' hkey, hslot'] at hslot
  exact ((Slot.item.inj hslot).2).symm

/-- A new item goes to the empty slot in which its search ended. -/
theorem Placed.put (h : Placed key hash size slots P) {a : α} {n : Nat} (hn : n < size)
    (hempty : slots ((start size (hash (key a)) + n) % size) = .empty)
    (hpath : ∀ j < n, slots ((start size (hash (key a)) + j) % size) ≠ .empty) (hnew : ∀ d, P d → key d ≠ key a) :
    Placed key hash size (Function.update slots ((start size (hash (key a)) + n) % size) (.item (hash (key a)) a)) fun d => P d ∨ d = a := by
  generalize hi : (start size (hash (key a)) + n) % size = i at hempty ⊢
  have hsize : i < size := hi ▸ Nat.mod_lt _ (Nat.zero_lt_of_lt hn)
  have hkept : ∀ j, slots j ≠ .empty → Function.update slots i (.item (hash (key a)) a) j ≠ .empty := by
    intro j hj
    by_cases hji : j = i
    · rw [hji, Function.update_self]
      exact fun hslot => by cases hslot
    · rwa [Function.update_of_ne hji]
  refine ⟨?_, ?_, ?_⟩
  · intro j hj h' d hslot
    by_cases hji : j = i
    · rw [hji, Function.update_self] at hslot
      obtain ⟨rfl, rfl⟩ := Slot.item.inj hslot
      exact ⟨rfl, .inr rfl⟩
    · rw [Function.update_of_ne hji] at hslot
      obtain ⟨hhash, hd⟩ := h.items j hj h' d hslot
      exact ⟨hhash, .inl hd⟩
  · rintro d (hd | rfl)
    · obtain ⟨n', hn', hslot, hbefore⟩ := h.reach d hd
      refine ⟨n', hn', ?_, fun j hj => hkept _ (hbefore j hj)⟩
      rw [Function.update_of_ne, hslot]
      intro heq
      rw [heq, hempty] at hslot
      cases hslot
    · refine ⟨n, hn, ?_, fun j hj => hkept _ (hpath j hj)⟩
      rw [hi, Function.update_self]
  · have hother : ∀ j < size, ∀ h' d, j ≠ i → slots j = .item h' d → key d ≠ key a := fun j hj h' d _ hslot => hnew d (h.items j hj h' d hslot).2
    intro j hj j' hj' h₁ d h₂ d' hslot hslot' hkey
    by_cases hji : j = i <;> by_cases hji' : j' = i
    · rw [hji, hji']
    · rw [hji, Function.update_self] at hslot
      rw [Function.update_of_ne hji'] at hslot'
      obtain ⟨-, rfl⟩ := Slot.item.inj hslot
      exact absurd hkey.symm (hother j' hj' _ _ hji' hslot')
    · rw [hji', Function.update_self] at hslot'
      rw [Function.update_of_ne hji] at hslot
      obtain ⟨-, rfl⟩ := Slot.item.inj hslot'
      exact absurd hkey (hother j hj _ _ hji hslot)
    · rw [Function.update_of_ne hji] at hslot
      rw [Function.update_of_ne hji'] at hslot'
      exact h.unique j hj j' hj' _ _ _ _ hslot hslot' hkey

/-- An item makes room for a tombstone, over which the other searches go on. -/
theorem Placed.bury (h : Placed key hash size slots P) {i : Nat} (hi : i < size) {h' : UInt32} {a : α} (ha : slots i = .item h' a) :
    Placed key hash size (Function.update slots i .tombstone) fun d => P d ∧ d ≠ a := by
  have hback : ∀ j h' d, Function.update slots i .tombstone j = .item h' d → j ≠ i ∧ slots j = .item h' d := by
    intro j h' d hslot
    by_cases hji : j = i
    · rw [hji, Function.update_self] at hslot
      cases hslot
    · rw [Function.update_of_ne hji] at hslot
      exact ⟨hji, hslot⟩
  refine ⟨?_, ?_, ?_⟩
  · intro j hj h₁ d hslot
    obtain ⟨hji, hslot⟩ := hback j h₁ d hslot
    obtain ⟨hhash, hd⟩ := h.items j hj h₁ d hslot
    refine ⟨hhash, hd, ?_⟩
    rintro rfl
    exact hji (h.unique j hj i hi _ _ _ _ hslot ha rfl)
  · rintro d ⟨hd, hne⟩
    obtain ⟨n, hn, hslot, hbefore⟩ := h.reach d hd
    refine ⟨n, hn, ?_, fun j hj => ?_⟩
    · rw [Function.update_of_ne, hslot]
      intro heq
      rw [heq, ha] at hslot
      exact hne (Slot.item.inj hslot).2.symm
    · by_cases hji : (start size (hash (key d)) + j) % size = i
      · rw [hji, Function.update_self]
        exact fun hslot => by cases hslot
      · rw [Function.update_of_ne hji]
        exact hbefore j hj
  · intro j hj j' hj' h₁ d h₂ d' hslot hslot' hkey
    exact h.unique j hj j' hj' _ _ _ _ (hback j h₁ d hslot).2 (hback j' h₂ d' hslot').2 hkey

/-- One item is put back, if there is room for it. -/
theorem putBack_ok {k : Nat} {a : α} (h : Placed key hash (2 ^ k) slots P) (hroom : countSlots isItem slots (2 ^ k) < 2 ^ k)
    (htombs : countSlots isTombstone slots (2 ^ k) = 0) (hnew : ∀ d, P d → key d ≠ key a) :
    ∃ slots', putBack (2 ^ k) slots (.item (hash (key a)) a) = .ok slots' ∧ Placed key hash (2 ^ k) slots' (fun d => P d ∨ d = a) ∧
      countSlots isItem slots' (2 ^ k) = countSlots isItem slots (2 ^ k) + 1 ∧ countSlots isTombstone slots' (2 ^ k) = 0 := by
  have hpos : 0 < 2 ^ k := Nat.two_pow_pos k
  have hnext : ∀ i < 2 ^ k, 1 < 2 ^ k → (fun i => (i + 1) &&& (2 ^ k - 1)) i = (i + 1) % 2 ^ k := fun i _ _ => Nat.and_two_pow_sub_one_eq_mod _ _
  obtain ⟨i, hi, hempty⟩ := exists_empty slots (2 ^ k) (by omega)
  obtain ⟨n, hn, hwalk, hstop, hgo⟩ := walk_ends (fun i => (slots i).isEmpty) hnext (start_lt hpos (hash (key a))) le_rfl
    ⟨i, hi, isEmpty_iff.mpr hempty⟩
  have hslot : slots ((start (2 ^ k) (hash (key a)) + n) % 2 ^ k) = .empty := isEmpty_iff.mp hstop
  have hput := h.put hn hslot (fun j hj hcon => Bool.false_ne_true ((hgo j hj).symm.trans (isEmpty_iff.mpr hcon))) hnew
  have hlt := Nat.mod_lt (start (2 ^ k) (hash (key a)) + n) hpos
  have hitem := countSlots_update slots isItem hlt (.item (hash (key a)) a)
  have htomb := countSlots_update slots isTombstone hlt (.item (hash (key a)) a)
  rw [hslot] at hitem htomb
  refine ⟨_, ?_, hput, hitem, htomb.trans htombs⟩
  rw [putBack, hwalk, ok_bind]

/-- A resize finds a place for each item, if there is room for all of them. -/
theorem rehash_ok {old : Nat → Slot α} {oldSize k : Nat} (h : Placed key hash oldSize old P) (hroom : countSlots isItem old oldSize < 2 ^ k)
    {n : Nat} (hn : n ≤ oldSize) :
    ∃ slots, rehash old (2 ^ k) n = .ok slots ∧ Placed key hash (2 ^ k) slots (fun d => ∃ i < n, ∃ h, old i = .item h d) ∧
      countSlots isItem slots (2 ^ k) = countSlots isItem old n ∧ countSlots isTombstone slots (2 ^ k) = 0 := by
  induction n with
  | zero =>
    refine ⟨fun _ => .empty, rfl, placed_empty.congr fun d => ⟨False.elim, fun ⟨i, hi, _⟩ => absurd hi (Nat.not_lt_zero i)⟩, ?_, ?_⟩
    · exact List.countP_eq_zero.mpr fun _ _ => Bool.false_ne_true
    · exact List.countP_eq_zero.mpr fun _ _ => Bool.false_ne_true
  | succ n ih =>
    obtain ⟨slots, hrun, hplaced, hitems, htombs⟩ := ih (by omega)
    have hcount := countSlots_succ isItem old n
    have hsplit : ∀ d, (∃ i < n + 1, ∃ h, old i = .item h d) ↔ (∃ i < n, ∃ h, old i = .item h d) ∨ ∃ h, old n = .item h d :=
      fun d => Nat.exists_lt_succ_right
    have hsame : (∀ h d, old n ≠ .item h d) → Placed key hash (2 ^ k) slots (fun d => ∃ i < n + 1, ∃ h, old i = .item h d) := by
      intro hnone
      refine hplaced.congr fun d => ?_
      rw [hsplit, or_iff_left]
      rintro ⟨h, hslot⟩
      exact hnone h d hslot
    rw [rehash, hrun, ok_bind]
    cases hold : old n with
    | empty =>
      rw [hold] at hcount hsame
      exact ⟨slots, rfl, hsame (fun _ _ h => by cases h), hitems.trans hcount.symm, htombs⟩
    | tombstone =>
      rw [hold] at hcount hsame
      exact ⟨slots, rfl, hsame (fun _ _ h => by cases h), hitems.trans hcount.symm, htombs⟩
    | item hashValue data =>
      rw [hold] at hcount
      obtain ⟨rfl, hdata⟩ := h.items n (by omega) _ _ hold
      have hfewer := countSlots_mono isItem old hn
      have hone : countSlots isItem old (n + 1) = countSlots isItem old n + 1 := hcount
      have hnew : ∀ d, (∃ i < n, ∃ h, old i = .item h d) → key d ≠ key data := by
        rintro d ⟨i, hi, h', hd⟩ hkey
        have := h.unique i (by omega) n (by omega) _ _ _ _ hd hold hkey
        omega
      obtain ⟨slots', hput, hplaced', hitems', htombs'⟩ := putBack_ok hplaced (by omega) htombs hnew
      refine ⟨slots', hput, hplaced'.congr fun d => ?_, by rw [hitems', hitems, hone], htombs'⟩
      rw [hsplit, hold]
      exact or_congr_right ⟨fun h => ⟨hash (key data), by rw [h]⟩, fun ⟨_, h⟩ => (Slot.item.inj h).2.symm⟩

end Placed

/-! ### A table as a map -/

/-- Eight times the entries and tombstones of a table of `2 ^ k` slots are at most this. From `2 ^ 29`
slots on the load is not compared rightly, and such a table is resized too early. -/
def slack (k : Nat) : Nat := 5 * 2 ^ min k 28 + 8 * (k - 28)

theorem slack_small {k : Nat} (h : k ≤ 28) : slack k = 5 * 2 ^ k := by
  rw [slack, Nat.min_eq_left h, Nat.sub_eq_zero_of_le h, Nat.mul_zero, Nat.add_zero]

section Models
variable {α κ : Type} (key : α → κ) (hash : κ → UInt32)

/-- A table of `2 ^ k` slots that holds what the map does. -/
structure Kept (k : Nat) (t : HashTable α) (m : κ → Option α) : Prop where
  size : t.tableSize = 2 ^ k
  live : countSlots isItem t.slots t.tableSize = t.numEntries
  dead : countTombStones t = t.numDeadEntries
  placed : Placed key hash t.tableSize t.slots fun d => m (key d) = some d
  keyed : ∀ k d, m k = some d → key d = k

/-- And that is not too full. -/
def Models (t : HashTable α) (m : κ → Option α) : Prop :=
  ∃ k ≤ 30, Kept key hash k t m ∧ (t.numEntries + t.numDeadEntries) * 8 ≤ slack k

variable {key hash} {t : HashTable α} {m : κ → Option α} {k : Nat}

theorem room_of_load {s : Nat} (hk : k ≤ 30) (h : s * 8 ≤ slack k) : s < 2 ^ k := by
  rcases Nat.lt_or_ge k 29 with hlt | hge
  · have := Nat.two_pow_pos k
    rw [slack_small (by omega)] at h
    omega
  · have hbound : slack k ≤ slack 30 := by
      obtain rfl | rfl : k = 29 ∨ k = 30 := by omega
      · decide
      · exact le_rfl
    have hpow : 2 ^ 29 ≤ 2 ^ k := Nat.pow_le_pow_right (by decide) hge
    have hvalue : slack 30 = 1342177296 := by decide
    omega

theorem Kept.exists_null (h : Kept key hash k t m) (hroom : t.numEntries + t.numDeadEntries < 2 ^ k) : ∃ i < t.tableSize, t.slots i = .empty := by
  apply exists_empty
  have hlive := h.live
  have hdead : countSlots isTombstone t.slots t.tableSize = t.numDeadEntries := h.dead
  rw [h.size] at *
  omega

theorem Models.sound (h : Models key hash t m) : Sound t := by
  obtain ⟨k, hk, hkept, hload⟩ := h
  exact ⟨hkept.exists_null (room_of_load hk hload), hkept.live, hkept.dead⟩

theorem Kept.pos (h : Kept key hash k t m) : 0 < t.tableSize := by
  rw [h.size]
  exact Nat.two_pow_pos k

/-- A search stops at the first slot on its way that it can. -/
theorem search_ends {stops : Slot α → Bool} (itemHash : UInt32) (hempty : stops .empty = true) (hnull : ∃ i < t.tableSize, t.slots i = .empty) :
    ∃ n < t.tableSize, search t itemHash stops = .ok ((start t.tableSize itemHash + n) % t.tableSize) ∧
      stops (t.slots ((start t.tableSize itemHash + n) % t.tableSize)) = true ∧
      ∀ j < n, stops (t.slots ((start t.tableSize itemHash + j) % t.tableSize)) = false := by
  obtain ⟨i, hi, hslot⟩ := hnull
  have hpos := Nat.zero_lt_of_lt hi
  have hinside : ∀ s, (decide (s % t.tableSize = t.tableSize) || stops (t.slots (s % t.tableSize))) = stops (t.slots (s % t.tableSize)) := by
    intro s
    rw [decide_eq_false (Nat.ne_of_lt (Nat.mod_lt s hpos)), Bool.false_or]
  obtain ⟨n, hn, hwalk, hstop, hgo⟩ := walk_ends (fun i => decide (i = t.tableSize) || stops (t.slots i)) (fun i hi => advance_eq hi)
    (start_lt hpos itemHash) (Nat.le_succ _) ⟨i, hi, by rw [hslot, hempty, Bool.or_true]⟩
  refine ⟨n, hn, hwalk, ?_, fun j hj => ?_⟩
  · rwa [hinside] at hstop
  · have := hgo j hj
    rwa [hinside] at this

/-- The same in a table that holds a map: no slot on the way is NULL. -/
theorem Kept.search_stops (stops : Slot α → Bool) (itemHash : UInt32) (hempty : stops .empty = true)
    (h : Kept key hash k t m) (hroom : t.numEntries + t.numDeadEntries < 2 ^ k) :
    ∃ n < t.tableSize, search t itemHash stops = .ok ((start t.tableSize itemHash + n) % t.tableSize) ∧
      stops (t.slots ((start t.tableSize itemHash + n) % t.tableSize)) = true ∧
      (∀ j < n, stops (t.slots ((start t.tableSize itemHash + j) % t.tableSize)) = false) ∧
      ∀ j < n, t.slots ((start t.tableSize itemHash + j) % t.tableSize) ≠ .empty := by
  obtain ⟨n, hn, hsearch, hstop, hgo⟩ := search_ends itemHash hempty (h.exists_null hroom)
  refine ⟨n, hn, hsearch, hstop, hgo, fun j hj hcon => ?_⟩
  have := hgo j hj
  rw [hcon, hempty] at this
  cases this

/-- A removal stops at the very item, if that is what is stored. -/
theorem Kept.remove_stops [DecidableEq α] (h : Kept key hash k t m) (hroom : t.numEntries + t.numDeadEntries < 2 ^ k) (a : α) :
    ∃ i < t.tableSize, search t (hash (key a)) (removeStops a) = .ok i ∧
      if m (key a) = some a then t.slots i = .item (hash (key a)) a else t.slots i = .empty := by
  obtain ⟨n, hn, hsearch, hstop, hgo, hpath⟩ := h.search_stops (removeStops a) (hash (key a)) rfl hroom
  have hlt := Nat.mod_lt (start t.tableSize (hash (key a)) + n) h.pos
  refine ⟨_, hlt, hsearch, ?_⟩
  cases hslot : t.slots ((start t.tableSize (hash (key a)) + n) % t.tableSize) with
  | empty =>
    rw [if_neg]
    intro hm
    obtain ⟨n', hn', hitem, hbefore⟩ := h.placed.reach a hm
    rcases Nat.lt_trichotomy n n' with hlt | rfl | hgt
    · exact absurd hslot (hbefore n hlt)
    · rw [hslot] at hitem
      cases hitem
    · have := hgo n' hgt
      rw [hitem] at this
      simp [removeStops] at this
  | tombstone =>
    rw [hslot] at hstop
    cases hstop
  | item hashValue d =>
    rw [hslot] at hstop
    simp only [removeStops, decide_eq_true_eq] at hstop
    subst hstop
    obtain ⟨hhash, hm⟩ := h.placed.items _ hlt _ _ hslot
    rw [if_pos hm, hhash]

/-- A resize drops the tombstones, and nothing else. -/
theorem Kept.resize (h : Kept key hash k t m) (abi : Abi) (granted : Bool) (k' : Nat) (hroom : t.numEntries < 2 ^ k') {newSize : Int}
    (hsize : newSize = (2 ^ k' : Nat)) :
    resizeHash abi granted t newSize = .ok none ∨
      ∃ t', resizeHash abi granted t newSize = .ok (some t') ∧ Kept key hash k' t' m ∧ t'.numEntries = t.numEntries ∧ t'.numDeadEntries = 0 := by
  subst hsize
  unfold resizeHash
  rw [if_neg (not_not.mpr h.dead)]
  cases calloc abi granted ((2 ^ k' : Nat) : Int) with
  | false => exact .inl rfl
  | true =>
    have hcount : countSlots isItem t.slots t.tableSize < 2 ^ k' := by
      rw [h.live]
      exact hroom
    obtain ⟨slots, hrun, hplaced, hitems, htombs⟩ := rehash_ok h.placed hcount le_rfl
    refine .inr ⟨⟨2 ^ k', slots, t.numEntries, 0⟩, ?_, ⟨rfl, hitems.trans h.live, htombs, hplaced.congr fun d => ?_, h.keyed⟩, rfl, rfl⟩
    · rw [Int.toNat_natCast, hrun, ok_bind]
      show (if _ then _ else _) = _
      exact if_neg (not_not.mpr htombs)
    · constructor
      · rintro ⟨i, hi, h', hslot⟩
        exact (h.placed.items i hi h' d hslot).2
      · intro hd
        obtain ⟨n, hn, hslot, -⟩ := h.placed.reach d hd
        exact ⟨_, Nat.mod_lt _ h.pos, _, hslot⟩

theorem slack_step {s : Nat} (hk : k < 30) (h : s * 8 ≤ slack k + 8) : s * 8 ≤ slack (k + 1) := by
  rcases Nat.lt_or_ge k 28 with hlt | hge
  · have hpos := Nat.two_pow_pos k
    rw [slack_small (by omega)] at h ⊢
    rw [Nat.pow_succ]
    omega
  · have hle : slack k + 8 ≤ slack (k + 1) := by
      obtain rfl | rfl : k = 28 ∨ k = 29 := by omega
      · decide
      · decide
    omega

/-- A table that grows has room again. -/
theorem Kept.grow (h : Kept key hash k t m) (abi : Abi) (granted : Bool) (hk : k < 30) (hload : (t.numEntries + t.numDeadEntries) * 8 ≤ slack k + 8) :
    resizeHash abi granted t (int (t.tableSize * 2)) = .ok none ∨
      ∃ t', resizeHash abi granted t (int (t.tableSize * 2)) = .ok (some t') ∧ Models key hash t' m ∧ t'.numEntries < t'.tableSize := by
  have hload' := slack_step hk hload
  have hroom := room_of_load (k := k + 1) (by omega) hload'
  have hpow : 2 ^ (k + 1) ≤ 2 ^ 30 := Nat.pow_le_pow_right (by decide) (by omega)
  have hsize : int (t.tableSize * 2) = (2 ^ (k + 1) : Nat) := by
    rw [h.size, ← Nat.pow_succ, int_small (by omega)]
  rcases h.resize abi granted (k + 1) (by omega) hsize with hnone | ⟨t', hsome, hkept, hentries, hdead⟩
  · exact .inl hnone
  · refine .inr ⟨t', hsome, ⟨k + 1, by omega, hkept, ?_⟩, ?_⟩
    · omega
    · rw [hkept.size, hentries]
      omega

/-- A table of `2 ^ 30` slots cannot grow. -/
theorem Kept.full (h : Kept key hash 30 t m) (abi : Abi) (granted : Bool) : resizeHash abi granted t (int (t.tableSize * 2)) = .ok none := by
  have hcalloc : calloc abi granted (int (2 ^ 30 * 2)) = false := by
    cases abi <;> cases granted <;> decide
  rw [resizeHash, if_neg (not_not.mpr h.dead), h.size, hcalloc]
  rfl

/-- Where a table is not found too full, it is not. -/
theorem Kept.load_of_test (h : Kept key hash k t m) (hk : k ≤ 30) (hload : (t.numEntries + t.numDeadEntries) * 8 ≤ slack k + 8)
    (htest : ¬int ((t.numEntries + t.numDeadEntries) * LOAD_DENOM) > int (t.tableSize * LOAD_NUMER)) :
    (t.numEntries + t.numDeadEntries) * 8 ≤ slack k := by
  have hbound : slack k ≤ 1342177296 := by
    unfold slack
    have hpow : 2 ^ min k 28 ≤ 2 ^ 28 := Nat.pow_le_pow_right (by decide) (Nat.min_le_right _ _)
    omega
  have hload' : (t.numEntries + t.numDeadEntries) * LOAD_DENOM = (t.numEntries + t.numDeadEntries) * 8 := rfl
  have hsize' : t.tableSize * LOAD_NUMER = t.tableSize * 5 := rfl
  rw [hload', hsize', h.size, int_small (by omega)] at htest
  rcases Nat.lt_or_ge k 29 with hlt | hge
  · have hpow : 2 ^ k ≤ 2 ^ 28 := Nat.pow_le_pow_right (by decide) (by omega)
    rw [int_small (by omega)] at htest
    rw [slack_small (by omega)]
    omega
  · obtain rfl | rfl : k = 29 ∨ k = 30 := by omega
    -- the product is negative, and every table of this size is found too full
    · have hproduct : int (2 ^ 29 * 5) = -1610612736 := by decide
      omega
    · have hproduct : int (2 ^ 30 * 5) = 1073741824 := by decide
      have hslack : slack 30 = 1342177296 := by decide
      omega

theorem Kept.settle (h : Kept key hash k t m) (abi : Abi) (granted : Bool) (hk : k ≤ 30)
    (hload : (t.numEntries + t.numDeadEntries) * 8 ≤ slack k + 8) :
    settle abi granted t = .error .noMemory ∨ ∃ t', settle abi granted t = .ok t' ∧ Models key hash t' m := by
  unfold HashCalls.settle
  by_cases htest : int ((t.numEntries + t.numDeadEntries) * LOAD_DENOM) > int (t.tableSize * LOAD_NUMER)
  · rw [if_pos htest]
    have hresize : resizeHash abi granted t (int (t.tableSize * 2)) = .ok none ∨
        ∃ t', resizeHash abi granted t (int (t.tableSize * 2)) = .ok (some t') ∧ Models key hash t' m ∧ t'.numEntries < t'.tableSize := by
      rcases Nat.lt_or_eq_of_le hk with hlt | rfl
      · exact h.grow abi granted hlt hload
      · exact .inl (h.full abi granted)
    rcases hresize with hnone | ⟨t', hsome, hmodels, hroom⟩
    · rw [hnone]
      exact .inl rfl
    · rw [hsome]
      exact .inr ⟨t', if_pos hroom, hmodels⟩
  · have hload' := h.load_of_test hk hload htest
    have hroom := room_of_load hk hload'
    have hfits : t.numEntries < t.tableSize := by
      rw [h.size]
      omega
    rw [if_neg htest, ok_bind]
    exact .inr ⟨t, if_pos hfits, k, hk, h, hload'⟩

variable [DecidableEq κ]

/-- A lookup stops at the item with the key, or at the slot where one would be put. -/
theorem Kept.lookup_stops (h : Kept key hash k t m) (hroom : t.numEntries + t.numDeadEntries < 2 ^ k) (x : κ) :
    ∃ n < t.tableSize, search t (hash x) (lookupStops (hash x) fun d => key d = x) = .ok ((start t.tableSize (hash x) + n) % t.tableSize) ∧
      (∀ j < n, t.slots ((start t.tableSize (hash x) + j) % t.tableSize) ≠ .empty) ∧
      match m x with
      | some d => t.slots ((start t.tableSize (hash x) + n) % t.tableSize) = .item (hash x) d
      | none => t.slots ((start t.tableSize (hash x) + n) % t.tableSize) = .empty := by
  obtain ⟨n, hn, hsearch, hstop, hgo, hpath⟩ := h.search_stops (lookupStops (hash x) fun d => key d = x) (hash x) rfl hroom
  refine ⟨n, hn, hsearch, hpath, ?_⟩
  have hlt := Nat.mod_lt (start t.tableSize (hash x) + n) h.pos
  cases hslot : t.slots ((start t.tableSize (hash x) + n) % t.tableSize) with
  | empty =>
    cases hm : m x with
    | none => rfl
    | some d =>
      -- the search would have stopped at the item
      obtain rfl := h.keyed x d hm
      obtain ⟨n', hn', hitem, hbefore⟩ := h.placed.reach d hm
      rcases Nat.lt_trichotomy n n' with hlt | rfl | hgt
      · exact absurd hslot (hbefore n hlt)
      · rw [hslot] at hitem
        cases hitem
      · have := hgo n' hgt
        rw [hitem] at this
        simp [lookupStops] at this
  | tombstone =>
    rw [hslot] at hstop
    cases hstop
  | item hashValue d =>
    rw [hslot] at hstop
    simp only [lookupStops, Bool.and_eq_true, decide_eq_true_eq] at hstop
    obtain ⟨rfl, rfl⟩ := hstop
    rw [(h.placed.items _ hlt _ _ hslot).2]

theorem Kept.remove [DecidableEq α] (h : Kept key hash k t m) {a : α} (hm : m (key a) = some a) {i : Nat} (hi : i < t.tableSize)
    (hslot : t.slots i = .item (hash (key a)) a) :
    Kept key hash k ⟨t.tableSize, Function.update t.slots i .tombstone, t.numEntries - 1, t.numDeadEntries + 1⟩ (Function.update m (key a) none) := by
  have hitem := countSlots_update t.slots isItem hi .tombstone
  have htomb := countSlots_update t.slots isTombstone hi .tombstone
  have hlive := h.live
  have hdead : countSlots isTombstone t.slots t.tableSize = t.numDeadEntries := h.dead
  rw [hslot] at hitem htomb
  refine ⟨h.size, ?_, ?_, (h.placed.bury hi hslot).congr fun d => ?_, fun x d hd => ?_⟩
  · have hitem' : countSlots isItem (Function.update t.slots i .tombstone) t.tableSize + 1 = countSlots isItem t.slots t.tableSize := hitem
    show countSlots isItem (Function.update t.slots i .tombstone) t.tableSize = t.numEntries - 1
    omega
  · have htomb' : countSlots isTombstone (Function.update t.slots i .tombstone) t.tableSize = countSlots isTombstone t.slots t.tableSize + 1 := htomb
    show countSlots isTombstone (Function.update t.slots i .tombstone) t.tableSize = t.numDeadEntries + 1
    omega
  · by_cases hkey : key d = key a
    · rw [hkey, Function.update_self, hm]
      exact iff_of_false (fun h => h.2 (Option.some.inj h.1).symm) (fun h => by cases h)
    · rw [Function.update_of_ne hkey]
      exact ⟨fun h => h.1, fun h => ⟨h, fun heq => hkey (heq ▸ rfl)⟩⟩
  · by_cases hx : x = key a
    · rw [hx, Function.update_self] at hd
      cases hd
    · rw [Function.update_of_ne hx] at hd
      exact h.keyed x d hd

theorem Kept.put (h : Kept key hash k t m) {a : α} (hm : m (key a) = none) {n : Nat} (hn : n < t.tableSize)
    (hempty : t.slots ((start t.tableSize (hash (key a)) + n) % t.tableSize) = .empty)
    (hpath : ∀ j < n, t.slots ((start t.tableSize (hash (key a)) + j) % t.tableSize) ≠ .empty) :
    Kept key hash k (t.put ((start t.tableSize (hash (key a)) + n) % t.tableSize) (hash (key a)) a) (Function.update m (key a) (some a)) := by
  have hlt := Nat.mod_lt (start t.tableSize (hash (key a)) + n) h.pos
  have hitem := countSlots_update t.slots isItem hlt (.item (hash (key a)) a)
  have htomb := countSlots_update t.slots isTombstone hlt (.item (hash (key a)) a)
  rw [hempty] at hitem htomb
  have hnew : ∀ d, m (key d) = some d → key d ≠ key a := by
    intro d hd hkey
    rw [hkey, hm] at hd
    cases hd
  refine ⟨h.size, hitem.trans (congrArg (· + 1) h.live), htomb.trans h.dead, (h.placed.put hn hempty hpath hnew).congr fun d => ?_, fun x d hd => ?_⟩
  · by_cases hkey : key d = key a
    · rw [hkey, Function.update_self, hm]
      exact ⟨fun h => h.elim (fun h => by cases h) fun h => h ▸ rfl, fun h => .inr (Option.some.inj h).symm⟩
    · rw [Function.update_of_ne hkey]
      exact ⟨fun h => h.elim id fun h => absurd (h ▸ rfl) hkey, .inl⟩
  · by_cases hx : x = key a
    · rw [hx, Function.update_self] at hd
      rw [hx, Option.some.inj hd]
    · rw [Function.update_of_ne hx] at hd
      exact h.keyed x d hd

variable [DecidableEq α] (abi : Abi) (granted : Bool)

/-- What a call does to a table that models a map. -/
def Answers (key : α → κ) (hash : κ → UInt32) (m : κ → Option α) (c : HashCall α κ) : Except Fault (HashResult α × HashTable α) → Prop
  | .error fault => fault = .noMemory
  | .ok (result, t') => result = (mapStep key m c).1 ∧ Models key hash t' (mapStep key m c).2

theorem Models.lookup (h : Models key hash t m) (x : κ) : Answers key hash m (.lookup x) (perform abi key hash granted t (.lookup x)) := by
  obtain ⟨k, hk, hkept, hload⟩ := h
  obtain ⟨n, hn, hsearch, hpath, hslot⟩ := hkept.lookup_stops (room_of_load hk hload) x
  have hlt := Nat.mod_lt (start t.tableSize (hash x) + n) hkept.pos
  have hpos := hkept.pos
  rw [perform, mzHashTableLookup, if_neg (by omega), hsearch, ok_bind, if_neg (by omega)]
  cases hm : m x with
  | some d =>
    rw [hm] at hslot
    rw [hslot]
    exact ⟨congrArg _ hm.symm, k, hk, hkept, hload⟩
  | none =>
    rw [hm] at hslot
    rw [hslot]
    exact ⟨congrArg _ hm.symm, k, hk, hkept, hload⟩

theorem Models.lookupAdd (h : Models key hash t m) (a : α) : Answers key hash m (.lookupAdd a) (perform abi key hash granted t (.lookupAdd a)) := by
  obtain ⟨k, hk, hkept, hload⟩ := h
  obtain ⟨n, hn, hsearch, hpath, hslot⟩ := hkept.lookup_stops (room_of_load hk hload) (key a)
  have hlt := Nat.mod_lt (start t.tableSize (hash (key a)) + n) hkept.pos
  have hpos := hkept.pos
  rw [perform, mzHashTableLookup, if_neg (by omega), hsearch, ok_bind, if_neg (by omega)]
  cases hm : m (key a) with
  | some d =>
    rw [hm] at hslot
    rw [hslot]
    show Answers key hash m _ (.ok (.item (some d), t))
    simp only [Answers, mapStep, hm]
    exact ⟨trivial, k, hk, hkept, hload⟩
  | none =>
    rw [hm] at hslot
    have hput := hkept.put hm hn hslot hpath
    have hfull : ((t.put ((start t.tableSize (hash (key a)) + n) % t.tableSize) (hash (key a)) a).numEntries + t.numDeadEntries) * 8 ≤ slack k + 8 := by
      show (t.numEntries + 1 + t.numDeadEntries) * 8 ≤ slack k + 8
      omega
    rw [hslot]
    rcases hput.settle abi granted hk hfull with hnone | ⟨t', hsome, hmodels⟩
    · dsimp only
      rw [hnone]
      exact rfl
    · dsimp only
      rw [hsome]
      show Answers key hash m _ (.ok (.item (some a), t'))
      simp only [Answers, mapStep, hm]
      exact ⟨trivial, hmodels⟩

theorem Models.removal (h : Models key hash t m) (a : α) : Answers key hash m (.remove a) (perform abi key hash granted t (.remove a)) := by
  obtain ⟨k, hk, hkept, hload⟩ := h
  obtain ⟨i, hi, hsearch, hslot⟩ := hkept.remove_stops (room_of_load hk hload) a
  have hpos := hkept.pos
  rw [perform, mzHashTableRemove, if_neg (by omega), hsearch, ok_bind, if_neg (by omega)]
  by_cases hm : m (key a) = some a
  · rw [if_pos hm] at hslot
    have hremoved := hkept.remove hm hi hslot
    have hentries : 0 < t.numEntries := by
      have hcount := countSlots_update t.slots isItem hi .tombstone
      rw [hslot, hkept.live] at hcount
      simp only [isItem, if_true, Bool.false_eq_true, if_false] at hcount
      omega
    rw [hslot]
    simp only [Answers, mapStep, if_pos hm]
    refine ⟨rfl, k, hk, hremoved, ?_⟩
    show (t.numEntries - 1 + (t.numDeadEntries + 1)) * 8 ≤ slack k
    omega
  · rw [if_neg hm] at hslot
    rw [hslot]
    simp only [Answers, mapStep, if_neg hm]
    exact ⟨rfl, k, hk, hkept, hload⟩

theorem Models.perform (h : Models key hash t m) (c : HashCall α κ) : Answers key hash m c (perform abi key hash granted t c) := by
  cases c with
  | lookup x => exact h.lookup abi granted x
  | lookupAdd a => exact h.lookupAdd abi granted a
  | remove a => exact h.removal abi granted a

theorem Models.behaves (h : Models key hash t m) (calls : List (HashCall α κ × Bool)) : Behaves abi key hash t m calls := by
  induction calls generalizing t m with
  | nil => exact h.sound
  | cons c calls ih =>
    obtain ⟨c, granted⟩ := c
    refine ⟨h.sound, ?_⟩
    have hanswers := h.perform abi granted c
    cases hrun : HashCalls.perform abi key hash granted t c with
    | error fault =>
      rw [hrun] at hanswers
      exact hanswers
    | ok r =>
      rw [hrun] at hanswers
      exact ⟨hanswers.1, ih hanswers.2⟩

end Models

section Create
variable {α κ : Type}

theorem models_create {key : α → κ} {hash : κ → UInt32} {k : Nat} (hk : k ≤ 30) : Models key hash (⟨2 ^ k, fun _ => .empty, 0, 0⟩ : HashTable α) fun _ => none :=
  ⟨k, hk, ⟨rfl, List.countP_eq_zero.mpr fun _ _ => Bool.false_ne_true, List.countP_eq_zero.mpr fun _ _ => Bool.false_ne_true,
    placed_empty.congr fun _ => ⟨False.elim, fun h => by cases h⟩, fun _ _ h => by cases h⟩, Nat.zero_le _⟩

theorem create_eq (abi : Abi) (granted : Bool) {initialSize : Nat} (h : initialSize ≠ 0) {tableSize : Int}
    (hsize : int (roundUpPower2 (initialSize % 4294967296)) = tableSize) :
    mzHashTableCreate α abi granted initialSize = .ok (if calloc abi granted tableSize then some ⟨tableSize.toNat, fun _ => .empty, 0, 0⟩ else none) := by
  subst hsize
  exact if_neg h

variable [DecidableEq α] [DecidableEq κ]

/-- A table behaves like a map just where the size that is asked for is no more than 2^31 as an `unsigned
int`, and is not 0 as one: the others are rounded to a table without slots. -/
theorem createsMap_iff (abi : Abi) (key : α → κ) (hash : κ → UInt32) (initialSize : Nat) :
    CreatesMap abi key hash initialSize ↔ 0 < initialSize % 4294967296 ∧ initialSize % 4294967296 ≤ 2147483648 := by
  have hlt : initialSize % 4294967296 < 2 ^ 32 := Nat.mod_lt _ (by decide)
  constructor
  · intro h
    by_contra hnot
    have hzero := roundUpPower2_large hlt (by omega)
    have hcalloc : calloc abi true (int 0) = true := by
      cases abi <;> decide
    have hcreated := h true []
    by_cases hsize : initialSize = 0
    · rw [mzHashTableCreate, if_pos hsize] at hcreated
      exact hcreated
    · rw [create_eq abi true hsize (congrArg int hzero), hcalloc] at hcreated
      obtain ⟨i, hi, -⟩ := hcreated.null
      exact absurd hi (Nat.not_lt_zero i)
  · rintro ⟨hpos, hle⟩ granted calls
    obtain ⟨k, hk, hround⟩ := roundUpPower2_small hpos hle
    have hsize : initialSize ≠ 0 := by
      rintro rfl
      exact absurd hpos (by decide)
    rcases Nat.lt_or_eq_of_le hk with hlt | rfl
    · have hpow : 2 ^ k ≤ 2 ^ 30 := Nat.pow_le_pow_right (by decide) (by omega)
      have hint : int (roundUpPower2 (initialSize % 4294967296)) = (2 ^ k : Nat) := by
        rw [hround, int_small (by omega)]
      rw [create_eq abi granted hsize hint, Int.toNat_natCast]
      cases calloc abi granted ((2 ^ k : Nat) : Int) with
      | false => exact trivial
      | true => exact (models_create (by omega)).behaves abi calls
    · have hcalloc : calloc abi granted (int (2 ^ 31)) = false := by
        cases abi <;> cases granted <;> decide
      rw [create_eq abi granted hsize (congrArg int hround), hcalloc]
      exact trivial

/-- Asked for 2^31 + 1 slots, it makes none. -/
theorem huge_no_map : ¬CreatesMap (α := Nat) .ilp32 id (fun _ => 0) 2147483649 := by
  intro h
  obtain ⟨i, hi, -⟩ := (h true []).null
  exact absurd hi (Nat.not_lt_zero i)

end Create

end Twrp.Zip.HashCalls
