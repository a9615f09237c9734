import Twrp.Mtd.Raw

/-! What a reported write of a partition is worth.

The writer passes over the blocks it cannot write; the reader, which knows the marks and the ECC
failures only, delivers what it can read. Data that is reported as written is read back when the two
agree on the blocks up to the last one written. The restore command does not even report a last
partial block that does not fit, or a device that cannot be closed: these are the closing calls, whose
results it prints only. -/
namespace Twrp.Mtd
open Base

namespace Chip

/-- Reading from the start gives the data. -/
def ReadsBack (c : Chip) (d : Flash c.eraseSize) (data : List UInt8) : Prop :=
  ∃ ctx d', c.mtdReadData (.opened _) data.length d.rewound = some (data, ctx, d')

/-- Data that all calls report as written is read back, however it was cut, and a restore returns 0
only then. -/
structure Kept (c : Chip) (host : Host) (d : Flash c.eraseSize) (data : List UInt8) : Prop where
  reported : ∀ pieces : List (List UInt8), pieces.flatten = data → ∀ d', c.writeOut host pieces d = some d' → c.ReadsBack d' data
  restored : ∀ pieces : List (List UInt8), pieces.flatten = data → (c.cmdMtdRestoreRawPartition host pieces d).1 = 0 →
    c.writeOut host pieces d = some (c.cmdMtdRestoreRawPartition host pieces d).2 ∧
      c.ReadsBack (c.cmdMtdRestoreRawPartition host pieces d).2 data

/-- Reader and writer take the same blocks, up to the last of `need` blocks. -/
def Agree (c : Chip) (need : Nat) : Prop := ∀ i < c.blocks, c.rank i < need → c.delivered i = c.usable i

variable {c : Chip} {host : Host} {d : Flash c.eraseSize} {data : List UInt8}

theorem length_slots (c : Chip) : (ahead c.usable c.blocks 0).length = c.capacity := by
  have := Base.length_ahead (p := c.usable) (Nat.zero_le c.blocks)
  rw [Nat.count_zero] at this
  exact this

/-- As long as reader and writer agree they have met as many blocks. -/
theorem count_delivered {need i : Nat} (h : ∀ j < i, j < c.blocks ∧ c.rank j < need → c.delivered j = c.usable j) (hi : i ≤ c.blocks)
    (hrank : c.rank i < need) : Nat.count (fun j => c.delivered j = true) i = c.rank i := by
  have hagree : ∀ j < i, c.delivered j = c.usable j := by
    intro j hj
    exact h j hj ⟨by omega, Nat.lt_of_le_of_lt (Nat.count_monotone _ (Nat.le_of_lt hj)) hrank⟩
  rw [rank, Nat.count_eq_card_filter_range, Nat.count_eq_card_filter_range]
  congr 1
  apply Finset.filter_congr
  intro j hj
  rw [hagree j (Finset.mem_range.mp hj)]

/-- Where the two agree, the reader delivers the blocks that were written. -/
theorem take_toRead (hle : c.need data.length ≤ c.capacity) (hagree : c.Agree (c.need data.length)) {content : Nat → Block UInt8 c.eraseSize}
    {d' : Flash c.eraseSize} (h : c.Complete content (c.blocksOf data) d') :
    (c.toRead d'.rewound).take (c.need data.length) = c.blocksOf data := by
  apply List.ext_getElem?
  intro m
  rw [List.getElem?_take]
  split
  · rename_i hm
    obtain ⟨i, hi⟩ : ∃ i, (ahead c.usable c.blocks 0)[m]? = some i :=
      ⟨_, List.getElem?_eq_getElem (by rw [length_slots]; omega)⟩
    obtain ⟨hblocks, husable, hrank⟩ := getElem?_ahead.mp hi
    have hrank' : c.rank i < c.need data.length := by
      rw [rank, hrank]
      exact hm
    have hdelivered : (ahead c.delivered c.blocks 0)[m]? = some i := by
      rw [getElem?_ahead]
      refine ⟨hblocks, by rw [hagree i hblocks hrank', husable], ?_⟩
      rw [count_delivered (fun j _ hj => hagree j hj.1 hj.2) (Nat.le_of_lt hblocks) hrank', rank, hrank]
    rw [toRead_rewound, List.getElem?_map, hdelivered, Option.map_some, h i (Nat.lt_of_lt_of_le hblocks c.blocks_le), laid_usable husable, rank, hrank, List.getD_eq_getElem?_getD]
    rw [← length_blocksOf] at hm
    rw [List.getElem?_eq_getElem hm, Option.getD_some]
  · rename_i hm
    rw [← length_blocksOf] at hm
    exact (List.getElem?_eq_none (Nat.le_of_not_lt hm)).symm

/-- What is read back starts the stream of the reader. -/
theorem readsBack_iff {d' : Flash c.eraseSize} (hlt : data.length < 2147483648) :
    c.ReadsBack d' data ↔ data <+: joined (c.toRead d'.rewound) := by
  have hdelivers := delivers_opened c d'
  rw [List.prefix_iff_eq_take]
  constructor
  · intro ⟨ctx, d₁, hread⟩
    rcases Nat.lt_or_ge (joined (c.toRead d'.rewound)).length data.length with hshort | hle
    · rw [mtdReadData_short hdelivers hlt hshort] at hread
      exact absurd hread (by simp)
    · obtain ⟨ctx', d₂, hdone, -⟩ := mtdReadData_done data.length hdelivers (length_toRead_lt c _) hle
      rw [hdone] at hread
      exact (Prod.mk.inj (Option.some.inj hread)).1.symm
  · intro htake
    have hle : data.length ≤ (joined (c.toRead d'.rewound)).length := by
      rw [htake, List.length_take]
      exact Nat.min_le_right _ _
    obtain ⟨ctx', d₂, hdone, -⟩ := mtdReadData_done data.length hdelivers (length_toRead_lt c _) hle
    rw [← htake] at hdone
    exact ⟨ctx', d₂, hdone⟩

/-- Data that fits is smaller than 2 GiB. -/
theorem length_lt_of_fits {n : Nat} (hle : c.need n ≤ c.capacity) : n < 2147483648 := by
  have he := c.eraseSize_gt
  have hcount : c.capacity ≤ c.blocks := Nat.count_le _
  have hmul : c.need n * c.eraseSize ≤ c.blocks * c.eraseSize := Nat.mul_le_mul_right _ (le_trans hle hcount)
  have hneed : n ≤ c.need n * c.eraseSize := by
    have hmod := Nat.mod_lt n (show c.eraseSize > 0 by omega)
    have hdiv := Nat.div_add_mod n c.eraseSize
    unfold need
    rw [Nat.add_mul, Nat.mul_comm (n / c.eraseSize)]
    split <;> omega
  have := c.blocks_mul_lt
  omega

theorem readsBack_of_agree (hle : c.need data.length ≤ c.capacity) (hagree : c.Agree (c.need data.length))
    {content : Nat → Block UInt8 c.eraseSize} {d' : Flash c.eraseSize} (h : c.Complete content (c.blocksOf data) d') :
    c.ReadsBack d' data := by
  rw [readsBack_iff (length_lt_of_fits hle), joined_split _ (c.need data.length), take_toRead hle hagree h]
  have hprefix : data <+: joined (c.blocksOf data) := by
    rw [List.prefix_iff_eq_take, take_blocksOf]
  exact hprefix.trans (List.prefix_append _ _)

/-- Where they do not agree, there is a number `m` of a block such that the reader does not deliver the
block that was written as number `m` as the one with that number. -/
theorem exists_differs {need : Nat} (h : ¬c.Agree need) :
    ∃ m < need, ∀ v, (ahead c.delivered c.blocks 0)[m]? = some v → ¬(c.usable v = true ∧ c.rank v = m) := by
  classical
  have hex : ∃ i, i < c.blocks ∧ c.rank i < need ∧ c.delivered i ≠ c.usable i := by
    unfold Agree at h
    push Not at h
    exact h
  obtain ⟨hblocks, hrank, hne⟩ := Nat.find_spec hex
  have hcount : Nat.count (fun j => c.delivered j = true) (Nat.find hex) = c.rank (Nat.find hex) := by
    apply count_delivered _ (Nat.le_of_lt hblocks) hrank
    intro j hj hj'
    by_contra hcon
    exact Nat.find_min hex hj ⟨hj'.1, hj'.2, hcon⟩
  refine ⟨c.rank (Nat.find hex), hrank, fun v hv hcon => ?_⟩
  obtain ⟨-, hdelivered, hnumber⟩ := getElem?_ahead.mp hv
  cases husable : c.usable (Nat.find hex) with
  | true =>
    have hv' : v = Nat.find hex := Nat.count_injective hcon.1 husable hcon.2
    rw [← hv', hdelivered, hcon.1] at hne
    exact hne rfl
  | false =>
    have hfind : c.delivered (Nat.find hex) = true := by
      rw [husable] at hne
      exact Bool.eq_true_of_not_eq_false hne
    have hv' : v = Nat.find hex := Nat.count_injective hdelivered hfind (hnumber.trans hcount.symm)
    rw [← hv', hcon.1] at husable
    exact Bool.noConfusion husable

/-- So many bytes, those of one block of them different from the others. -/
def telling (c : Chip) (n m : Nat) (x : UInt8) : List UInt8 := (List.range n).map fun k => if k / c.eraseSize = m then x else 0xff

theorem length_telling (n m : Nat) (x : UInt8) : (c.telling n m x).length = n := by
  rw [telling, List.length_map, List.length_range]

theorem getElem?_telling {n m j : Nat} {x : UInt8} (h : c.eraseSize * j < n) :
    (c.telling n m x)[c.eraseSize * j]? = some (if j = m then x else 0xff) := by
  rw [telling, List.getElem?_map, List.getElem?_range h, Option.map_some, Nat.mul_div_cancel_left _ (Nat.zero_lt_of_lt c.eraseSize_gt)]

theorem mul_lt_of_lt_need {n j : Nat} (h : j < c.need n) : c.eraseSize * j < n := by
  have he := c.eraseSize_gt
  have hdiv := Nat.div_add_mod n c.eraseSize
  unfold need at h
  by_cases hzero : n % c.eraseSize = 0
  · rw [if_pos hzero, Nat.add_zero] at h
    have := Nat.mul_lt_mul_of_pos_left h (show 0 < c.eraseSize by omega)
    omega
  · rw [if_neg hzero] at h
    have := Nat.mul_le_mul_left c.eraseSize (Nat.le_of_lt_succ h)
    omega

/-- The first byte of a block of data. -/
theorem head_blocksOf {j : Nat} {b : Block UInt8 c.eraseSize} (h : (c.blocksOf data)[j]? = some b) : b.val[0]? = data[c.eraseSize * j]? := by
  have hj : j < c.need data.length := by
    rw [← length_blocksOf]
    exact (List.getElem?_eq_some_iff.mp h).1
  have hlt := mul_lt_of_lt_need hj
  have hjoined := getElem?_joined h (Nat.zero_lt_of_lt c.eraseSize_gt)
  rw [Nat.add_zero] at hjoined
  rw [← hjoined]
  nth_rewrite 2 [← take_blocksOf (c := c) data]
  rw [List.getElem?_take, if_pos hlt]

/-- The first byte of what another block holds is not `x`. -/
theorem head_laid {n m v : Nat} {x : UInt8} (hx : x ≠ 0xff) (hv : ¬(c.usable v = true ∧ c.rank v = m))
    (hcontent : (d.content v).val[0]? ≠ some x) : (c.laid d.content (c.blocksOf (c.telling n m x)) v).val[0]? ≠ some x := by
  have herased : (erased c.eraseSize).val[0]? ≠ some x := by
    rw [erased, List.getElem?_replicate, if_pos (Nat.zero_lt_of_lt c.eraseSize_gt)]
    exact fun h => hx (Option.some.inj h).symm
  cases husable : c.usable v with
  | true =>
    rw [laid_usable husable, List.getD_eq_getElem?_getD]
    cases hblock : (c.blocksOf (c.telling n m x))[c.rank v]? with
    | none => exact herased
    | some b =>
      rw [Option.getD_some, head_blocksOf hblock, getElem?_telling, if_neg fun h => hv ⟨husable, h⟩]
      · exact fun h => hx (Option.some.inj h).symm
      · apply mul_lt_of_lt_need
        have hlt := (List.getElem?_eq_some_iff.mp hblock).1
        rw [length_blocksOf, length_telling] at hlt
        exact hlt
  | false =>
    rw [laid_passed husable]
    unfold passed wiped
    split
    · exact hcontent
    · split
      · exact hcontent
      · exact herased

/-- Where reader and writer do not agree, some data of that length is not read back. -/
theorem exists_not_readsBack {n : Nat} (hle : c.need n ≤ c.capacity) (hdiffer : ¬c.Agree (c.need n)) (d : Flash c.eraseSize) :
    ∃ data : List UInt8, data.length = n ∧ ∀ d', c.Complete d.content (c.blocksOf data) d' → ¬c.ReadsBack d' data := by
  obtain ⟨m, hm, hother⟩ := exists_differs hdiffer
  have hlt := mul_lt_of_lt_need hm
  -- a byte that neither an erased block nor the block the reader delivers instead starts with
  obtain ⟨x, hx, hcontent⟩ : ∃ x : UInt8, x ≠ 0xff ∧
      ∀ v, (ahead c.delivered c.blocks 0)[m]? = some v → (d.content v).val[0]? ≠ some x := by
    cases hv : (ahead c.delivered c.blocks 0)[m]? with
    | none => exact ⟨0, by decide, fun v h => absurd h (by simp)⟩
    | some v =>
      by_cases hzero : (d.content v).val[0]? = some 0
      · refine ⟨1, by decide, fun w hw => ?_⟩
        obtain rfl := Option.some.inj hw
        rw [hzero]
        decide
      · refine ⟨0, by decide, fun w hw => ?_⟩
        obtain rfl := Option.some.inj hw
        exact hzero
  refine ⟨c.telling n m x, length_telling n m x, fun d' hcomplete hback => ?_⟩
  rw [readsBack_iff (by rw [length_telling]; exact length_lt_of_fits hle)] at hback
  obtain ⟨rest, hrest⟩ := hback
  have hbyte : (joined (c.toRead d'.rewound))[c.eraseSize * m]? = some x := by
    rw [← hrest, List.getElem?_append_left (by rw [length_telling]; exact hlt), getElem?_telling hlt, if_pos rfl]
  have hm' : m < (c.toRead d'.rewound).length := by
    have hin := (List.getElem?_eq_some_iff.mp hbyte).1
    rw [length_joined] at hin
    exact Nat.lt_of_mul_lt_mul_left hin
  obtain ⟨b, hread⟩ : ∃ b, (c.toRead d'.rewound)[m]? = some b := ⟨_, List.getElem?_eq_getElem hm'⟩
  have hhead := getElem?_joined hread (Nat.zero_lt_of_lt c.eraseSize_gt)
  rw [toRead_rewound, List.getElem?_map] at hread
  obtain ⟨v, hv, rfl⟩ := Option.map_eq_some_iff.mp hread
  have hblocks := (getElem?_ahead.mp hv).1
  rw [Nat.add_zero, hbyte, hcomplete v (Nat.lt_of_lt_of_le hblocks c.blocks_le)] at hhead
  exact head_laid hx (hother v hv) (hcontent v hv) hhead.symm

/-- When a write of so many bytes is kept: reader and writer agree on the blocks it takes, and when a
restore gets to the copying and the whole blocks fit, the last block fits too and the device can be
closed. -/
structure Keeps (c : Chip) (host : Host) (n : Nat) : Prop where
  agree : host.close = true → c.need n ≤ c.capacity → c.Agree (c.need n)
  closes : host.Opens → n / c.eraseSize ≤ c.capacity → c.need n ≤ c.capacity ∧ host.close = true

theorem kept_of_keeps (h : c.Keeps host data.length) : c.Kept host d data := by
  have hreported : ∀ pieces : List (List UInt8), pieces.flatten = data → ∀ d', c.writeOut host pieces d = some d' →
      c.ReadsBack d' data := by
    intro pieces hpieces d' hout
    by_cases hfits : c.capacity < c.need data.length ∨ host.close = false
    · rw [writeOut_none hpieces hfits] at hout
      exact absurd hout (by simp)
    · obtain ⟨hle, hclose⟩ := not_or.mp hfits
      rw [Nat.not_lt] at hle
      rw [Bool.not_eq_false] at hclose
      obtain ⟨d₁, hout₁, hcomplete⟩ := writeOut_fits (d := d) hpieces hle hclose
      rw [hout] at hout₁
      obtain rfl := Option.some.inj hout₁
      exact readsBack_of_agree hle (h.agree hclose hle) hcomplete
  refine ⟨hreported, fun pieces hpieces hzero => ?_⟩
  obtain ⟨hopens, hwholes⟩ := (restored_iff hpieces).mp hzero
  obtain ⟨hle, hclose⟩ := h.closes hopens hwholes
  obtain ⟨d', hout, -⟩ := writeOut_fits (d := d) hpieces hle hclose
  rw [restored_writeOut hopens hout]
  exact ⟨hout, hreported pieces hpieces d' hout⟩

theorem keeps_of_kept {n : Nat} (h : ∀ data : List UInt8, data.length = n → c.Kept host d data) : c.Keeps host n := by
  constructor
  · intro hclose hle
    by_contra hdiffer
    obtain ⟨data, rfl, hlost⟩ := exists_not_readsBack hle hdiffer d
    have hpieces : [data].flatten = data := by simp
    obtain ⟨d', hout, hcomplete⟩ := writeOut_fits (d := d) hpieces hle hclose
    exact hlost d' hcomplete ((h data rfl).reported [data] hpieces d' hout)
  · intro hopens hwholes
    have hlength : (List.replicate n (0 : UInt8)).length = n := List.length_replicate
    have hpieces : [List.replicate n (0 : UInt8)].flatten = List.replicate n 0 := by simp
    have hkept := (h _ hlength).restored _ hpieces ((restored_iff hpieces).mpr ⟨hopens, by rw [hlength]; exact hwholes⟩)
    by_contra hcon
    rw [not_and_or, Nat.not_le, Bool.not_eq_true] at hcon
    rw [writeOut_none hpieces (by rw [hlength]; exact hcon)] at hkept
    exact absurd hkept.1 (by simp)

/-- Every data of a length is kept exactly when reader and writer agree on the blocks it takes and a
restore that returns 0 has written and closed all of it. -/
theorem kept_iff_keeps (c : Chip) (host : Host) (d : Flash c.eraseSize) (n : Nat) :
    (∀ data : List UInt8, data.length = n → c.Kept host d data) ↔ c.Keeps host n :=
  ⟨keeps_of_kept, fun h data hlength => kept_of_keeps (by rw [hlength]; exact h)⟩

end Chip

/-- With the first block marked, any block of data is kept. -/
theorem kept_marked : ∀ data : List UInt8, data.length = 2048 → (twoBlocks (some (· == 0))).Kept .fine ⟨fun _ => erased _, 0, 0⟩ data := by
  have hneed : (twoBlocks (some (· == 0))).need 2048 = 1 := by decide
  have hcapacity : (twoBlocks (some (· == 0))).capacity = 1 := by decide
  refine (Chip.kept_iff_keeps _ _ _ _).mpr ⟨fun _ _ i hi _ => ?_, fun _ _ => ⟨by rw [hneed, hcapacity], rfl⟩⟩
  match i, hi with
  | 0, _ => rfl
  | 1, _ => rfl

/-- A flash of two blocks whose first one cannot be erased and is not marked. -/
def wornFirst : Chip := { twoBlocks (some fun _ => false) with
  fault := fun i => if i = 0 then some .erase else none
  sound := fun _ _ _ => rfl }

/-- What is written goes to the second block, and the first is read back. -/
theorem not_kept_worn : ¬∀ (c : Chip) (host : Host) (d : Flash c.eraseSize) (data : List UInt8), c.Kept host d data := by
  intro h
  have hkeeps := Chip.keeps_of_kept (n := 1) fun data _ => h wornFirst .fine ⟨fun _ => erased _, 0, 0⟩ data
  have hneed : wornFirst.need 1 = 1 := by decide
  have hcapacity : wornFirst.capacity = 1 := by decide
  have hagree := hkeeps.agree rfl (by rw [hneed, hcapacity]) 0 (by decide) (by decide)
  exact absurd hagree (by decide)

end Twrp.Mtd
