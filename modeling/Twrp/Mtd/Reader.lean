import Twrp.Mtd.Utils

/-! Reading a partition as a stream.

The reader meets the blocks it delivers in order, and hands out their concatenation in pieces of any
size. Which blocks these are does not depend on what the blocks hold. -/
namespace Twrp.Mtd.Chip
open Base

variable (c : Chip)

/-- Reads that failed directly before a block have changed the count of ECC failures; the baseline of
the comparison is then out of date. -/
def stale : Nat → Bool
  | 0 => false
  | i + 1 => (c.reading i).fails && (stale i || decide (0 < (c.reading i).ecc))

/-- The reader takes the block. -/
def delivered (i : Nat) : Bool :=
  c.marks.isSome && !c.marked i && !(c.reading i).fails && decide ((c.reading i).ecc = 0) && !c.stale i

/-- The blocks a reader will deliver. -/
def toRead (d : Flash c.eraseSize) : List (Block UInt8 c.eraseSize) := (ahead c.delivered c.blocks d.offset).map d.content

/-- What a reader will hand out: what it holds, and then the blocks it will deliver. -/
structure Delivers (ctx : MtdReadContext c.eraseSize) (d : Flash c.eraseSize) (stream : List UInt8) : Prop where
  fresh : c.stale d.offset = false
  stream_eq : ctx.held ++ joined (c.toRead d) = stream

variable {c}

theorem memgetbadblock_zero {i : Nat} : (c.memgetbadblock i).1 = 0 ↔ c.marks.isSome = true ∧ c.marked i = false := by
  unfold memgetbadblock marked
  cases c.marks with
  | none => simp
  | some bad => cases h : bad i <;> simp [h]

theorem read_content {i : Nat} {d d' : Flash c.eraseSize} {got : Option (Block UInt8 c.eraseSize)} (h : c.read i d = (got, d')) :
    d'.content = d.content ∧ d'.failed = d.failed + (c.reading i).ecc := by
  unfold read at h
  split at h <;> exact ⟨by rw [← (Prod.mk.inj h).2], by rw [← (Prod.mk.inj h).2]⟩

theorem read_fails {i : Nat} {d d' : Flash c.eraseSize} (h : c.read i d = (none, d')) : (c.reading i).fails = true := by
  unfold read at h
  split at h
  · assumption
  · exact absurd (Prod.mk.inj h).1 (by simp)

theorem read_done {i : Nat} {d d' : Flash c.eraseSize} {b : Block UInt8 c.eraseSize} (h : c.read i d = (some b, d')) :
    (c.reading i).fails = false ∧ b = d.content i ∧ d'.offset = i + 1 := by
  unfold read at h
  split at h
  · exact absurd (Prod.mk.inj h).1 (by simp)
  · rename_i hfails
    exact ⟨by simpa using hfails, (Option.some.inj (Prod.mk.inj h).1).symm, by rw [← (Prod.mk.inj h).2]⟩

/-- What one call of `read_block` does: it reads the next block to be delivered, if there is one. -/
def ReadsNext (pos : Nat) (d : Flash c.eraseSize) (r : Option (Block UInt8 c.eraseSize × Flash c.eraseSize)) : Prop :=
  match ahead c.delivered c.blocks pos with
  | [] => r = none
  | i :: _ => ∃ failed, r = some (d.content i, ⟨d.content, failed, i + 1⟩)

theorem ReadsNext.skip {pos : Nat} {d d' : Flash c.eraseSize} {r : Option (Block UInt8 c.eraseSize × Flash c.eraseSize)}
    (hskip : c.delivered pos = false) (hcontent : d'.content = d.content) (h : ReadsNext (pos + 1) d' r) : ReadsNext pos d r := by
  unfold ReadsNext at h ⊢
  rw [ahead_skip hskip, ← hcontent]
  exact h

/-- From a place whose baseline is out of date as `stale` says, the next delivered block is read. -/
theorem readBlockFrom_next {before pos : Nat} {d : Flash c.eraseSize} (hle : before ≤ d.failed)
    (hstale : c.stale pos = decide (d.failed ≠ before)) : ReadsNext pos d (c.readBlockFrom before pos d) := by
  fun_induction c.readBlockFrom before pos d with
  | case1 before pos d hpos d₁ hread ih =>
    have hfails := read_fails hread
    obtain ⟨hcontent, hfailed⟩ := read_content hread
    apply ReadsNext.skip (by simp [delivered, hfails]) hcontent
    apply ih (by omega)
    rw [stale, hfails, hstale, Bool.true_and, ← Bool.decide_or, hfailed]
    exact decide_eq_decide.mpr (by omega)
  | case2 before pos d hpos data d₁ hread hne ih =>
    obtain ⟨hfails, -, -⟩ := read_done hread
    obtain ⟨hcontent, hfailed⟩ := read_content hread
    have hskip : c.delivered pos = false := by
      by_cases hecc : (c.reading pos).ecc = 0
      · have : c.stale pos = true := by
          rw [hstale, decide_eq_true_iff]
          omega
        simp [delivered, this]
      · simp [delivered, hecc]
    apply ReadsNext.skip hskip hcontent
    apply ih (le_refl _)
    rw [stale, hfails, Bool.false_and, eq_comm, decide_eq_false_iff_not]
    exact fun h => h rfl
  | case3 before pos d hpos data d₁ hread heq hbad ih =>
    obtain ⟨hfails, -, -⟩ := read_done hread
    obtain ⟨hcontent, hfailed⟩ := read_content hread
    have hskip : c.delivered pos = false := by
      rw [ne_eq, memgetbadblock_zero, not_and_or] at hbad
      rcases hbad with hbad | hbad
      · simp [delivered, Bool.not_eq_true _ ▸ hbad]
      · simp [delivered, Bool.not_eq_false _ ▸ hbad]
    apply ReadsNext.skip hskip hcontent
    apply ih (by omega)
    rw [stale, hfails, Bool.false_and, eq_comm, decide_eq_false_iff_not]
    exact heq
  | case4 before pos d hpos data d₁ hread heq hbad =>
    obtain ⟨hfails, hdata, hoffset⟩ := read_done hread
    obtain ⟨hcontent, hfailed⟩ := read_content hread
    obtain ⟨hsome, hmarked⟩ := memgetbadblock_zero.mp (not_not.mp hbad)
    rw [not_not] at heq
    have hecc : (c.reading pos).ecc = 0 := by omega
    have hfresh : c.stale pos = false := by
      rw [hstale, decide_eq_false_iff_not]
      omega
    have htake : c.delivered pos = true := by simp [delivered, hsome, hmarked, hfails, hecc, hfresh]
    unfold ReadsNext
    rw [ahead_take hpos htake]
    exact ⟨d₁.failed, by rw [hdata, ← hcontent, ← hoffset]⟩
  | case5 before pos d hpos =>
    unfold ReadsNext
    rw [ahead_end (Nat.le_of_not_lt hpos)]

theorem delivered_fresh {i : Nat} (h : c.delivered i = true) : c.stale (i + 1) = false := by
  simp only [delivered, Bool.and_eq_true, Bool.not_eq_true'] at h
  rw [stale, h.1.1.2, Bool.false_and]

/-- `read_block` takes the next block off the stream. -/
theorem readBlock_cons {d : Flash c.eraseSize} (hfresh : c.stale d.offset = false) {b : Block UInt8 c.eraseSize}
    {bs : List (Block UInt8 c.eraseSize)} (h : c.toRead d = b :: bs) :
    ∃ d', c.readBlock d = some (b, d') ∧ c.stale d'.offset = false ∧ c.toRead d' = bs := by
  obtain ⟨i, t, hahead, rfl, rfl⟩ := List.map_eq_cons_iff.mp h
  have hnext := readBlockFrom_next (le_refl d.failed) (by rw [hfresh]; simp)
  unfold ReadsNext at hnext
  rw [hahead] at hnext
  obtain ⟨failed, hread⟩ := hnext
  obtain ⟨hdelivered, -, -, htail, -⟩ := ahead_cons hahead
  exact ⟨_, hread, delivered_fresh hdelivered, by rw [toRead, htail]⟩

theorem readBlock_nil {d : Flash c.eraseSize} (hfresh : c.stale d.offset = false) (h : c.toRead d = []) : c.readBlock d = none := by
  have hnext := readBlockFrom_next (le_refl d.failed) (by rw [hfresh]; simp)
  unfold ReadsNext at hnext
  rw [List.map_eq_nil_iff.mp h] at hnext
  exact hnext

/-- The inner loop reads the whole blocks of what is wanted, if they are all there. -/
theorem readWholes_done (want : Nat) {d : Flash c.eraseSize} (hfresh : c.stale d.offset = false)
    (hle : want / c.eraseSize ≤ (c.toRead d).length) :
    ∃ d', c.readWholes want d = some (joined ((c.toRead d).take (want / c.eraseSize)), d') ∧
      c.stale d'.offset = false ∧ c.toRead d' = (c.toRead d).drop (want / c.eraseSize) := by
  have he := c.eraseSize_gt
  induction want using Nat.strong_induction_on generalizing d with
  | _ want ih =>
    rw [readWholes]
    by_cases hlt : want < c.eraseSize
    · rw [if_neg (by omega), Nat.div_eq_of_lt hlt]
      exact ⟨d, rfl, hfresh, rfl⟩
    · have hdiv : want / c.eraseSize = (want - c.eraseSize) / c.eraseSize + 1 := by
        rw [Nat.div_eq_sub_div (by omega) (by omega)]
      rw [hdiv] at hle ⊢
      obtain ⟨b, bs, hbs⟩ := List.exists_cons_of_length_pos (Nat.lt_of_lt_of_le (Nat.succ_pos _) hle)
      obtain ⟨d₁, hread, hfresh₁, htail⟩ := readBlock_cons hfresh hbs
      rw [hbs, List.length_cons, ← htail] at hle
      obtain ⟨d₂, hrest, hfresh₂, htail₂⟩ := ih (want - c.eraseSize) (by omega) hfresh₁ (by omega)
      refine ⟨d₂, ?_, hfresh₂, ?_⟩
      · simp only [if_pos (Nat.le_of_not_lt hlt), hread, hrest, hbs, Option.map_some, List.take_succ_cons, joined_cons, htail]
      · rw [htail₂, hbs, List.drop_succ_cons, htail]

theorem readWholes_short {want : Nat} {d : Flash c.eraseSize} (hfresh : c.stale d.offset = false)
    (hlt : (c.toRead d).length < want / c.eraseSize) : c.readWholes want d = none := by
  have he := c.eraseSize_gt
  induction want using Nat.strong_induction_on generalizing d with
  | _ want ih =>
    have hle : c.eraseSize ≤ want := by
      by_contra hcon
      rw [Nat.div_eq_of_lt (by omega)] at hlt
      omega
    have hdiv : want / c.eraseSize = (want - c.eraseSize) / c.eraseSize + 1 := by
      rw [Nat.div_eq_sub_div (by omega) (by omega)]
    rw [readWholes, if_pos hle]
    cases hbs : c.toRead d with
    | nil => rw [readBlock_nil hfresh hbs]
    | cons b bs =>
      obtain ⟨d₁, hread, hfresh₁, htail⟩ := readBlock_cons hfresh hbs
      rw [hbs, List.length_cons, ← htail] at hlt
      simp only [hread, ih (want - c.eraseSize) (by omega) hfresh₁ (by omega), Option.map_none]

theorem length_held (ctx : MtdReadContext c.eraseSize) : ctx.held.length = c.eraseSize - ctx.consumed := by
  rw [MtdReadContext.held, List.length_drop, ctx.buffer.property]

theorem held_advance (ctx : MtdReadContext c.eraseSize) (want : Nat) : (ctx.advance want).held = ctx.held.drop (ctx.copy want) := by
  rw [MtdReadContext.held, MtdReadContext.held, List.drop_drop]
  rfl

theorem held_filled (b : Block UInt8 c.eraseSize) : (MtdReadContext.filled b).held = b.val := List.drop_zero

/-- What is left of the buffer serves a request that is no longer than it. -/
theorem readLoop_held {ctx : MtdReadContext c.eraseSize} {want : Nat} {d : Flash c.eraseSize} (hlt : want < ctx.held.length) :
    c.readLoop ctx want d = some (ctx.held.take want, ctx.advance want, d) := by
  rw [length_held] at hlt
  have hne : (ctx.advance want).consumed ≠ c.eraseSize := by
    simp only [MtdReadContext.advance, MtdReadContext.copy]
    omega
  rw [readLoop, if_neg hne]

/-- A request that empties the buffer goes on with the blocks. -/
theorem copy_all (ctx : MtdReadContext c.eraseSize) {want : Nat} (hle : ctx.held.length ≤ want) :
    (ctx.advance want).consumed = c.eraseSize ∧ ctx.copy want = ctx.held.length ∧ ctx.held.take want = ctx.held := by
  have := ctx.consumed_le
  refine ⟨?_, ?_, List.take_of_length_le hle⟩ <;> rw [length_held] at * <;> simp only [MtdReadContext.advance, MtdReadContext.copy] <;> omega

/-- `mtd_read_data` hands out the next bytes of the stream, whatever their number. -/
theorem readLoop_done {ctx : MtdReadContext c.eraseSize} {want : Nat} {d : Flash c.eraseSize} {stream : List UInt8}
    (h : c.Delivers ctx d stream) (hle : want ≤ stream.length) :
    ∃ ctx' d', c.readLoop ctx want d = some (stream.take want, ctx', d') ∧ c.Delivers ctx' d' (stream.drop want) := by
  have he := c.eraseSize_gt
  obtain ⟨hfresh, rfl⟩ := h
  rcases Nat.lt_or_ge want ctx.held.length with hlt | hge
  · refine ⟨ctx.advance want, d, ?_, hfresh, ?_⟩
    · rw [readLoop_held hlt, List.take_append_of_le_length (Nat.le_of_lt hlt)]
    · have hcopy : ctx.copy want = want := by
        rw [length_held] at hlt
        unfold MtdReadContext.copy
        omega
      rw [held_advance, hcopy, List.drop_append_of_le_length (Nat.le_of_lt hlt)]
  · obtain ⟨hfull, hcopy, htake⟩ := copy_all ctx hge
    rw [List.length_append, length_joined] at hle
    obtain ⟨q, r, hr, hwant⟩ : ∃ q r, r < c.eraseSize ∧ want - ctx.held.length = c.eraseSize * q + r :=
      ⟨_, _, Nat.mod_lt _ (by omega), (Nat.div_add_mod _ c.eraseSize).symm⟩
    have hdiv : (want - ctx.held.length) / c.eraseSize = q := by
      rw [hwant, Nat.mul_add_div (by omega), Nat.div_eq_of_lt hr, Nat.add_zero]
    have hq : q ≤ (c.toRead d).length := by
      have hmul : c.eraseSize * q ≤ c.eraseSize * (c.toRead d).length := by omega
      exact Nat.le_of_mul_le_mul_left hmul (by omega)
    obtain ⟨d₁, hwholes, hfresh₁, hrest⟩ := readWholes_done (want - ctx.held.length) hfresh (by rw [hdiv]; exact hq)
    rw [hdiv] at hwholes hrest
    have hlength : (joined ((c.toRead d).take q)).length = c.eraseSize * q := by
      rw [length_joined, List.length_take_of_le hq]
    -- the stream up to the last whole block that is wanted, and the rest of it
    have hstream : ctx.held ++ joined (c.toRead d) = ctx.held ++ joined ((c.toRead d).take q) ++ joined (c.toRead d₁) := by
      rw [joined_split _ q, hrest, List.append_assoc]
    have hsplit : want = (ctx.held ++ joined ((c.toRead d).take q)).length + r := by
      rw [List.length_append, hlength]
      omega
    have hleft : want - ctx.held.length - (joined ((c.toRead d).take q)).length = r := by omega
    rw [readLoop, if_pos hfull, hcopy, hwholes]
    simp only [hleft, htake]
    rw [hstream, hsplit, List.take_length_add_append, List.drop_length_add_append, ← hsplit]
    rcases Nat.eq_zero_or_pos r with rfl | hpos
    · refine ⟨ctx.advance want, d₁, ?_, hfresh₁, ?_⟩
      · rw [dif_pos rfl, List.take_zero, List.append_nil]
      · rw [held_advance, hcopy, List.drop_length, List.nil_append, List.drop_zero]
    · have hmore : q < (c.toRead d).length := by
        apply Nat.lt_of_mul_lt_mul_left (a := c.eraseSize)
        omega
      obtain ⟨b, bs, hbs⟩ := List.exists_cons_of_length_pos (l := c.toRead d₁) (by rw [hrest, List.length_drop]; omega)
      obtain ⟨d₂, hread, hfresh₂, htail⟩ := readBlock_cons hfresh₁ hbs
      have hr' : r < (MtdReadContext.filled b).held.length := by
        rw [held_filled, b.property]
        exact hr
      refine ⟨(MtdReadContext.filled b).advance r, d₂, ?_, hfresh₂, ?_⟩
      · rw [dif_neg (by omega), hread]
        simp only [readLoop_held hr', Option.map_some, held_filled, hbs, joined_cons]
        rw [List.take_append_of_le_length (by rw [b.property]; omega)]
      · have hcopy' : (MtdReadContext.filled b).copy r = r := by
          simp only [MtdReadContext.copy, MtdReadContext.filled]
          omega
        rw [held_advance, hcopy', held_filled, htail, hbs, joined_cons, List.drop_append_of_le_length (by rw [b.property]; omega)]

/-- A request past the end of the stream is refused. -/
theorem readLoop_short {ctx : MtdReadContext c.eraseSize} {want : Nat} {d : Flash c.eraseSize} {stream : List UInt8}
    (h : c.Delivers ctx d stream) (hlt : stream.length < want) : c.readLoop ctx want d = none := by
  have he := c.eraseSize_gt
  obtain ⟨hfresh, rfl⟩ := h
  rw [List.length_append, length_joined] at hlt
  obtain ⟨hfull, hcopy, htake⟩ := copy_all ctx (show ctx.held.length ≤ want by omega)
  rw [readLoop, if_pos hfull, hcopy]
  rcases Nat.lt_or_ge (c.toRead d).length ((want - ctx.held.length) / c.eraseSize) with hwhole | hwhole
  · rw [readWholes_short hfresh hwhole]
  · obtain ⟨d₁, hwholes, hfresh₁, hrest⟩ := readWholes_done _ hfresh hwhole
    have hle : (want - ctx.held.length) / c.eraseSize * c.eraseSize ≤ want - ctx.held.length := Nat.div_mul_le_self _ _
    have hall : (want - ctx.held.length) / c.eraseSize = (c.toRead d).length := by
      apply le_antisymm hwhole
      rw [Nat.le_div_iff_mul_le (by omega), Nat.mul_comm]
      omega
    have hnil : c.toRead d₁ = [] := by rw [hrest, hall, List.drop_length]
    have hne : want - ctx.held.length - (joined ((c.toRead d).take ((want - ctx.held.length) / c.eraseSize))).length ≠ 0 := by
      rw [hall, List.take_length, length_joined]
      omega
    simp only [hwholes]
    rw [dif_neg hne, readBlock_nil hfresh₁ hnil]

/-- Requests of any sizes, one after the other. -/
def readPieces (c : Chip) : List Nat → MtdReadContext c.eraseSize → Flash c.eraseSize → Option (List UInt8)
  | [], _, _ => some []
  | len :: lens, ctx, d =>
    match c.mtdReadData ctx len d with
    | none => none
    | some (data, ctx, d) => (readPieces c lens ctx d).map (data ++ ·)

section Requests
variable {ctx : MtdReadContext c.eraseSize} {d : Flash c.eraseSize} {stream : List UInt8}

theorem mtdReadData_done (len : Nat) (h : c.Delivers ctx d stream) (hlt : stream.length < 2147483648) (hle : len ≤ stream.length) :
    ∃ ctx' d', c.mtdReadData ctx len d = some (stream.take len, ctx', d') ∧ c.Delivers ctx' d' (stream.drop len) := by
  unfold mtdReadData
  rw [int_small (by omega)]
  split
  · have hzero : len = 0 := by omega
    subst hzero
    exact ⟨ctx, d, rfl, h⟩
  · exact readLoop_done h hle

theorem mtdReadData_short {len : Nat} (h : c.Delivers ctx d stream) (hlt : len < 2147483648) (hshort : stream.length < len) :
    c.mtdReadData ctx len d = none := by
  unfold mtdReadData
  rw [int_small hlt, if_neg (by omega)]
  exact readLoop_short h hshort

/-- However the stream is cut into requests, they hand it out in order. -/
theorem readPieces_done {lens : List Nat} (h : c.Delivers ctx d stream) (hlt : stream.length < 2147483648) (hle : lens.sum ≤ stream.length) :
    c.readPieces lens ctx d = some (stream.take lens.sum) := by
  induction lens generalizing ctx d stream with
  | nil => rfl
  | cons len lens ih =>
    rw [List.sum_cons] at hle ⊢
    obtain ⟨ctx', d', hread, hnext⟩ := mtdReadData_done len h hlt (by omega)
    have hdrop : (stream.drop len).length = stream.length - len := List.length_drop
    have hrest : c.readPieces lens ctx' d' = some ((stream.drop len).take lens.sum) := ih hnext (by omega) (by omega)
    rw [readPieces, hread]
    simp only [hrest, Option.map_some, List.take_add]

/-- The backup copies the whole stream, if that is a whole number of requests. -/
theorem backupLoop_done {writes : Nat → Bool} {n : Nat} {file : List UInt8} (h : c.Delivers ctx d stream)
    (hlt : stream.length < 2147483648) (hdvd : 2048 ∣ stream.length) (hwrites : ∀ n, writes n = true) :
    c.backupLoop writes n file ctx d = some (file ++ stream) := by
  induction hlength : stream.length using Nat.strong_induction_on generalizing n file ctx d stream with
  | _ length ih =>
    obtain ⟨k, hk⟩ := hdvd
    rw [backupLoop]
    cases k with
    | zero =>
      have hnil : stream = [] := List.eq_nil_of_length_eq_zero (by omega)
      have hread : c.mtdReadData ctx 2048 d = none := mtdReadData_short h (by decide) (by omega)
      subst hnil
      split
      · rw [List.append_nil]
      · rename_i heq
        exact absurd (hread.symm.trans heq) (by simp)
    | succ k =>
      obtain ⟨ctx', d', hread, hnext⟩ := mtdReadData_done 2048 h hlt (by omega)
      split
      · rename_i heq
        exact absurd (hread.symm.trans heq) (by simp)
      · rename_i heq
        obtain ⟨rfl, hstate⟩ := Prod.mk.inj (Option.some.inj (hread.symm.trans heq))
        obtain ⟨rfl, rfl⟩ := Prod.mk.inj hstate
        have htake : (stream.take 2048).length = 2048 := List.length_take_of_le (by omega)
        have hdrop : (stream.drop 2048).length = stream.length - 2048 := List.length_drop
        rw [dif_neg (by omega), if_pos (hwrites n),
          ih _ (by omega) hnext (by omega) ⟨k, by omega⟩ rfl, List.append_assoc, List.take_append_drop]

end Requests

theorem toRead_rewound (d : Flash c.eraseSize) : c.toRead d.rewound = (ahead c.delivered c.blocks 0).map d.content := rfl

theorem delivers_opened (c : Chip) (d : Flash c.eraseSize) :
    c.Delivers (.opened _) d.rewound (joined (c.toRead d.rewound)) := by
  refine ⟨rfl, ?_⟩
  have hnil : (MtdReadContext.opened c.eraseSize).held = [] := by
    apply List.eq_nil_of_length_eq_zero
    rw [length_held]
    exact Nat.sub_self _
  rw [hnil, List.nil_append]

/-- The whole stream is smaller than 2 GiB: it has passed the test on the size. -/
theorem length_toRead_lt (c : Chip) (d : Flash c.eraseSize) : (joined (c.toRead d)).length < 2147483648 := by
  have hle : (c.toRead d).length ≤ c.blocks := by
    rw [toRead, List.length_map, ahead]
    apply le_trans (List.length_filter_le _ _)
    rw [List.length_range']
    exact Nat.sub_le _ _
  rw [length_joined, Nat.mul_comm]
  exact Nat.lt_of_le_of_lt (Nat.mul_le_mul_right _ hle) c.blocks_mul_lt

end Twrp.Mtd.Chip
