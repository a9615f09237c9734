import Twrp.Base.Reach
import Twrp.Zip.Bounds

/-! Extraction into a buffer.

`mzExtractZipEntryToBuffer` is given a buffer of as many bytes as the entry says that it has when it is
uncompressed. Its callback copies what it is handed and counts down what is left of the buffer, but does
not look at the count, so what bounds the writes is what the two producers hand over: the compressed
length of a stored entry, and whatever the inflater makes of a deflated one. -/
namespace Twrp.Zip
open Base

/-- The inflater of zlib: `out` is all that it makes of the bytes that it has been given so far. -/
structure Inflater extends Zlib where
  out : Bytes → Bytes
  none_yet : out [] = []
  mono : ∀ c more, out c <+: out (c ++ more)
  whole : ∀ c d, raw c = some d → out c = d

/-- A read, if it gives bytes, gives those of the archive; the inflater puts out what it makes of its
input, as far as there is room, and ends a stream that it has put out whole. -/
def Inflater.Honest (z : Inflater) (map : Bytes) : Sigma Answer → Prop
  | ⟨.read pos count, r⟩ => ∀ buf : Bytes, r = some buf → buf <+: (map.drop pos).take count
  | ⟨.inflate fed made room, r⟩ => (Inflated.out r).length ≤ room ∧ made ++ Inflated.out r <+: z.out fed ∧
      (Inflated.zerr r = .streamEnd → z.raw fed = some (made ++ Inflated.out r))
  | _ => True

/-- `bufferProcessFunction` with a buffer of `size` bytes, of which `written` are filled. What is copied
past its end overwrites other memory. -/
def bufferProcessFunction (size : Nat) (written data : Bytes) : Io (Option Bytes) :=
  if size < written.length + data.length then undefined else pure (some (written ++ data))

section Extract
variable (abi : Abi) (fuel : Nat)

/-- `processDeflatedEntry`. A negative length is a count of bytes that cannot be read; `read` fails then
and gives -1, which is what was asked for if the length is -1, and the inflater goes on beyond `readBuf`. -/
def processDeflated {σ : Type} (process : σ → Bytes → Io (Option σ)) (pos : Nat) (e : MapEntry) (cookie : σ) : Io (Option σ) := do
  if !(← inflateInit) then pure none
  else if e.compLen = -1 then undefined
  else if e.compLen < 0 then pure none
  else
    match ← deflatedLoop process fuel ⟨[], [], 0, [], pos, e.compLen.toNat⟩ cookie with
    | none => pure none
    | some (made, cookie) => if abi.long made.length ≠ e.uncompLen then pure none else pure (some cookie)

/-- Where `lseek` puts a file that is at `oldOff`: it refuses an offset that is negative. -/
def seek (oldOff : Nat) (offset : Int) : Nat := if 0 ≤ offset then offset.toNat else oldOff

/-- `mzProcessZipEntryContents` -/
def processContents {σ : Type} (process : σ → Bytes → Io (Option σ)) (oldOff : Nat) (e : MapEntry) (cookie : σ) : Io (Option σ) :=
  if e.compression = STORED then storedLoop process (abi.ofLong e.compLen) (seek oldOff e.offset) (abi.ofLong e.compLen) cookie
  else if e.compression = DEFLATED then processDeflated abi fuel process (seek oldOff e.offset) e cookie
  else pure none

/-- The buffer that an entry is to be given. -/
def bufferSize (e : MapEntry) : Nat := abi.ofLong e.uncompLen

/-- `mzExtractZipEntryToBuffer`: what is in the buffer if it returns `true`. The count of what is left is a
`long` that wraps around. -/
def mzExtractZipEntryToBuffer (oldOff : Nat) (e : MapEntry) : Io (Option Bytes) := do
  match ← processContents abi fuel (bufferProcessFunction (bufferSize abi e)) oldOff e [] with
  | none => pure none
  | some written => if abi.ofLong (e.uncompLen - written.length) ≠ 0 then pure none else pure (some written)

/-- `PackageExtractFileFn` with one argument, once the entry is found: the data of the value, if it has
any. -/
def packageExtractFile (oldOff : Nat) (e : MapEntry) : Io (Option Bytes) := do
  if !(← malloc (bufferSize abi e)) then pure none
  else mzExtractZipEntryToBuffer abi fuel oldOff e

end Extract

/-! ### What is handed over -/

/-- How many of `n` bytes at `pos` can be read by blocks, of a file of `length` bytes: a block that is
not there as a whole is not handed over. -/
def within (length pos n : Nat) : Nat := if pos + n ≤ length then n else (length - pos) / bufSize * bufSize

def readable (map : Bytes) (pos n : Nat) : Bytes := (map.drop pos).take (within map.length pos n)

/-- How many bytes the inflater hands over in all: the whole stream if it ends, and else full buffers. -/
def Inflater.handed (z : Inflater) (input : Bytes) : Nat :=
  match z.raw input with
  | some d => d.length
  | none => (z.out input).length / bufSize * bufSize

/-- An entry that fits into the buffer it is given: the bytes of a stored entry, or what is made of a
deflated one, are no more than it says; and its compressed length is not -1. -/
def FitsBuffer (abi : Abi) (z : Inflater) (map : Bytes) (pos : Nat) (e : MapEntry) : Prop :=
  if e.compression = STORED then within map.length pos (abi.ofLong e.compLen) ≤ bufferSize abi e
  else if e.compression = DEFLATED then
    e.compLen ≠ -1 ∧ (0 ≤ e.compLen → z.handed (readable map pos e.compLen.toNat) ≤ bufferSize abi e)
  else True

/-- With an honest environment nothing is written past the end of the buffer, and a success fills it. -/
structure Exact (abi : Abi) (z : Inflater) (map : Bytes) (e : MapEntry) (x : Io (Option Bytes)) : Prop where
  noOverrun : ∀ log, (∀ s ∈ log, z.Honest map s) → ¬Prog.Reaches Call.undefined x log
  whole : ∀ log data, (∀ s ∈ log, z.Honest map s) → Prog.Runs x log (some data) → data.length = bufferSize abi e

section Within
variable {length pos n : Nat}

theorem bufSize_pos : 0 < bufSize := by decide

theorem within_step (h : pos + min n bufSize ≤ length) :
    within length pos n = min n bufSize + within length (pos + min n bufSize) (n - min n bufSize) := by
  unfold within
  rcases Nat.le_total n bufSize with hn | hn
  · rw [Nat.min_eq_left hn] at h ⊢
    rw [if_pos h, Nat.sub_self, if_pos (by omega), Nat.add_zero]
  · rw [Nat.min_eq_right hn] at h ⊢
    have hsame : pos + bufSize + (n - bufSize) = pos + n := by omega
    rw [hsame]
    split_ifs
    · omega
    · have hsplit : length - pos = (length - (pos + bufSize)) + bufSize := by omega
      rw [hsplit, Nat.add_div_right _ bufSize_pos, Nat.succ_mul, Nat.add_comm]

theorem within_stop (h : ¬pos + min n bufSize ≤ length) : within length pos n = 0 := by
  have hmin := Nat.min_le_left n bufSize
  have hmin' := Nat.min_le_right n bufSize
  have hpos := bufSize_pos
  rw [within, if_neg (by omega), Nat.div_eq_of_lt (by omega), Nat.zero_mul]

theorem within_le : within length pos n ≤ length - pos := by
  unfold within
  split_ifs
  · omega
  · exact Nat.div_mul_le_self _ _

theorem length_readable (map : Bytes) (pos n : Nat) : (readable map pos n).length = within map.length pos n := by
  rw [readable, List.length_take, List.length_drop]
  exact Nat.min_eq_left within_le

theorem readable_step {map : Bytes} (h : pos + min n bufSize ≤ map.length) :
    readable map pos n = (map.drop pos).take (min n bufSize) ++ readable map (pos + min n bufSize) (n - min n bufSize) := by
  rw [readable, within_step h, readable, ← List.drop_drop, ← List.take_add]

/-- A count that is down to zero, and has not passed it, has counted the whole buffer. -/
theorem bufferSize_eq {abi : Abi} {e : MapEntry} (hle : n ≤ bufferSize abi e) (hzero : abi.ofLong (e.uncompLen - n) = 0) : n = bufferSize abi e := by
  unfold bufferSize Abi.ofLong at *
  cases abi <;> simp only [Abi.word] at * <;> omega

end Within

/-! ### Where the entry fits -/

section Fits
variable {z : Inflater} {map : Bytes} {size : Nat}

/-- The call that an overrun comes to. -/
def Bad (q : Call) : Prop := q = .undefined

theorem avoids_process {written data : Bytes} (h : written.length + data.length ≤ size) :
    (bufferProcessFunction size written data).Avoids (z.Honest map) Bad fun r => r = some (written ++ data) := by
  rw [bufferProcessFunction, if_neg (by omega)]
  exact Prog.avoids_pure rfl

/-- What is in the buffer at the end is not more than it holds. -/
def Inside (size : Nat) (r : Option Bytes) : Prop := ∀ written, r = some written → written.length ≤ size

theorem inside_none : Inside size none := fun _ h => by cases h

/-- A whole block that is read is the next of the file. -/
theorem Inflater.Honest.block {pos n : Nat} {buf : Bytes} (h : z.Honest map ⟨.read pos n, some buf⟩) (hlength : buf.length = n) :
    buf = (map.drop pos).take n ∧ (0 < n → pos + n ≤ map.length) := by
  have hpre : buf <+: (map.drop pos).take n := h buf rfl
  have hle := hpre.length_le
  rw [List.length_take, List.length_drop] at hle
  refine ⟨hpre.eq_of_length ?_, fun hn => by omega⟩
  rw [List.length_take, List.length_drop]
  omega

theorem avoids_storedLoop (left : Nat) {pos n : Nat} {written : Bytes} (hfit : written.length + within map.length pos n ≤ size) :
    (storedLoop (bufferProcessFunction size) left pos n written).Avoids (z.Honest map) Bad (Inside size) := by
  have hdone : Inside size (some written) := fun w hw => by
    obtain rfl := Option.some.inj hw
    omega
  induction left generalizing pos n written with
  | zero => exact Prog.avoids_pure hdone
  | succ left ih =>
    rw [storedLoop]
    refine Prog.avoids_ite (fun _ => Prog.avoids_pure hdone) fun hn => ?_
    have hcount : 0 < min n bufSize := Nat.lt_min.mpr ⟨Nat.pos_of_ne_zero hn, bufSize_pos⟩
    refine Prog.avoids_call (fun h => by cases h) fun r hr => ?_
    cases r with
    | none => exact Prog.avoids_pure inside_none
    | some buf =>
      refine Prog.avoids_ite (fun _ => Prog.avoids_pure inside_none) fun hlength => ?_
      rw [not_not] at hlength
      have hstep := within_step ((hr.block hlength).2 hcount)
      refine Prog.avoids_bind (avoids_process (by omega)) fun r' hr' => ?_
      subst hr'
      have hfit' : (written ++ buf).length + within map.length (pos + min n bufSize) (n - min n bufSize) ≤ size := by
        rw [List.length_append]
        omega
      refine ih hfit' fun w hw => ?_
      obtain rfl := Option.some.inj hw
      omega

/-- A stream on its way, when `written` has been handed over: what it was given and can still be given,
and what it has put out. -/
structure Flow (z : Inflater) (map input : Bytes) (zs : ZStream) (written : Bytes) : Prop where
  input : input = zs.fed ++ readable map zs.pos zs.compRemaining
  made : zs.made = written ++ zs.procBuf
  out : zs.made <+: z.out zs.fed
  blocks : written.length % bufSize = 0
  room : zs.procBuf.length ≤ bufSize

variable {input written : Bytes} {zs : ZStream}

theorem Flow.prefix_input (h : Flow z map input zs written) : z.out zs.fed <+: z.out input := by
  rw [h.input]
  exact z.mono _ _

/-- The stream when a block has been read. -/
def ZStream.given (zs : ZStream) (buf : Bytes) : ZStream :=
  { zs with
    fed := zs.fed ++ buf
    availIn := min zs.compRemaining bufSize
    pos := zs.pos + min zs.compRemaining bufSize
    compRemaining := zs.compRemaining - min zs.compRemaining bufSize }

theorem Flow.given (h : Flow z map input zs written) {buf : Bytes} (hbuf : buf = (map.drop zs.pos).take (min zs.compRemaining bufSize))
    (hinside : 0 < min zs.compRemaining bufSize → zs.pos + min zs.compRemaining bufSize ≤ map.length) :
    Flow z map input (zs.given buf) written := by
  refine ⟨?_, h.made, h.out.trans (z.mono _ _), h.blocks, h.room⟩
  show input = zs.fed ++ buf ++ readable map (zs.pos + min zs.compRemaining bufSize) (zs.compRemaining - min zs.compRemaining bufSize)
  rw [List.append_assoc, h.input]
  rcases Nat.eq_zero_or_pos (min zs.compRemaining bufSize) with hzero | hpos
  · rw [hzero] at hbuf ⊢
    rw [hbuf, List.take_zero, List.nil_append, Nat.add_zero, Nat.sub_zero]
  · rw [hbuf, ← readable_step (hinside hpos)]

theorem Flow.after (h : Flow z map input zs written) {r : Inflated} (hroom : r.out.length ≤ bufSize - zs.procBuf.length)
    (hout : zs.made ++ r.out <+: z.out zs.fed) : Flow z map input (zs.after r) written := by
  refine ⟨h.input, ?_, hout, h.blocks, ?_⟩
  · show zs.made ++ r.out = written ++ (zs.procBuf ++ r.out)
    rw [h.made, List.append_assoc]
  · have := h.room
    show (zs.procBuf ++ r.out).length ≤ bufSize
    rw [List.length_append]
    omega

theorem Flow.flush (h : Flow z map input zs written) (hfull : zs.procBuf.length = bufSize) :
    Flow z map input { zs with procBuf := [] } (written ++ zs.procBuf) := by
  refine ⟨h.input, ?_, h.out, ?_, Nat.zero_le _⟩
  · show zs.made = written ++ zs.procBuf ++ []
    rw [List.append_nil, h.made]
  · rw [List.length_append, hfull, Nat.add_mod_right]
    exact h.blocks

theorem avoids_fill (h : Flow z map input zs written) :
    (fill zs).Avoids (z.Honest map) Bad fun r => ∀ zs', r = some zs' → Flow z map input zs' written := by
  unfold fill
  refine Prog.avoids_ite (fun _ => Prog.avoids_pure fun zs' hzs => ?_) fun _ => ?_
  · obtain rfl := Option.some.inj hzs
    exact h
  refine Prog.avoids_call (fun h => by cases h) fun r hr => ?_
  cases r with
  | none => exact Prog.avoids_pure fun zs' hzs => by cases hzs
  | some buf =>
    refine Prog.avoids_ite (fun _ => Prog.avoids_pure fun zs' hzs => by cases hzs) fun hlength => Prog.avoids_pure fun zs' hzs => ?_
    rw [not_not] at hlength
    obtain rfl := Option.some.inj hzs
    obtain ⟨hbuf, hinside⟩ := hr.block hlength
    exact h.given hbuf hinside

theorem avoids_inflateStep (h : Flow z map input zs written) :
    (inflateStep zs).Avoids (z.Honest map) Bad fun r => ∀ zs' zerr, r = some (zs', zerr) →
      Flow z map input zs' written ∧ (zerr ≠ .ok → z.raw zs'.fed = some zs'.made) := by
  unfold inflateStep
  refine Prog.avoids_bind (avoids_fill h) fun r hr => ?_
  cases r with
  | none => exact Prog.avoids_pure fun zs' zerr hzs => by cases hzs
  | some zs₁ =>
    have hflow := hr zs₁ rfl
    refine Prog.avoids_call (fun h => by cases h) fun r hr => ?_
    refine Prog.avoids_ite (fun _ => Prog.avoids_pure fun zs' zerr hzs => by cases hzs) fun herror => ?_
    refine Prog.avoids_pure fun zs' zerr hzs => ?_
    obtain ⟨rfl, rfl⟩ := Prod.mk.inj (Option.some.inj hzs)
    obtain ⟨hroom, hout, hend⟩ := hr
    refine ⟨hflow.after hroom hout, fun hnot => hend ?_⟩
    cases hz : r.zerr with
    | ok => exact absurd hz hnot
    | streamEnd => rfl
    | error => exact absurd hz herror

/-- What is handed over is part of all that the inflater hands over. -/
theorem Flow.handed_le (h : Flow z map input zs written) (hfull : zs.procBuf.length = bufSize) :
    written.length + zs.procBuf.length ≤ z.handed input := by
  have hle := (h.out.trans h.prefix_input).length_le
  rw [h.made, List.length_append] at hle
  have hblocks : (written.length + zs.procBuf.length) % bufSize = 0 := by
    rw [hfull, Nat.add_mod_right]
    exact h.blocks
  unfold Inflater.handed
  cases hraw : z.raw input with
  | some d => rwa [z.whole _ _ hraw] at hle
  | none =>
    have hdiv := Nat.div_le_div_right (c := bufSize) hle
    calc written.length + zs.procBuf.length
        = (written.length + zs.procBuf.length) / bufSize * bufSize := by
          have := Nat.div_add_mod' (written.length + zs.procBuf.length) bufSize
          omega
      _ ≤ (z.out input).length / bufSize * bufSize := Nat.mul_le_mul_right _ hdiv

theorem Flow.handed_end (h : Flow z map input zs written) (hraw : z.raw zs.fed = some zs.made) :
    z.handed input = written.length + zs.procBuf.length := by
  have hinput : z.raw input = some zs.made := by
    rw [h.input]
    exact z.extend _ _ _ hraw
  rw [Inflater.handed, hinput, ← List.length_append, ← h.made]

/-- What handing over comes to: the stream goes round again, or all that it holds is in the buffer. -/
theorem avoids_handOver {zerr : Zerr} (h : Flow z map input zs written) (hfit : z.handed input ≤ size) (hwritten : written.length ≤ size)
    (hend : zerr ≠ .ok → z.raw zs.fed = some zs.made) :
    (handOver (bufferProcessFunction size) zs zerr written).Avoids (z.Honest map) Bad fun r =>
      ∀ zs' written', r = some (zs', written') → written'.length ≤ size ∧ (zerr = .ok → Flow z map input zs' written') := by
  unfold handOver
  refine Prog.avoids_ite (fun hfull => ?_) fun hnot => Prog.avoids_pure fun zs' written' hr => ?_
  · have hroom : written.length + zs.procBuf.length ≤ size := by
      rcases hfull with hfull | ⟨hstream, -⟩
      · exact (h.handed_le hfull).trans hfit
      · rw [← h.handed_end (hend (by rw [hstream]; decide))]
        exact hfit
    refine Prog.avoids_bind (avoids_process hroom) fun r hr => ?_
    subst hr
    refine Prog.avoids_pure fun zs' written' hr => ?_
    obtain ⟨rfl, rfl⟩ := Prod.mk.inj (Option.some.inj hr)
    rw [List.length_append]
    exact ⟨hroom, fun hok => h.flush (hfull.resolve_right fun h => by rw [hok] at h; cases h.1)⟩
  · obtain ⟨rfl, rfl⟩ := Prod.mk.inj (Option.some.inj hr)
    exact ⟨hwritten, fun _ => h⟩

theorem avoids_deflatedLoop (fuel : Nat) (hfit : z.handed input ≤ size) (hwritten : written.length ≤ size) (h : Flow z map input zs written) :
    (deflatedLoop (bufferProcessFunction size) fuel zs written).Avoids (z.Honest map) Bad fun r =>
      ∀ made written', r = some (made, written') → written'.length ≤ size := by
  induction fuel generalizing zs written with
  | zero => exact ⟨(fun h => by cases h), fun r => Empty.elim r⟩
  | succ fuel ih =>
    rw [deflatedLoop]
    refine Prog.avoids_bind (avoids_inflateStep h) fun r hr => ?_
    cases r with
    | none => exact Prog.avoids_pure fun _ _ h => by cases h
    | some r =>
      obtain ⟨zs', zerr⟩ := r
      obtain ⟨hflow, hend⟩ := hr zs' zerr rfl
      refine Prog.avoids_bind (avoids_handOver hflow hfit hwritten hend) fun r hr => ?_
      cases r with
      | none => exact Prog.avoids_pure fun _ _ h => by cases h
      | some r =>
        obtain ⟨zs'', written'⟩ := r
        obtain ⟨hwritten', hgo⟩ := hr zs'' written' rfl
        refine Prog.avoids_ite (fun hok => ih hwritten' (hgo hok)) fun _ => Prog.avoids_pure fun _ _ h => ?_
        obtain ⟨-, rfl⟩ := Prod.mk.inj (Option.some.inj h)
        exact hwritten'

theorem flow_start (z : Inflater) (map : Bytes) (pos n : Nat) : Flow z map (readable map pos n) ⟨[], [], 0, [], pos, n⟩ [] :=
  ⟨rfl, rfl, List.nil_prefix, rfl, Nat.zero_le _⟩

variable {abi : Abi} {oldOff : Nat} {e : MapEntry}

theorem avoids_processContents (fuel : Nat) (h : FitsBuffer abi z map (seek oldOff e.offset) e) :
    (processContents abi fuel (bufferProcessFunction (bufferSize abi e)) oldOff e []).Avoids (z.Honest map) Bad (Inside (bufferSize abi e)) := by
  unfold FitsBuffer at h
  unfold processContents
  refine Prog.avoids_ite (fun hstored => ?_) fun hstored => Prog.avoids_ite (fun hdeflated => ?_) fun _ => Prog.avoids_pure inside_none
  · rw [if_pos hstored] at h
    exact avoids_storedLoop _ (by simpa using h)
  · rw [if_neg hstored, if_pos hdeflated] at h
    unfold processDeflated
    refine Prog.avoids_call (fun h => by cases h) fun r _ => Prog.avoids_ite (fun _ => Prog.avoids_pure inside_none) fun _ => ?_
    refine Prog.avoids_ite (fun hminus => absurd hminus h.1) fun _ => Prog.avoids_ite (fun _ => Prog.avoids_pure inside_none) fun hnonneg => ?_
    refine Prog.avoids_bind (avoids_deflatedLoop fuel (h.2 (by omega)) (Nat.zero_le _) (flow_start z map _ _)) fun r hr => ?_
    cases r with
    | none => exact Prog.avoids_pure inside_none
    | some r =>
      refine Prog.avoids_ite (fun _ => Prog.avoids_pure inside_none) fun _ => Prog.avoids_pure fun w hw => ?_
      obtain rfl := Option.some.inj hw
      exact hr r.1 r.2 rfl

theorem avoids_extract (fuel : Nat) (h : FitsBuffer abi z map (seek oldOff e.offset) e) :
    (mzExtractZipEntryToBuffer abi fuel oldOff e).Avoids (z.Honest map) Bad fun r => ∀ data, r = some data → data.length = bufferSize abi e := by
  unfold mzExtractZipEntryToBuffer
  refine Prog.avoids_bind (avoids_processContents fuel h) fun r hr => ?_
  cases r with
  | none => exact Prog.avoids_pure fun _ h => by cases h
  | some written =>
    refine Prog.avoids_ite (fun _ => Prog.avoids_pure fun _ h => by cases h) fun hzero => Prog.avoids_pure fun data hdata => ?_
    obtain rfl := Option.some.inj hdata
    rw [not_not] at hzero
    exact bufferSize_eq (hr _ rfl) hzero

theorem avoids_packageExtract (fuel : Nat) (h : FitsBuffer abi z map (seek oldOff e.offset) e) :
    (packageExtractFile abi fuel oldOff e).Avoids (z.Honest map) Bad fun r => ∀ data, r = some data → data.length = bufferSize abi e := by
  unfold packageExtractFile
  refine Prog.avoids_call (fun h => by cases h) fun r _ => Prog.avoids_ite (fun _ => Prog.avoids_pure fun _ h => by cases h) fun _ => ?_
  exact avoids_extract fuel h

theorem Exact.of_avoids {x : Io (Option Bytes)} (h : x.Avoids (z.Honest map) Bad fun r => ∀ data, r = some data → data.length = bufferSize abi e) :
    Exact abi z map e x :=
  ⟨fun _ hlog hreach => h.not_reaches hreach hlog rfl, fun _ data hlog hruns => h.result hruns hlog data rfl⟩

end Fits

/-! ### Where it does not -/

section Overruns
variable {z : Inflater} {map : Bytes} {size : Nat}

/-- Some honest answers lead to the overrun. -/
def Overruns {α : Type} (z : Inflater) (map : Bytes) (x : Io α) : Prop := ∃ log, (∀ s ∈ log, z.Honest map s) ∧ Prog.Reaches Call.undefined x log

theorem Overruns.first {α β : Type} {x : Io α} (f : α → Io β) (h : Overruns z map x) : Overruns z map (x >>= f) := by
  obtain ⟨log, hlog, hreach⟩ := h
  exact ⟨log, hlog, Prog.reaches_first f hreach⟩

/-- An honest answer after which the overrun comes. -/
theorem Overruns.call {α : Type} {q : Call} {f : Answer q → Io α} (r : Answer q) (hr : z.Honest map ⟨q, r⟩) (h : Overruns z map (f r)) :
    Overruns z map (Prog.ask q >>= f) := by
  obtain ⟨log, hlog, hreach⟩ := h
  exact ⟨⟨q, r⟩ :: log, List.forall_mem_cons.mpr ⟨hr, hlog⟩, .call r hreach⟩

/-- Some honest answers lead to a result. -/
def Yields {α : Type} (z : Inflater) (map : Bytes) (x : Io α) (a : α) : Prop := ∃ log, (∀ s ∈ log, z.Honest map s) ∧ Prog.Runs x log a

theorem yields_pure {α : Type} (a : α) : Yields z map (pure a) a := ⟨[], by simp, .done a⟩

theorem Yields.call {α : Type} {q : Call} {f : Answer q → Io α} {a : α} (r : Answer q) (hr : z.Honest map ⟨q, r⟩) (h : Yields z map (f r) a) :
    Yields z map (Prog.ask q >>= f) a := by
  obtain ⟨log, hlog, hruns⟩ := h
  exact ⟨⟨q, r⟩ :: log, List.forall_mem_cons.mpr ⟨hr, hlog⟩, .call r hruns⟩

theorem Yields.bind {α β : Type} {x : Io α} {f : α → Io β} {a : α} {b : β} (h : Yields z map x a) (hf : Yields z map (f a) b) :
    Yields z map (x >>= f) b := by
  obtain ⟨l, hl, hruns⟩ := h
  obtain ⟨l', hl', hruns'⟩ := hf
  exact ⟨l ++ l', List.forall_mem_append.mpr ⟨hl, hl'⟩, Prog.runs_bind.mpr ⟨l, a, l', rfl, hruns, hruns'⟩⟩

theorem Yields.overruns {α β : Type} {x : Io α} {f : α → Io β} {a : α} (h : Yields z map x a) (hf : Overruns z map (f a)) :
    Overruns z map (x >>= f) := by
  obtain ⟨l, hl, hruns⟩ := h
  obtain ⟨l', hl', hreach⟩ := hf
  exact ⟨l ++ l', List.forall_mem_append.mpr ⟨hl, hl'⟩, Prog.reaches_later hruns hreach⟩

theorem overruns_process {written data : Bytes} (h : size < written.length + data.length) :
    Overruns z map (bufferProcessFunction size written data) := by
  rw [bufferProcessFunction, if_pos h]
  exact ⟨[], by simp, .here _⟩

theorem process_eq {written data : Bytes} (h : written.length + data.length ≤ size) :
    bufferProcessFunction size written data = pure (some (written ++ data)) := by
  rw [bufferProcessFunction, if_neg (by omega)]

theorem pure_bind_some {α β : Type} (a : α) (f : α → Io β) : ((pure a : Io α) >>= f) = f a := rfl

theorem overruns_storedLoop (left : Nat) {pos n : Nat} {written : Bytes} (hleft : n ≤ left) (hwritten : written.length ≤ size)
    (hover : size < written.length + within map.length pos n) :
    Overruns z map (storedLoop (bufferProcessFunction size) left pos n written) := by
  induction left generalizing pos n written with
  | zero =>
    obtain rfl : n = 0 := by omega
    have hzero : within map.length pos 0 = 0 := by
      by_cases h : pos + min 0 bufSize ≤ map.length
      · rw [within, if_pos (by simpa using h)]
      · exact within_stop h
    omega
  | succ left ih =>
    have hinside : pos + min n bufSize ≤ map.length := by
      by_contra hnot
      rw [within_stop hnot] at hover
      omega
    have hn : n ≠ 0 := by
      rintro rfl
      rw [within, if_pos (by simpa using hinside)] at hover
      omega
    have hcount : 0 < min n bufSize := Nat.lt_min.mpr ⟨Nat.pos_of_ne_zero hn, bufSize_pos⟩
    have hlength : ((map.drop pos).take (min n bufSize)).length = min n bufSize := by
      rw [List.length_take, List.length_drop]
      omega
    rw [storedLoop, if_neg hn]
    refine Overruns.call (some ((map.drop pos).take (min n bufSize))) ?_ ?_
    · intro buf hbuf
      obtain rfl := Option.some.inj hbuf
      exact List.prefix_refl _
    show Overruns z map (if _ then _ else _)
    rw [if_neg (not_not.mpr hlength)]
    rcases Nat.lt_or_ge size (written.length + ((map.drop pos).take (min n bufSize)).length) with hpast | hroom
    · exact (overruns_process hpast).first _
    · rw [process_eq hroom, pure_bind_some]
      rw [within_step hinside] at hover
      refine ih (by omega) ?_ ?_
      · rw [List.length_append]
        exact hroom
      · rw [List.length_append, hlength]
        omega

/-- What an inflater does that puts out as much as it can. -/
def Inflater.answer (z : Inflater) (zs : ZStream) : Inflated where
  availIn := if zs.made.length + (bufSize - zs.procBuf.length) < (z.out zs.fed).length then 1 else 0
  out := ((z.out zs.fed).drop zs.made.length).take (bufSize - zs.procBuf.length)
  zerr := if z.raw zs.fed = some (zs.made ++ ((z.out zs.fed).drop zs.made.length).take (bufSize - zs.procBuf.length)) then .streamEnd else .ok

theorem Inflater.answer_zerr (z : Inflater) (zs : ZStream) : (z.answer zs).zerr ≠ .error := by
  unfold Inflater.answer
  dsimp only
  split <;> decide

/-- A stream with which the loop goes round: it has not ended, and it has input left if there is output
to come from it. -/
structure Going (z : Inflater) (map input : Bytes) (zs : ZStream) (written : Bytes) : Prop extends Flow z map input zs written where
  open' : z.raw zs.fed ≠ some zs.made
  partly : zs.procBuf.length < bufSize
  pending : zs.availIn ≠ 0 ↔ zs.made.length < (z.out zs.fed).length

/-- What is still to come in and to go out. -/
def pendingSteps (z : Inflater) (map input : Bytes) (zs : ZStream) : Nat :=
  (readable map zs.pos zs.compRemaining).length + ((z.out input).length - zs.made.length)

variable {input written : Bytes} {zs : ZStream}

theorem Inflater.made_answer (z : Inflater) (h : zs.made <+: z.out zs.fed) :
    zs.made ++ (z.answer zs).out = (z.out zs.fed).take (zs.made.length + (bufSize - zs.procBuf.length)) := by
  obtain ⟨rest, hrest⟩ := h
  show zs.made ++ ((z.out zs.fed).drop zs.made.length).take _ = _
  rw [← hrest, List.drop_left, List.take_length_add_append]

theorem Inflater.answer_honest (z : Inflater) (h : zs.made <+: z.out zs.fed) :
    z.Honest map ⟨.inflate zs.fed zs.made (bufSize - zs.procBuf.length), z.answer zs⟩ := by
  refine ⟨?_, ?_, fun hend => ?_⟩
  · exact List.length_take_le _ _
  · show zs.made ++ (z.answer zs).out <+: z.out zs.fed
    rw [z.made_answer h]
    exact List.take_prefix _ _
  · by_contra hnot
    have hok : (z.answer zs).zerr = .ok := if_neg hnot
    exact absurd (hok.symm.trans hend) (by decide)

/-- With all input read and all output put out, what is left does not fill a buffer. -/
theorem Going.handed_done (h : Going z map input zs written) (hinput : input = zs.fed) (hmade : zs.made = z.out zs.fed) :
    z.handed input = written.length := by
  subst hinput
  unfold Inflater.handed
  cases hraw : z.raw zs.fed with
  | some d =>
    rw [z.whole _ _ hraw] at hmade
    exact absurd (hmade ▸ hraw) h.open'
  | none =>
    show (z.out zs.fed).length / bufSize * bufSize = written.length
    have hblocks := h.blocks
    have hpartly := h.partly
    have hdiv := Nat.div_add_mod' written.length bufSize
    rw [← hmade, h.made, List.length_append]
    rw [hblocks, Nat.add_zero] at hdiv
    have hquot : (written.length + zs.procBuf.length) / bufSize = written.length / bufSize := by
      rw [← hdiv, Nat.add_comm, Nat.add_mul_div_right _ _ bufSize_pos, Nat.div_eq_of_lt hpartly, Nat.zero_add,
        Nat.mul_div_cancel _ bufSize_pos]
    rw [hquot, hdiv]

/-- There is a next block, if the stream needs one. -/
theorem Going.block (h : Going z map input zs written) (hwritten : written.length < z.handed input) (hempty : zs.availIn = 0) :
    0 < min zs.compRemaining bufSize ∧ zs.pos + min zs.compRemaining bufSize ≤ map.length := by
  have hmade : zs.made = z.out zs.fed := by
    have hnot : ¬zs.made.length < (z.out zs.fed).length := fun hlt => h.pending.mpr hlt hempty
    exact h.out.eq_of_length_le (by omega)
  by_contra hnot
  have hnone : readable map zs.pos zs.compRemaining = [] := by
    rw [← List.length_eq_zero_iff, length_readable]
    by_cases hin : zs.pos + min zs.compRemaining bufSize ≤ map.length
    · have hpos := bufSize_pos
      have hzero : zs.compRemaining = 0 := by omega
      rw [hzero] at hin ⊢
      rw [within, if_pos (by simpa using hin)]
    · exact within_stop hin
  have hinput : input = zs.fed := by
    rw [h.input, hnone, List.append_nil]
  rw [h.handed_done hinput hmade] at hwritten
  exact absurd hwritten (Nat.lt_irrefl _)

/-- What `fill` comes to, with the block that is in the file. -/
theorem Going.fill (h : Going z map input zs written) (hwritten : written.length < z.handed input) :
    ∃ zs₁, Yields z map (Zip.fill zs) (some zs₁) ∧ Flow z map input zs₁ written ∧ zs₁.made = zs.made ∧ zs₁.procBuf = zs.procBuf ∧
      ((readable map zs₁.pos zs₁.compRemaining).length < (readable map zs.pos zs.compRemaining).length ∨
        zs₁ = zs ∧ zs.made.length < (z.out zs.fed).length) := by
  by_cases hempty : zs.availIn = 0
  · obtain ⟨hcount, hinside⟩ := h.block hwritten hempty
    have hlength : ((map.drop zs.pos).take (min zs.compRemaining bufSize)).length = min zs.compRemaining bufSize := by
      rw [List.length_take, List.length_drop]
      omega
    refine ⟨zs.given ((map.drop zs.pos).take (min zs.compRemaining bufSize)), ?_, h.toFlow.given rfl fun _ => hinside, rfl, rfl, .inl ?_⟩
    · rw [Zip.fill, if_neg (not_not.mpr hempty)]
      refine Yields.call (some ((map.drop zs.pos).take (min zs.compRemaining bufSize))) ?_ ?_
      · intro buf hbuf
        obtain rfl := Option.some.inj hbuf
        exact List.prefix_refl _
      · show Yields z map (if _ then _ else _) _
        rw [if_neg (not_not.mpr hlength)]
        exact yields_pure _
    · rw [readable_step hinside, List.length_append, hlength]
      exact Nat.lt_add_of_pos_left hcount
  · refine ⟨zs, ?_, h.toFlow, rfl, rfl, .inr ⟨rfl, h.pending.mp hempty⟩⟩
    rw [Zip.fill, if_pos hempty]
    exact yields_pure _

/-- The stream after the answer, and whether it has input left. -/
theorem Flow.answered (h : Flow z map input zs written) :
    Flow z map input (zs.after (z.answer zs)) written ∧
      ((zs.after (z.answer zs)).availIn ≠ 0 ↔ (zs.after (z.answer zs)).made.length < (z.out zs.fed).length) := by
  obtain ⟨hroom, hout, -⟩ : z.Honest map _ := z.answer_honest h.out
  refine ⟨h.after hroom hout, ?_⟩
  have hmade : (zs.after (z.answer zs)).made = _ := z.made_answer h.out
  rw [hmade, List.length_take]
  show (if _ then 1 else 0) ≠ 0 ↔ _
  split <;> omega

/-- What a step of the loop comes to: there is less to come, and the stream has ended if the inflater
says so. -/
theorem Going.step (h : Going z map input zs written) (hwritten : written.length < z.handed input) :
    ∃ zs' zerr, Yields z map (inflateStep zs) (some (zs', zerr)) ∧ Flow z map input zs' written ∧
      (zs'.availIn ≠ 0 ↔ zs'.made.length < (z.out zs'.fed).length) ∧
      (zerr = .ok ∧ z.raw zs'.fed ≠ some zs'.made ∨ zerr = .streamEnd ∧ z.raw zs'.fed = some zs'.made) ∧
      pendingSteps z map input zs' < pendingSteps z map input zs := by
  obtain ⟨zs₁, hfill, hflow, hmade, hproc, hless⟩ := h.fill hwritten
  obtain ⟨hflow', hpending⟩ := hflow.answered
  have hhonest : z.Honest map _ := z.answer_honest hflow.out
  have hout : (zs₁.after (z.answer zs₁)).made = _ := z.made_answer hflow.out
  refine ⟨zs₁.after (z.answer zs₁), (z.answer zs₁).zerr, hfill.bind ?_, hflow', hpending, ?_, ?_⟩
  · refine Yields.call (z.answer zs₁) hhonest ?_
    show Yields z map (if (z.answer zs₁).zerr = .error then pure none else pure (some (zs₁.after (z.answer zs₁), (z.answer zs₁).zerr))) _
    rw [if_neg (z.answer_zerr zs₁)]
    exact yields_pure _
  · by_cases hraw : z.raw zs₁.fed = some (zs₁.made ++ (z.answer zs₁).out)
    · exact .inr ⟨if_pos hraw, hraw⟩
    · exact .inl ⟨if_neg hraw, hraw⟩
  · have hpartly := h.partly
    have hprefix := (hflow.prefix_input).length_le
    have hmadeLength : (zs₁.after (z.answer zs₁)).made.length = min (zs₁.made.length + (bufSize - zs₁.procBuf.length)) (z.out zs₁.fed).length := by
      rw [hout, List.length_take]
    have hbefore := hflow.out.length_le
    show (readable map zs₁.pos zs₁.compRemaining).length + ((z.out input).length - (zs₁.after (z.answer zs₁)).made.length) < _
    rw [hmadeLength]
    unfold pendingSteps
    rw [hmade, hproc] at *
    rcases hless with hless | ⟨rfl, hless⟩ <;> omega

theorem overruns_deflatedLoop (fuel : Nat) (hover : size < z.handed input) (hwritten : written.length ≤ size)
    (h : Going z map input zs written) (hfuel : pendingSteps z map input zs < fuel) :
    Overruns z map (deflatedLoop (bufferProcessFunction size) fuel zs written) := by
  induction fuel generalizing zs written with
  | zero => omega
  | succ fuel ih =>
    obtain ⟨zs', zerr, hstep, hflow, hpending, hend, hless⟩ := h.step (by omega)
    rw [deflatedLoop]
    refine hstep.overruns ?_
    show Overruns z map (handOver (bufferProcessFunction size) zs' zerr written >>= _)
    by_cases hfull : zs'.procBuf.length = bufSize ∨ (zerr = .streamEnd ∧ zs'.procBuf ≠ [])
    · rw [handOver, if_pos hfull]
      rcases Nat.lt_or_ge size (written.length + zs'.procBuf.length) with hpast | hroom
      · exact ((overruns_process hpast).first _).first _
      · rcases hend with ⟨rfl, hraw⟩ | ⟨rfl, hraw⟩
        · have hfull : zs'.procBuf.length = bufSize := hfull.resolve_right fun h => by cases h.1
          rw [process_eq hroom]
          show Overruns z map (deflatedLoop (bufferProcessFunction size) fuel { zs' with procBuf := [] } (written ++ zs'.procBuf))
          refine ih ?_ ⟨hflow.flush hfull, hraw, bufSize_pos, hpending⟩ ?_
          · rw [List.length_append]
            exact hroom
          · exact Nat.lt_of_lt_of_le hless (by omega)
        · rw [hflow.handed_end hraw] at hover
          omega
    · rw [not_or, not_and, not_not] at hfull
      rw [handOver, if_neg (by rw [not_or, not_and, not_not]; exact hfull), pure_bind_some]
      rcases hend with ⟨rfl, hraw⟩ | ⟨rfl, hraw⟩
      · show Overruns z map (deflatedLoop (bufferProcessFunction size) fuel zs' written)
        exact ih hwritten ⟨hflow, hraw, lt_of_le_of_ne hflow.room hfull.1, hpending⟩ (by omega)
      · rw [hflow.handed_end hraw, hfull.2 rfl] at hover
        exact absurd hover (by simpa using hwritten)

theorem going_start (hover : 0 < z.handed (readable map pos n)) : Going z map (readable map pos n) ⟨[], [], 0, [], pos, n⟩ [] := by
  refine ⟨flow_start z map pos n, fun hraw => ?_, bufSize_pos, ?_⟩
  · have hwhole : z.raw (readable map pos n) = some [] := z.extend [] [] _ hraw
    rw [Inflater.handed, hwhole] at hover
    exact absurd hover (Nat.lt_irrefl 0)
  · rw [z.none_yet]
    exact ⟨fun h => absurd rfl h, fun h => absurd h (Nat.lt_irrefl 0)⟩

variable {abi : Abi} {oldOff : Nat} {e : MapEntry}

theorem overruns_processContents (h : ¬FitsBuffer abi z map (seek oldOff e.offset) e) :
    ∃ fuel, Overruns z map (processContents abi fuel (bufferProcessFunction (bufferSize abi e)) oldOff e []) := by
  unfold FitsBuffer at h
  by_cases hstored : e.compression = STORED
  · rw [if_pos hstored, Nat.not_le] at h
    refine ⟨0, ?_⟩
    rw [processContents, if_pos hstored]
    exact overruns_storedLoop _ le_rfl (Nat.zero_le _) (by simpa using h)
  · rw [if_neg hstored] at h
    by_cases hdeflated : e.compression = DEFLATED
    · rw [if_pos hdeflated] at h
      have hcase : e.compLen = -1 ∨ 0 ≤ e.compLen ∧ bufferSize abi e < z.handed (readable map (seek oldOff e.offset) e.compLen.toNat) := by
        by_contra hnot
        rw [not_or, not_and, Nat.not_lt] at hnot
        exact h hnot
      refine ⟨pendingSteps z map (readable map (seek oldOff e.offset) e.compLen.toNat) ⟨[], [], 0, [], seek oldOff e.offset, e.compLen.toNat⟩ + 1, ?_⟩
      rw [processContents, if_neg hstored, if_pos hdeflated, processDeflated]
      refine Overruns.call true trivial ?_
      show Overruns z map (if e.compLen = -1 then _ else _)
      rcases hcase with hminus | ⟨hnonneg, hover⟩
      · rw [if_pos hminus]
        exact ⟨[], by simp, .here _⟩
      · rw [if_neg (by omega), if_neg (by omega)]
        exact (overruns_deflatedLoop _ hover (Nat.zero_le _) (going_start (by omega)) (Nat.lt_succ_self _)).first _
    · rw [if_neg hdeflated] at h
      exact absurd trivial h

end Overruns

/-- Nothing is written past the end of the buffer, and a success fills it, just where the entry fits. -/
theorem exact_iff (abi : Abi) (z : Inflater) (map : Bytes) (oldOff : Nat) (e : MapEntry) :
    (∀ fuel, Exact abi z map e (mzExtractZipEntryToBuffer abi fuel oldOff e) ∧ Exact abi z map e (packageExtractFile abi fuel oldOff e)) ↔
      FitsBuffer abi z map (seek oldOff e.offset) e := by
  constructor
  · intro h
    by_contra hnot
    obtain ⟨fuel, log, hlog, hreach⟩ := overruns_processContents hnot
    exact (h fuel).1.noOverrun log hlog (Prog.reaches_first _ hreach)
  · intro h fuel
    exact ⟨.of_avoids (avoids_extract fuel h), .of_avoids (avoids_packageExtract fuel h)⟩

/-- An archive with one stored entry of a byte, which is given as empty when it is uncompressed. -/
def oversized : Bytes :=
  le32 LOCSIG ++ List.replicate 22 0 ++ le16 1 ++ le16 0 ++ [0x61, 0x62] ++
    le32 CENSIG ++ List.replicate 16 0 ++ le32 1 ++ le32 0 ++ le16 1 ++ le16 0 ++ le16 0 ++ List.replicate 8 0 ++ le32 0 ++ [0x61] ++
    le32 ENDSIG ++ List.replicate 4 0 ++ le16 1 ++ le16 1 ++ le32 47 ++ le32 32 ++ le16 0

def oversizedMap : Memory .lp64 := ⟨0x7f0000000000, oversized, by decide, by decide, by decide⟩

def oversizedEntry : MapEntry := ⟨0x7f000000004e, [0x61], 31, 1, 0, STORED, 0, 0⟩

theorem idle_extend (_ d _ : Bytes) (h : (none : Option Bytes) = some d) : (none : Option Bytes) = some d := h

theorem idle_whole (_ d : Bytes) (h : none = some d) : [] = d := absurd h (Option.some_ne_none d).symm

/-- An inflater that waits for more. -/
def idle : Inflater := ⟨⟨fun _ => none, idle_extend⟩, fun _ => [], rfl, fun _ _ => List.prefix_refl _, idle_whole⟩

/-- The archive is accepted, and the byte goes into a buffer of none. -/
theorem oversized_not_exact : parseZipArchive oversizedMap = .ok [oversizedEntry] ∧
    ¬Exact .lp64 idle oversized oversizedEntry (mzExtractZipEntryToBuffer .lp64 0 0 oversizedEntry) := by
  refine ⟨by decide, fun h => ?_⟩
  have hover : Overruns idle oversized (storedLoop (bufferProcessFunction 0) 1 31 1 []) := overruns_storedLoop 1 le_rfl le_rfl (by decide)
  obtain ⟨log, hlog, hreach⟩ := hover
  exact h.noOverrun log hlog (Prog.reaches_first _ hreach)

end Twrp.Zip
