import Twrp.Zip.Extract

/-! The contents of an entry.

Whatever function takes the contents of an entry, it is given the entry's data when all goes well: the
stored bytes, or what the inflater makes of them. A step that fails, or an entry without data, makes the
whole fail. -/
namespace Twrp.Zip
open Base

/-- The inflater of zlib, as far as it is used here: what the deflate stream at the front of some bytes
holds. What follows the stream does not matter. -/
structure Zlib where
  raw : Bytes → Option Bytes
  extend : ∀ c d more, raw c = some d → raw (c ++ more) = some d

/-- The bytes of an entry in the archive. -/
def slice (map : Bytes) (e : ZipEntry) : Bytes := (map.drop e.offset).take e.compLen

/-- The uncompressed data of an entry; `none` if it cannot be uncompressed to the size it says. -/
def Zlib.data (z : Zlib) (map : Bytes) (e : ZipEntry) : Option Bytes :=
  if e.compression = STORED then some (slice map e)
  else if e.compression = DEFLATED then (z.raw (slice map e)).filter fun d => int d.length = e.uncompLen
  else none

/-- A read, if it gives bytes, gives those of the archive; a stream that the inflater ends is the one
it was fed. -/
def Zlib.Honest (z : Zlib) (map : Bytes) : Sigma Answer → Prop
  | ⟨.read pos count, r⟩ => ∀ buf : Bytes, r = some buf → buf <+: (map.drop pos).take count
  | ⟨.inflate fed made _, r⟩ => Inflated.zerr r = .streamEnd → z.raw fed = some (made ++ Inflated.out r)
  | _ => True

def Zlib.Faithful (z : Zlib) (map : Bytes) (log : Log) : Prop := ∀ s ∈ log, z.Honest map s

/-- A step that fails. -/
def failed : Sigma Answer → Bool
  | ⟨.malloc _, ok⟩ => !ok
  | ⟨.stat _, .DILLEGAL⟩ => true
  | ⟨.mkdir _, ok⟩ => !ok
  | ⟨.utime _, ok⟩ => !ok
  | ⟨.creat _, ok⟩ => !ok
  | ⟨.read _ _, none⟩ => true
  | ⟨.read _ count, some buf⟩ => decide (List.length buf ≠ count)
  | ⟨.inflateInit, ok⟩ => !ok
  | ⟨.inflate _ _ _, ⟨_, _, .error⟩⟩ => true
  | ⟨.write _, none⟩ => true
  | ⟨.write data, some n⟩ => decide (n = 0 ∨ data.length < n)
  | ⟨.symlink _ _, ok⟩ => !ok
  | _ => false

/-- No step of a log fails. -/
def Flawless (log : Log) : Prop := ∀ s ∈ log, failed s = false

/-- What was written to a file. -/
def written (log : Log) : Bytes :=
  log.flatMap fun
    | ⟨.write data, some n⟩ => data.take n
    | _ => []

theorem flawless_nil : Flawless [] := by simp [Flawless]

theorem flawless_cons {s : Sigma Answer} {log : Log} : Flawless (s :: log) ↔ failed s = false ∧ Flawless log :=
  List.forall_mem_cons

theorem flawless_append {log log' : Log} : Flawless (log ++ log') ↔ Flawless log ∧ Flawless log' :=
  List.forall_mem_append

theorem written_append (log log' : Log) : written (log ++ log') = written log ++ written log' := List.flatMap_append

/-! ### The calls -/

theorem logs_read (pos count : Nat) : Prog.Logs (fun r => ⟨.read pos count, r⟩) (read pos count) := Prog.logs_ask _
theorem logs_inflateInit : Prog.Logs (fun ok => ⟨.inflateInit, ok⟩) inflateInit := Prog.logs_ask _
theorem logs_inflate (fed made : Bytes) (room : Nat) : Prog.Logs (fun r => ⟨.inflate fed made room, r⟩) (inflate fed made room) :=
  Prog.logs_ask _
theorem logs_write (data : Bytes) : Prog.Logs (fun r => ⟨.write data, r⟩) (write data) := Prog.logs_ask _

/-! ### Writing -/

theorem writeLoop_spec {left : Nat} {data : Bytes} (hleft : data.length ≤ left) (hdata : data ≠ []) :
    (writeLoop left data).Post fun l ok => if ok then Flawless l ∧ written l = data else ¬Flawless l := by
  induction left generalizing data with
  | zero =>
    have hnil : data = [] := List.length_eq_zero_iff.mp (by omega)
    exact absurd hnil hdata
  | succ left ih =>
    rw [writeLoop]
    refine Prog.post_call (logs_write data) fun r => ?_
    cases r with
    | none =>
      apply Prog.post_pure
      simp [flawless_cons, failed]
    | some n =>
      refine Prog.post_ite (fun hn => ?_) fun hn => ?_
      · apply Prog.post_pure
        simp [flawless_cons, failed, hn]
      refine Prog.post_ite (fun heq => ?_) fun hne => ?_
      · apply Prog.post_pure
        simp [flawless_cons, flawless_nil, failed, written, heq, hdata]
      refine Prog.post_ite (fun hlt => ?_) fun hge => ?_
      · apply Prog.post_pure
        simp [flawless_cons, failed, hlt]
      have hrest : data.drop n ≠ [] := by
        intro hnil
        have := congrArg List.length hnil
        rw [List.length_drop, List.length_nil] at this
        omega
      refine Prog.Post.mono (ih (by rw [List.length_drop]; omega) hrest) fun l ok h => ?_
      cases ok with
      | true =>
        obtain ⟨hflawless, hwritten⟩ := h
        refine ⟨flawless_cons.mpr ⟨?_, hflawless⟩, ?_⟩
        · simp [failed, hn]
          omega
        · show data.take n ++ written l = data
          rw [hwritten, List.take_append_drop]
      | false =>
        intro hall
        exact h (flawless_cons.mp hall).2

/-! ### Taking the contents -/

/-- The calls that fetch contents. -/
def Call.isFetch : Call → Bool
  | .read _ _ => true
  | .inflateInit => true
  | .inflate _ _ _ => true
  | _ => false

/-- A function that takes contents: `Took d l c` says that it has taken `d` in the steps `l`, with the
cookie `c` then. It refuses data only if one of its own steps fails, or by the rule `Refuses`. -/
structure Taker {σ : Type} (process : σ → Bytes → Io (Option σ)) (Took : Bytes → Log → σ → Prop) (Refuses : Prop) : Prop where
  fetch : ∀ d l c s, Took d l c → Call.isFetch s.1 = true → Took d (l ++ [s]) c
  take : ∀ d l c buf, Took d l c → buf ≠ [] → (process c buf).Post fun l' r =>
    match r with
    | some c' => Flawless l' ∧ Took (d ++ buf) (l ++ l') c'
    | none => Refuses ∨ ¬Flawless l'

/-- How taking the data ends, after the steps `l`. -/
def Ends {σ : Type} (Took : Bytes → Log → σ → Prop) (Refuses : Prop) (l : Log) (data : Option Bytes) (log : Log) : Option σ → Prop
  | some c => Flawless log ∧ ∃ d, data = some d ∧ Took d (l ++ log) c
  | none => Refuses ∨ ¬Flawless log ∨ data = none

section Contents
variable {σ : Type} {process : σ → Bytes → Io (Option σ)} {Took : Bytes → Log → σ → Prop} {Refuses : Prop} {z : Zlib} {map : Bytes}

/-- Steps in front that do not fail. -/
theorem Ends.after {l l' l'' : Log} {data : Option Bytes} {r : Option σ} (h : Ends Took Refuses (l ++ l') data l'' r) (hl' : Flawless l') :
    Ends Took Refuses l data (l' ++ l'') r := by
  cases r with
  | some c =>
    obtain ⟨hflawless, d, hdata, htook⟩ := h
    rw [List.append_assoc] at htook
    exact ⟨flawless_append.mpr ⟨hl', hflawless⟩, d, hdata, htook⟩
  | none =>
    rcases h with hrefuses | hfailed | hnone
    · exact .inl hrefuses
    · exact .inr (.inl fun hall => hfailed (flawless_append.mp hall).2)
    · exact .inr (.inr hnone)

theorem ends_failed {l log : Log} {data : Option Bytes} (h : ¬Flawless log) : Ends Took Refuses l data log (none : Option σ) :=
  .inr (.inl h)

/-- Nothing is left to take. -/
theorem ends_done {l : Log} {d : Bytes} {c : σ} (h : Took d l c) : Ends Took Refuses l (some d) [] (some c) := by
  refine ⟨flawless_nil, d, rfl, ?_⟩
  rwa [List.append_nil]

/-- A function that takes some data, after steps that did not fail. -/
theorem Taker.taking (htaker : Taker process Took Refuses) {d buf : Bytes} {l l₀ : Log} {cookie : σ} (htook : Took d (l ++ l₀) cookie)
    (hflawless : Flawless l₀) (hbuf : buf ≠ []) :
    (process cookie buf).Post fun l' r =>
      match r with
      | some c => Flawless (l₀ ++ l') ∧ Took (d ++ buf) (l ++ (l₀ ++ l')) c
      | none => ∀ data l'', Ends Took Refuses l data (l₀ ++ l' ++ l'') (none : Option σ) := by
  refine Prog.Post.mono (htaker.take d _ cookie buf htook hbuf) fun l' r h => ?_
  cases r with
  | some c =>
    rw [← List.append_assoc]
    exact ⟨flawless_append.mpr ⟨hflawless, h.1⟩, h.2⟩
  | none =>
    intro data l''
    rcases h with hrefuses | hfailed
    · exact .inl hrefuses
    · exact ends_failed fun hall => hfailed (flawless_append.mp (flawless_append.mp hall).1).2

theorem take_drop_step (map : Bytes) (pos : Nat) {n left : Nat} (h : n ≤ left) :
    (map.drop pos).take n ++ (map.drop (pos + n)).take (left - n) = (map.drop pos).take left := by
  rw [← List.drop_drop, ← List.take_add, Nat.add_sub_cancel' h]

theorem Zlib.faithful_append {log log' : Log} : z.Faithful map (log ++ log') ↔ z.Faithful map log ∧ z.Faithful map log' :=
  List.forall_mem_append

/-- A buffer of whole length is what was to be read. -/
theorem Zlib.Faithful.read {log : Log} {pos count : Nat} {buf : Bytes} (h : z.Faithful map log) (hmem : ⟨.read pos count, some buf⟩ ∈ log)
    (hlength : buf.length = count) : buf = (map.drop pos).take count := by
  have hhonest : buf <+: (map.drop pos).take count := h _ hmem buf rfl
  apply hhonest.eq_of_length
  have := hhonest.length_le
  rw [List.length_take] at this ⊢
  omega

theorem storedLoop_spec (htaker : Taker process Took Refuses) (left pos bytesLeft : Nat) {cookie : σ} {d : Bytes} {l : Log}
    (hleft : bytesLeft ≤ left) (htook : Took d l cookie) :
    (storedLoop process left pos bytesLeft cookie).Post fun log r => z.Faithful map log →
      Ends Took Refuses l (some (d ++ (map.drop pos).take bytesLeft)) log r := by
  induction left generalizing pos bytesLeft cookie d l with
  | zero =>
    apply Prog.post_pure
    intro _
    rw [Nat.le_zero.mp hleft, List.take_zero, List.append_nil]
    exact ends_done htook
  | succ left ih =>
    rw [storedLoop]
    refine Prog.post_ite (fun hzero => ?_) fun hpos => ?_
    · apply Prog.post_pure
      intro _
      rw [hzero, List.take_zero, List.append_nil]
      exact ends_done htook
    have hcount : 0 < min bytesLeft bufSize ∧ min bytesLeft bufSize ≤ bytesLeft :=
      ⟨Nat.lt_min.mpr ⟨by omega, by decide⟩, Nat.min_le_left _ _⟩
    generalize min bytesLeft bufSize = n at hcount
    refine Prog.post_call (logs_read pos n) fun r => ?_
    cases r with
    | none =>
      apply Prog.post_pure
      intro _
      apply ends_failed
      simp [flawless_cons, failed]
    | some buf =>
      refine Prog.post_ite (fun hlength => ?_) fun hlength => ?_
      · apply Prog.post_pure
        intro _
        apply ends_failed
        simp [flawless_cons, failed, hlength]
      have hlength : buf.length = n := not_not.mp hlength
      have hbuf : buf ≠ [] := by
        intro hnil
        rw [hnil, List.length_nil] at hlength
        omega
      have hread : Flawless [⟨.read pos n, some buf⟩] := by simp [flawless_cons, flawless_nil, failed, hlength]
      have htook' := htaker.fetch d l cookie ⟨.read pos n, some buf⟩ htook rfl
      refine Prog.post_bind (htaker.taking htook' hread hbuf) fun l' r htake => ?_
      cases r with
      | none =>
        apply Prog.post_pure
        intro _
        exact htake _ []
      | some cookie' =>
        refine Prog.Post.mono (ih (pos + n) (bytesLeft - n) (by omega) htake.2) fun l'' r h hfaithful => ?_
        have hbuf' := hfaithful.read List.mem_cons_self hlength
        have hends := h fun s hs => hfaithful s (by simp [hs])
        rw [List.append_assoc, hbuf', take_drop_step map pos hcount.2, ← hbuf'] at hends
        exact hends.after htake.1

theorem Taker.fetchAll (htaker : Taker process Took Refuses) {d : Bytes} {l log : Log} {cookie : σ} (htook : Took d l cookie)
    (hlog : ∀ s ∈ log, Call.isFetch s.1 = true) : Took d (l ++ log) cookie := by
  induction log generalizing l with
  | nil => rwa [List.append_nil]
  | cons s log ih =>
    obtain ⟨hs, hrest⟩ := List.forall_mem_cons.mp hlog
    have htook' := ih (htaker.fetch d l cookie s htook hs) hrest
    rwa [List.append_assoc, List.singleton_append] at htook'

/-- What the stream has been given and is still to be given. -/
def ZStream.input (zs : ZStream) (map : Bytes) : Bytes := zs.fed ++ (map.drop zs.pos).take zs.compRemaining

theorem fill_spec (z : Zlib) (map : Bytes) (zs : ZStream) :
    (fill zs).Post fun log r =>
      match r with
      | some zs' => Flawless log ∧ (∀ s ∈ log, Call.isFetch s.1 = true) ∧ (z.Faithful map log → zs'.input map = zs.input map) ∧
          zs'.made = zs.made ∧ zs'.procBuf = zs.procBuf
      | none => ¬Flawless log := by
  unfold fill
  refine Prog.post_ite (fun _ => ?_) fun _ => ?_
  · apply Prog.post_pure
    exact ⟨flawless_nil, by simp, fun _ => rfl, rfl, rfl⟩
  have hcount : min zs.compRemaining bufSize ≤ zs.compRemaining := Nat.min_le_left _ _
  generalize min zs.compRemaining bufSize = n at hcount
  refine Prog.post_call (logs_read zs.pos n) fun r => ?_
  cases r with
  | none =>
    apply Prog.post_pure
    simp [flawless_cons, failed]
  | some buf =>
    refine Prog.post_ite (fun hlength => ?_) fun hlength => ?_
    · apply Prog.post_pure
      simp [flawless_cons, failed, hlength]
    have hlength : buf.length = n := not_not.mp hlength
    apply Prog.post_pure
    refine ⟨?_, by simp [Call.isFetch], ?_, rfl, rfl⟩
    · simp [flawless_cons, flawless_nil, failed, hlength]
    · intro hfaithful
      have hbuf := hfaithful.read List.mem_cons_self hlength
      simp only [ZStream.input, List.append_assoc]
      rw [hbuf, take_drop_step map zs.pos hcount]

/-- What waits in the output buffer follows on what was handed over. -/
theorem handOver_spec (map : Bytes) (htaker : Taker process Took Refuses) {zs : ZStream} {zerr : Zerr} {cookie : σ} {d : Bytes} {l : Log}
    (htook : Took d l cookie) (hmade : zs.made = d ++ zs.procBuf) :
    (handOver process zs zerr cookie).Post fun log r =>
      match r with
      | some (zs', cookie') => Flawless log ∧ zs'.input map = zs.input map ∧ zs'.made = zs.made ∧
          ∃ d', Took d' (l ++ log) cookie' ∧ zs'.made = d' ++ zs'.procBuf ∧ (zerr = .streamEnd → d' = zs'.made)
      | none => Refuses ∨ ¬Flawless log := by
  unfold handOver
  refine Prog.post_ite (fun hfull => ?_) fun hnot => ?_
  · have hbuf : zs.procBuf ≠ [] := by
      rcases hfull with hlength | ⟨-, hne⟩
      · intro hnil
        rw [hnil] at hlength
        exact absurd hlength (by decide)
      · exact hne
    refine Prog.post_bind (htaker.take d l cookie zs.procBuf htook hbuf) fun l' r htake => ?_
    cases r with
    | none =>
      apply Prog.post_pure
      rw [List.append_nil]
      exact htake
    | some cookie' =>
      apply Prog.post_pure
      rw [List.append_nil]
      exact ⟨htake.1, rfl, rfl, d ++ zs.procBuf, htake.2, by simp [hmade], fun _ => hmade.symm⟩
  · apply Prog.post_pure
    refine ⟨flawless_nil, rfl, rfl, d, by rwa [List.append_nil], hmade, fun hend => ?_⟩
    have hnil : zs.procBuf = [] := by
      by_contra hne
      exact hnot (.inr ⟨hend, hne⟩)
    rw [hmade, hnil, List.append_nil]

theorem failed_inflate (fed made : Bytes) (room : Nat) (r : Inflated) :
    failed ⟨.inflate fed made room, r⟩ = decide (r.zerr = .error) := by
  obtain ⟨availIn, out, zerr⟩ := r
  cases zerr <;> rfl

theorem input_after (zs : ZStream) (r : Inflated) : (zs.after r).input map = zs.input map := rfl

/-- A step of the inflater; a stream that has ended holds what was made of it. -/
theorem inflateStep_spec (z : Zlib) (map : Bytes) (zs : ZStream) :
    (inflateStep zs).Post fun log r =>
      match r with
      | some (zs', zerr) => Flawless log ∧ (∀ s ∈ log, Call.isFetch s.1 = true) ∧ zerr ≠ .error ∧
          (z.Faithful map log → zs'.input map = zs.input map ∧ (zerr = .streamEnd → z.raw (zs.input map) = some zs'.made)) ∧
          ∀ d, zs.made = d ++ zs.procBuf → zs'.made = d ++ zs'.procBuf
      | none => ¬Flawless log := by
  unfold inflateStep
  refine Prog.post_bind (fill_spec z map zs) fun lf zs₁ hfill => ?_
  cases zs₁ with
  | none =>
    apply Prog.post_pure
    rw [List.append_nil]
    exact hfill
  | some zs₁ =>
    obtain ⟨hflawless, hfetch, hinput, hmade, hbuf⟩ := hfill
    refine Prog.post_call (logs_inflate zs₁.fed zs₁.made _) fun r => ?_
    refine Prog.post_ite (fun herror => ?_) fun herror => ?_
    · apply Prog.post_pure
      intro hall
      have hlast := (flawless_cons.mp (flawless_append.mp hall).2).1
      rw [failed_inflate] at hlast
      exact of_decide_eq_false hlast herror
    · apply Prog.post_pure
      refine ⟨?_, ?_, herror, ?_, ?_⟩
      · rw [flawless_append, flawless_cons, failed_inflate]
        exact ⟨hflawless, decide_eq_false herror, flawless_nil⟩
      · rw [List.forall_mem_append]
        exact ⟨hfetch, by simp [Call.isFetch]⟩
      · intro hfaithful
        obtain ⟨hfill, hlast⟩ := Zlib.faithful_append.mp hfaithful
        rw [input_after, ← hinput hfill]
        exact ⟨rfl, fun hend => z.extend _ _ _ (hlast _ List.mem_cons_self hend)⟩
      · intro d hd
        simp only [ZStream.after]
        rw [hmade, hbuf, hd, List.append_assoc]

/-- How the loop of the inflater ends, after the steps `l`, when the entry's bytes are `input`. -/
def Inflates (z : Zlib) (Took : Bytes → Log → σ → Prop) (Refuses : Prop) (input : Bytes) (l log : Log) : Option (Bytes × σ) → Prop
  | some (made, c) => Flawless log ∧ z.raw input = some made ∧ Took made (l ++ log) c
  | none => Refuses ∨ ¬Flawless log

theorem Inflates.after {input : Bytes} {l l' l'' : Log} {r : Option (Bytes × σ)} (h : Inflates z Took Refuses input (l ++ l') l'' r)
    (hl' : Flawless l') : Inflates z Took Refuses input l (l' ++ l'') r := by
  cases r with
  | none =>
    rcases h with hrefuses | hbad
    · exact .inl hrefuses
    · exact .inr fun hall => hbad (flawless_append.mp hall).2
  | some r =>
    obtain ⟨hflawless, hraw, htook⟩ := h
    rw [List.append_assoc] at htook
    exact ⟨flawless_append.mpr ⟨hl', hflawless⟩, hraw, htook⟩

theorem deflatedLoop_spec (htaker : Taker process Took Refuses) {fuel : Nat} {zs : ZStream} {cookie : σ} {d : Bytes} {l : Log} {input : Bytes}
    (htook : Took d l cookie) (hmade : zs.made = d ++ zs.procBuf) (hinput : z.Faithful map l → zs.input map = input) :
    (deflatedLoop process fuel zs cookie).Post fun log r => z.Faithful map (l ++ log) → Inflates z Took Refuses input l log r := by
  induction fuel generalizing zs cookie d l with
  | zero =>
    intro log r hrun
    cases hrun with
    | call r _ => exact r.elim
  | succ fuel ih =>
    rw [deflatedLoop]
    refine Prog.post_bind (inflateStep_spec z map zs) fun ls r hstep => ?_
    cases r with
    | none =>
      apply Prog.post_pure
      intro _
      rw [List.append_nil]
      exact .inr hstep
    | some r =>
      obtain ⟨zs₁, zerr⟩ := r
      obtain ⟨hflawless₁, hfetch, herror, hstep, hkeep⟩ := hstep
      refine Prog.post_bind (handOver_spec map htaker (htaker.fetchAll htook hfetch) (hkeep d hmade)) fun lh r hhand => ?_
      cases r with
      | none =>
        apply Prog.post_pure
        intro _
        rw [List.append_nil]
        rcases hhand with hrefuses | hbad
        · exact .inl hrefuses
        · exact .inr fun hall => hbad (flawless_append.mp hall).2
      | some r =>
        obtain ⟨zs₂, cookie₂⟩ := r
        obtain ⟨hflawless₂, hinput₂, hmade₂, d', htook₂, hmade₃, hend⟩ := hhand
        have hflawless := flawless_append.mpr ⟨hflawless₁, hflawless₂⟩
        rw [List.append_assoc] at htook₂
        refine Prog.post_ite (fun hok => ?_) fun hok => ?_
        · refine Prog.Post.mono (ih htook₂ hmade₃ fun hfaithful => ?_) fun lr r h hfaithful => ?_
          · obtain ⟨hl, hrest⟩ := Zlib.faithful_append.mp hfaithful
            rw [hinput₂, (hstep (Zlib.faithful_append.mp hrest).1).1, hinput hl]
          · rw [← List.append_assoc ls] at hfaithful ⊢
            rw [← List.append_assoc] at hfaithful
            exact (h hfaithful).after hflawless
        · apply Prog.post_pure
          intro hfaithful
          rw [List.append_nil] at hfaithful ⊢
          obtain ⟨hl, hrest⟩ := Zlib.faithful_append.mp hfaithful
          have hzerr : zerr = .streamEnd := by
            cases zerr with
            | ok => exact absurd rfl hok
            | streamEnd => rfl
            | error => exact absurd rfl herror
          refine ⟨hflawless, ?_, ?_⟩
          · rw [← hinput hl, hmade₂]
            exact (hstep (Zlib.faithful_append.mp hrest).1).2 hzerr
          · rw [← hend hzerr]
            exact htook₂

theorem processDeflatedEntry_spec (htaker : Taker process Took Refuses) {fuel : Nat} {e : ZipEntry} {cookie : σ} (htook : Took [] [] cookie) :
    (processDeflatedEntry process fuel e cookie).Post fun log r => z.Faithful map log →
      Ends Took Refuses [] ((z.raw (slice map e)).filter fun d => int d.length = e.uncompLen) log r := by
  unfold processDeflatedEntry
  refine Prog.post_check logs_inflateInit ?_ ?_
  · apply Prog.post_pure
    intro _
    apply ends_failed
    simp [flawless_cons, failed]
  · have htook' := htaker.fetch [] [] cookie ⟨.inflateInit, true⟩ htook rfl
    refine Prog.post_bind (deflatedLoop_spec htaker htook' rfl fun _ : z.Faithful map _ => show ZStream.input _ map = slice map e from rfl) fun l r hloop => ?_
    cases r with
    | none =>
      apply Prog.post_pure
      intro hfaithful
      rw [List.append_nil] at hfaithful ⊢
      rcases hloop hfaithful with hrefuses | hbad
      · exact .inl hrefuses
      · exact ends_failed fun hall => hbad (flawless_cons.mp hall).2
    | some r =>
      obtain ⟨made, cookie'⟩ := r
      refine Prog.post_ite (fun hsize => ?_) fun hsize => ?_
      · apply Prog.post_pure
        intro hfaithful
        rw [List.append_nil] at hfaithful
        obtain ⟨-, hraw, -⟩ := hloop hfaithful
        exact .inr (.inr (by simp [hraw, Option.filter, hsize]))
      · apply Prog.post_pure
        intro hfaithful
        rw [List.append_nil] at hfaithful ⊢
        obtain ⟨hflawless, hraw, htook''⟩ := hloop hfaithful
        exact ⟨flawless_cons.mpr ⟨rfl, hflawless⟩, made, by simp [hraw, Option.filter, not_not.mp hsize], htook''⟩

/-- A function that takes the contents of an entry has taken its data, or the whole failed because a
step failed, because the entry has no data, or because it refused them. -/
theorem mzProcessZipEntryContents_spec (z : Zlib) (map : Bytes) (htaker : Taker process Took Refuses) {fuel : Nat} {e : ZipEntry} {cookie : σ} (htook : Took [] [] cookie) :
    (mzProcessZipEntryContents process fuel e cookie).Post fun log r => z.Faithful map log →
      Ends Took Refuses [] (z.data map e) log r := by
  unfold mzProcessZipEntryContents Zlib.data
  split
  · exact storedLoop_spec htaker e.compLen e.offset e.compLen (le_refl _) htook
  · split
    · exact processDeflatedEntry_spec htaker htook
    · apply Prog.post_pure
      intro _
      exact .inr (.inr rfl)

end Contents

/-! ### The two functions that take contents -/

theorem written_fetch {s : Sigma Answer} (h : Call.isFetch s.1 = true) : written [s] = [] := by
  obtain ⟨q, r⟩ := s
  cases q <;> first | rfl | cases h

theorem taker_writeProcessFunction : Taker writeProcessFunction (fun d l _ => written l = d) False where
  fetch := by
    intro d l _ s htook hs
    rw [written_append, written_fetch hs, List.append_nil, htook]
  take := by
    intro d l _ buf htook hbuf
    refine Prog.post_bind (writeLoop_spec (le_refl _) hbuf) fun l' ok h => ?_
    cases ok with
    | true =>
      apply Prog.post_pure
      obtain ⟨hflawless, hwritten⟩ := h
      rw [List.append_nil, written_append, htook, hwritten]
      exact ⟨hflawless, rfl⟩
    | false =>
      apply Prog.post_pure
      rw [List.append_nil]
      exact .inr h

theorem taker_copyProcessFunction (bufLen : Int) : Taker (copyProcessFunction bufLen) (fun d _ copied => copied = d) True where
  fetch := fun _ _ _ _ htook _ => htook
  take := by
    intro d l copied buf htook _
    refine Prog.post_ite (fun _ => ?_) fun _ => ?_
    · apply Prog.post_pure
      exact ⟨flawless_nil, by rw [htook]⟩
    · apply Prog.post_pure
      exact .inl trivial

/-- A file that was extracted holds the data of the entry. -/
theorem mzExtractZipEntryToFile_spec (z : Zlib) (map : Bytes) (fuel : Nat) (e : ZipEntry) :
    (mzExtractZipEntryToFile fuel e).Post fun log ok => z.Faithful map log →
      if ok then Flawless log ∧ z.data map e = some (written log) else ¬Flawless log ∨ z.data map e = none := by
  refine Prog.post_bind (mzProcessZipEntryContents_spec z map taker_writeProcessFunction rfl) fun l r h => ?_
  cases r with
  | none =>
    apply Prog.post_pure
    intro hfaithful
    rw [List.append_nil] at hfaithful ⊢
    exact (h hfaithful).resolve_left id
  | some _ =>
    apply Prog.post_pure
    intro hfaithful
    rw [List.append_nil] at hfaithful ⊢
    obtain ⟨hflawless, d, hdata, hwritten⟩ := h hfaithful
    rw [List.nil_append] at hwritten
    exact ⟨hflawless, by rw [hdata, hwritten]⟩

/-- What was copied to a buffer is the data of the entry. -/
theorem mzReadZipEntry_spec (z : Zlib) (map : Bytes) (fuel : Nat) (e : ZipEntry) (bufLen : Int) :
    (mzReadZipEntry fuel e bufLen).Post fun log r => z.Faithful map log → ∀ copied, r = some copied →
      Flawless log ∧ z.data map e = some copied := by
  refine Prog.Post.mono (mzProcessZipEntryContents_spec z map (taker_copyProcessFunction bufLen) rfl) fun l r h hfaithful copied hr => ?_
  subst hr
  obtain ⟨hflawless, d, hdata, hcopied⟩ := h hfaithful
  exact ⟨hflawless, by rw [hdata, hcopied]⟩

/-! ### The calls that contents can make -/

section Calls
variable {σ : Type} {process : σ → Bytes → Io (Option σ)} {P : Call → Prop}

theorem all_storedLoop (hfetch : ∀ q, Call.isFetch q = true → P q) (hprocess : ∀ c buf, (process c buf).All P) (left pos bytesLeft : Nat)
    (cookie : σ) : (storedLoop process left pos bytesLeft cookie).All P := by
  induction left generalizing pos bytesLeft cookie with
  | zero => exact Prog.all_pure _
  | succ left ih =>
    rw [storedLoop]
    refine Prog.all_ite (fun _ => Prog.all_pure _) fun _ => Prog.all_bind (Prog.all_ask (hfetch _ rfl)) fun r => ?_
    cases r with
    | none => exact Prog.all_pure _
    | some buf =>
      refine Prog.all_ite (fun _ => Prog.all_pure _) fun _ => Prog.all_bind (hprocess cookie buf) fun r => ?_
      cases r with
      | none => exact Prog.all_pure _
      | some cookie => exact ih _ _ cookie

theorem all_inflateStep (hfetch : ∀ q, Call.isFetch q = true → P q) (zs : ZStream) : (inflateStep zs).All P := by
  have hfill : (fill zs).All P := by
    refine Prog.all_ite (fun _ => Prog.all_pure _) fun _ => Prog.all_bind (Prog.all_ask (hfetch _ rfl)) fun r => ?_
    cases r with
    | none => exact Prog.all_pure _
    | some buf => exact Prog.all_ite (fun _ => Prog.all_pure _) fun _ => Prog.all_pure _
  refine Prog.all_bind hfill fun r => ?_
  cases r with
  | none => exact Prog.all_pure _
  | some zs =>
    refine Prog.all_bind (Prog.all_ask (hfetch _ rfl)) fun r => ?_
    exact Prog.all_ite (fun _ => Prog.all_pure _) fun _ => Prog.all_pure _

theorem all_deflatedLoop (hfetch : ∀ q, Call.isFetch q = true → P q) (hhang : P .hang) (hprocess : ∀ c buf, (process c buf).All P) (fuel : Nat)
    (zs : ZStream) (cookie : σ) : (deflatedLoop process fuel zs cookie).All P := by
  induction fuel generalizing zs cookie with
  | zero => exact ⟨hhang, fun r => r.elim⟩
  | succ fuel ih =>
    rw [deflatedLoop]
    refine Prog.all_bind (all_inflateStep hfetch zs) fun r => ?_
    cases r with
    | none => exact Prog.all_pure _
    | some r =>
      obtain ⟨zs, zerr⟩ := r
      have hhand : (handOver process zs zerr cookie).All P := by
        refine Prog.all_ite (fun _ => Prog.all_bind (hprocess _ _) fun r => ?_) fun _ => Prog.all_pure _
        cases r <;> exact Prog.all_pure _
      refine Prog.all_bind hhand fun r => ?_
      cases r with
      | none => exact Prog.all_pure _
      | some r => exact Prog.all_ite (fun _ => ih _ _) fun _ => Prog.all_pure _

theorem all_mzProcessZipEntryContents (hfetch : ∀ q, Call.isFetch q = true → P q) (hhang : P .hang)
    (hprocess : ∀ c buf, (process c buf).All P) (fuel : Nat) (e : ZipEntry) (cookie : σ) :
    (mzProcessZipEntryContents process fuel e cookie).All P := by
  refine Prog.all_ite (fun _ => all_storedLoop hfetch hprocess _ _ _ _) fun _ => ?_
  refine Prog.all_ite (fun _ => ?_) fun _ => Prog.all_pure _
  refine Prog.all_bind (Prog.all_ask (hfetch _ rfl)) fun ok => Prog.all_ite (fun _ => Prog.all_pure _) fun _ => ?_
  refine Prog.all_bind (all_deflatedLoop hfetch hhang hprocess _ _ _) fun r => ?_
  cases r with
  | none => exact Prog.all_pure _
  | some r => exact Prog.all_ite (fun _ => Prog.all_pure _) fun _ => Prog.all_pure _

theorem all_mzExtractZipEntryToFile (hfetch : ∀ q, Call.isFetch q = true → P q) (hhang : P .hang) (hwrite : ∀ data, P (.write data))
    (fuel : Nat) (e : ZipEntry) : (mzExtractZipEntryToFile fuel e).All P := by
  have hloop : ∀ left data, (writeLoop left data).All P := by
    intro left
    induction left with
    | zero => exact fun _ => Prog.all_pure _
    | succ left ih =>
      intro data
      rw [writeLoop]
      refine Prog.all_bind (Prog.all_ask (hwrite data)) fun r => ?_
      cases r with
      | none => exact Prog.all_pure _
      | some n =>
        refine Prog.all_ite (fun _ => Prog.all_pure _) fun _ => ?_
        refine Prog.all_ite (fun _ => Prog.all_pure _) fun _ => ?_
        exact Prog.all_ite (fun _ => Prog.all_pure _) fun _ => ih _
  have hprocess : ∀ c data, (writeProcessFunction c data).All P := by
    intro _ data
    exact Prog.all_bind (hloop _ _) fun ok => Prog.all_ite (fun _ => Prog.all_pure _) fun _ => Prog.all_pure _
  refine Prog.all_bind (all_mzProcessZipEntryContents hfetch hhang hprocess _ _ _) fun r => ?_
  cases r <;> exact Prog.all_pure _

theorem all_mzReadZipEntry (hfetch : ∀ q, Call.isFetch q = true → P q) (hhang : P .hang) (fuel : Nat) (e : ZipEntry) (bufLen : Int) :
    (mzReadZipEntry fuel e bufLen).All P := by
  apply all_mzProcessZipEntryContents hfetch hhang
  intro c data
  exact Prog.all_ite (fun _ => Prog.all_pure _) fun _ => Prog.all_pure _

end Calls

end Twrp.Zip
