import Twrp.Zip.Keys

/-! The keys that are loaded. A key is taken just where one can be read (`readKey_iff`), and the loop goes
through all of them; so a file is loaded as it is documented just if each of its keys is written as it is
dumped. -/
namespace Twrp.Zip.Keys
open Base.Fscanf Base.Scanf

/-! ### The code reads what is written -/

section Key
variable {text rest : Text}

theorem readNumber_iff {format front : List Directive} {k : Kind} {m : Numeral} (hformat : format = front ++ [Directive.number k])
    (hone : (front.filter Directive.converts).length = 0) : readNumber format text = some (m, rest) ↔ Matches format text [.number m] rest := by
  subst hformat
  constructor
  · intro h
    rw [readNumber] at h
    split at h
    · rename_i m' t hscan
      obtain ⟨rfl, rfl⟩ := Prod.mk.inj (Option.some.inj h)
      have hcount : ((front ++ [Directive.number k]).filter Directive.converts).length = (fscanf (front ++ [.number k]) text).1.length := by
        rw [hscan, List.filter_append, List.length_append, hone]
        rfl
      have hmatches := fscanf_matches rfl hcount
      rw [hscan] at hmatches
      exact hmatches
    · cases h
  · intro h
    rw [readNumber, h.fscanf_eq]

theorem readWord_iff {m : Numeral} : readNumber wordFormat text = some (m, rest) ↔ Matches wordFormat text [.number m] rest :=
  readNumber_iff (show wordFormat = [.blank, .literal 44, .blank] ++ [.number .u] from rfl) rfl

theorem readMiddle_iff {m : Numeral} : readNumber middleFormat text = some (m, rest) ↔ Matches middleFormat text [.number m] rest :=
  readNumber_iff (show middleFormat = middleFormat.dropLast ++ [.number .u] from rfl) rfl

theorem readHead_iff {len n0inv m : Numeral} :
    readHead text = some (len, n0inv, m, rest) ↔ Matches headFormat text [.number len, .number n0inv, .number m] rest := by
  constructor
  · intro h
    rw [readHead] at h
    split at h
    · rename_i len' n0inv' m' t hscan
      simp only [Option.some.injEq, Prod.mk.injEq] at h
      obtain ⟨rfl, rfl, rfl, rfl⟩ := h
      have hcount : (headFormat.filter Directive.converts).length = (fscanf headFormat text).1.length := by
        rw [hscan]
        rfl
      have hmatches := @fscanf_matches headFormat.dropLast (.number .u) rfl text hcount
      rw [show headFormat.dropLast ++ [.number .u] = headFormat from rfl, hscan] at hmatches
      exact hmatches
    · cases h
  · intro h
    rw [readHead, h.fscanf_eq]

theorem readWords_iff {left : Nat} {words : List (BitVec 32)} :
    readWords left text = some (words, rest) ↔ ∃ ms, Words text ms rest ∧ ms.length = left ∧ words = ms.map Numeral.toUnsigned := by
  induction left generalizing text words with
  | zero =>
    rw [readWords]
    constructor
    · intro h
      obtain ⟨rfl, rfl⟩ := Prod.mk.inj (Option.some.inj h)
      exact ⟨[], .nil, rfl, rfl⟩
    · rintro ⟨ms, hwords, hlength, rfl⟩
      obtain rfl := List.length_eq_zero_iff.mp hlength
      cases hwords
      rfl
  | succ left ih =>
    rw [readWords]
    constructor
    · intro h
      obtain ⟨⟨m, t⟩, hnumber, h⟩ := Option.bind_eq_some_iff.mp h
      obtain ⟨⟨words', t'⟩, hwords, h⟩ := Option.bind_eq_some_iff.mp h
      obtain ⟨rfl, rfl⟩ := Prod.mk.inj (Option.some.inj h)
      obtain ⟨ms, hms, hlength, rfl⟩ := ih.mp hwords
      exact ⟨m :: ms, .cons (readWord_iff.mp hnumber) hms, congrArg (· + 1) hlength, rfl⟩
    · rintro ⟨ms, hwords, hlength, rfl⟩
      cases hwords with
      | nil => cases hlength
      | cons h hrest =>
        have hwords' := ih.mpr ⟨_, hrest, Nat.succ.inj hlength, rfl⟩
        show (readNumber wordFormat text).bind _ = _
        rw [readWord_iff.mpr h]
        show (readWords left _).bind _ = _
        rw [hwords']
        rfl

def versionScan (text : Text) : List Field × Text :=
  match number .d text with
  | none => ([], text)
  | some (m, t) => (.number m :: (fscanf [.literal 123] (skip t)).1, (fscanf [.literal 123] (skip t)).2)

/-- `"%d {"` converts its number, and takes the brace if there is one. -/
theorem readNumber_version {m : Numeral} :
    readNumber versionFormat text = some (m, rest) ↔
      ∃ t, number .d text = some (m, t) ∧ (Mark 123 t rest ∨ (∀ b ∈ (skip t).head?, b ≠ 123) ∧ rest = skip t) := by
  have hbrace : ∀ t, fscanf [.literal 123] (skip t) = ([], rest) ↔ Mark 123 t rest ∨ (∀ b ∈ (skip t).head?, b ≠ 123) ∧ rest = skip t := by
    intro t
    rw [Mark]
    cases skip t with
    | nil =>
      constructor
      · intro h
        exact .inr ⟨fun b hb => absurd hb (Option.not_mem_none b), (Prod.mk.inj h).2.symm⟩
      · rintro (h | ⟨-, rfl⟩)
        · cases h
        · rfl
    | cons b more =>
      rw [fscanf]
      by_cases hb : b = 123
      · simp [hb, fscanf]
      · simp [hb, eq_comm]
  have hscan : fscanf versionFormat text = versionScan text := rfl
  have hnone : ∀ t, (fscanf [.literal 123] (skip t)).1 = [] := by
    intro t
    cases skip t with
    | nil => rfl
    | cons b more =>
      rw [fscanf]
      split <;> rfl
  rw [readNumber, hscan, versionScan]
  cases number .d text with
  | none => simp
  | some read =>
    obtain ⟨m', t⟩ := read
    simp only [hnone, Option.some.injEq, Prod.mk.injEq]
    constructor
    · rintro ⟨rfl, h⟩
      exact ⟨t, ⟨rfl, rfl⟩, (hbrace t).mp (Prod.ext (hnone t) h)⟩
    · rintro ⟨_, ⟨rfl, rfl⟩, h⟩
      exact ⟨rfl, congrArg Prod.snd ((hbrace t).mpr h)⟩

theorem switchVersion_some {cert cert' : Cert} {version : Int} (h : switchVersion cert version = some cert') : version ∈ ([2, 3, 4] : List Int) := by
  rw [switchVersion] at h
  split at h
  · simp [*]
  · split at h
    · simp [*]
    · split at h
      · simp [*]
      · cases h

theorem switchVersion_mem {version : Int} (cert : Cert) (h : version ∈ ([2, 3, 4] : List Int)) : ∃ cert', switchVersion cert version = some cert' := by
  simp only [List.mem_cons, List.not_mem_nil, or_false] at h
  rcases h with rfl | rfl | rfl <;> exact ⟨_, rfl⟩

theorem readStart_iff {fresh cert : Cert} :
    readStart fresh text = some (cert, rest) ↔ ∃ opening, Opens text opening rest ∧ cert = opening.start fresh := by
  cases hskip : skip text with
  | nil =>
    have hscan : fscanf startFormat text = ([], []) := by
      show fscanf [.char] (skip text) = _
      rw [hskip]
      rfl
    rw [readStart, hscan]
    constructor
    · intro h
      cases h
    · rintro ⟨opening, hopens, -⟩
      cases hopens with
      | brace h | braced h | unbraced h | other h => cases hskip.symm.trans h
  | cons c t =>
    have hscan : fscanf startFormat text = ([.char c], t) := by
      show fscanf [.char] (skip text) = _
      rw [hskip]
      rfl
    have hmark : Mark c text t := hskip
    rw [readStart, hscan]
    show (if c = 123 then some (setVersion fresh 3 SHA_DIGEST_SIZE, t)
      else if c = 118 then (readNumber versionFormat t).bind fun read => (switchVersion fresh read.1.toInt).bind fun cert => some (cert, read.2)
      else some (fresh, t)) = _ ↔ _
    constructor
    · intro h
      split at h
      · rename_i hc
        obtain ⟨rfl, rfl⟩ := Prod.mk.inj (Option.some.inj h)
        exact ⟨.brace, .brace (hc ▸ hmark), rfl⟩
      · split at h
        · rename_i _ hc
          obtain ⟨⟨m, t'⟩, hnumber, h⟩ := Option.bind_eq_some_iff.mp h
          obtain ⟨cert', hswitch, h⟩ := Option.bind_eq_some_iff.mp h
          obtain ⟨rfl, rfl⟩ := Prod.mk.inj (Option.some.inj h)
          have hstart : ∀ braced, cert' = (Opening.version m braced).start fresh := by
            intro braced
            rw [Opening.start, hswitch]
            rfl
          obtain ⟨a, hm, hbrace | ⟨hnone, rfl⟩⟩ := readNumber_version.mp hnumber
          · exact ⟨_, .braced (hc ▸ hmark) hm (switchVersion_some hswitch) hbrace, hstart true⟩
          · exact ⟨_, .unbraced (hc ▸ hmark) hm (switchVersion_some hswitch) hnone, hstart false⟩
        · rename_i hbrace hv
          obtain ⟨rfl, rfl⟩ := Prod.mk.inj (Option.some.inj h)
          exact ⟨_, .other hmark hbrace hv, rfl⟩
    · rintro ⟨opening, hopens, rfl⟩
      cases hopens with
      | brace h =>
        obtain rfl := hmark.char h
        obtain rfl := hmark.unique h
        rfl
      | other h hbrace hv =>
        obtain rfl := hmark.char h
        obtain rfl := hmark.unique h
        rw [if_neg hbrace, if_neg hv]
        rfl
      | braced h hm hversion hbrace =>
        obtain rfl := hmark.char h
        obtain rfl := hmark.unique h
        obtain ⟨cert, hswitch⟩ := switchVersion_mem fresh hversion
        rw [if_neg (by decide), if_pos rfl, readNumber_version.mpr ⟨_, hm, .inl hbrace⟩]
        show (switchVersion fresh _).bind _ = _
        rw [hswitch, Opening.start, hswitch]
        rfl
      | unbraced h hm hversion hnone =>
        obtain rfl := hmark.char h
        obtain rfl := hmark.unique h
        obtain ⟨cert, hswitch⟩ := switchVersion_mem fresh hversion
        rw [if_neg (by decide), if_pos rfl, readNumber_version.mpr ⟨_, hm, .inr ⟨hnone, rfl⟩⟩]
        show (switchVersion fresh _).bind _ = _
        rw [hswitch, Opening.start, hswitch]
        rfl

/-- A key is taken just where one can be read, and what is written is taken. -/
theorem readKey_iff {fresh cert : Cert} : readKey fresh text = some (cert, rest) ↔ ∃ w, Reads text w rest ∧ cert = w.certificate fresh := by
  constructor
  · intro h
    obtain ⟨⟨start, t₀⟩, hstart, h⟩ := Option.bind_eq_some_iff.mp h
    obtain ⟨⟨len, n0inv, m, t₁⟩, hhead, h⟩ := Option.bind_eq_some_iff.mp h
    obtain ⟨opening, hopens, rfl⟩ := readStart_iff.mp hstart
    by_cases hlen : len.toInt = RSANUMWORDS
    · dsimp only at h
      rw [if_neg (not_not.mpr hlen)] at h
      obtain ⟨⟨ns, t₂⟩, hns, h⟩ := Option.bind_eq_some_iff.mp h
      obtain ⟨⟨m', t₃⟩, hmiddle, h⟩ := Option.bind_eq_some_iff.mp h
      obtain ⟨⟨rrs, t₄⟩, hrrs, h⟩ := Option.bind_eq_some_iff.mp h
      obtain ⟨rfl, rfl⟩ := Prod.mk.inj (Option.some.inj h)
      obtain ⟨ms, hwords, hcount, rfl⟩ := readWords_iff.mp hns
      obtain ⟨ms', hwords', hcount', rfl⟩ := readWords_iff.mp hrrs
      obtain ⟨closed, hcloses⟩ := closes_fscanf t₄
      exact ⟨_, .mk hopens (readHead_iff.mp hhead) hlen hwords hcount (readMiddle_iff.mp hmiddle) hwords' hcount' hcloses, rfl⟩
    · dsimp only at h
      rw [if_pos hlen] at h
      cases h
  · rintro ⟨w, h, rfl⟩
    obtain ⟨hopens, hhead, hlen, hwords, hcount, hmiddle, hwords', hcount', hcloses⟩ := h
    rw [readKey, readStart_iff.mpr ⟨_, hopens, rfl⟩]
    show (readHead _).bind _ = _
    rw [readHead_iff.mpr hhead]
    dsimp only [Option.bind]
    rw [if_neg (not_not.mpr hlen), readWords_iff.mpr ⟨_, hwords, hcount, rfl⟩]
    show (readNumber middleFormat _).bind _ = _
    rw [readMiddle_iff.mpr hmiddle]
    show (readWords _ _).bind _ = _
    rw [readWords_iff.mpr ⟨_, hwords', hcount', rfl⟩]
    show some (_, (fscanf closingFormat _).2) = _
    rw [hcloses.fscanf_eq]
    rfl

end Key

/-! ### The whole file -/

section File
variable {text t rest : Text}

theorem Opens.lt {opening : Opening} (h : Opens text opening rest) : rest.length < text.length := by
  cases h with
  | brace h | other h => exact h.lt
  | braced hv hm _ hbrace => exact (hbrace.lt.trans_le (number_length hm)).trans hv.lt
  | unbraced hv hm => exact ((length_skip_le _).trans (number_length hm)).trans_lt hv.lt

theorem Words.length_le {ms : List Numeral} (h : Words text ms rest) : rest.length ≤ text.length := by
  induction h with
  | nil => exact le_rfl
  | cons h _ ih => exact ih.trans h.length_le

theorem Closes.length_le {closed : Nat} (h : Closes text closed rest) : rest.length ≤ text.length := by
  cases h with
  | both h h' => exact (length_skip_le _).trans (h'.lt.le.trans h.lt.le)
  | one h => exact (length_skip_le _).trans h.lt.le
  | none => exact length_skip_le _

theorem Reads.lt {w : Written} (h : Reads text w rest) : rest.length < text.length := by
  obtain ⟨hopens, hhead, -, hwords, -, hmiddle, hwords', -, hcloses⟩ := h
  exact ((((hcloses.length_le.trans hwords'.length_le).trans hmiddle.length_le).trans hwords.length_le).trans hhead.length_le).trans_lt hopens.lt

/-- The certificates of a row of keys, each in the memory that comes next. -/
def certificates (fresh : Nat → Cert) : (i : Nat) → List Written → List Cert
  | _, [] => []
  | i, w :: ws => w.certificate (fresh i) :: certificates fresh (i + 1) ws

variable {fresh : Nat → Cert}

/-- One turn of the loop that ends, and one that goes on. -/
theorem readKeys_last {w : Written} (h : Reads text w []) {out : List Cert} (hout : out.length ≠ 2147483647) (fuel : Nat) :
    readKeys fresh (fuel + 1) text out = .ok (some (out ++ [w.certificate (fresh out.length)])) := by
  rw [readKeys, if_neg hout, readKey_iff.mpr ⟨w, h, rfl⟩]

theorem readKeys_more {w : Written} (h : Reads text w (44 :: t)) {out : List Cert} (hout : out.length ≠ 2147483647) (fuel : Nat) :
    readKeys fresh (fuel + 1) text out = readKeys fresh fuel t (out ++ [w.certificate (fresh out.length)]) := by
  rw [readKeys, if_neg hout, readKey_iff.mpr ⟨w, h, rfl⟩]
  exact if_pos rfl

/-- The loop comes to an end, with nothing or with all keys of the file. -/
theorem readKeys_run (fuel : Nat) (out : List Cert) (hfuel : text.length < fuel)
    (hcount : ∀ ws rest, Begins text ws rest → out.length + ws.length < 2147483647) :
    readKeys fresh fuel text out = .ok none ∨
      ∃ ws t w, Begins text ws t ∧ Reads t w [] ∧ readKeys fresh fuel text out = .ok (some (out ++ certificates fresh out.length (ws ++ [w]))) := by
  induction fuel generalizing text out with
  | zero => cases hfuel
  | succ fuel ih =>
    have hout : out.length ≠ 2147483647 := (hcount [] text .nil).ne
    cases hkey : readKey (fresh out.length) text with
    | none =>
      left
      rw [readKeys, if_neg hout, hkey]
    | some read =>
      obtain ⟨cert, rest⟩ := read
      obtain ⟨w, hreads, rfl⟩ := readKey_iff.mp hkey
      cases rest with
      | nil => exact .inr ⟨[], text, w, .nil, hreads, readKeys_last hreads hout fuel⟩
      | cons c rest =>
        by_cases hc : c = 44
        · subst hc
          have hlt := hreads.lt
          rw [List.length_cons] at hlt
          have hlength : (out ++ [w.certificate (fresh out.length)]).length = out.length + 1 := List.length_append
          rw [readKeys_more hreads hout]
          have hrun := @ih rest (out ++ [w.certificate (fresh out.length)]) (by omega) (by
            intro ws t hbegins
            have hmore := hcount _ _ (.cons hreads hbegins)
            rw [List.length_cons] at hmore
            omega)
          rw [hlength] at hrun
          refine hrun.imp_right ?_
          rintro ⟨ws, t, w', hbegins, hlast, heq⟩
          rw [List.append_assoc] at heq
          exact ⟨w :: ws, t, w', .cons hreads hbegins, hlast, heq⟩
        · left
          rw [readKeys, if_neg hout, hkey]
          exact if_neg hc

/-- Where keys with commas behind them are read, a loop that comes to an end goes through all of them. -/
theorem readKeys_begins {ws : List Written} (h : Begins text ws t) {fuel : Nat} {out : List Cert} {r : Option (List Cert)}
    (hout : out.length ≤ 2147483647) (hrun : readKeys fresh fuel text out = .ok r) :
    out.length + ws.length < 2147483647 ∧
      ∃ fuel' out', readKeys fresh (fuel' + 1) t out' = .ok r ∧ out'.length ≠ 2147483647 := by
  induction h generalizing fuel out with
  | nil =>
    cases fuel with
    | zero => cases hrun
    | succ fuel =>
      have hne : out.length ≠ 2147483647 := by
        intro heq
        rw [readKeys, if_pos heq] at hrun
        cases hrun
      exact ⟨by rw [List.length_nil]; omega, fuel, out, hrun, hne⟩
  | cons h hrest ih =>
    cases fuel with
    | zero => cases hrun
    | succ fuel =>
      have hne : out.length ≠ 2147483647 := by
        intro heq
        rw [readKeys, if_pos heq] at hrun
        cases hrun
      rw [readKeys_more h hne] at hrun
      have hmore := ih (by rw [List.length_append, List.length_singleton]; omega) hrun
      rw [List.length_append, List.length_singleton] at hmore
      rw [List.length_cons]
      exact ⟨by omega, hmore.2⟩

/-- A file as it is documented is read as it is written. -/
theorem KeyFile.exact {ks : List DumpedKey} {ws : List Written} {w : Written} (h : KeyFile text ks) (hbegins : Begins text ws t) (hlast : Reads t w []) :
    ∀ w' ∈ ws ++ [w], w'.Exact := by
  induction hbegins generalizing ks with
  | nil =>
    intro w' hw'
    obtain rfl := List.mem_singleton.mp hw'
    cases h with
    | last h _ => exact (h.exact hlast).1
    | more h _ _ => exact (h.exact hlast).1
  | cons hreads _ ih =>
    cases h with
    | last h hend =>
      obtain ⟨-, hrest⟩ := h.exact hreads
      rw [hend] at hrest
      cases hrest
    | more h hcomma hrest =>
      obtain ⟨hexact, heq⟩ := h.exact hreads
      rw [show skip _ = _ from hcomma] at heq
      obtain rfl := (List.cons.inj heq).2
      exact List.forall_mem_cons.mpr ⟨hexact, ih hrest hlast⟩

/-- Keys that are written as they are dumped make a file as it is documented. -/
theorem keyFile_of_exact {ws : List Written} {w : Written} (hbegins : Begins text ws t) (hlast : Reads t w []) (hexact : ∀ w' ∈ ws ++ [w], w'.Exact)
    (i : Nat) : KeyFile text ((ws ++ [w]).map Written.dumped) ∧
      certificates fresh i (ws ++ [w]) = ((ws ++ [w]).map Written.dumped).map DumpedKey.certificate := by
  induction hbegins generalizing i with
  | nil =>
    obtain ⟨rest, hrecord, hrest, hcertificate⟩ := hlast.record (hexact w List.mem_cons_self) (fresh i)
    exact ⟨.last hrecord hrest.symm, congrArg (· :: []) hcertificate⟩
  | cons hreads _ ih =>
    obtain ⟨hfirst, hexact⟩ := List.forall_mem_cons.mp hexact
    obtain ⟨rest, hrecord, hrest, hcertificate⟩ := hreads.record hfirst (fresh i)
    obtain ⟨hfile, hcertificates⟩ := ih hlast hexact (i + 1)
    exact ⟨.more hrecord hrest.symm hfile, congrArg₂ List.cons hcertificate hcertificates⟩

theorem loadKeys_ok {fuel : Nat} {r : Option (List Cert)} (h : readKeys fresh fuel text [] = .ok r) :
    loadKeys fresh fuel (some text) = .ok (r, r.elim 0 fun out => (out.length : Int)) := by
  show (readKeys fresh fuel text []).bind _ = _
  rw [h]
  cases r <;> rfl

theorem exists_readKeys {fuel : Nat} {out : Option (List Cert)} {numKeys : Int} (h : loadKeys fresh fuel (some text) = .ok (out, numKeys)) :
    readKeys fresh fuel text [] = .ok out := by
  cases hrun : readKeys fresh fuel text [] with
  | error fault =>
    have herror : loadKeys fresh fuel (some text) = .error fault := by
      show (readKeys fresh fuel text []).bind _ = _
      rw [hrun]
      rfl
    rw [herror] at h
    cases h
  | ok r =>
    rw [loadKeys_ok hrun] at h
    rw [(Prod.mk.inj (Except.ok.inj h)).1]

/-- Keys that are all read are loaded, so the file is as it is documented. -/
theorem AsDocumented.fine (h : AsDocumented fresh text) : Fine text := by
  obtain ⟨fuel, out, numKeys, hload, hout⟩ := h
  have hrun := exists_readKeys hload
  refine ⟨fun ws rest hbegins => ?_, fun ws t w hbegins hlast => ?_⟩
  · have hcount := (readKeys_begins hbegins (Nat.zero_le _) hrun).1
    rw [List.length_nil] at hcount
    omega
  · obtain ⟨-, fuel', out', hrest, hne⟩ := readKeys_begins hbegins (Nat.zero_le _) hrun
    rw [readKeys_last hlast hne] at hrest
    rcases hout with rfl | ⟨ks, hfile, -, -⟩
    · cases hrest
    · exact hfile.exact hbegins hlast

end File

/-- The keys are loaded as it is documented just where the file is fine. -/
theorem asDocumented_iff (fresh : Nat → Cert) (text : Text) : AsDocumented fresh text ↔ Fine text := by
  constructor
  · exact AsDocumented.fine
  · rintro ⟨hcount, hexact⟩
    have hrun := @readKeys_run text fresh (text.length + 1) [] (Nat.lt_succ_self _) (by
      intro ws rest hbegins
      rw [List.length_nil, Nat.zero_add]
      exact hcount ws rest hbegins)
    rcases hrun with hnone | ⟨ws, t, w, hbegins, hlast, hsome⟩
    · exact ⟨_, _, _, loadKeys_ok hnone, .inl rfl⟩
    · obtain ⟨hfile, hcertificates⟩ := keyFile_of_exact hbegins hlast (hexact ws t w hbegins hlast) 0
      rw [List.nil_append, List.length_nil, hcertificates] at hsome
      exact ⟨_, _, _, loadKeys_ok hsome, .inr ⟨_, hfile, congrArg Int.ofNat (List.length_map _), rfl⟩⟩

def blankCert : Cert := ⟨0, ⟨0, 0, [], [], 0⟩⟩

/-- `,1` so many times. -/
def ones (n : Nat) : Text := (List.replicate n [44, 49]).flatten

/-- A key that starts with an `x`: `x64,0x1,{1,…,1},{1,…,1}}` -/
def strangeKey : Text :=
  120 :: 54 :: 52 :: 44 :: 48 :: 120 :: 49 :: 44 :: 123 :: 49 :: (ones 63 ++ (125 :: 44 :: 123 :: 49 :: (ones 63 ++ [125, 125])))

def oneNumeral : Numeral := ⟨[], [], [], 10, [49]⟩

theorem ones_head (n : Nat) (rest : Text) : ∀ b ∈ (ones n ++ 125 :: rest).head?, isDigitIn 10 b = false := by
  intro b hb
  cases n with
  | zero =>
    obtain rfl := Option.some.inj hb
    rfl
  | succ n =>
    obtain rfl := Option.some.inj hb
    rfl

theorem number_one (n : Nat) (rest : Text) : number .u (skip (49 :: (ones n ++ 125 :: rest))) = some (oneNumeral, ones n ++ 125 :: rest) := by
  have hskip : skip (49 :: (ones n ++ 125 :: rest)) = [] ++ ([49] ++ (ones n ++ 125 :: rest)) := rfl
  exact number_decimal (by decide) (.inl rfl) hskip (List.cons_ne_nil _ _) (List.forall_mem_singleton.mpr rfl) (ones_head n rest) (fun hk => absurd hk (by decide))

theorem words_ones (n : Nat) (rest : Text) : Words (ones n ++ 125 :: rest) (List.replicate n oneNumeral) (125 :: rest) := by
  induction n with
  | zero => exact .nil
  | succ n ih => exact .cons (wordFormat_iff.mpr ⟨49 :: (ones n ++ 125 :: rest), rfl, number_one n rest⟩) ih

/-- It is read, so the exponent is whatever was in memory. -/
theorem strangeKey_reads : Reads strangeKey
    ⟨.other 120, ⟨[], [], [], 10, [54, 52]⟩, ⟨[], [], [], 16, [49]⟩, oneNumeral :: List.replicate 63 oneNumeral,
      oneNumeral :: List.replicate 63 oneNumeral, 2⟩ [] :=
  .mk (.other rfl (by decide) (by decide)) (headFormat_iff.mpr ⟨_, _, _, _, _, _, rfl, rfl, rfl, rfl, rfl, rfl, number_one 63 _⟩) (by decide)
    (words_ones 63 _) List.length_replicate (middleFormat_iff.mpr ⟨_, _, _, rfl, rfl, rfl, number_one 63 _⟩) (words_ones 63 _) List.length_replicate
    (@Closes.both [125, 125] [125] [] rfl rfl)

/-- A file with a key that starts with an `x` is loaded. -/
theorem strangeKey_loaded : ¬AsDocumented (fun _ => blankCert) strangeKey :=
  fun h => (h.fine.2 [] _ _ .nil strangeKey_reads _ List.mem_cons_self).opening

end Twrp.Zip.Keys
