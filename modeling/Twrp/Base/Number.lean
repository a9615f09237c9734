import Twrp.Base.CString

/-! Decimal numbers in text. A number that is printed and read back is the same (`digits_decimalBytes`),
whatever stands behind it that is not a digit. -/
namespace Twrp.Base

/-- A number as `%lu` writes it. -/
def decimalBytes (n : Nat) : List UInt8 := (Nat.toDigits 10 n).map fun c => UInt8.ofNat c.toNat

def IsDigit (b : UInt8) : Prop := 48 ≤ b ∧ b ≤ 57

instance (b : UInt8) : Decidable (IsDigit b) := inferInstanceAs (Decidable (_ ∧ _))

theorem isDigit_ofNat {c : Char} (h : c.isDigit) :
    IsDigit (UInt8.ofNat c.toNat) ∧ (UInt8.ofNat c.toNat).toNat = c.toNat := by
  have hrange : 48 ≤ c.toNat ∧ c.toNat ≤ 57 := by
    unfold Char.isDigit at h
    rw [Bool.and_eq_true_iff] at h
    exact ⟨of_decide_eq_true h.1, of_decide_eq_true h.2⟩
  have hval : (UInt8.ofNat c.toNat).toNat = c.toNat := by
    rw [UInt8.toNat_ofNat']
    omega
  refine ⟨⟨?_, ?_⟩, hval⟩
  · rw [UInt8.le_iff_toNat_le, hval]
    exact hrange.1
  · rw [UInt8.le_iff_toNat_le, hval]
    exact hrange.2

theorem digits_map {cs : List Char} (hcs : ∀ c ∈ cs, c.isDigit) (acc : Nat) (rest : List UInt8) :
    CString.digits (cs.map (fun c => UInt8.ofNat c.toNat) ++ rest) acc = CString.digits rest (Nat.ofDigitChars 10 cs acc) := by
  induction cs generalizing acc with
  | nil => simp
  | cons c cs ih =>
    obtain ⟨hc, hrest⟩ := List.forall_mem_cons.mp hcs
    obtain ⟨hdigit, hval⟩ := isDigit_ofNat hc
    rw [List.map_cons, List.cons_append, CString.digits, if_pos (show _ ∧ _ from hdigit), ih hrest, hval, Nat.ofDigitChars_cons]
    rfl

/-- A number is read as it was written. -/
theorem digits_decimalBytes (n : Nat) {rest : List UInt8} (hrest : ∀ b ∈ rest.head?, ¬ IsDigit b) :
    CString.digits (decimalBytes n ++ rest) 0 = n := by
  have hdigits : ∀ c ∈ Nat.toDigits 10 n, c.isDigit := fun c hc => Nat.isDigit_of_mem_toDigits (by decide) (by decide) hc
  rw [decimalBytes, digits_map hdigits, Nat.ofDigitChars_ten_toDigits]
  cases rest with
  | nil => rfl
  | cons b rest =>
    rw [CString.digits]
    exact if_neg (hrest b rfl)

theorem isDigit_of_mem_decimalBytes {n : Nat} {b : UInt8} (h : b ∈ decimalBytes n) : IsDigit b := by
  obtain ⟨c, hc, rfl⟩ := List.mem_map.mp h
  exact (isDigit_ofNat (Nat.isDigit_of_mem_toDigits (by decide) (by decide) hc)).1

theorem decimalBytes_ne_nil (n : Nat) : decimalBytes n ≠ [] := by
  simp [decimalBytes, Nat.toDigits_ne_nil]

theorem length_decimalBytes_le {n k : Nat} (hk : 0 < k) : (decimalBytes n).length ≤ k ↔ n < 10 ^ k := by
  rw [decimalBytes, List.length_map]
  exact Nat.length_toDigits_le_iff (by decide) hk

theorem not_mem_decimalBytes {n : Nat} {b : UInt8} (h : ¬ IsDigit b) : b ∉ decimalBytes n :=
  fun hmem => h (isDigit_of_mem_decimalBytes hmem)

/-! ### Signed numbers -/

/-- A number as `%jd` writes it. -/
def intBytes : Int → List UInt8
  | .ofNat n => decimalBytes n
  | .negSucc n => 45 :: decimalBytes (n + 1)

theorem intBytes_ne_nil (i : Int) : intBytes i ≠ [] := by
  cases i with
  | ofNat n => exact decimalBytes_ne_nil n
  | negSucc n => exact List.cons_ne_nil _ _

theorem not_mem_intBytes {i : Int} {b : UInt8} (hdigit : ¬ IsDigit b) (hminus : b ≠ 45) : b ∉ intBytes i := by
  cases i with
  | ofNat n => exact not_mem_decimalBytes hdigit
  | negSucc n => exact List.not_mem_cons_of_ne_of_not_mem hminus (not_mem_decimalBytes hdigit)

theorem exists_cons_decimalBytes (n : Nat) : ∃ b rest, decimalBytes n = b :: rest ∧ IsDigit b := by
  obtain ⟨b, rest, heq⟩ := List.exists_cons_of_ne_nil (decimalBytes_ne_nil n)
  refine ⟨b, rest, heq, isDigit_of_mem_decimalBytes (n := n) ?_⟩
  rw [heq]
  exact List.mem_cons_self

theorem IsDigit.not_sign {b : UInt8} (h : IsDigit b) :
    (b == 32 || (9 ≤ b && b ≤ 13)) = false ∧ b ≠ 45 ∧ b ≠ 43 := by
  obtain ⟨hlo, hhi⟩ := h
  rw [UInt8.le_iff_toNat_le] at hlo hhi
  have hnat : (48 : UInt8).toNat = 48 ∧ (57 : UInt8).toNat = 57 := by decide
  have hne : ∀ c : UInt8, c.toNat < 48 → b ≠ c := by
    rintro c hc rfl
    omega
  refine ⟨?_, hne 45 (by decide), hne 43 (by decide)⟩
  have hspace : b ≠ 32 := hne 32 (by decide)
  have htab : ¬ b ≤ 13 := by
    rw [UInt8.le_iff_toNat_le]
    have : (13 : UInt8).toNat = 13 := by decide
    omega
  simp [hspace, htab]

/-- A number of 32 bits is read as it was written, whatever stands behind it that is no digit. -/
theorem atoi_intBytes {i : Int} (hlo : -2147483648 ≤ i) (hhi : i ≤ 2147483647) {rest : List UInt8}
    (hrest : ∀ b ∈ rest.head?, ¬ IsDigit b) {s : CString} (hs : s.bytes = intBytes i ++ rest) : s.atoi = i := by
  unfold CString.atoi
  rw [hs]
  cases i with
  | ofNat n =>
    obtain ⟨b, more, heq, hdigit⟩ := exists_cons_decimalBytes n
    obtain ⟨hspace, hminus, hplus⟩ := hdigit.not_sign
    have hread := digits_decimalBytes n hrest
    simp only [intBytes]
    rw [heq] at hread ⊢
    rw [List.cons_append, List.dropWhile_cons_of_neg (by simp [hspace])]
    rw [List.cons_append] at hread
    split
    · rename_i hcons
      exact absurd (List.cons.inj hcons).1 hminus
    · rename_i hcons
      exact absurd (List.cons.inj hcons).1 hplus
    · rw [hread]
      simp only [Int.ofNat_eq_natCast] at *
      omega
  | negSucc n =>
    have hread := digits_decimalBytes (n + 1) hrest
    simp only [intBytes, List.cons_append]
    rw [List.dropWhile_cons_of_neg (by decide)]
    simp only [hread]
    omega

end Twrp.Base
