-- Decimal numbers. Writing a number and reading it gives the number back, and
-- digits without a sign are never read as a negative number.
import Borealis.Text.Integer

namespace Borealis.Text

/-! ## Digits -/

/-- The byte of a decimal digit. -/
def digitByte (d : Nat) : UInt8 := (Nat.digitChar d).toUInt8

theorem isDigit_digitByte : ∀ d < 10, isDigit (digitByte d) = true := by decide

theorem digitByte_value : ∀ d < 10, (digitByte d - byte '0').toNat = d := by decide

theorem ofNat_eq (n : Nat) :
    ofNat n = if n < 10 then [digitByte n] else ofNat (n / 10) ++ [digitByte (n % 10)] := by
  unfold ofNat
  rw [Nat.toDigits_eq_if (by decide)]
  split
  · rfl
  · simp [digitByte]

theorem ofNat_ne_nil (n : Nat) : ofNat n ≠ [] := by
  rw [ofNat_eq]
  split
  · simp
  · simp

theorem isDigit_of_mem_ofNat {n : Nat} {b : UInt8} (h : b ∈ ofNat n) : isDigit b = true := by
  induction n using Nat.strongRecOn with
  | ind n ih =>
    rw [ofNat_eq] at h
    split at h
    · rename_i hlt
      rw [List.mem_singleton.mp h]
      exact isDigit_digitByte n hlt
    · rcases List.mem_append.mp h with h | h
      · exact ih (n / 10) (by omega) h
      · rw [List.mem_singleton.mp h]
        exact isDigit_digitByte _ (Nat.mod_lt n (by decide))

/-! ## Reading what was written -/

theorem digitsFrom_append {value : Nat} {t u : Text} {n : Nat} (h : digitsFrom value t = .ok n) :
    digitsFrom value (t ++ u) = digitsFrom n u := by
  induction t generalizing value with
  | nil =>
    simp only [digitsFrom, Except.ok.injEq] at h
    rw [h, List.nil_append]
  | cons b t ih =>
    simp only [List.cons_append, digitsFrom] at h ⊢
    by_cases hb : isDigit b = true
    · rw [if_pos hb] at h ⊢
      split at h
      · rename_i hlt
        rw [if_pos hlt]
        exact ih h
      · exact absurd h (by simp)
    · rw [if_neg hb] at h
      exact absurd h (by simp)

theorem digitsFrom_digitByte {value d : Nat} (hd : d < 10) (h : value * 10 + d < UInt64.size) :
    digitsFrom value [digitByte d] = .ok (value * 10 + d) := by
  simp only [digitsFrom, isDigit_digitByte d hd, digitByte_value d hd, if_true, if_pos h]

theorem digitsFrom_ofNat {n : Nat} (h : n < UInt64.size) : digitsFrom 0 (ofNat n) = .ok n := by
  induction n using Nat.strongRecOn with
  | ind n ih =>
    rw [ofNat_eq]
    split
    · rename_i hlt
      rw [digitsFrom_digitByte hlt (by omega), Nat.zero_mul, Nat.zero_add]
    · rename_i hge
      have hmod : n % 10 < 10 := Nat.mod_lt n (by decide)
      have hdiv : n / 10 * 10 + n % 10 = n := Nat.div_add_mod' n 10
      rw [digitsFrom_append (ih (n / 10) (by omega) (by omega)),
        digitsFrom_digitByte hmod (by rw [hdiv]; exact h), hdiv]

theorem digits_ofNat {n : Nat} (h : n < UInt64.size) : digits (ofNat n) = .ok n := by
  have hne : (ofNat n).isEmpty = false := by
    rw [List.isEmpty_eq_false_iff]
    exact ofNat_ne_nil n
  rw [digits, hne]
  exact digitsFrom_ofNat h

theorem fitInt64_toInt (v : Int64) : fitInt64 v.toInt = .ok v := by
  have hv : Int64.minValue.toInt ≤ v.toInt ∧ v.toInt ≤ Int64.maxValue.toInt := by
    rw [Int64.toInt_minValue, Int64.toInt_maxValue]
    exact ⟨v.le_toInt, Int.le_sub_one_of_lt v.toInt_lt⟩
  rw [fitInt64, if_pos hv, Int64.ofInt_toInt]

/-- Digits in front of a text tell that it has no sign. -/
theorem toInt64_of_isDigit {t : Text} (hne : t ≠ []) (h : ∀ b ∈ t, isDigit b = true) :
    toInt64 t = (digits t).bind fun n => fitInt64 n := by
  obtain ⟨b, t, rfl⟩ := List.exists_cons_of_ne_nil hne
  have hb := h b (List.mem_cons_self)
  have hminus : b ≠ byte '-' := by
    rintro rfl
    exact absurd hb (by decide)
  have hplus : b ≠ byte '+' := by
    rintro rfl
    exact absurd hb (by decide)
  rw [toInt64, if_neg hminus, if_neg hplus]

/-- Writing a number and reading it gives it back. -/
theorem toInt64_ofInt (v : Int64) : toInt64 (ofInt v.toInt) = .ok v := by
  have hlow := v.le_toInt
  have hhigh := v.toInt_lt
  cases hv : v.toInt with
  | ofNat n =>
    rw [hv] at hhigh
    have hn : n < UInt64.size := by
      have h : (n : Int) < 2 ^ 63 := hhigh
      unfold UInt64.size
      omega
    show toInt64 (ofNat n) = .ok v
    rw [toInt64_of_isDigit (ofNat_ne_nil n) fun b hb => isDigit_of_mem_ofNat hb, digits_ofNat hn,
      Except.bind, show (n : Int) = v.toInt from hv.symm, fitInt64_toInt]
  | negSucc n =>
    rw [hv] at hlow
    have hn : n + 1 < UInt64.size := by
      unfold UInt64.size
      omega
    show toInt64 (byte '-' :: ofNat (n + 1)) = .ok v
    rw [toInt64, if_pos rfl, digits_ofNat hn, Except.bind,
      show -((n + 1 : Nat) : Int) = v.toInt from hv.symm, fitInt64_toInt]

theorem toInt_nonneg_of_fitInt64 {n : Nat} {v : Int64} (h : fitInt64 n = .ok v) :
    0 ≤ v.toInt := by
  unfold fitInt64 at h
  split at h
  · rename_i hfit
    injection h with h
    rw [Int64.toInt_minValue, Int64.toInt_maxValue] at hfit
    rw [← h, Int64.toInt_ofInt_of_le hfit.1 (Int.lt_of_le_sub_one hfit.2)]
    exact Int.natCast_nonneg n
  · exact absurd h (by simp)

/-- Digits without a sign are no negative number. -/
theorem toInt_nonneg_of_isDigit {t : Text} {v : Int64} (hne : t ≠ [])
    (h : ∀ b ∈ t, isDigit b = true) (hv : toInt64 t = .ok v) : 0 ≤ v.toInt := by
  rw [toInt64_of_isDigit hne h] at hv
  cases hd : digits t with
  | error e =>
    rw [hd] at hv
    exact absurd hv (by simp [Except.bind])
  | ok n =>
    rw [hd, Except.bind] at hv
    exact toInt_nonneg_of_fitInt64 hv

end Borealis.Text
