import Mathlib.Data.Nat.Digits.Lemmas

/-!
# Positional numerals, most significant digit first

Mathlib's `Nat.digits` is little-endian and empty at zero; printed numbers are big-endian and
show a zero. `numeral` is that printed form as a list of digit values. The main facts are that
cutting a numeral after `k` digits divides the number by a power of the base, and that reading
a numeral back gives the number.
-/
namespace Numeral

/-- The digits of `n` in base `b` as they are printed. -/
def numeral (b n : Nat) : List Nat := if n = 0 then [0] else (b.digits n).reverse

/-- The number that a digit list denotes, read from the left with the given start. -/
def value (b : Nat) (ds : List Nat) (start : Nat) : Nat := ds.foldl (fun a d => a * b + d) start

section
variable {b : Nat}

theorem numeral_ne_nil (n : Nat) : numeral b n ≠ [] := by
  unfold numeral
  split_ifs with h
  · simp
  · simpa using Nat.digits_ne_nil_iff_ne_zero.mpr h

theorem lt_base_of_mem_numeral (hb : 1 < b) {n d : Nat} (h : d ∈ numeral b n) : d < b := by
  unfold numeral at h
  split_ifs at h with hn
  · simp at h; omega
  · exact Nat.digits_lt_base hb (by simpa using h)

theorem lt_pow_length_numeral (hb : 1 < b) (n : Nat) : n < b ^ (numeral b n).length := by
  unfold numeral
  split_ifs with h
  · subst h; simp; omega
  · simpa using Nat.lt_base_pow_length_digits (m := n) hb

/-- A positive number lies in the decade of its numeral. -/
theorem length_numeral_le_iff (hb : 1 < b) {n k : Nat} (hk : 0 < k) :
    (numeral b n).length ≤ k ↔ n < b ^ k := by
  unfold numeral
  split_ifs with h
  · subst h
    simp only [List.length_singleton]
    exact ⟨fun _ => Nat.pow_pos (by omega), fun _ => hk⟩
  · simpa using Nat.digits_length_le_iff hb n

theorem length_numeral_eq (hb : 1 < b) {n k : Nat} (hlo : b ^ k ≤ n) (hhi : n < b ^ (k + 1)) :
    (numeral b n).length = k + 1 := by
  have upper : (numeral b n).length ≤ k + 1 := (length_numeral_le_iff hb (by omega)).mpr hhi
  have lower : ¬ (numeral b n).length ≤ k := by
    intro h
    have := (lt_pow_length_numeral hb n).trans_le (Nat.pow_le_pow_right (by omega) h)
    omega
  omega

theorem value_append (ds es : List Nat) (start : Nat) :
    value b (ds ++ es) start = value b es (value b ds start) := by
  simp [value]

/-- Reading on never makes the number smaller. -/
theorem le_value (hb : 0 < b) (ds : List Nat) (start : Nat) : start ≤ value b ds start := by
  induction ds generalizing start with
  | nil => exact le_rfl
  | cons d ds ih => exact le_trans (by nlinarith) (ih (start * b + d))

theorem value_reverse (ds : List Nat) : value b ds.reverse 0 = Nat.ofDigits b ds := by
  induction ds with
  | nil => rfl
  | cons d ds ih =>
    rw [List.reverse_cons, value_append, ih]
    simp [value, Nat.ofDigits_cons]
    ring

/-- Reading a numeral back gives the number. -/
theorem value_numeral (n : Nat) : value b (numeral b n) 0 = n := by
  unfold numeral
  split_ifs with h
  · subst h; simp [value]
  · rw [value_reverse, Nat.ofDigits_digits]

/-- The digits above position `i` are the digits of the quotient. -/
theorem digits_drop (hb : 1 < b) (n i : Nat) : (b.digits n).drop i = b.digits (n / b ^ i) := by
  induction i with
  | zero => simp
  | succ i ih =>
    have step : (b.digits (n / b ^ i)).tail = b.digits (n / b ^ i / b) := by
      rcases Nat.eq_zero_or_pos (n / b ^ i) with h | h
      · simp [h]
      · rw [Nat.digits_def' hb h, List.tail_cons]
    rw [← List.tail_drop, ih, step, Nat.div_div_eq_div_mul, pow_succ]

/-- Keeping the first `k` printed digits divides by the power of the base that drops the rest. -/
theorem take_numeral (hb : 1 < b) (n : Nat) {k : Nat} (hk : 0 < k) :
    (numeral b n).take k = numeral b (n / b ^ ((numeral b n).length - k)) := by
  rcases Nat.eq_zero_or_pos n with rfl | hn
  · obtain ⟨k, rfl⟩ := Nat.exists_eq_succ_of_ne_zero hk.ne'
    simp [numeral]
  · have form : numeral b n = (b.digits n).reverse := by simp [numeral, hn.ne']
    have length : (numeral b n).length = (b.digits n).length := by simp [form]
    by_cases short : (numeral b n).length ≤ k
    · rw [List.take_of_length_le short, Nat.sub_eq_zero_of_le short]
      simp
    · -- the quotient keeps at least one digit, so its numeral is not the special case of zero
      have kept : n / b ^ ((numeral b n).length - k) ≠ 0 := by
        intro h
        have small := (Nat.div_eq_zero_iff.mp h).resolve_left (by positivity)
        have := (length_numeral_le_iff hb (k := (numeral b n).length - k) (by omega)).mpr small
        omega
      rw [show numeral b (n / b ^ ((numeral b n).length - k)) =
        (b.digits (n / b ^ ((numeral b n).length - k))).reverse from if_neg kept, length, form,
        List.take_reverse, digits_drop hb]

/-- At most `j` digits are left exactly when all digits behind the first `j` are dropped. -/
theorem div_pow_lt_iff (hb : 1 < b) {n j : Nat} (hj : 0 < j) (k : Nat) :
    n / b ^ k < b ^ j ↔ (numeral b n).length - j ≤ k := by
  have hp : 0 < b ^ k := Nat.pow_pos (by omega)
  rw [Nat.div_lt_iff_lt_mul hp, ← pow_add, ← length_numeral_le_iff hb (by omega),
    Nat.sub_le_iff_le_add']

/-- A leading block of digits fixes the numeral's length, whatever follows it. -/
theorem length_numeral_shift (hb : 1 < b) {s r k j : Nat} (hlo : b ^ j ≤ s) (hhi : s < b ^ (j + 1))
    (hr : r < b ^ k) : (numeral b (s * b ^ k + r)).length = j + 1 + k := by
  have hp : 0 < b ^ k := Nat.pow_pos (by omega)
  have := length_numeral_eq hb (n := s * b ^ k + r) (k := j + k)
    (by rw [pow_add]; nlinarith) (by rw [show j + k + 1 = j + 1 + k by omega, pow_add]; nlinarith)
  omega

theorem div_shift {s r k : Nat} (hr : r < b ^ k) : (s * b ^ k + r) / b ^ k = s := by
  rw [Nat.mul_comm, Nat.mul_add_div (by omega), Nat.div_eq_of_lt hr, Nat.add_zero]

end

end Numeral
