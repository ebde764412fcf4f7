import InfluxHandler.Go.Basic
import InfluxHandler.Library.Numeral

/-!
# strconv: decimal integers

`formatInt` and `parseInt` are `strconv.FormatInt(i, 10)` and `strconv.ParseInt(s, 10, 64)`.
The sign is a character of the text like any digit, so keeping the first `k` characters of a
printed number keeps one digit less when the number is negative; `parseInt_take_formatInt` says
what that does to the value, for every `int64`.
-/
namespace InfluxHandler.Go
open Numeral

/-- The character of a decimal digit. -/
def digitByte (d : Nat) : UInt8 := UInt8.ofNat (48 + d)

def isDigit (c : UInt8) : Bool := 48 ≤ c.toNat && c.toNat ≤ 57

def digitValue (c : UInt8) : Nat := c.toNat - 48

def formatUint (n : Nat) : Bytes := (numeral 10 n).map digitByte

def formatInt (i : Int64) : Bytes :=
  if i.toInt < 0 then Byte.minus :: formatUint i.toInt.natAbs else formatUint i.toInt.natAbs

/-- The largest `uint64`, and the least number that overflows when multiplied by ten. -/
abbrev maxUint64 : Nat := 18446744073709551615
abbrev cutoffUint64 : Nat := maxUint64 / 10 + 1

/-- The digit loop of `strconv.ParseUint`. -/
def parseDigits : Nat → Bytes → Except NumErr Nat
  | n, [] => .ok n
  | n, c :: cs =>
    if isDigit c then
      if cutoffUint64 ≤ n then .error .outOfRange
      else if maxUint64 < n * 10 + digitValue c then .error .outOfRange
      else parseDigits (n * 10 + digitValue c) cs
    else .error .badSyntax

def parseUint (s : Bytes) : Except NumErr Nat :=
  if s = [] then .error .badSyntax else parseDigits 0 s

/-- The sign and the rest of the text. -/
def parseSign : Bytes → Bool × Bytes
  | [] => (false, [])
  | c :: cs =>
    if c = 43 then (false, cs) else if c = Byte.minus then (true, cs) else (false, c :: cs)

def parseInt (s : Bytes) : Except GoError Int64 :=
  if s = [] then .error (.parseInt s .badSyntax)
  else match parseUint (parseSign s).2 with
    | .error e => .error (.parseInt s e)
    | .ok un =>
      if (parseSign s).1 = false ∧ 2 ^ 63 ≤ un then .error (.parseInt s .outOfRange)
      else if (parseSign s).1 = true ∧ 2 ^ 63 < un then .error (.parseInt s .outOfRange)
      else if (parseSign s).1 then .ok (Int64.ofInt (-un)) else .ok (Int64.ofInt un)

/-! ## Digits -/

theorem toNat_digitByte {d : Nat} (h : d < 10) : (digitByte d).toNat = 48 + d := by
  simp [digitByte]
  omega

theorem isDigit_digitByte {d : Nat} (h : d < 10) : isDigit (digitByte d) = true := by
  simp only [isDigit, toNat_digitByte h, Bool.and_eq_true, decide_eq_true_eq]
  omega

@[simp] theorem digitValue_digitByte {d : Nat} (h : d < 10) : digitValue (digitByte d) = d := by
  simp [digitValue, toNat_digitByte h]

theorem isDigit_of_mem_formatUint {n : Nat} {c : UInt8} (h : c ∈ formatUint n) :
    isDigit c = true := by
  obtain ⟨d, hd, rfl⟩ := List.mem_map.mp h
  exact isDigit_digitByte (lt_base_of_mem_numeral (by norm_num) hd)

/-- Every byte of a printed integer is a digit or the sign. -/
theorem isDigit_or_minus_of_mem_formatInt {i : Int64} {c : UInt8} (h : c ∈ formatInt i) :
    isDigit c = true ∨ c = Byte.minus := by
  unfold formatInt at h
  split_ifs at h
  · rcases List.mem_cons.mp h with rfl | h
    · exact .inr rfl
    · exact .inl (isDigit_of_mem_formatUint h)
  · exact .inl (isDigit_of_mem_formatUint h)

theorem newline_not_mem_formatInt (i : Int64) : Byte.newline ∉ formatInt i := by
  intro h
  rcases isDigit_or_minus_of_mem_formatInt h with h | h <;> cases h

theorem formatUint_ne_nil (n : Nat) : formatUint n ≠ [] := by
  simpa [formatUint] using numeral_ne_nil (b := 10) n

@[simp] theorem length_formatUint (n : Nat) : (formatUint n).length = (numeral 10 n).length := by
  simp [formatUint]

theorem take_formatUint (n : Nat) {k : Nat} (hk : 0 < k) :
    (formatUint n).take k = formatUint (n / 10 ^ ((formatUint n).length - k)) := by
  rw [length_formatUint]
  unfold formatUint
  rw [← List.map_take, take_numeral (by norm_num) n hk]

/-! ## Parsing -/

/-- Digits whose value fits are read as that value. -/
theorem parseDigits_map (ds : List Nat) (hd : ∀ d ∈ ds, d < 10) (n : Nat)
    (hv : value 10 ds n ≤ maxUint64) : parseDigits n (ds.map digitByte) = .ok (value 10 ds n) := by
  induction ds generalizing n with
  | nil => rfl
  | cons d ds ih =>
    have hd' : d < 10 := hd d List.mem_cons_self
    have hs : value 10 (d :: ds) n = value 10 ds (n * 10 + d) := rfl
    have grow : n * 10 + d ≤ value 10 ds (n * 10 + d) := le_value (by norm_num) ds _
    rw [hs] at hv ⊢
    have below : ¬ cutoffUint64 ≤ n := by simp only [cutoffUint64, maxUint64] at *; omega
    simp only [List.map_cons, parseDigits, isDigit_digitByte hd', digitValue_digitByte hd', if_true,
      if_neg below]
    rw [if_neg (by omega)]
    exact ih (fun e he => hd e (List.mem_cons_of_mem _ he)) _ hv

theorem parseUint_formatUint {n : Nat} (hn : n ≤ maxUint64) : parseUint (formatUint n) = .ok n := by
  rw [parseUint, if_neg (formatUint_ne_nil n), formatUint, parseDigits_map]
  · rw [value_numeral]
  · intro d hd
    exact lt_base_of_mem_numeral (by norm_num) hd
  · rwa [value_numeral]

theorem parseSign_formatUint (n : Nat) : parseSign (formatUint n) = (false, formatUint n) := by
  rcases h : formatUint n with _ | ⟨c, cs⟩
  · rfl
  · have hc : isDigit c = true := isDigit_of_mem_formatUint (n := n) (by simp [h])
    have plus : c ≠ 43 := by rintro rfl; cases hc
    have minus : c ≠ Byte.minus := by rintro rfl; cases hc
    simp [parseSign, plus, minus]

theorem parseInt_formatUint {n : Nat} (hn : n < 2 ^ 63) :
    parseInt (formatUint n) = .ok (Int64.ofInt n) := by
  rw [parseInt, if_neg (formatUint_ne_nil n), parseSign_formatUint,
    parseUint_formatUint (by simp only [maxUint64]; omega)]
  simp only [Nat.not_le.mpr hn, and_false, Bool.false_eq_true, false_and, if_false]

theorem parseInt_minus_formatUint {n : Nat} (hn : n ≤ 2 ^ 63) :
    parseInt (Byte.minus :: formatUint n) = .ok (Int64.ofInt (-n)) := by
  have sign : parseSign (Byte.minus :: formatUint n) = (true, formatUint n) := rfl
  rw [parseInt, if_neg (by simp), sign, parseUint_formatUint (by simp only [maxUint64]; omega)]
  simp only [Nat.not_lt.mpr hn, and_false, Bool.true_eq_false, false_and, if_false, if_true]

/-! ## The size of a parsed integer -/

theorem digitValue_lt {c : UInt8} (h : isDigit c = true) : digitValue c < 10 := by
  simp only [isDigit, Bool.and_eq_true, decide_eq_true_eq] at h
  unfold digitValue
  omega

/-- Every digit multiplies what was read by ten at most. -/
theorem parseDigits_lt {s : Bytes} {n m : Nat} (h : parseDigits n s = .ok m) :
    m < (n + 1) * 10 ^ s.length := by
  induction s generalizing n with
  | nil =>
    cases h
    simp
  | cons c s ih =>
    unfold parseDigits at h
    split_ifs at h with digit
    have small := digitValue_lt digit
    calc m < (n * 10 + digitValue c + 1) * 10 ^ s.length := ih h
      _ ≤ ((n + 1) * 10) * 10 ^ s.length := Nat.mul_le_mul_right _ (by omega)
      _ = (n + 1) * 10 ^ (c :: s).length := by rw [List.length_cons, pow_succ']; ring

theorem parseUint_lt {s : Bytes} {n : Nat} (h : parseUint s = .ok n) : n < 10 ^ s.length := by
  unfold parseUint at h
  split_ifs at h
  simpa using parseDigits_lt h

/-- A minus sign takes a character. -/
theorem length_parseSign (s : Bytes) :
    (parseSign s).2.length + (parseSign s).1.toNat ≤ s.length := by
  cases s with
  | nil => simp [parseSign]
  | cons c s =>
    simp only [parseSign, apply_ite Prod.fst, apply_ite Prod.snd]
    split_ifs <;> simp

/-- What is read is the sign and the digits behind it, without overflow. -/
theorem of_parseInt_ok {s : Bytes} {n : Int64} (h : parseInt s = .ok n) :
    ∃ un, parseUint (parseSign s).2 = .ok un ∧
      n.toInt = if (parseSign s).1 then -(un : Int) else un := by
  unfold parseInt at h
  rw [if_neg (by rintro rfl; simp at h)] at h
  generalize parseSign s = sign at h
  obtain ⟨neg, rest⟩ := sign
  rcases hu : parseUint rest with e | un
  · simp [hu] at h
  · refine ⟨un, rfl, ?_⟩
    simp only [hu] at h
    cases neg with
    | true =>
      simp only [Bool.true_eq_false, false_and, if_false, true_and, if_true] at h
      split_ifs at h with range
      cases h
      exact Int64.toInt_ofInt_of_le (by omega) (by omega)
    | false =>
      simp only [Bool.false_eq_true, false_and, if_false, true_and] at h
      split_ifs at h with range
      cases h
      exact Int64.toInt_ofInt_of_le (by omega) (by omega)

/-- A text of `k + 1` characters holds that many digits, or a sign and `k` digits. -/
theorem parseInt_bounds {s : Bytes} {n : Int64} (h : parseInt s = .ok n) {k : Nat}
    (hs : s.length ≤ k + 1) : -10 ^ k < n.toInt ∧ n.toInt < 10 ^ (k + 1) := by
  obtain ⟨un, hu, hn⟩ := of_parseInt_ok h
  have digits := parseUint_lt hu
  have sign := length_parseSign s
  rw [hn]
  cases hneg : (parseSign s).1 with
  | true =>
    rw [hneg, Bool.toNat_true] at sign
    have small : un < 10 ^ k :=
      digits.trans_le (Nat.pow_le_pow_right (by norm_num) (by omega))
    have pos : 0 < 10 ^ (k + 1) := by positivity
    zify at small pos
    simp only [if_true]
    omega
  | false =>
    rw [hneg, Bool.toNat_false] at sign
    have small : un < 10 ^ (k + 1) :=
      digits.trans_le (Nat.pow_le_pow_right (by norm_num) (by omega))
    have pos : 0 < 10 ^ k := by positivity
    zify at small pos
    simp only [Bool.false_eq_true, if_false]
    omega

/-! ## Cutting a printed integer -/

theorem length_formatInt (i : Int64) :
    (formatInt i).length =
      (numeral 10 i.toInt.natAbs).length + if i.toInt < 0 then 1 else 0 := by
  unfold formatInt
  split_ifs <;> simp

theorem tdiv_of_nonneg {i : Int} (h : 0 ≤ i) (d : Nat) :
    i.tdiv (10 ^ d) = (i.natAbs / 10 ^ d : Nat) := by
  obtain ⟨n, rfl⟩ := Int.eq_ofNat_of_zero_le h
  rw [Int.natAbs_natCast, Int.natCast_ediv, Int.tdiv_eq_ediv_of_nonneg h]
  norm_cast

theorem tdiv_of_neg {i : Int} (h : i < 0) (d : Nat) :
    i.tdiv (10 ^ d) = -((i.natAbs / 10 ^ d : Nat) : Int) := by
  rw [← Int.natAbs_neg, ← tdiv_of_nonneg (by omega), Int.neg_tdiv, neg_neg]

/-- Keeping at least two characters of a printed integer divides it by the power of ten that was
cut off, rounding toward zero. -/
theorem parseInt_take_formatInt (i : Int64) {k : Nat} (hk : 2 ≤ k) :
    parseInt ((formatInt i).take k) =
      .ok (Int64.ofInt (i.toInt.tdiv (10 ^ ((formatInt i).length - k)))) := by
  have hlo := i.le_toInt
  have hhi := i.toInt_lt
  by_cases neg : i.toInt < 0
  · obtain ⟨k, rfl⟩ : ∃ j, k = j + 1 := ⟨k - 1, by omega⟩
    have form : formatInt i = Byte.minus :: formatUint i.toInt.natAbs := if_pos neg
    have small : i.toInt.natAbs / 10 ^ ((formatUint i.toInt.natAbs).length - k) ≤ 2 ^ 63 :=
      le_trans (Nat.div_le_self _ _) (by omega)
    rw [form, List.take_succ_cons, take_formatUint _ (by omega), parseInt_minus_formatUint small]
    rw [tdiv_of_neg neg, List.length_cons, Nat.add_sub_add_right]
  · have form : formatInt i = formatUint i.toInt.natAbs := if_neg neg
    have small : i.toInt.natAbs / 10 ^ ((formatUint i.toInt.natAbs).length - k) < 2 ^ 63 :=
      lt_of_le_of_lt (Nat.div_le_self _ _) (by omega)
    rw [form, take_formatUint _ (by omega), parseInt_formatUint small]
    rw [tdiv_of_nonneg (not_lt.mp neg)]

/-- Reading a printed integer gives it back. -/
theorem parseInt_formatInt (i : Int64) : parseInt (formatInt i) = .ok i := by
  have cut := parseInt_take_formatInt i (k := (formatInt i).length + 2) (by omega)
  have nothing : (formatInt i).length - ((formatInt i).length + 2) = 0 := by omega
  rwa [List.take_of_length_le (by omega), nothing, pow_zero, Int.tdiv_one, Int64.ofInt_toInt] at cut

end InfluxHandler.Go
