import InfluxHandler.Go.Strconv

/-!
# time: instants and durations

An instant is stored as Go stores it, in seconds since the start of year 1 and a nanosecond
offset, and the arithmetic is that of `int64`. `unix_unixNano` gives the range in which a whole
second survives the conversion to nanoseconds without overflow.
-/
namespace InfluxHandler.Go

structure Time where
  sec : Int64
  nsec : Int64
  deriving DecidableEq

namespace Time

/-- Seconds from the start of year 1 to the Unix epoch. -/
abbrev unixToInternal : Int64 := 62135596800

abbrev nanosPerSecond : Int64 := 1000000000

/-- `time.Unix`. -/
def unix (sec nsec : Int64) : Time :=
  if nsec < 0 ∨ nanosPerSecond ≤ nsec then
    let n := nsec / nanosPerSecond
    let rest := nsec - n * nanosPerSecond
    if rest < 0 then ⟨sec + n - 1 + unixToInternal, rest + nanosPerSecond⟩
    else ⟨sec + n + unixToInternal, rest⟩
  else ⟨sec + unixToInternal, nsec⟩

def isZero (t : Time) : Bool := t.sec == 0 && t.nsec == 0

def before (t u : Time) : Bool := t.sec < u.sec || t.sec == u.sec && t.nsec < u.nsec

def after (t u : Time) : Bool := u.sec < t.sec || t.sec == u.sec && u.nsec < t.nsec

def unixNano (t : Time) : Int64 := (t.sec + -unixToInternal) * nanosPerSecond + t.nsec

/-- Nanoseconds since the start of year 1, as a number without limits. -/
def nanos (t : Time) : Int := t.sec.toInt * 1000000000 + t.nsec.toInt

def ofNanos (n : Int) : Time := ⟨Int64.ofInt (n / 1000000000), Int64.ofInt (n % 1000000000)⟩

/-- `Time.Truncate`. -/
def truncate (t : Time) (d : Int) : Time := if d ≤ 0 then t else ofNanos (t.nanos - t.nanos % d)

/-- `Time.Add`. -/
def add (t : Time) (d : Int) : Time := ofNanos (t.nanos + d)

/-! ## Whole seconds -/

@[simp] theorem unix_zero (n : Int64) : unix n 0 = ⟨n + unixToInternal, 0⟩ := by
  simp [unix]

/-- The internal second counter does not overflow for any plausible date. -/
theorem toInt_internal {n : Int64} (hlo : -10 ^ 18 ≤ n.toInt) (hhi : n.toInt ≤ 10 ^ 18) :
    (n + unixToInternal).toInt = n.toInt + 62135596800 := by
  rw [Int64.toInt_add]
  change (n.toInt + 62135596800).bmod (2 ^ 64) = _
  apply Int.bmod_eq_of_le <;> omega

theorem unix_unixNano_eq (n : Int64) : (unix n 0).unixNano = n * nanosPerSecond := by
  have cancel : unixToInternal + -unixToInternal = 0 := rfl
  simp [unixNano, Int64.add_assoc, cancel]

/-- Whole seconds fit into nanoseconds up to the limit of `int64`. -/
theorem unix_unixNano {n : Int64} (hlo : -9223372036 ≤ n.toInt) (hhi : n.toInt ≤ 9223372036) :
    (unix n 0).unixNano.toInt = n.toInt * 10 ^ 9 := by
  rw [unix_unixNano_eq, Int64.toInt_mul]
  change (n.toInt * 1000000000).bmod (2 ^ 64) = _
  rw [Int.bmod_eq_of_le] <;> omega

/-- Among plausible dates only the start of year 1 is the zero time. -/
theorem isZero_unix {n : Int64} (hlo : -10 ^ 18 ≤ n.toInt) (hhi : n.toInt ≤ 10 ^ 18) :
    (unix n 0).isZero = true ↔ n.toInt = -62135596800 := by
  have zero : n + unixToInternal = 0 ↔ n.toInt + 62135596800 = 0 := by
    rw [← Int64.toInt_inj, toInt_internal hlo hhi]
    rfl
  rw [unix_zero, isZero]
  simp only [Bool.and_eq_true, beq_iff_eq, and_true, zero]
  omega

/-! ## Nanoseconds -/

/-- Nanoseconds survive the split into seconds and rest. -/
theorem unixNano_unix (x : Int64) : (unix 0 x).unixNano = x := by
  have shifted (n u b : Int64) : (0 + n - 1 + u + -u) * b + (x - n * b + b) = x := by grind
  have split (n u b : Int64) : (0 + n + u + -u) * b + (x - n * b) = x := by grind
  have small (u b : Int64) : (0 + u + -u) * b + x = x := by grind
  unfold unix unixNano
  dsimp only
  split_ifs
  · exact shifted _ _ _
  · exact split _ _ _
  · exact small _ _

/-- The truncated quotient in terms of the rounded one. -/
theorem tdiv_second_cases (x : Int) :
    0 ≤ x ∧ x.tdiv 1000000000 = x / 1000000000 ∨
      x < 0 ∧ x.tdiv 1000000000 = -(-x / 1000000000) := by
  rcases le_or_gt 0 x with h | h
  · exact .inl ⟨h, Int.tdiv_eq_ediv_of_nonneg h⟩
  · refine .inr ⟨h, ?_⟩
    rw [← Int.tdiv_eq_ediv_of_nonneg (by omega), Int.neg_tdiv, neg_neg]

/-- Seconds and rest of a number of nanoseconds, rounded down. -/
theorem toInt_unix (x : Int64) :
    (unix 0 x).sec.toInt = x.toInt / 1000000000 + 62135596800 ∧
      (unix 0 x).nsec.toInt = x.toInt % 1000000000 := by
  have hlo := x.le_toInt
  have hhi := x.toInt_lt
  have quot : (x / nanosPerSecond).toInt = x.toInt.tdiv 1000000000 :=
    Int64.toInt_div_of_ne_right _ _ (by decide)
  -- the quotient `q` rounds toward zero, so the rest has the sign of `x`
  unfold unix
  generalize x / nanosPerSecond = q at quot
  have trunc := tdiv_second_cases x.toInt
  rw [← quot] at trunc
  have rest : (x - q * nanosPerSecond).toInt = x.toInt - q.toInt * 1000000000 := by
    rw [Int64.toInt_sub, Int64.toInt_mul]
    change (_ - (_ * 1000000000 : Int).bmod (2 ^ 64)).bmod (2 ^ 64) = _
    rw [Int.sub_bmod_bmod, Int.bmod_eq_of_le] <;> omega
  have zero : (0 : Int64).toInt = 0 := rfl
  have second : nanosPerSecond.toInt = 1000000000 := rfl
  simp only [Int64.lt_iff_toInt_lt, Int64.le_iff_toInt_le, rest, zero, second, Int64.zero_add]
  split_ifs with outside negative
  · have less : (q - 1).toInt = q.toInt - 1 := by
      rw [Int64.toInt_sub]
      exact Int.bmod_eq_of_le (by change _ ≤ q.toInt - 1; omega) (by change q.toInt - 1 < _; omega)
    have up : (x - q * nanosPerSecond + nanosPerSecond).toInt =
        x.toInt - q.toInt * 1000000000 + 1000000000 := by
      rw [Int64.toInt_add, rest, second]
      exact Int.bmod_eq_of_le (by omega) (by omega)
    rw [toInt_internal (by omega) (by omega), less, up]
    omega
  · rw [toInt_internal (by omega) (by omega), rest]
    omega
  · change unixToInternal.toInt = _ ∧ x.toInt = _
    rw [show unixToInternal.toInt = 62135596800 from rfl]
    omega

/-- Instants given in nanoseconds are ordered like the numbers. -/
theorem before_unix (x y : Int64) :
    (unix 0 x).before (unix 0 y) = true ↔ x.toInt < y.toInt := by
  simp only [before, Bool.or_eq_true, Bool.and_eq_true, decide_eq_true_eq, beq_iff_eq,
    Int64.lt_iff_toInt_lt, ← Int64.toInt_inj, toInt_unix]
  omega

theorem after_unix (x y : Int64) :
    (unix 0 x).after (unix 0 y) = true ↔ y.toInt < x.toInt := by
  simp only [after, Bool.or_eq_true, Bool.and_eq_true, decide_eq_true_eq, beq_iff_eq,
    Int64.lt_iff_toInt_lt, ← Int64.toInt_inj, toInt_unix]
  omega

/-- Whole seconds given in nanoseconds. -/
theorem unix_mul {n x : Int64} (hlo : -9223372036 ≤ n.toInt) (hhi : n.toInt ≤ 9223372036)
    (hx : x.toInt = n.toInt * 10 ^ 9) : unix 0 x = unix n 0 := by
  have parts := toInt_unix x
  have sec : (unix 0 x).sec = n + unixToInternal := by
    rw [← Int64.toInt_inj, parts.1, toInt_internal (by omega) (by omega)]
    omega
  have nsec : (unix 0 x).nsec = 0 := by
    rw [← Int64.toInt_inj, parts.2]
    change _ = (0 : Int)
    omega
  calc unix 0 x = ⟨(unix 0 x).sec, (unix 0 x).nsec⟩ := rfl
    _ = unix n 0 := by rw [sec, nsec, unix_zero]

/-! ## Counting from year 1 -/

/-- The offset is less than a second, as package `time` keeps it. -/
def Normal (t : Time) : Prop := 0 ≤ t.nsec.toInt ∧ t.nsec.toInt < 1000000000

theorem normal_unix (x : Int64) : (unix 0 x).Normal := by
  rw [Normal, (toInt_unix x).2]
  omega

theorem nanos_unix (x : Int64) : (unix 0 x).nanos = x.toInt + 62135596800000000000 := by
  rw [nanos, (toInt_unix x).1, (toInt_unix x).2]
  omega

theorem toInt_nsec_ofNanos (n : Int) : (ofNanos n).nsec.toInt = n % 1000000000 :=
  Int64.toInt_ofInt_of_le (by omega) (by omega)

theorem normal_ofNanos (n : Int) : (ofNanos n).Normal := by
  rw [Normal, toInt_nsec_ofNanos]
  omega

theorem nanos_ofNanos {n : Int} (hlo : 0 ≤ n) (hhi : n ≤ 10 ^ 27) : (ofNanos n).nanos = n := by
  have sec : (ofNanos n).sec.toInt = n / 1000000000 :=
    Int64.toInt_ofInt_of_le (by omega) (by omega)
  rw [nanos, sec, toInt_nsec_ofNanos]
  omega

section
variable {t u : Time} (ht : t.Normal) (hu : u.Normal)
include ht hu

/-- The counters are compared like the number of nanoseconds. -/
theorem before_iff_nanos : t.before u = true ↔ t.nanos < u.nanos := by
  unfold Normal at ht hu
  simp only [before, nanos, Bool.or_eq_true, Bool.and_eq_true, decide_eq_true_eq, beq_iff_eq,
    Int64.lt_iff_toInt_lt, ← Int64.toInt_inj]
  omega

theorem after_iff_nanos : t.after u = true ↔ u.nanos < t.nanos := by
  unfold Normal at ht hu
  simp only [after, nanos, Bool.or_eq_true, Bool.and_eq_true, decide_eq_true_eq, beq_iff_eq,
    Int64.lt_iff_toInt_lt, ← Int64.toInt_inj]
  omega

theorem eq_of_nanos (h : t.nanos = u.nanos) : t = u := by
  obtain ⟨sec, nsec⟩ := t
  obtain ⟨sec', nsec'⟩ := u
  simp only [Normal, nanos] at ht hu h
  rw [Time.mk.injEq, ← Int64.toInt_inj, ← Int64.toInt_inj]
  omega

end

end Time

/-! ## Durations -/

/-- The units of `time.ParseDuration` in nanoseconds; the microsecond sign has two spellings. -/
def unitMap : List (Bytes × Int64) :=
  [(str "ns", 1), (str "us", 1000), ([0xC2, 0xB5, 0x73], 1000), ([0xCE, 0xBC, 0x73], 1000),
   (str "ms", 1000000), (str "s", 1000000000), (str "m", 60000000000), (str "h", 3600000000000)]

abbrev maxInt64 : Int64 := 9223372036854775807

/-- The digits at the start of `s`; `none` on overflow. -/
def leadingInt : Int64 → Bytes → Option (Int64 × Bytes)
  | x, [] => some (x, [])
  | x, c :: cs =>
    if isDigit c then
      if maxInt64 / 10 < x then none
      else
        let y := x * 10 + Int64.ofNat (digitValue c)
        if y < 0 then none else leadingInt y cs
    else some (x, c :: cs)

/-- The digits of a fraction with their scale; digits that would overflow are dropped. -/
def leadingFraction : Int64 → Float → Bool → Bytes → Int64 × Float × Bytes
  | x, scale, _, [] => (x, scale, [])
  | x, scale, overflow, c :: cs =>
    if isDigit c then
      let y := x * 10 + Int64.ofNat (digitValue c)
      if overflow ∨ maxInt64 / 10 < x ∨ y < 0 then leadingFraction x scale true cs
      else leadingFraction y (scale * 10) overflow cs
    else (x, scale, c :: cs)

def isUnitByte (c : UInt8) : Bool := !(c == Byte.dot || isDigit c)

/-- One number with its unit: its nanoseconds and the rest of the text. -/
def parseTerm (orig s : Bytes) : Except GoError (Int64 × Bytes) :=
  let invalid := GoError.text (str "time: invalid duration " ++ orig)
  match s with
  | [] => .error invalid
  | c :: _ =>
    if !(c == Byte.dot || isDigit c) then .error invalid
    else match leadingInt 0 s with
      | none => .error invalid
      | some (v, afterInt) =>
        let hasPoint := afterInt.head? = some Byte.dot
        let (f, scale, rest) :=
          if hasPoint then leadingFraction 0 1 false afterInt.tail else (0, 1, afterInt)
        let pre := s.length ≠ afterInt.length
        let post := hasPoint ∧ afterInt.tail.length ≠ rest.length
        if ¬ pre ∧ ¬ post then .error invalid
        else
          let u := rest.takeWhile isUnitByte
          if u = [] then .error (.text (str "time: missing unit in duration " ++ orig))
          else match unitMap.lookup u with
            | none =>
              .error (.text (str "time: unknown unit " ++ u ++ str " in duration " ++ orig))
            | some unit =>
              if maxInt64 / unit < v then .error invalid
              else
                let whole := v * unit
                let part := (Float.ofInt f.toInt * (Float.ofInt unit.toInt / scale)).toUInt64
                let total := if 0 < f then whole + Int64.ofNat part.toNat else whole
                if total < 0 then .error invalid else .ok (total, rest.dropWhile isUnitByte)

/-- The loop of `time.ParseDuration`; every term consumes a byte, so the length is enough fuel. -/
def parseTerms (orig : Bytes) : Nat → Int64 → Bytes → Except GoError Int64
  | 0, d, _ => .ok d
  | fuel + 1, d, s =>
    if s = [] then .ok d
    else do
      let (v, rest) ← parseTerm orig s
      if d + v < 0 then .error (.text (str "time: invalid duration " ++ orig))
      else parseTerms orig fuel (d + v) rest

/-- `time.ParseDuration`. -/
def parseDuration (s : Bytes) : Except GoError Int64 :=
  let (neg, rest) := parseSign s
  if rest = str "0" then .ok 0
  else if rest = [] then .error (.text (str "time: invalid duration " ++ s))
  else do
    let d ← parseTerms s rest.length 0 rest
    pure (if neg then -d else d)

end InfluxHandler.Go
