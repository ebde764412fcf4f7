import InfluxHandler.Handler.Accept
import InfluxHandler.Sensu.Transform
import InfluxHandler.Go.Json

/-!
# The cut of a timestamp in closed form

Keeping ten characters of a printed timestamp divides it by the least power of ten for which the
quotient has a place in ten characters (`cutTimestamp_closed_form`). A sign takes one of the ten, so
a time before 1970 keeps a digit less than its mirror image after 1970, and a negative timestamp of
ten digits is divided by ten (`cutTimestamp_symmetric_iff`).
-/
namespace InfluxHandler.Handler
open Go Influx Sensu Numeral

/-! ## The closed form -/

/-- As few digits are dropped as possible. -/
theorem isLeast_dropped (t : Int64) :
    IsLeast {k : ℕ | -10 ^ 9 < t.toInt.tdiv (10 ^ k) ∧ t.toInt.tdiv (10 ^ k) < 10 ^ 10}
      ((formatInt t).length - 10) := by
  simp only [tdiv_fits_iff]
  exact isLeast_Ici

/-- What has a place in ten characters is left as it is. -/
theorem cutSeconds_eq_self_iff {t : Int64} :
    cutSeconds t = t ↔ -10 ^ 9 < t.toInt ∧ t.toInt < 10 ^ 10 := by
  constructor
  · intro h
    have bounds := cutSeconds_bounds t
    rwa [h] at bounds
  · intro h
    have fits : (formatInt t).length - 10 ≤ 0 := (tdiv_fits_iff t 0).mp (by simpa using h)
    rw [cutSeconds, Nat.le_zero.mp fits, pow_zero, Int.tdiv_one, Int64.ofInt_toInt]

theorem cutTimestamp_eq_self_iff {t : Int64} :
    cutTimestamp t = .ok t ↔ -10 ^ 9 < t.toInt ∧ t.toInt < 10 ^ 10 := by
  rw [cutTimestamp_eq, Except.ok.injEq, cutSeconds_eq_self_iff]

/-- A timestamp that the agent has cut is not cut again. -/
theorem cutTimestamp_of_parseTimestamp {text : Bytes} {n : Int64}
    (h : parseTimestamp text = .ok n) : cutTimestamp n = .ok n := by
  apply cutTimestamp_eq_self_iff.mpr
  apply parseInt_bounds h
  split_ifs with long
  · exact List.length_take_le 10 text
  · exact not_lt.mp long

/-- The cut divides by the least power of ten for which the quotient lies between `-10 ^ 9` and
`10 ^ 10`. Cutting twice, in the handler or before it in the agent, is the same as cutting once. -/
theorem cutTimestamp_closed_form :
    (∀ t : Int64, ∃ k n,
      IsLeast {k : ℕ | -10 ^ 9 < t.toInt.tdiv (10 ^ k) ∧ t.toInt.tdiv (10 ^ k) < 10 ^ 10} k ∧
      cutTimestamp t = .ok n ∧ n.toInt = t.toInt.tdiv (10 ^ k) ∧
      -999999999 ≤ n.toInt ∧ n.toInt ≤ 9999999999 ∧ cutTimestamp n = .ok n) ∧
    ∀ parseFloat now output p, some p ∈ transform (parseInflux parseFloat now output) →
      (∃ l, p.timestamp = now l) ∨ cutTimestamp p.timestamp = .ok p.timestamp := by
  constructor
  · intro t
    have bounds := cutSeconds_bounds t
    refine ⟨_, cutSeconds t, isLeast_dropped t, cutTimestamp_eq t, toInt_cutSeconds t, ?_, ?_, ?_⟩
    · omega
    · omega
    · exact cutTimestamp_eq_self_iff.mpr bounds
  · intro parseFloat now output p hp
    apply (timestamp_of_mem_transform hp).imp_right
    rintro ⟨text, read⟩
    exact cutTimestamp_of_parseTimestamp read

/-- The current time is not looked at when a line has a timestamp. -/
theorem transformed_weather_not_cut_again :
    ∃ p : MetricPoint, p.name = str "weather.temperature" ∧ p.timestamp = 1465839830 ∧
      cutTimestamp p.timestamp = .ok p.timestamp := by
  have read : some ⟨str "weather.temperature", 82, 1465839830,
      [some ⟨str "season", str "summer"⟩]⟩ ∈ transform (parseInflux
        Json.readDecimal (fun _ => 0)
        (str "weather,season=summer temperature=82 1465839830100400200\n")) := by
    decide +kernel
  refine ⟨_, rfl, rfl, (cutTimestamp_closed_form.2 _ _ _ _ read).resolve_left ?_⟩
  rintro ⟨l, h⟩
  exact absurd h (by decide)

/-! ## Times before 1970 -/

theorem toInt_neg_of_ne {t : Int64} (h : t ≠ Int64.minValue) : (-t).toInt = -t.toInt := by
  have hlo := t.le_toInt
  have hhi := t.toInt_lt
  have lowest : t.toInt ≠ -2 ^ 63 := fun ht => h (Int64.toInt_inj.mp ht)
  rw [Int64.toInt_neg]
  exact Int.bmod_eq_of_le (by omega) (by omega)

/-- A positive timestamp of ten digits or more keeps ten of them. -/
theorem le_toInt_cutSeconds {t : Int64} (h : 10 ^ 9 ≤ t.toInt) : 10 ^ 9 ≤ (cutSeconds t).toInt := by
  have nonneg : 0 ≤ t.toInt := by omega
  have long : ¬ (numeral 10 t.toInt.natAbs).length ≤ 9 := by
    rw [length_numeral_le_iff (by norm_num) (by norm_num)]
    omega
  have kept : ¬ t.toInt.natAbs / 10 ^ ((formatInt t).length - 10) < 10 ^ 9 := by
    rw [div_pow_lt_iff (by norm_num) (by norm_num), length_formatInt, if_neg (by omega)]
    omega
  rw [toInt_cutSeconds, tdiv_of_nonneg nonneg]
  generalize t.toInt.natAbs / 10 ^ ((formatInt t).length - 10) = q at kept
  omega

/-- The cut commutes with the sign for numbers of nine digits only: beyond them the positive number
keeps ten digits and the negative one nine. -/
theorem cutSeconds_neg_iff {t : Int64} (h : t ≠ Int64.minValue) :
    cutSeconds (-t) = -cutSeconds t ↔ t.toInt.natAbs < 10 ^ 9 := by
  have neg := toInt_neg_of_ne h
  have bounds := cutSeconds_bounds t
  have bounds' := cutSeconds_bounds (-t)
  have cut : (-cutSeconds t).toInt = -(cutSeconds t).toInt := by
    apply toInt_neg_of_ne
    intro lowest
    rw [lowest] at bounds
    exact absurd bounds.1 (by decide)
  constructor
  · intro same
    rw [← Int64.toInt_inj, cut] at same
    by_contra big
    rcases le_or_gt 0 t.toInt with after | before
    · have := le_toInt_cutSeconds (t := t) (by omega)
      omega
    · have := le_toInt_cutSeconds (t := -t) (by omega)
      omega
  · intro small
    rw [cutSeconds_eq_self_iff.mpr (by omega), cutSeconds_eq_self_iff.mpr (by omega)]

/-- Times before 1970 are cut like times after exactly when they have nine digits at most. Nothing
is asked of the least `int64`, which has too many digits and no mirror image. -/
theorem cutTimestamp_symmetric_iff (t : Int64) :
    ((t.toInt.natAbs < 10 ^ 10 → cutTimestamp t = .ok t) ∧
      (t ≠ Int64.minValue → ∃ n, cutTimestamp t = .ok n ∧ cutTimestamp (-t) = .ok (-n))) ↔
    t.toInt.natAbs < 10 ^ 9 ∨ t = Int64.minValue := by
  have mirror : (∃ n, cutTimestamp t = .ok n ∧ cutTimestamp (-t) = .ok (-n)) ↔
      cutSeconds (-t) = -cutSeconds t := by
    simp only [cutTimestamp_eq, Except.ok.injEq, exists_eq_left']
  rw [mirror, cutTimestamp_eq_self_iff]
  constructor
  · rintro ⟨-, symmetric⟩
    by_cases h : t = Int64.minValue
    · exact .inr h
    · exact .inl ((cutSeconds_neg_iff h).mp (symmetric h))
  · rintro (small | rfl)
    · refine ⟨fun _ => by omega, fun h => (cutSeconds_neg_iff h).mpr small⟩
    · refine ⟨fun digits => absurd digits (by decide), fun h => absurd rfl h⟩

/-- The fixture's second, before 1970. -/
def negativePoint : MetricPoint := { fixturePoint with timestamp := -1552506033 }

/-- A negative timestamp of ten digits loses one, and the point is written at a time 44 years
later. -/
theorem negativePoint_loses_digit :
    negativePoint.timestamp.toInt.natAbs < 10 ^ 10 ∧
      cutTimestamp negativePoint.timestamp = .ok (-155250603) ∧
      cutTimestamp (-negativePoint.timestamp) = .ok 1552506033 ∧
      ∃ pt, convertPoint .ordered (fixtureEvent []) (some negativePoint) = .ok pt ∧
        lineTimestamp (pt.precisionString (str "s")) = .ok (-155250603) := by
  refine ⟨by decide, by decide +kernel, by decide +kernel,
    pointOf .ordered (str "entity1") negativePoint, by decide +kernel, by decide +kernel⟩

end InfluxHandler.Handler
