import InfluxHandler.Handler.Accept

/-!
# Timestamps: from the metric to the server

A timestamp is cut to ten characters, made an instant, printed in the unit of the precision and
multiplied back by the server. The cut recovers the second from every unit down to nanoseconds,
and the way to the server and back stays inside `int64`. The cut also drops what a finer
precision would keep.
-/
namespace InfluxHandler.Handler
open Go KeyedMap Influx Sensu Numeral

/-! ## The cut as a unit conversion -/

/-- Digits behind the first ten are dropped. -/
theorem toInt_cutSeconds_shift {s k r : Nat} (hlo : 10 ^ 9 ≤ s) (hhi : s < 10 ^ 10)
    (hr : r < 10 ^ k) {t : Int64} (ht : t.toInt = s * 10 ^ k + r) : (cutSeconds t).toInt = s := by
  have abs : t.toInt.natAbs = s * 10 ^ k + r := by
    rw [ht]
    norm_cast
  have nonneg : 0 ≤ t.toInt := by
    rw [ht]
    positivity
  have digits : (formatInt t).length - 10 = k := by
    rw [length_formatInt, abs, length_numeral_shift (by norm_num) hlo hhi hr, if_neg (by omega)]
    omega
  rw [toInt_cutSeconds, digits, tdiv_of_nonneg nonneg, abs, div_shift hr]

/-- One instant is written at one second, whether it was given in seconds, milliseconds,
microseconds, nanoseconds or any decimal unit between them. -/
theorem cutTimestamp_any_unit {s k r : Nat} (hlo : 10 ^ 9 ≤ s) (hhi : s ≤ 9223372036)
    (hr : r < 10 ^ k) {t : Int64} (ht : t.toInt = s * 10 ^ k + r) :
    cutTimestamp t = .ok (Int64.ofNat s) ∧
      ∀ event p a, p.timestamp = t → pointArgs event (some p) = .ok a →
        a.timestamp = Time.unix (Int64.ofNat s) 0 := by
  have cut : cutSeconds t = Int64.ofNat s := by
    rw [← Int64.toInt_inj, toInt_cutSeconds_shift hlo (by omega) hr ht]
    exact (Int64.toInt_ofInt_of_le (n := (s : Int)) (by omega) (by omega)).symm
  refine ⟨by rw [cutTimestamp_eq, cut], ?_⟩
  rintro event p a rfl ha
  rcases he : event.entity with _ | entity
  · simp [pointArgs, he, cutTimestamp_eq] at ha
  · rw [pointArgs_some he] at ha
    split_ifs at ha
    cases ha
    rw [argsOf, cut]

/-- A nanosecond timestamp of 2019 and its second. -/
theorem cutTimestamp_any_unit_nanoseconds :
    cutTimestamp 1552506033123456789 = .ok 1552506033 :=
  (cutTimestamp_any_unit (s := 1552506033) (k := 9) (r := 123456789) (by decide) (by decide)
    (by decide) (by decide)).1

/-! ## To the server and back -/

/-- The written number, and what the server makes of it, for an accepted whole second. -/
theorem safeCalcTime_unixNano {n : Int64} (hlo : -10 ^ 9 < n.toInt) (hhi : n.toInt ≤ 9223372036)
    (precision : Bytes) {mult w : Int64} (hmult : getPrecisionMultiplier precision = mult)
    (hw : (Time.unix n 0).unixNano / mult = w) :
    w.toInt = (n.toInt * 10 ^ 9).tdiv mult.toInt ∧ (w * mult).toInt = w.toInt * mult.toInt ∧
      safeCalcTime w precision = .ok (Time.unix 0 (w * mult)) := by
  have nano := Time.unix_unixNano (n := n) (by omega) hhi
  have range := getPrecisionMultiplier_range precision
  rw [hmult] at range
  have quotient : w.toInt = (n.toInt * 10 ^ 9).tdiv mult.toInt := by
    have positive : mult ≠ -1 := fun h => absurd (h ▸ range.1) (by decide)
    rw [← hw, Int64.toInt_div_of_ne_right _ _ positive, nano]
  have small : w.toInt.natAbs ≤ (n.toInt * 10 ^ 9).natAbs := by
    rw [quotient]
    exact Int.natAbs_tdiv_le_natAbs _ _
  -- multiplying the truncated quotient back ends no further from zero than the dividend
  have shrinks : (w.toInt * mult.toInt).natAbs ≤ (n.toInt * 10 ^ 9).natAbs := by
    rw [quotient, Int.natAbs_mul, Int.natAbs_tdiv]
    exact Nat.div_mul_le_self _ _
  have lowest : minNanoTime.toInt = -9223372036854775806 := rfl
  have greatest : maxNanoTime.toInt = 9223372036854775806 := rfl
  have notLowest : w ≠ minNanoTime := by
    intro h
    rw [← Int64.toInt_inj, lowest] at h
    omega
  have notGreatest : mult ≠ maxNanoTime := by
    intro h
    rw [← Int64.toInt_inj, greatest] at h
    omega
  obtain ⟨product, safe⟩ :=
    safeSignedMult_eq notLowest notGreatest (by omega) (by omega) (by omega)
  refine ⟨quotient, product, ?_⟩
  have inRange := checkTime_unixNano (x := w * mult) (by omega) (by omega)
  rw [safeCalcTime, hmult, safe]
  simp only [if_true, inRange, Except.ok_bind, pure, Except.pure]

/-- A unit that divides the second is one of the table's, except minutes and hours. -/
theorem dvd_second_or (precision : Bytes) :
    (getPrecisionMultiplier precision).toInt ∣ 10 ^ 9 ∨
      precision = str "m" ∨ precision = str "h" := by
  rcases getPrecisionMultiplier_cases precision with h | ⟨h, -⟩ | ⟨h, -⟩
  · have : ∀ m ∈ ([1, 1000, 1000000, 1000000000] : List Int), m ∣ 10 ^ 9 := by decide
    exact .inl (this _ h)
  · exact .inr (.inl h)
  · exact .inr (.inr h)

/-- The timestamp of an accepted point reaches the server without overflow, whatever the precision:
the second itself when the unit divides it, else (for minutes and hours) the second rounded toward
zero to the unit. -/
theorem timestamp_survives_wire {rt : Runtime} {event : Event} {p : MetricPoint} {pt : Point}
    (h : convertPoint rt event (some p) = .ok pt) (precision : Bytes) :
    ∃ n w t : Int64, cutTimestamp p.timestamp = .ok n ∧ pt.time = Time.unix n 0 ∧
      pt.time.unixNano.toInt = n.toInt * 10 ^ 9 ∧
      lineTimestamp (pt.precisionString precision) = .ok w ∧
      w.toInt = (n.toInt * 10 ^ 9).tdiv (getPrecisionMultiplier precision).toInt ∧
      t.toInt = w.toInt * (getPrecisionMultiplier precision).toInt ∧
      safeCalcTime w precision = .ok (Time.unix 0 t) ∧ (Time.unix 0 t).unixNano = t ∧
      if (getPrecisionMultiplier precision).toInt ∣ 10 ^ 9 then Time.unix 0 t = Time.unix n 0
      else (precision = str "m" ∨ precision = str "h") ∧
        t.toInt = (n.toInt * 10 ^ 9).tdiv (getPrecisionMultiplier precision).toInt *
          (getPrecisionMultiplier precision).toInt := by
  obtain ⟨entity, -, accepted, rfl⟩ := of_convertPoint_ok h
  have bounds := cutSeconds_bounds p.timestamp
  have upper := cutSeconds_le_of_not_refused accepted
  have line := lineTimestamp_precisionString (p := pointOf rt entity.metadata.name p)
    (isZero_cut p.timestamp) precision
  obtain ⟨quotient, product, calc_⟩ := safeCalcTime_unixNano bounds.1 upper precision rfl rfl
  refine ⟨cutSeconds p.timestamp, _, _, cutTimestamp_eq _, rfl,
    Time.unix_unixNano (by omega) upper, line, quotient, product, calc_, Time.unixNano_unix _, ?_⟩
  split_ifs with dvd
  · refine Time.unix_mul (by omega) upper ?_
    rw [product, quotient, Int.tdiv_mul_cancel (Dvd.dvd.mul_left dvd _)]
  · exact ⟨(dvd_second_or precision).resolve_left dvd, by rw [product, quotient]⟩

theorem convertPoint_fixture :
    convertPoint .ordered (fixtureEvent []) (some fixturePoint) =
      .ok (pointOf .ordered (str "entity1") fixturePoint) := by decide +kernel

theorem fixture_timestamp_survives_wire :
    ∃ pt t, convertPoint .ordered (fixtureEvent []) (some fixturePoint) = .ok pt ∧
      safeCalcTime 431251 (str "h") = .ok (Time.unix 0 t) ∧ t.toInt = 1552503600 * 10 ^ 9 := by
  obtain ⟨n, w, t, cut, -, -, -, hw, product, server, -⟩ :=
    timestamp_survives_wire convertPoint_fixture (str "h")
  have second : n = 1552506033 := by
    have : cutTimestamp fixturePoint.timestamp = .ok 1552506033 := by decide +kernel
    exact Except.ok.inj (cut.symm.trans this)
  have hours : w = 431251 := by
    rw [← Int64.toInt_inj, hw, second]
    decide
  rw [hours] at product server
  exact ⟨_, t, convertPoint_fixture, server, product.trans (by decide)⟩

/-! ## The precision option -/

/-- The precisions between seconds and nanoseconds that the option is meant for. -/
inductive Precision where
  | s
  | ms
  | ns
  deriving DecidableEq

def Precision.text : Precision → Bytes
  | .s => str "s"
  | .ms => str "ms"
  | .ns => str "ns"

/-- The unit in nanoseconds. -/
def Precision.unit : Precision → Int
  | .s => 1000000000
  | .ms => 1000000
  | .ns => 1

theorem Precision.toInt_multiplier (precision : Precision) :
    (getPrecisionMultiplier precision.text).toInt = precision.unit := by
  cases precision <;> decide

/-- A nanosecond timestamp of nineteen digits is cut to its second. -/
theorem toInt_cutSeconds_nanos {t : Int64} (hlo : 10 ^ 18 ≤ t.toInt)
    (hhi : t.toInt ≤ 9223372036854775806) : (cutSeconds t).toInt = t.toInt / 1000000000 := by
  obtain ⟨n, hn⟩ := Int.eq_ofNat_of_zero_le (a := t.toInt) (by omega)
  have parts : t.toInt = (n / 1000000000 : Nat) * 10 ^ 9 + (n % 1000000000 : Nat) := by omega
  rw [toInt_cutSeconds_shift (by omega) (by omega) (by omega) parts, hn]
  rfl

/-- The written timestamp is the metric's at the resolution of the precision exactly when the metric
has nothing below the second that this resolution would show. -/
theorem lineTimestamp_eq_floor_iff {rt : Runtime} {event : Event} {p : MetricPoint} {pt : Point}
    {conf : BatchPointsConfig} {bp : BatchPoints} (precision : Precision)
    (hconf : conf.precision = precision.text) (hbatch : newBatchPoints conf = .ok bp)
    (hpt : convertPoint rt event (some p) = .ok pt) (hlo : 10 ^ 18 ≤ p.timestamp.toInt)
    (hhi : p.timestamp.toInt ≤ 9223372036854775806) :
    (∃ w, lineTimestamp (pt.precisionString bp.precision) = .ok w ∧
        w.toInt = p.timestamp.toInt / precision.unit) ↔
      p.timestamp.toInt % 1000000000 < precision.unit := by
  have text : bp.precision = precision.text := by
    rw [(newBatchPoints_ok hbatch).2.1, hconf]
    cases precision <;> decide
  obtain ⟨entity, -, accepted, rfl⟩ := of_convertPoint_ok hpt
  have line := lineTimestamp_precisionString (p := pointOf rt entity.metadata.name p)
    (isZero_cut p.timestamp) bp.precision
  have second := toInt_cutSeconds_nanos hlo hhi
  have written := (safeCalcTime_unixNano (cutSeconds_bounds p.timestamp).1
    (cutSeconds_le_of_not_refused accepted) precision.text rfl rfl).1
  rw [precision.toInt_multiplier, second, Int.tdiv_eq_ediv_of_nonneg (by omega), ← text] at written
  rw [line]
  constructor
  · rintro ⟨w, hl, hw⟩
    rw [← Except.ok.inj hl] at hw
    have same := written.symm.trans hw
    cases precision <;> simp only [Precision.unit] at * <;> omega
  · intro h
    refine ⟨_, rfl, written.trans ?_⟩
    cases precision <;> simp only [Precision.unit] at * <;> omega

/-- A point at 123456789 ns past the second is on time when the precision is the second. -/
theorem fixture_lineTimestamp_eq_floor :
    ∃ w, lineTimestamp ((pointOf .ordered (str "entity1") fixturePoint).precisionString (str "s")) =
      .ok w ∧ w.toInt = 1552506033123456789 / 1000000000 := by
  have batch : newBatchPoints ⟨str "s", [], [], []⟩ = .ok ⟨[], [], str "s", [], []⟩ := by
    decide +kernel
  exact (lineTimestamp_eq_floor_iff .s rfl batch convertPoint_fixture (by decide)
    (by decide)).mpr (by decide)

/-- With precision `ms` the same point is written at 1552506033000, not at 1552506033123. -/
theorem fixture_milliseconds_lost :
    ∃ bp pt, newBatchPoints ⟨Precision.ms.text, [], [], []⟩ = .ok bp ∧
      convertPoint .ordered (fixtureEvent []) (some fixturePoint) = .ok pt ∧
      lineTimestamp (pt.precisionString bp.precision) = .ok 1552506033000 ∧
      fixturePoint.timestamp.toInt / Precision.ms.unit = 1552506033123 := by
  refine ⟨⟨[], [], str "ms", [], []⟩, _, ?_, convertPoint_fixture, ?_, ?_⟩ <;> decide +kernel

end InfluxHandler.Handler
