import InfluxHandler.Handler.Convert

/-!
# Which points are accepted

For a point without nil tags the conversion comes down to three checks of `client.NewPoint`: the
time, the field and the size of the key. The other error branches on the way (a timestamp that is
no number, a time before the range, the zero time, a point without fields) cannot be reached,
because ten characters hold only small numbers.
-/
namespace InfluxHandler.Handler
open Go KeyedMap Influx Sensu

/-- The series that a point belongs to. -/
def seriesKey (rt : Runtime) (entityName : Bytes) (p : MetricPoint) : Bytes :=
  makeKey (splitName p.name).1 (newTags rt (pointTags entityName p.tags))

/-- The point that is added to the batch. -/
def pointOf (rt : Runtime) (entityName : Bytes) (p : MetricPoint) : Point where
  key := seriesKey rt entityName p
  time := Time.unix (cutSeconds p.timestamp) 0
  fields := appendField [] (splitName p.name).2 (.float64 p.value)

theorem isZero_cut (t : Int64) : (Time.unix (cutSeconds t) 0).isZero = false := by
  have bounds := cutSeconds_bounds t
  rw [Bool.eq_false_iff, ne_eq, Time.isZero_unix (by omega) (by omega)]
  omega

/-- The line of a point: key, field and time, with a blank between them. -/
theorem precisionString_pointOf (rt : Runtime) (entityName : Bytes) (p : MetricPoint)
    (precision : Bytes) :
    (pointOf rt entityName p).precisionString precision =
      seriesKey rt entityName p ++ Byte.space ::
        (appendField [] (splitName p.name).2 (.float64 p.value) ++ Byte.space ::
          formatInt ((pointOf rt entityName p).time.unixNano /
            getPrecisionMultiplier precision)) := by
  have time : (pointOf rt entityName p).time.isZero = false := isZero_cut p.timestamp
  simp only [Point.precisionString, time, Bool.false_eq_true, if_false, List.append_assoc,
    List.singleton_append]
  rfl

/-- A cut timestamp can be too late, but not too early. -/
theorem checkTime_cut (t : Int64) :
    checkTime (Time.unix (cutSeconds t) 0) =
      if 9223372036 < (cutSeconds t).toInt then .error errTimeOutOfRange else .ok () := by
  have bounds := cutSeconds_bounds t
  rw [checkTime_unix (by omega) (by omega)]
  split_ifs <;> first | rfl | omega

theorem newPoint_argsOf (rt : Runtime) (entityName : Bytes) (p : MetricPoint) :
    (argsOf entityName p).newPoint rt = (do
      checkTime (Time.unix (cutSeconds p.timestamp) 0)
      checkField (splitName p.name).2 (.float64 p.value)
      checkKeySize (seriesKey rt entityName p) (splitName p.name).2
      pure (pointOf rt entityName p)) :=
  newPoint_singleton rt _ _ _ _ (isZero_cut p.timestamp)

/-! ## The refused points -/

/-- The reasons for which `client.NewPoint` refuses a metric point. -/
def Refused (rt : Runtime) (entityName : Bytes) (p : MetricPoint) : Prop :=
  (p.value.isNaN = true ∨ p.value.isInf = true) ∨ (splitName p.name).2 = [] ∨
    9223372036 < (cutSeconds p.timestamp).toInt ∨
    maxKeyLength < seriesKeySize (seriesKey rt entityName p) (splitName p.name).2

instance (rt : Runtime) (entityName : Bytes) (p : MetricPoint) :
    Decidable (Refused rt entityName p) := inferInstanceAs (Decidable (_ ∨ _))

theorem checkField_float64_eq_ok_iff {k : Bytes} {v : Float} {u : Unit} :
    checkField k (.float64 v) = .ok u ↔ ¬ (v.isNaN = true ∨ v.isInf = true) ∧ k ≠ [] := by
  rw [checkField, checkField.checkNumber]
  cases v.isInf <;> cases v.isNaN <;> by_cases hk : k = [] <;> simp [hk, pure, Except.pure]

theorem checkKeySize_eq_ok_iff {key field : Bytes} {u : Unit} :
    checkKeySize key field = .ok u ↔ ¬ maxKeyLength < seriesKeySize key field := by
  unfold checkKeySize
  split_ifs with h <;> simp [h]

/-- A point is built exactly when no reason applies. -/
theorem newPoint_argsOf_eq_ok_iff {rt : Runtime} {entityName : Bytes} {p : MetricPoint}
    {pt : Point} : (argsOf entityName p).newPoint rt = .ok pt ↔
      ¬ Refused rt entityName p ∧ pt = pointOf rt entityName p := by
  rw [newPoint_argsOf, checkTime_cut]
  simp only [Except.bind_eq_ok_iff, checkField_float64_eq_ok_iff, checkKeySize_eq_ok_iff, Refused]
  constructor
  · rintro ⟨_, time, _, ⟨value, name⟩, _, size, h⟩
    split_ifs at time with late
    cases h
    tauto
  · rintro ⟨h, rfl⟩
    simp only [not_or] at h
    obtain ⟨value, name, time, size⟩ := h
    exact ⟨(), if_neg time, (), ⟨not_or.mpr value, name⟩, (), size, rfl⟩

/-- Without nil tags a turn of the loop adds the point, or stops with an error. -/
theorem convertPoint_eq_ok_iff {rt : Runtime} {event : Event} {entity : Entity}
    (he : event.entity = some entity) {p : MetricPoint} {pt : Point} :
    convertPoint rt event (some p) = .ok pt ↔
      none ∉ p.tags ∧ ¬ Refused rt entity.metadata.name p ∧
        pt = pointOf rt entity.metadata.name p := by
  rw [convertPoint_some he]
  split_ifs with h
  · simp [h]
  · rw [check_eq_ok_iff, newPoint_argsOf_eq_ok_iff]
    simp [h]

/-- What a conversion that succeeded says about its input. -/
theorem of_convertPoint_ok {rt : Runtime} {event : Event} {p : MetricPoint} {pt : Point}
    (h : convertPoint rt event (some p) = .ok pt) :
    ∃ entity, event.entity = some entity ∧ ¬ Refused rt entity.metadata.name p ∧
      pt = pointOf rt entity.metadata.name p := by
  rcases he : event.entity with _ | entity
  · simp [convertPoint, pointArgs, he, cutTimestamp_eq] at h
  · exact ⟨entity, rfl, ((convertPoint_eq_ok_iff he).mp h).2⟩

theorem cutSeconds_le_of_not_refused {rt : Runtime} {entityName : Bytes} {p : MetricPoint}
    (h : ¬ Refused rt entityName p) : (cutSeconds p.timestamp).toInt ≤ 9223372036 := by
  simp only [Refused, not_or, not_lt] at h
  exact h.2.2.1

/-! ## The loop -/

/-- The loop ends with a batch exactly when no pointer is nil and no point is refused; the batch
then has the points of the metrics, one by one and in order. -/
theorem mapM_convertPoint_eq_ok_iff {rt : Runtime} {event : Event} {entity : Entity}
    (he : event.entity = some entity) {points : List (Option MetricPoint)} {pts : List Point} :
    points.mapM (convertPoint rt event) = .ok pts ↔
      ∃ ps : List MetricPoint, points = ps.map some ∧
        (∀ p ∈ ps, none ∉ p.tags ∧ ¬ Refused rt entity.metadata.name p) ∧
        pts = ps.map (pointOf rt entity.metadata.name) := by
  rw [Except.mapM_eq_ok_iff]
  constructor
  · intro h
    induction h with
    | nil => exact ⟨[], rfl, by simp, rfl⟩
    | @cons point pt points pts hp _ ih =>
      cases point with
      | none => cases hp
      | some p =>
        obtain ⟨ps, rfl, accepted, rfl⟩ := ih
        obtain ⟨tags, ok, rfl⟩ := (convertPoint_eq_ok_iff he).mp hp
        exact ⟨p :: ps, rfl, List.forall_mem_cons.mpr ⟨⟨tags, ok⟩, accepted⟩, rfl⟩
  · rintro ⟨ps, rfl, accepted, rfl⟩
    rw [List.forall₂_map_left_iff, List.forall₂_map_right_iff, List.forall₂_same]
    intro p hp
    exact (convertPoint_eq_ok_iff he).mpr ⟨(accepted p hp).1, (accepted p hp).2, rfl⟩

end InfluxHandler.Handler
