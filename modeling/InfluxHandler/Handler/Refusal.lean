import InfluxHandler.Handler.Main
import InfluxHandler.Handler.Accept

/-!
# Refused events

One refused point discards the whole event: nothing is written, and the error is that of the first
refused point. `refused_before_write` names all reasons.
-/
namespace InfluxHandler.Handler
open Go Influx Sensu

/-- No element of the points or of their tags is a nil pointer. -/
structure NoNil (metrics : Metrics) : Prop where
  points : none ∉ metrics.points
  tags : ∀ p, some p ∈ metrics.points → none ∉ p.tags

/-! ## The reasons -/

theorem field_eq_nil_iff (name : Bytes) :
    (splitName name).2 = [] ↔ ∃ m, Byte.dot ∉ m ∧ name = m ++ [Byte.dot] := by
  constructor
  · intro h
    rcases name_cases name with hd | ⟨m, f, rfl, hm⟩
    · rw [splitName_of_not_mem hd] at h
      exact absurd h (by decide : str "value" ≠ [])
    · rw [splitName_append hm] at h
      exact ⟨m, hm, by rw [show f = [] from h]⟩
  · rintro ⟨m, hm, rfl⟩
    rw [splitName_append hm]

/-- The reasons in terms of the metric point. -/
theorem refused_iff {rt : Runtime} {entityName : Bytes} {p : MetricPoint} :
    Refused rt entityName p ↔
      (p.value.isNaN = true ∨ p.value.isInf = true) ∨
      (∃ m, Byte.dot ∉ m ∧ p.name = m ++ [Byte.dot]) ∨
      (∃ n, cutTimestamp p.timestamp = .ok n ∧ 9223372036 < n.toInt) ∨
      65535 < (makeKey (splitName p.name).1 (newTags rt (pointTags entityName p.tags))).length + 4 +
        (splitName p.name).2.length := by
  rw [Refused, field_eq_nil_iff, cutTimestamp_eq]
  simp only [Except.ok.injEq, exists_eq_left', seriesKeySize, seriesKey]

section
variable {rt : Runtime} {event : Event} {entity : Entity}

/-- A refused point stops the loop with an error, not with a panic. -/
theorem convertPoint_of_refused (he : event.entity = some entity) {p : MetricPoint}
    (htags : none ∉ p.tags) (h : Refused rt entity.metadata.name p) :
    ∃ e, convertPoint rt event (some p) = .error (.err e) := by
  rw [convertPoint_some he, if_neg htags]
  rcases hp : (argsOf entity.metadata.name p).newPoint rt with e | pt
  · exact ⟨e, rfl⟩
  · exact absurd h (newPoint_argsOf_eq_ok_iff.mp hp).1

theorem convertPoint_of_not_refused (he : event.entity = some entity) {p : MetricPoint}
    (htags : none ∉ p.tags) (h : ¬ Refused rt entity.metadata.name p) :
    ∃ pt, convertPoint rt event (some p) = .ok pt :=
  ⟨_, (convertPoint_eq_ok_iff he).mpr ⟨htags, h, rfl⟩⟩

/-- Without nil pointers the loop stops only at a refused point. -/
theorem refused_of_mapM_eq_error (he : event.entity = some entity) {metrics : Metrics}
    (hnil : NoNil metrics) {s : Stop} (h : metrics.points.mapM (convertPoint rt event) = .error s) :
    ∃ p, some p ∈ metrics.points ∧ Refused rt entity.metadata.name p ∧ ∃ e, s = .err e := by
  obtain ⟨pre, point, post, split, -, here⟩ := Except.mapM_eq_error_iff.mp h
  have mem : point ∈ metrics.points := by simp [split]
  cases point with
  | none => exact absurd mem hnil.points
  | some p =>
    by_cases refused : Refused rt entity.metadata.name p
    · obtain ⟨e, stop⟩ := convertPoint_of_refused he (hnil.tags p mem) refused
      exact ⟨p, mem, refused, e, Except.error.inj (here.symm.trans stop)⟩
    · obtain ⟨pt, ok⟩ := convertPoint_of_not_refused he (hnil.tags p mem) refused
      cases here.symm.trans ok

/-! ## The event -/

variable {w : World} {cfg : Config} {c : Client} {bp : BatchPoints} {metrics : Metrics}

/-- The first refused point decides what is returned. -/
theorem sendMetrics_of_first_refused (ready : Ready w cfg c bp) (he : event.entity = some entity)
    (hm : event.metrics = some metrics) (hnil : NoNil metrics)
    {pre post : List (Option MetricPoint)} {p : MetricPoint}
    (split : metrics.points = pre ++ some p :: post)
    (before : ∀ q, some q ∈ pre → ¬ Refused rt entity.metadata.name q)
    (here : Refused rt entity.metadata.name p) :
    ∃ e, convertPoint rt event (some p) = .error (.err e) ∧
      sendMetrics rt w cfg event = ⟨[], .error (.err e)⟩ := by
  obtain ⟨e, hp⟩ := convertPoint_of_refused he (hnil.tags p (by simp [split])) here
  have stop : metrics.points.mapM (convertPoint rt event) = .error (.err e) := by
    refine Except.mapM_eq_error_iff.mpr ⟨pre, some p, post, split, ?_, hp⟩
    rintro (_ | q) hq
    · exact absurd (split ▸ List.mem_append_left _ hq) hnil.points
    · exact convertPoint_of_not_refused he
        (hnil.tags q (split ▸ List.mem_append_left _ hq)) (before q hq)
  refine ⟨e, hp, ?_⟩
  rw [sendMetrics_eq rt ready hm, stop]

/-- Nothing is written exactly when a point is refused. -/
theorem writes_eq_nil_iff (ready : Ready w cfg c bp) (he : event.entity = some entity)
    (hm : event.metrics = some metrics) (hnil : NoNil metrics) :
    writes (sendMetrics rt w cfg event) = [] ↔
      ∃ p, some p ∈ metrics.points ∧ Refused rt entity.metadata.name p := by
  rw [sendMetrics_eq rt ready hm]
  rcases hp : metrics.points.mapM (convertPoint rt event) with s | pts
  · obtain ⟨p, mem, refused, -⟩ := refused_of_mapM_eq_error he hnil hp
    exact ⟨fun _ => ⟨p, mem, refused⟩, fun _ => rfl⟩
  · rw [Client.writes_write]
    refine ⟨nofun, ?_⟩
    rintro ⟨p, mem, refused⟩
    obtain ⟨pt, ok⟩ := Except.ok_of_mem_mapM hp mem
    exact absurd refused ((convertPoint_eq_ok_iff he).mp ok).2.1

/-- Which events are refused before the write, with which error, and which error branches on the way
are never taken. -/
theorem refused_before_write (ready : Ready w cfg c bp) (he : event.entity = some entity)
    (hm : event.metrics = some metrics) (hnil : NoNil metrics) :
    (writes (sendMetrics rt w cfg event) = [] ↔ ∃ p, some p ∈ metrics.points ∧
      ((p.value.isNaN = true ∨ p.value.isInf = true) ∨
        (∃ m, Byte.dot ∉ m ∧ p.name = m ++ [Byte.dot]) ∨
        (∃ n, cutTimestamp p.timestamp = .ok n ∧ 9223372036 < n.toInt) ∨
        65535 < (makeKey (splitName p.name).1
          (newTags rt (pointTags entity.metadata.name p.tags))).length + 4 +
            (splitName p.name).2.length)) ∧
    (∀ pre p post, metrics.points = pre ++ some p :: post →
      (∀ q, some q ∈ pre → ¬ Refused rt entity.metadata.name q) →
      Refused rt entity.metadata.name p →
      ∃ e, convertPoint rt event (some p) = .error (.err e) ∧
        sendMetrics rt w cfg event = ⟨[], .error (.err e)⟩) ∧
    ∀ p : MetricPoint, ∃ n, cutTimestamp p.timestamp = .ok n ∧
      (Time.unix n 0).before (Time.unix 0 minNanoTime) = false ∧ (Time.unix n 0).isZero = false ∧
      (argsOf entity.metadata.name p).fields.entries.card ≠ 0 := by
  refine ⟨?_, fun pre p post split before here =>
    sendMetrics_of_first_refused ready he hm hnil split before here, fun p => ?_⟩
  · simp only [← refused_iff]
    exact writes_eq_nil_iff ready he hm hnil
  · have bounds := cutSeconds_bounds p.timestamp
    refine ⟨_, cutTimestamp_eq _, ?_, isZero_cut _, by simp [argsOf, Finmap.singleton]⟩
    rw [Bool.eq_false_iff, ne_eq, before_minNanoTime (by omega) (by omega)]
    omega

end

/-- A second point whose name ends in its first dot keeps the first from being written. -/
theorem fixture_refused_before_write :
    writes (sendMetrics .ordered fixtureWorld fixtureConfig
      (fixtureEvent [some fixturePoint,
        some { fixturePoint with name := str "answer." }])) = [] := by
  have hnil : NoNil ⟨[some fixturePoint, some { fixturePoint with name := str "answer." }]⟩ := by
    refine ⟨by decide, fun p hp => ?_⟩
    have same : p.tags = fixturePoint.tags := by
      rcases List.mem_cons.mp hp with h | h
      · cases h; rfl
      · cases List.mem_singleton.mp h; rfl
    rw [same]
    decide
  refine (refused_before_write fixture_ready rfl rfl hnil).1.mpr
    ⟨{ fixturePoint with name := str "answer." }, by simp, .inr (.inl ⟨str "answer", ?_, ?_⟩)⟩
  · decide
  · decide

end InfluxHandler.Handler
