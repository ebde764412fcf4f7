import InfluxHandler.Handler.Refusal
import InfluxHandler.Handler.Series
import InfluxHandler.Sensu.Decode

/-!
# All points or none, in one write

`run_delivers` is the contract of a run: it calls `Write` at most once, with all points of an
accepted event, each converted on its own, or not at all. `run_returns_iff` says when a run ends in
a panic instead: neither the decoder nor the validators keep nil pointers out of the points and
their tags.
-/
namespace InfluxHandler.Handler
open Go Influx Sensu

/-! ## The contract of a run -/

/-- A batch point is the conversion of a metric point alone. -/
def ConvertedFrom (rt : Runtime) (entityName : Bytes) (point : Option MetricPoint)
    (slot : Option Point) : Prop :=
  ∃ p a pt, point = some p ∧ slot = some pt ∧ Represents entityName p a ∧
    Client.newPoint rt a.name a.tags a.fields [a.timestamp] = .ok pt

theorem convertedFrom_of_ok {rt : Runtime} {event : Event} {entity : Entity}
    (he : event.entity = some entity) {point : Option MetricPoint} {pt : Point}
    (h : convertPoint rt event point = .ok pt) :
    ConvertedFrom rt entity.metadata.name point (some pt) := by
  obtain ⟨a, ha, hpt⟩ := Except.bind_eq_ok_iff.mp h
  cases point with
  | none => cases ha
  | some p => exact ⟨p, a, pt, rfl, rfl, ((represents_iff he).mp ha).2, check_eq_ok_iff.mp hpt⟩

/-- An accepted event has an entity. -/
theorem Accepted.entity {env : Env} {event : Event} {metrics : Metrics}
    (h : Accepted env event metrics) : ∃ entity, event.entity = some entity :=
  let ⟨entity, he, _⟩ := Event.entity_of_validate h.valid
  ⟨entity, he⟩

section
variable (rt : Runtime) (env : Env) (cfg : Config) (args : List Bytes)

/-- Whatever is written holds all points of the accepted event, in order. -/
theorem of_mem_writes_run {bp : BatchPoints} (h : bp ∈ writes (run rt env cfg args)) :
    ∃ event metrics entity, Accepted env event metrics ∧ event.entity = some entity ∧
      List.Forall₂ (ConvertedFrom rt entity.metadata.name) metrics.points bp.points := by
  rcases run_cases rt env cfg args with ⟨⟨e, stop⟩, -⟩ | ⟨-, event, metrics, accepted, send⟩
  · rw [stop] at h
    cases h
  · rw [send] at h
    obtain ⟨entity, he⟩ := accepted.entity
    obtain ⟨c, bp₀, pts, -, converted, rfl, -⟩ := of_mem_writes_sendMetrics accepted.hasMetrics h
    refine ⟨event, metrics, entity, accepted, he, ?_⟩
    rw [List.forall₂_map_right_iff]
    exact (Except.mapM_eq_ok_iff.mp converted).imp fun _ _ => convertedFrom_of_ok he

/-- A run fails without a trace, or it ends as its one call of `Write` does. -/
theorem run_fails_or_writes : (∃ s, run rt env cfg args = ⟨[], .error s⟩) ∨
    ∃ c bp bp₀, Ready env.toWorld cfg.withDefaultAddr c bp₀ ∧
      run rt env cfg args = c.write env.toWorld bp := by
  rcases run_cases rt env cfg args with ⟨⟨e, stop⟩, -⟩ | ⟨-, event, metrics, accepted, send⟩
  · exact .inl ⟨_, stop⟩
  · rw [send]
    rcases sendMetrics_cases rt env.toWorld cfg.withDefaultAddr accepted.hasMetrics with
      ⟨-, e, stop⟩ | ⟨c, bp₀, ready, ⟨s, -, stop⟩ | ⟨pts, -, wrote⟩⟩
    · exact .inl ⟨_, stop⟩
    · exact .inl ⟨s, stop⟩
    · exact .inr ⟨c, _, bp₀, ready, wrote⟩

/-- A point that does not convert makes the run return an error, with nothing written. -/
theorem run_of_failed_point {event : Event} {metrics : Metrics}
    (accepted : Accepted env event metrics) (hnil : NoNil metrics)
    (failed : ∃ point ∈ metrics.points, ∃ s, convertPoint rt event point = .error s) :
    ∃ e, run rt env cfg args = ⟨[], .error (.err e)⟩ := by
  rcases run_cases rt env cfg args with ⟨stop, -⟩ | ⟨-, event', metrics', accepted', send⟩
  · exact stop
  obtain ⟨rfl, rfl⟩ := accepted'.unique accepted
  rw [send]
  obtain ⟨entity, he⟩ := accepted'.entity
  rcases sendMetrics_cases rt env.toWorld cfg.withDefaultAddr accepted'.hasMetrics with
    ⟨-, stop⟩ | ⟨c, bp₀, ready, ⟨s, hp, stop⟩ | ⟨pts, hp, -⟩⟩
  · exact stop
  · -- the loop stopped, and not at a nil pointer
    obtain ⟨p, -, -, e, rfl⟩ := refused_of_mapM_eq_error he hnil hp
    exact ⟨e, stop⟩
  · -- the loop cannot have passed the failed point
    obtain ⟨point, mem, s, hs⟩ := failed
    obtain ⟨pt, ok⟩ := Except.ok_of_mem_mapM hp mem
    cases hs.symm.trans ok

/-- The contract of a run, for every input, every argument list and configuration, and every reply
of the server. -/
theorem run_delivers
    (hnil : ∀ event metrics, Accepted env event metrics → NoNil metrics) :
    (writes (run rt env cfg args)).length ≤ 1 ∧
    (∀ bp ∈ writes (run rt env cfg args), ∃ event metrics entity, Accepted env event metrics ∧
      event.entity = some entity ∧
      List.Forall₂ (ConvertedFrom rt entity.metadata.name) metrics.points bp.points) ∧
    (∀ event metrics, Accepted env event metrics →
      (∃ point ∈ metrics.points, ∃ s, convertPoint rt event point = .error s) →
      (∃ e, (run rt env cfg args).result = .error (.err e)) ∧ (run rt env cfg args).calls = []) ∧
    ((run rt env cfg args).result = .ok () ↔
      ∃ c bp, newHTTPClient env.toWorld cfg.withDefaultAddr.httpConfig = .ok c ∧
        writes (run rt env cfg args) = [bp] ∧ (c.write env.toWorld bp).result = .ok ()) := by
  refine ⟨?_, fun bp => of_mem_writes_run rt env cfg args,
    fun event metrics accepted failed => ?_, ?_⟩
  · rcases run_fails_or_writes rt env cfg args with ⟨s, h⟩ | ⟨c, bp, bp₀, -, h⟩
    · rw [h]
      exact Nat.zero_le _
    · rw [h, Client.writes_write]
      exact le_rfl
  · obtain ⟨e, h⟩ :=
      run_of_failed_point rt env cfg args accepted (hnil event metrics accepted) failed
    rw [h]
    exact ⟨⟨e, rfl⟩, rfl⟩
  · rcases run_fails_or_writes rt env cfg args with ⟨s, h⟩ | ⟨c, bp, bp₀, ready, h⟩
    · rw [h]
      simp [writes]
    · rw [h, Client.writes_write]
      constructor
      · exact fun ok => ⟨c, bp, ready.client, rfl, ok⟩
      · rintro ⟨c', bp', client, same, ok⟩
        cases client.symm.trans ready.client
        cases same
        exact ok

/-! ## Panics -/

/-- The loop comes to a nil point or a point with a nil tag, past points that are all converted. -/
def ReachesNil (entityName : Bytes) (points : List (Option MetricPoint)) : Prop :=
  ∃ pre point post, points = pre ++ point :: post ∧
    (∀ q ∈ pre, ∃ p, q = some p ∧ none ∉ p.tags ∧ ¬ Refused rt entityName p) ∧
    (point = none ∨ ∃ p, point = some p ∧ none ∈ p.tags)

variable {rt} in
theorem convertPoint_panics_iff {event : Event} {entity : Entity} (he : event.entity = some entity)
    (point : Option MetricPoint) : convertPoint rt event point = .error .nilDereference ↔
      point = none ∨ ∃ p, point = some p ∧ none ∈ p.tags := by
  cases point with
  | none => simp [convertPoint_none]
  | some p =>
    rw [convertPoint_some he]
    split_ifs with h
    · simp [h]
    · rcases (argsOf entity.metadata.name p).newPoint rt with e | pt <;> simp [h]

variable {rt} in
theorem mapM_convertPoint_panics_iff {event : Event} {entity : Entity}
    (he : event.entity = some entity) (points : List (Option MetricPoint)) :
    points.mapM (convertPoint rt event) = .error .nilDereference ↔
      ReachesNil rt entity.metadata.name points := by
  have converts (q : Option MetricPoint) : (∃ pt, convertPoint rt event q = .ok pt) ↔
      ∃ p, q = some p ∧ none ∉ p.tags ∧ ¬ Refused rt entity.metadata.name p := by
    cases q with
    | none => simp [convertPoint_none]
    | some p => simp [convertPoint_eq_ok_iff he]
  simp only [Except.mapM_eq_error_iff, converts, convertPoint_panics_iff he, ReachesNil]

variable {rt} in
/-- `Write` does not panic, so a panic comes from the loop. -/
theorem sendMetrics_panics_iff (w : World) (cfg : Config) {event : Event} {entity : Entity}
    {metrics : Metrics} (he : event.entity = some entity) (hm : event.metrics = some metrics) :
    (sendMetrics rt w cfg event).result = .error .nilDereference ↔
      (∃ c bp, Ready w cfg c bp) ∧ ReachesNil rt entity.metadata.name metrics.points := by
  rw [← mapM_convertPoint_panics_iff he]
  rcases sendMetrics_cases rt w cfg hm with
    ⟨never, e, send⟩ | ⟨c, bp, ready, ⟨s, hp, send⟩ | ⟨pts, hp, send⟩⟩
  · rw [send]
    exact ⟨nofun, fun h => absurd h.1 never⟩
  · rw [send, hp]
    constructor
    · intro h
      exact ⟨⟨c, bp, ready⟩, congrArg _ (Except.error.inj h)⟩
    · rintro ⟨-, h⟩
      exact congrArg _ (Except.error.inj h)
  · rw [send, hp]
    exact ⟨fun h => absurd h (c.write_ne_panic _ _), nofun⟩

/-- A run ends by returning nil or an error unless it is sent an accepted event in which the loop
comes to a nil pointer. -/
theorem run_returns_iff :
    (run rt env cfg args).result ≠ .error .nilDereference ↔
      ¬ (args = [] ∧ (∃ c bp, Ready env.toWorld cfg.withDefaultAddr c bp) ∧
        ∃ event metrics entity, Accepted env event metrics ∧ event.entity = some entity ∧
          ReachesNil rt entity.metadata.name metrics.points) := by
  rw [not_iff_not]
  rcases run_cases rt env cfg args with ⟨⟨e, stop⟩, none⟩ | ⟨hargs, event, metrics, accepted, send⟩
  · rw [stop]
    refine ⟨nofun, ?_⟩
    rintro ⟨hargs, -, event, metrics, -, accepted, -⟩
    exact absurd accepted (none hargs event metrics)
  obtain ⟨entity, he⟩ := accepted.entity
  rw [send, sendMetrics_panics_iff env.toWorld cfg.withDefaultAddr he accepted.hasMetrics]
  constructor
  · exact fun ⟨ready, h⟩ => ⟨hargs, ready, event, metrics, entity, accepted, he, h⟩
  · rintro ⟨-, ready, event', metrics', entity', accepted', he', h⟩
    obtain ⟨rfl, rfl⟩ := accepted'.unique accepted
    cases he'.symm.trans he
    exact ⟨ready, h⟩

end

/-! ## Runs on JSON texts -/

/-- An event of the test's entity with the given array of points. -/
def fixtureJSON (points : String) : Bytes :=
  str ("\x7b\"entity\": \x7b\"entity_class\": \"host\", \"metadata\": \x7b\"name\": \"entity1\", " ++
    "\"namespace\": \"default\"\x7d\x7d, \"metrics\": \x7b\"points\": " ++ points ++ "\x7d\x7d")

/-- The test's server, with a text on standard input. -/
def fixtureEnv (text : Bytes) : Env :=
  { fixtureWorld with stdin := .ok text, unmarshal := unmarshalEvent, parsers := fixtureParsers }

theorem fixturePoint_tags :
    KeyedMap.Enumerates [⟨str "foo", str "bar"⟩, ⟨entityTag, str "entity1"⟩]
      (pointTags (str "entity1") fixturePoint.tags) := by
  unfold KeyedMap.Enumerates
  decide +kernel

/-- Three points: the one of the test, one of another field and entity, and one with a tag twice. -/
def fixturePoints : List MetricPoint :=
  [fixturePoint, { fixturePoint with name := str "answer.low", tags := [some ⟨entityTag, str "e2"⟩] },
    { fixturePoint with timestamp := 7, tags := [some ⟨str "a", str "1"⟩, some ⟨str "a", str "2"⟩] }]

def fixturePointsJSON : String :=
  "[\x7b\"name\": \"answer\", \"value\": 42, \"timestamp\": 1552506033123456789, " ++
    "\"tags\": [\x7b\"name\": \"foo\", \"value\": \"bar\"\x7d]\x7d, " ++
  "\x7b\"name\": \"answer.low\", \"value\": 42, \"timestamp\": 1552506033123456789, " ++
    "\"tags\": [\x7b\"name\": \"sensu_entity_name\", \"value\": \"e2\"\x7d]\x7d, " ++
  "\x7b\"name\": \"answer\", \"value\": 42, \"timestamp\": 7, \"tags\": " ++
    "[\x7b\"name\": \"a\", \"value\": \"1\"\x7d, \x7b\"name\": \"a\", \"value\": \"2\"\x7d]\x7d]"

theorem fixture_accepted : Accepted (fixtureEnv (fixtureJSON fixturePointsJSON))
    (fixtureEvent (fixturePoints.map some)) ⟨fixturePoints.map some⟩ :=
  ⟨⟨_, rfl, by decide +kernel⟩, by decide +kernel, rfl⟩

/-- All three are in the one batch that is written, each as it is meant. -/
theorem fixture_run_delivers :
    ∃ bp, writes (run .ordered (fixtureEnv (fixtureJSON fixturePointsJSON)) fixtureConfig []) =
        [bp] ∧
      List.Forall₂ (ConvertedFrom .ordered (str "entity1")) (fixturePoints.map some) bp.points := by
  have whole : NoNil ⟨fixturePoints.map some⟩ := by
    refine ⟨by decide, fun p hp => ?_⟩
    obtain ⟨q, hq, same⟩ := List.mem_map.mp hp
    obtain rfl := Option.some.inj same
    revert q
    decide
  have contract := run_delivers .ordered (fixtureEnv (fixtureJSON fixturePointsJSON)) fixtureConfig []
    fun event metrics accepted => (accepted.unique fixture_accepted).2 ▸ whole
  obtain ⟨c, bp, -, wrote, -⟩ := contract.2.2.2.mp (by decide +kernel)
  refine ⟨bp, wrote, ?_⟩
  obtain ⟨event, metrics, entity, accepted, he, converted⟩ :=
    contract.2.1 bp (by rw [wrote]; exact List.mem_singleton_self _)
  obtain ⟨rfl, rfl⟩ := accepted.unique fixture_accepted
  cases he
  exact converted

/-- A null among the points or among the tags of a point passes the decoder and the validators, and
the loop dereferences it. -/
theorem null_elements_panic :
    (run .ordered (fixtureEnv (fixtureJSON "[null]")) fixtureConfig []).result =
        .error .nilDereference ∧
      (run .ordered (fixtureEnv (fixtureJSON
          "[\x7b\"name\": \"answer\", \"value\": 42, \"timestamp\": 1, \"tags\": [null]\x7d]"))
        fixtureConfig []).result = .error .nilDereference := by
  decide +kernel

end InfluxHandler.Handler
