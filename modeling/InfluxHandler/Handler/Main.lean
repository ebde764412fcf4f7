import InfluxHandler.Handler.Convert

/-!
# The handler: `run` and `sendMetrics`

`run` decodes one event from standard input, validates it and hands it to `sendMetrics`, which
converts every metric point and writes the batch with one call. Both are computations with a
trace, so what was written before a failure can be seen.

`run_cases` and `sendMetrics_cases` say what they can do; later results do not unfold them.
-/
namespace InfluxHandler.Handler
open Go Influx Sensu

/-- The command line flags. -/
structure Config where
  addr : Bytes
  username : Bytes
  password : Bytes
  dbName : Bytes
  precision : Bytes
  insecureSkipVerify : Bool

def Config.httpConfig (cfg : Config) : HTTPConfig where
  addr := cfg.addr
  username := cfg.username
  password := cfg.password
  insecureSkipVerify := cfg.insecureSkipVerify

def Config.batchPointsConfig (cfg : Config) : BatchPointsConfig where
  database := cfg.dbName
  precision := cfg.precision

/-- The world of a run: the network, standard input, and `json.Unmarshal` into an event. -/
structure Env extends World where
  stdin : Except Bytes Bytes
  unmarshal : Bytes → Except Bytes Event
  parsers : Parsers

def sendMetrics (rt : Runtime) (w : World) (cfg : Config) (event : Event) :
    Traced Call Stop Unit := do
  let c ← Traced.lift (check (newHTTPClient w cfg.httpConfig))
  let bp ← Traced.lift (check (newBatchPoints cfg.batchPointsConfig))
  let metrics ← Traced.lift (deref event.metrics)
  let bp ← Traced.lift (metrics.points.foldlM (fun bp point => do
    let pt ← convertPoint rt event point
    pure (BatchPoints.addPoint bp (some pt))) bp)
  c.write w bp
  Traced.lift (check c.close)

/-- `fmt.Errorf(context + "%s", err)`. -/
def errorf {α : Type} (context : String) (x : Except Bytes α) : Except Stop α :=
  x.mapError fun e => .err (.text (str context ++ e))

def Config.withDefaultAddr (cfg : Config) : Config :=
  { cfg with addr := if cfg.addr = [] then str "http://localhost:8086" else cfg.addr }

def run (rt : Runtime) (env : Env) (cfg : Config) (args : List Bytes) : Traced Call Stop Unit := do
  if args ≠ [] then Traced.fail (.err (.text (str "invalid argument(s) received")))
  let cfg := cfg.withDefaultAddr
  let eventJSON ← Traced.lift (errorf "failed to read stdin: " env.stdin)
  let event ← Traced.lift (errorf "failed to unmarshal stdin data: " (env.unmarshal eventJSON))
  Traced.lift (errorf "failed to validate event: " (event.validate env.parsers))
  if ¬ event.hasMetrics then Traced.fail (.err (.text (str "event does not contain metrics")))
  sendMetrics rt env.toWorld cfg event

/-! ## What `sendMetrics` can do -/

/-- The client and the batch have been created. -/
structure Ready (w : World) (cfg : Config) (c : Client) (bp : BatchPoints) : Prop where
  client : newHTTPClient w cfg.httpConfig = .ok c
  batch : newBatchPoints cfg.batchPointsConfig = .ok bp

/-- Without a client and a batch nothing is converted, and the error is the same for all events. -/
theorem sendMetrics_not_ready {w : World} {cfg : Config} (h : ¬ ∃ c bp, Ready w cfg c bp) :
    ∃ e, ∀ rt event, sendMetrics rt w cfg event = ⟨[], .error (.err e)⟩ := by
  unfold sendMetrics
  rcases hc : newHTTPClient w cfg.httpConfig with e | c
  · exact ⟨e, by simp⟩
  · rcases hb : newBatchPoints cfg.batchPointsConfig with e | bp
    · exact ⟨e, by simp⟩
    · exact absurd ⟨c, bp, hc, hb⟩ h

/-- The loop converts the points in order; the batch is written when all of them converted. -/
theorem sendMetrics_eq (rt : Runtime) {w : World} {cfg : Config} {c : Client} {bp : BatchPoints}
    (ready : Ready w cfg c bp) {event : Event} {metrics : Metrics}
    (hm : event.metrics = some metrics) :
    sendMetrics rt w cfg event =
      match metrics.points.mapM (convertPoint rt event) with
      | .error s => ⟨[], .error s⟩
      | .ok pts => c.write w { bp with points := pts.map some } := by
  have loop := Except.foldlM_push (convertPoint rt event)
    (fun bp pt => BatchPoints.addPoint bp (some pt)) metrics.points bp
  simp only [BatchPoints.foldl_addPoint, (newBatchPoints_ok ready.batch).1, List.nil_append] at loop
  unfold sendMetrics
  simp only [ready.client, ready.batch, hm, check_ok, deref_some, Traced.lift_ok, Traced.ok_bind,
    List.nil_append]
  change Traced.lift (metrics.points.foldlM (fun bp point =>
    (BatchPoints.addPoint bp <| some ·) <$> convertPoint rt event point) bp) >>= _ = _
  rw [loop]
  rcases metrics.points.mapM (convertPoint rt event) with s | pts
  · rfl
  · exact bind_pure _

/-- All ways in which `sendMetrics` can go: it lacks a client or a batch, or the loop stops, or it
ends as its one call of `Write` does. -/
theorem sendMetrics_cases (rt : Runtime) (w : World) (cfg : Config) {event : Event}
    {metrics : Metrics} (hm : event.metrics = some metrics) :
    ((¬ ∃ c bp, Ready w cfg c bp) ∧ ∃ e, sendMetrics rt w cfg event = ⟨[], .error (.err e)⟩) ∨
      ∃ c bp, Ready w cfg c bp ∧
        ((∃ s, metrics.points.mapM (convertPoint rt event) = .error s ∧
            sendMetrics rt w cfg event = ⟨[], .error s⟩) ∨
          ∃ pts, metrics.points.mapM (convertPoint rt event) = .ok pts ∧
            sendMetrics rt w cfg event = c.write w { bp with points := pts.map some }) := by
  by_cases ready : ∃ c bp, Ready w cfg c bp
  · obtain ⟨c, bp, ready⟩ := ready
    refine .inr ⟨c, bp, ready, ?_⟩
    rw [sendMetrics_eq rt ready hm]
    rcases metrics.points.mapM (convertPoint rt event) with s | pts
    · exact .inl ⟨s, rfl, rfl⟩
    · exact .inr ⟨pts, rfl, rfl⟩
  · obtain ⟨e, stop⟩ := sendMetrics_not_ready ready
    exact .inl ⟨ready, e, stop rt event⟩

/-- A batch that was written holds every point, converted. -/
theorem of_mem_writes_sendMetrics {rt : Runtime} {w : World} {cfg : Config} {event : Event}
    {metrics : Metrics} (hm : event.metrics = some metrics) {bp : BatchPoints}
    (h : bp ∈ writes (sendMetrics rt w cfg event)) :
    ∃ c bp₀ pts, Ready w cfg c bp₀ ∧ metrics.points.mapM (convertPoint rt event) = .ok pts ∧
      bp = { bp₀ with points := pts.map some } ∧ sendMetrics rt w cfg event = c.write w bp := by
  rcases sendMetrics_cases rt w cfg hm with
    ⟨-, e, send⟩ | ⟨c, bp₀, ready, ⟨s, -, send⟩ | ⟨pts, converted, send⟩⟩
  · rw [send] at h
    cases h
  · rw [send] at h
    cases h
  · rw [send, Client.writes_write, List.mem_singleton] at h
    exact ⟨c, bp₀, pts, ready, converted, h, h ▸ send⟩

/-! ## What `run` can do -/

/-- Standard input holds an event that passes the handler's checks. -/
structure Accepted (env : Env) (event : Event) (metrics : Metrics) : Prop where
  decoded : ∃ eventJSON, env.stdin = .ok eventJSON ∧ env.unmarshal eventJSON = .ok event
  valid : event.validate env.parsers = .ok ()
  hasMetrics : event.metrics = some metrics

theorem Accepted.unique {env : Env} {event event' : Event} {metrics metrics' : Metrics}
    (h : Accepted env event metrics) (h' : Accepted env event' metrics') :
    event = event' ∧ metrics = metrics' := by
  obtain ⟨text, hs, hu⟩ := h.decoded
  obtain ⟨text', hs', hu'⟩ := h'.decoded
  cases hs.symm.trans hs'
  cases hu.symm.trans hu'
  exact ⟨rfl, Option.some.inj (h.hasMetrics.symm.trans h'.hasMetrics)⟩

/-- The part of `run` before `sendMetrics`. -/
def readEvent (env : Env) : Except Stop Event := do
  let eventJSON ← errorf "failed to read stdin: " env.stdin
  let event ← errorf "failed to unmarshal stdin data: " (env.unmarshal eventJSON)
  errorf "failed to validate event: " (event.validate env.parsers)
  if event.hasMetrics then pure event
  else .error (.err (.text (str "event does not contain metrics")))

theorem errorf_eq_ok_iff {α : Type} {context : String} {x : Except Bytes α} {a : α} :
    errorf context x = .ok a ↔ x = .ok a := by
  cases x <;> simp [errorf, Except.mapError]

theorem errorf_eq_error {α : Type} {context : String} {x : Except Bytes α} {s : Stop}
    (h : errorf context x = .error s) : ∃ e, s = .err e := by
  cases x <;> cases h
  exact ⟨_, rfl⟩

theorem run_nil (rt : Runtime) (env : Env) (cfg : Config) :
    run rt env cfg [] =
      Traced.lift (readEvent env) >>= sendMetrics rt env.toWorld cfg.withDefaultAddr := by
  unfold run readEvent
  simp only [ne_eq, not_true_eq_false, if_false, Traced.lift_bind, bind_assoc]
  refine bind_congr fun text => bind_congr fun event => bind_congr fun _ => ?_
  cases event.hasMetrics <;> rfl

theorem readEvent_eq_ok_iff {env : Env} {event : Event} :
    readEvent env = .ok event ↔ ∃ metrics, Accepted env event metrics := by
  simp only [readEvent, Except.bind_eq_ok_iff, errorf_eq_ok_iff]
  constructor
  · rintro ⟨text, hs, event', hu, u, hv, h⟩
    split_ifs at h with hm
    cases h
    obtain ⟨metrics, hm⟩ := Option.isSome_iff_exists.mp hm
    exact ⟨metrics, ⟨text, hs, hu⟩, hv, hm⟩
  · rintro ⟨metrics, ⟨text, hs, hu⟩, hv, hm⟩
    exact ⟨text, hs, event, hu, (), hv, by simp [Event.hasMetrics, hm, pure, Except.pure]⟩

theorem readEvent_eq_error {env : Env} {s : Stop} (h : readEvent env = .error s) :
    ∃ e, s = .err e := by
  simp only [readEvent, Except.bind_eq_error_iff] at h
  rcases h with h | ⟨text, _, h | ⟨event, _, h | ⟨_, _, h⟩⟩⟩
  · exact errorf_eq_error h
  · exact errorf_eq_error h
  · exact errorf_eq_error h
  · split_ifs at h
    · cases h
    · exact ⟨_, (Except.error.inj h).symm⟩

/-- A run stops with an error before anything is created, or it sends an accepted event. -/
theorem run_cases (rt : Runtime) (env : Env) (cfg : Config) (args : List Bytes) :
    (∃ e, run rt env cfg args = ⟨[], .error (.err e)⟩) ∧
        (args = [] → ∀ event metrics, ¬ Accepted env event metrics) ∨
      args = [] ∧ ∃ event metrics, Accepted env event metrics ∧
        run rt env cfg args = sendMetrics rt env.toWorld cfg.withDefaultAddr event := by
  by_cases ha : args = []
  · subst ha
    rw [run_nil]
    rcases h : readEvent env with s | event
    · obtain ⟨e, rfl⟩ := readEvent_eq_error h
      refine .inl ⟨⟨e, rfl⟩, fun _ event metrics hacc => ?_⟩
      cases h.symm.trans (readEvent_eq_ok_iff.mpr ⟨metrics, hacc⟩)
    · obtain ⟨metrics, hacc⟩ := readEvent_eq_ok_iff.mp h
      exact .inr ⟨rfl, event, metrics, hacc, rfl⟩
  · refine .inl ⟨⟨.text (str "invalid argument(s) received"), ?_⟩, fun h => absurd h ha⟩
    simp [run, ha]

/-! ## A fixture -/

/-- A server that takes everything. -/
def fixtureWorld : World where
  parseURL _ := .ok ⟨str "http", str "localhost:8086", [], []⟩
  pathJoin a b := a ++ 47 :: b
  newRequest u := .ok u
  send _ _ := .ok ⟨204, .ok []⟩

/-- The command line of the repository's test, with the default address. -/
def fixtureConfig : Config :=
  ⟨str "http://localhost:8086", str "bar", str "baz", str "foo", str "s", false⟩

theorem fixture_ready :
    Ready fixtureWorld fixtureConfig
      ⟨⟨str "http", str "localhost:8086", [], []⟩, str "bar", str "baz", str "InfluxDBClient",
        false⟩
      ⟨[], str "foo", str "s", [], []⟩ := ⟨by decide, by decide +kernel⟩

end InfluxHandler.Handler
