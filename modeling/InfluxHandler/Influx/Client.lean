import InfluxHandler.Influx.Point

/-!
# The HTTP client

A batch collects points; `Client.write` renders it as one body, one line for each point, and
posts it. The trace records each call of `Write` with its batch and each request that goes out.
Address parsing and the network belong to a `World`; results hold for each of them, so for
every reply of the server.
-/
namespace InfluxHandler.Influx
open Go KeyedMap

/-! ## Batches -/

structure BatchPointsConfig where
  precision : Bytes := []
  database : Bytes := []
  retentionPolicy : Bytes := []
  writeConsistency : Bytes := []

structure BatchPoints where
  points : List (Option Point)
  database : Bytes
  precision : Bytes
  retentionPolicy : Bytes
  writeConsistency : Bytes
  deriving DecidableEq

def newBatchPoints (conf : BatchPointsConfig) : Except GoError BatchPoints := do
  let precision := if conf.precision = [] then str "ns" else conf.precision
  let _ ← parseDuration (str "1" ++ precision)
  pure ⟨[], conf.database, precision, conf.retentionPolicy, conf.writeConsistency⟩

def BatchPoints.addPoint (bp : BatchPoints) (p : Option Point) : BatchPoints :=
  { bp with points := bp.points ++ [p] }

/-- The posted text: every point's line and a newline. Nil points are skipped. -/
def BatchPoints.body (bp : BatchPoints) : Bytes :=
  bp.points.flatMap fun
    | none => []
    | some p => p.precisionString bp.precision ++ [Byte.newline]

theorem newBatchPoints_ok {conf : BatchPointsConfig} {bp : BatchPoints}
    (h : newBatchPoints conf = .ok bp) :
    bp.points = [] ∧ bp.precision = (if conf.precision = [] then str "ns" else conf.precision) ∧
      ∃ d, parseDuration (str "1" ++ bp.precision) = .ok d := by
  obtain ⟨d, hd, hbp⟩ := Except.bind_eq_ok_iff.mp h
  cases hbp
  exact ⟨rfl, rfl, d, hd⟩

/-- Adding points one by one appends them in order and touches nothing else. -/
theorem BatchPoints.foldl_addPoint (pts : List Point) (bp : BatchPoints) :
    pts.foldl (fun bp p => bp.addPoint (some p)) bp =
      { bp with points := bp.points ++ pts.map some } := by
  induction pts generalizing bp with
  | nil => simp
  | cons p pts ih => rw [List.foldl_cons, ih]; simp [addPoint]

theorem BatchPoints.body_map_some (bp : BatchPoints) (pts : List Point) :
    BatchPoints.body { bp with points := pts.map some } =
      pts.flatMap fun p => p.precisionString bp.precision ++ [Byte.newline] := by
  simp [body, List.flatMap_map]

/-! ## The client and the world -/

structure URL where
  scheme : Bytes
  host : Bytes
  path : Bytes
  rawQuery : Bytes
  deriving DecidableEq

structure HTTPConfig where
  addr : Bytes
  username : Bytes
  password : Bytes
  userAgent : Bytes := []
  insecureSkipVerify : Bool

structure Client where
  url : URL
  username : Bytes
  password : Bytes
  userAgent : Bytes
  insecureSkipVerify : Bool
  deriving DecidableEq

/-- A POST request. The parameters are those set on top of the query of the address. -/
structure Request where
  url : URL
  params : List (Bytes × Bytes)
  contentType : Bytes
  userAgent : Bytes
  basicAuth : Option (Bytes × Bytes)
  body : Bytes
  deriving DecidableEq

/-- A reply of the server; reading its body can fail. -/
structure Response where
  statusCode : Nat
  body : Except GoError Bytes

/-- The parts of `net/url`, `path` and `net/http` that the client uses, and the server. -/
structure World where
  parseURL : Bytes → Except GoError URL
  pathJoin : Bytes → Bytes → Bytes
  /-- `http.NewRequest` reads the address again. -/
  newRequest : URL → Except GoError URL
  send : Client → Request → Except GoError Response

/-- What the handler does that can be seen from outside. -/
inductive Call where
  | write (bp : BatchPoints)
  | post (req : Request)
  deriving DecidableEq

def newHTTPClient (w : World) (conf : HTTPConfig) : Except GoError Client := do
  let userAgent := if conf.userAgent = [] then str "InfluxDBClient" else conf.userAgent
  let u ← w.parseURL conf.addr
  if u.scheme ≠ str "http" ∧ u.scheme ≠ str "https" then
    .error (.text (str "Unsupported protocol scheme: " ++ u.scheme ++
      str ", your address must start with http:// or https://"))
  pure ⟨u, conf.username, conf.password, userAgent, conf.insecureSkipVerify⟩

/-- `client.NewPoint`; the time is optional. -/
def Client.newPoint (rt : Runtime) (name : Bytes) (tags : Map Bytes Bytes) (fields : Fields)
    (t : List Time) : Except GoError Point :=
  Influx.newPoint rt name (newTags rt tags) fields (t.head?.getD ⟨0, 0⟩)

/-- The address of the `write` endpoint. -/
def Client.writeURL (w : World) (c : Client) : URL :=
  { c.url with path := w.pathJoin c.url.path (str "write") }

/-- The request that carries a batch. -/
def Client.request (c : Client) (url : URL) (bp : BatchPoints) : Request where
  url := url
  params := [(str "db", bp.database), (str "rp", bp.retentionPolicy),
    (str "precision", bp.precision), (str "consistency", bp.writeConsistency)]
  contentType := []
  userAgent := c.userAgent
  basicAuth := if c.username ≠ [] then some (c.username, c.password) else none
  body := bp.body

def Client.write (w : World) (c : Client) (bp : BatchPoints) : Traced Call Stop Unit := do
  Traced.call (.write bp)
  let url ← Traced.lift (check (w.newRequest (c.writeURL w)))
  Traced.call (.post (c.request url bp))
  let resp ← Traced.lift (check (w.send c (c.request url bp)))
  let body ← Traced.lift (check resp.body)
  if resp.statusCode ≠ 204 ∧ resp.statusCode ≠ 200 then Traced.fail (.err (.text body))

/-- Closing drops idle connections and cannot fail. -/
def Client.close (_ : Client) : Except GoError Unit := .ok ()

/-! ## Traces -/

/-- The batches that a computation handed to `Write`. -/
def writes {α : Type} (x : Traced Call Stop α) : List BatchPoints :=
  x.calls.filterMap fun
    | .write bp => some bp
    | .post _ => none

/-- The bodies of the requests that it sent. -/
def postedBodies {α : Type} (x : Traced Call Stop α) : List Bytes :=
  x.calls.filterMap fun
    | .write _ => none
    | .post req => some req.body

/-- All that a call of `Write` can do: it is recorded first, then at most one request goes out,
with the batch's text, and it returns nil or an error. -/
theorem Client.write_cases (w : World) (c : Client) (bp : BatchPoints) :
    (∃ e, c.write w bp = ⟨[.write bp], .error (.err e)⟩) ∨
      ∃ url, w.newRequest (c.writeURL w) = .ok url ∧
        ((∃ e, c.write w bp = ⟨[.write bp, .post (c.request url bp)], .error (.err e)⟩) ∨
          c.write w bp = ⟨[.write bp, .post (c.request url bp)], .ok ()⟩) := by
  unfold Client.write
  rcases hu : w.newRequest (c.writeURL w) with e | url
  · exact .inl ⟨e, by simp [Traced.call]⟩
  · refine .inr ⟨url, rfl, ?_⟩
    rcases hs : w.send c (c.request url bp) with e | resp
    · exact .inl ⟨e, by simp [Traced.call, hs]⟩
    · rcases hb : resp.body with e | body
      · exact .inl ⟨e, by simp [Traced.call, hs, hb]⟩
      · by_cases hc : resp.statusCode ≠ 204 ∧ resp.statusCode ≠ 200
        · exact .inl ⟨.text body, by simp [Traced.call, hs, hb, hc]⟩
        · exact .inr (by simp [Traced.call, hs, hb, hc])

theorem Client.writes_write (w : World) (c : Client) (bp : BatchPoints) :
    writes (c.write w bp) = [bp] := by
  rcases c.write_cases w bp with ⟨e, h⟩ | ⟨url, _, ⟨e, h⟩ | h⟩ <;> rw [h] <;> rfl

theorem Client.postedBodies_write {w : World} {c : Client} {bp : BatchPoints} {b : Bytes}
    (h : b ∈ postedBodies (c.write w bp)) : b = bp.body := by
  rcases c.write_cases w bp with ⟨e, he⟩ | ⟨url, _, ⟨e, he⟩ | he⟩ <;> rw [he] at h
  · cases h
  · exact List.mem_singleton.mp h
  · exact List.mem_singleton.mp h

theorem Client.write_ne_panic (w : World) (c : Client) (bp : BatchPoints) :
    (c.write w bp).result ≠ .error .nilDereference := by
  rcases c.write_cases w bp with ⟨e, h⟩ | ⟨url, _, ⟨e, h⟩ | h⟩ <;> rw [h] <;> simp

end InfluxHandler.Influx
