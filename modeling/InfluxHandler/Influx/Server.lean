import InfluxHandler.Influx.Receive
import InfluxHandler.Influx.Writer

/-!
# The write endpoint of the server

`serveWrite` checks the request, reads the points from its body and hands them to the points writer.
A reply without an error means that every line of the body was read and that the store has taken
every point, once.
-/
namespace InfluxHandler.Influx
open Go KeyedMap

/-! ## Requests that arrive -/

/-- A request at the server: what the client made of it, the encoding of its body, the length that
was announced for it (negative if none was), and the error at which it breaks off. -/
structure Incoming extends Request where
  contentEncoding : Bytes
  contentLength : Int
  broken : Option Bytes

/-- A request of the client that arrives whole. The client does not encode it. -/
def Request.arrives (r : Request) : Incoming :=
  { r with contentEncoding := [], contentLength := r.body.length, broken := none }

inductive ReadError where
  /-- `errTruncated`. -/
  | truncated
  | text (message : Bytes)

/-- What can be read, and the error behind it if that is not the end. -/
structure Reader where
  bytes : Bytes
  err : Option ReadError

def Incoming.reader (r : Incoming) : Reader := ⟨r.body, r.broken.map .text⟩

/-- One byte more than the limit is read, to see whether there is one. -/
def truncateReader (r : Reader) (n : Nat) : Reader :=
  if n < r.bytes.length then ⟨r.bytes.take (n + 1), some .truncated⟩ else r

/-! ## The endpoint -/

/-- The server: its parser, clock and configuration, the users behind requests, and its points
writer with what the store did. -/
structure Server where
  parser : Parser
  now : Time
  /-- Whether there is a database of that name. -/
  hasDatabase : Bytes → Bool
  authEnabled : Bool
  user : Incoming → Option Bytes
  authorizeWrite : Bytes → Bytes → Bool
  maxBodySize : Nat
  /-- `gzip.NewReader`: an error for a bad header, else a reader of the decoded text. -/
  gunzip : Reader → Except Bytes Reader
  /-- `%q` of package `fmt`. -/
  quote : Bytes → Bytes
  /-- The JSON of an error. -/
  errorBody : Bytes → Bytes
  runtime : Runtime
  metaClient : MetaClient
  writePoints : Bytes → Bytes → List Point → List StoreEvent × Option WriteError
  writePoints_spec : ∀ database retentionPolicy points,
    WritePoints runtime metaClient database retentionPolicy points
      (writePoints database retentionPolicy points).1
      (writePoints database retentionPolicy points).2

/-- `r.URL.Query().Get`. -/
def Request.query (r : Request) (key : Bytes) : Bytes := (r.params.lookup key).getD []

/-- What `httpError` replies with. -/
structure HttpError where
  message : Bytes
  code : Nat
  isError : 400 ≤ code := by decide

/-- `StatusRequestEntityTooLarge`. -/
def tooLarge : HttpError := { message := str "Request Entity Too Large", code := 413 }

/-- How a request ends without success: with an error for the client, or with a panic, which
`recovery` catches. -/
inductive ServeFailure where
  | httpError (e : HttpError)
  | panicked

inductive ConsistencyLevel where
  | any
  | one
  | quorum
  | all
  deriving DecidableEq

/-- `strings.ToLower` on a text that is compared with words of ASCII letters. -/
def toLower (s : Bytes) : Bytes := s.map fun c => if 65 ≤ c ∧ c ≤ 90 then c + 32 else c

def parseConsistencyLevel (level : Bytes) : Except HttpError ConsistencyLevel :=
  if toLower level = str "any" then .ok .any
  else if toLower level = str "one" then .ok .one
  else if toLower level = str "quorum" then .ok .quorum
  else if toLower level = str "all" then .ok .all
  else .error { message := str "invalid consistency level", code := 400 }

/-- The reply to an error of the points writer. `IsClientError` looks at the text. -/
def WriteError.httpError (err : WriteError) : HttpError :=
  if (str "field type conflict").isPrefixOf err.message then { message := err.message, code := 400 }
  else match err with
    | .authorization message => { message := message, code := 403 }
    | .partialWrite reason dropped =>
      { message := (WriteError.partialWrite reason dropped).message, code := 400 }
    | err => { message := err.message, code := 500 }

section
variable (srv : Server) (r : Incoming)

/-- The checks before the body is read. -/
def Server.checkRequest (database : Bytes) : Except HttpError Unit := do
  if database = [] then .error { message := str "database is required", code := 400 }
  if ¬ srv.hasDatabase database then
    .error { message := str "database not found: " ++ srv.quote database, code := 404 }
  if srv.authEnabled then
    match srv.user r with
    | none =>
      .error { message := str "user is required to write to database " ++ srv.quote database,
               code := 403 }
    | some id =>
      if ¬ srv.authorizeWrite id database then
        .error { message := srv.quote id ++ str " user is not authorized to write to database " ++
          srv.quote database, code := 403 }

/-- The body. A decoder reads it as it came, so that the limit does not hold for what it decodes. -/
def Server.readBody : Except HttpError Bytes := do
  let body ←
    if r.contentEncoding = str "gzip" then
      (srv.gunzip r.reader).mapError fun message => { message := message, code := 400 }
    else pure (if 0 < srv.maxBodySize then truncateReader r.reader srv.maxBodySize else r.reader)
  if 0 < srv.maxBodySize ∧ (srv.maxBodySize : Int) < r.contentLength then .error tooLarge
  match body.err with
  | none => pure body.bytes
  | some .truncated => .error tooLarge
  | some (.text message) => .error { message := message, code := 400 }

def Server.parse (body : Bytes) : Option (List Point × Option Bytes) :=
  srv.parser.parsePointsWithPrecision srv.now (r.query (str "precision")) body

def Incoming.consistency : Except HttpError ConsistencyLevel :=
  let level := r.query (str "consistency")
  if level = [] then .ok .one else parseConsistencyLevel level

/-- The reply when the points were handed to the writer: its error, then that of the parser. -/
def writtenStatus (err : Option WriteError) (parseError : Option Bytes) : Except HttpError Nat :=
  match err, parseError with
  | some err, _ => .error err.httpError
  | none, some message =>
    .error { message := (WriteError.partialWrite message 0).message, code := 400 }
  | none, none => .ok 204

/-- `httpError` for an error, else go on. -/
def orReply {α : Type} (x : Except HttpError α) : Traced StoreEvent ServeFailure α :=
  Traced.lift (x.mapError .httpError)

/-- From the points on. -/
def Server.writeParsed (database : Bytes) (points : List Point) (parseError : Option Bytes) :
    Traced StoreEvent ServeFailure Nat := do
  let _ ← orReply r.consistency
  let (log, err) := srv.writePoints database (r.query (str "rp")) points
  ⟨log, (writtenStatus err parseError).mapError .httpError⟩

/-- From the body on. -/
def Server.writeBody (database body : Bytes) : Traced StoreEvent ServeFailure Nat :=
  match srv.parse r body with
  | none => Traced.fail .panicked
  | some (points, parseError) =>
    match parseError, points with
    | some message, [] =>
      if message = str "EOF" then pure 200
      else Traced.fail (.httpError { message := message, code := 400 })
    | parseError, points => srv.writeParsed r database points parseError

/-- The calls of the store for a request, and the status without an error. -/
def Server.handleWrite : Traced StoreEvent ServeFailure Nat := do
  let database := r.query (str "db")
  orReply (srv.checkRequest r database)
  let body ← orReply (srv.readBody r)
  srv.writeBody r database body

/-- The reply of `serveWrite`, and that of `recovery` if it panics. -/
def Server.serveWrite : Response :=
  match (srv.handleWrite r).result with
  | .ok code => ⟨code, .ok []⟩
  | .error (.httpError e) => ⟨e.code, .ok (srv.errorBody e.message)⟩
  | .error .panicked => ⟨500, .ok (str "Internal Server Error\n")⟩

end

/-! ## The messages of the parser -/

section
variable (P : Parser) (defaultTime : Time) (precision : Bytes)

theorem Parser.head?_readBlock {block : Bytes} {e : GoError}
    (h : P.readBlock defaultTime precision block = some (.error (.err e))) :
    (errorText e).head? = some 117 := by
  simp only [Parser.readBlock] at h
  split_ifs at h <;> split at h <;> cases h <;> rfl

theorem Parser.head?_failedLines (fuel : Nat) (buf : Bytes) {message : Bytes}
    (h : message ∈ failedLines (P.readBlocks defaultTime precision fuel buf)) :
    message.head? = some 117 := by
  obtain ⟨b, mem, same⟩ := List.mem_filterMap.mp h
  cases b with
  | ok _ => cases same
  | error failure =>
    cases failure with
    | indexOutOfRange => cases same
    | err e =>
      cases same
      obtain ⟨block, read⟩ := Parser.exists_readBlock mem
      exact P.head?_readBlock defaultTime precision read

/-- A message starts with `unable to parse`, so it is never `EOF`. -/
theorem Parser.parseError_ne_eof {buf message : Bytes} {points : List Point}
    (h : P.parsePointsWithPrecision defaultTime precision buf = some (points, some message)) :
    message ≠ str "EOF" := by
  obtain ⟨-, -, text⟩ := collectBlocks_eq_some_iff.mp h
  split_ifs at text with empty
  cases text
  obtain ⟨first, failed, hf⟩ := List.exists_cons_of_ne_nil empty
  have start := P.head?_failedLines defaultTime precision buf.length buf (hf ▸ List.mem_cons_self)
  have head : (join (first :: failed) [Byte.newline]).head? = some 117 := by
    cases first with
    | nil => cases start
    | cons c first => cases failed <;> exact start
  rw [hf]
  intro eof
  rw [eof] at head
  cases head

end

/-! ## What a reply says -/

/-- The request passes all checks, every line of its body is read, these are the points, and the
writer returns nil for them. -/
structure Server.Takes (srv : Server) (r : Incoming) (points : List Point) : Prop where
  admitted : srv.checkRequest r (r.query (str "db")) = .ok ()
  parsed : ∃ body, srv.readBody r = .ok body ∧ srv.parse r body = some (points, none)
  consistency : ∃ level, r.consistency = .ok level
  written : (srv.writePoints (r.query (str "db")) (r.query (str "rp")) points).2 = none

section
variable {srv : Server} {r : Incoming}

@[simp] theorem orReply_ok {α : Type} (a : α) : orReply (.ok a) = pure a := rfl

theorem orReply_error {α : Type} (e : HttpError) :
    (orReply (.error e) : Traced StoreEvent ServeFailure α) = ⟨[], .error (.httpError e)⟩ := rfl

/-- A request of the client is read as it was sent, if it is not too large. -/
theorem Server.readBody_arrives {r : Request} {body : Bytes}
    (h : srv.readBody r.arrives = .ok body) : body = r.body := by
  have plain : r.arrives.contentEncoding ≠ str "gzip" := by
    change ([] : Bytes) ≠ _
    decide
  unfold readBody at h
  rw [if_neg plain, pure_bind] at h
  dsimp only at h
  by_cases long : 0 < srv.maxBodySize ∧ (srv.maxBodySize : Int) < r.arrives.contentLength
  · rw [if_pos long] at h
    cases h
  · have whole : (if 0 < srv.maxBodySize then truncateReader r.arrives.reader srv.maxBodySize
        else r.arrives.reader) = ⟨r.body, none⟩ := by
      split_ifs with limited
      · have fits : ¬ srv.maxBodySize < r.body.length :=
          fun exceeds => long ⟨limited, Int.ofNat_lt.mpr exceeds⟩
        exact if_neg fits
      · rfl
    rw [if_neg long, whole] at h
    exact (Except.ok.inj h).symm

/-- A body without a point and with an error stops the request; the message for an empty body is
never met. -/
theorem Server.writeBody_cases (srv : Server) (r : Incoming) (database body : Bytes) :
    (∃ e, srv.writeBody r database body = ⟨[], .error e⟩) ∨
      ∃ points parseError, srv.parse r body = some (points, parseError) ∧
        srv.writeBody r database body = srv.writeParsed r database points parseError := by
  unfold writeBody
  rcases hp : srv.parse r body with _ | ⟨points, parseError⟩
  · exact .inl ⟨_, rfl⟩
  match parseError, points with
  | none, _ => exact .inr ⟨_, _, rfl, rfl⟩
  | some _, _ :: _ => exact .inr ⟨_, _, rfl, rfl⟩
  | some message, [] =>
    have different : message ≠ str "EOF" :=
      srv.parser.parseError_ne_eof srv.now (r.query (str "precision")) hp
    exact .inl ⟨_, if_neg different⟩

/-- A request fails before the store is called, or its points are handed to the writer. -/
theorem Server.handleWrite_cases (srv : Server) (r : Incoming) :
    (∃ e, srv.handleWrite r = ⟨[], .error e⟩) ∨
      ∃ body points parseError level, srv.checkRequest r (r.query (str "db")) = .ok () ∧
        srv.readBody r = .ok body ∧ srv.parse r body = some (points, parseError) ∧
        r.consistency = .ok level ∧
        srv.handleWrite r =
          ⟨(srv.writePoints (r.query (str "db")) (r.query (str "rp")) points).1,
            (writtenStatus (srv.writePoints (r.query (str "db")) (r.query (str "rp")) points).2
              parseError).mapError .httpError⟩ := by
  unfold handleWrite
  rcases ha : srv.checkRequest r (r.query (str "db")) with e | _
  · exact .inl ⟨.httpError e, by simp [ha, orReply_error]⟩
  rcases hb : srv.readBody r with e | body
  · exact .inl ⟨.httpError e, by simp [ha, orReply_error]⟩
  simp only [ha, orReply_ok, pure_bind]
  rcases srv.writeBody_cases r (r.query (str "db")) body with ⟨e, stop⟩ | ⟨points, err, hp, wrote⟩
  · exact .inl ⟨e, stop⟩
  rw [wrote, writeParsed]
  rcases hc : r.consistency with e | level
  · exact .inl ⟨.httpError e, rfl⟩
  · exact .inr ⟨body, points, err, level, trivial, rfl, hp, rfl, rfl⟩

theorem Server.Takes.handleWrite {points : List Point} (h : srv.Takes r points) :
    srv.handleWrite r =
      ⟨(srv.writePoints (r.query (str "db")) (r.query (str "rp")) points).1, .ok 204⟩ := by
  obtain ⟨level, hc⟩ := h.consistency
  obtain ⟨body, read, parsed⟩ := h.parsed
  simp [Server.handleWrite, h.admitted, read, Server.writeBody, parsed, Server.writeParsed, hc,
    writtenStatus, h.written, Except.mapError]

theorem writtenStatus_eq_ok_iff {err : Option WriteError} {parseError : Option Bytes} {code : Nat} :
    writtenStatus err parseError = .ok code ↔ err = none ∧ parseError = none ∧ code = 204 := by
  cases err <;> cases parseError <;> simp [writtenStatus, eq_comm]

theorem Server.handleWrite_ok {code : Nat} (h : (srv.handleWrite r).result = .ok code) :
    ∃ points, srv.Takes r points := by
  rcases srv.handleWrite_cases r with
    ⟨e, stop⟩ | ⟨body, points, parseError, level, ha, hb, hp, hc, wrote⟩
  · rw [stop] at h
    cases h
  · rw [wrote] at h
    cases hs : writtenStatus _ parseError with
    | error e =>
      rw [hs] at h
      cases h
    | ok status =>
      obtain ⟨written, rfl, -⟩ := writtenStatus_eq_ok_iff.mp hs
      exact ⟨points, ha, ⟨body, hb, hp⟩, ⟨level, hc⟩, written⟩

/-- The client takes a reply for a success only if the endpoint has found nothing wrong. -/
theorem Server.serveWrite_success_iff :
    (srv.serveWrite r).statusCode = 204 ∨ (srv.serveWrite r).statusCode = 200 ↔
      ∃ points, srv.Takes r points := by
  constructor
  · intro success
    unfold serveWrite at success
    cases h : (srv.handleWrite r).result with
    | ok code => exact handleWrite_ok h
    | error failure =>
      cases failure with
      | panicked => simp [h] at success
      | httpError e =>
        have failed := e.isError
        simp only [h] at success
        omega
  · rintro ⟨points, takes⟩
    left
    rw [serveWrite, takes.handleWrite]

theorem Server.Takes.acknowledged {points : List Point} (h : srv.Takes r points) :
    ((srv.handleWrite r).calls.flatMap StoreEvent.acknowledged).Perm points := by
  have wrote := srv.writePoints_spec (r.query (str "db")) (r.query (str "rp")) points
  rw [h.written] at wrote
  rw [h.handleWrite]
  exact wrote.acknowledged

theorem WriteError.code_httpError (err : WriteError) :
    err.httpError.code = 400 ∨ err.httpError.code = 403 ∨ err.httpError.code = 500 := by
  unfold httpError
  split_ifs
  · exact .inl rfl
  · cases err with
    | authorization => exact .inr (.inl rfl)
    | partialWrite => exact .inl rfl
    | text | shardNotFound | shardDeletion => exact .inr (.inr rfl)

theorem code_of_writtenStatus {err : Option WriteError} {parseError : Option Bytes} {e : HttpError}
    (h : writtenStatus err parseError = .error e) : e.code = 400 ∨ e.code = 403 ∨ e.code = 500 := by
  cases err with
  | some err =>
    cases h
    exact err.code_httpError
  | none =>
    cases parseError with
    | none => cases h
    | some message =>
      cases h
      exact .inl rfl

/-- With 404 or 413 the points were not handed to the writer. -/
theorem code_of_handed {err : Option WriteError} {parseError : Option Bytes}
    {calls : List StoreEvent}
    (h : srv.handleWrite r = ⟨calls, (writtenStatus err parseError).mapError .httpError⟩) :
    (srv.serveWrite r).statusCode ≠ 404 ∧ (srv.serveWrite r).statusCode ≠ 413 := by
  rw [Server.serveWrite, h]
  cases hs : writtenStatus err parseError with
  | ok code =>
    have code := (writtenStatus_eq_ok_iff.mp hs).2.2
    simp [Except.mapError, code]
  | error e =>
    have code := code_of_writtenStatus hs
    simp only [Except.mapError]
    omega

/-- What a reply says about the store. It has acknowledged no point that is not in the body, and
none twice. With a success, every line of the body was read and all of its points are acknowledged;
with 404 or 413, or if the parser panics, the store was not called. -/
theorem serveWrite_acknowledged (srv : Server) (r : Incoming) :
    ((srv.handleWrite r).calls = [] ∨
      ∃ body points parseError, srv.readBody r = .ok body ∧
        srv.parse r body = some (points, parseError) ∧
        ((srv.handleWrite r).calls.flatMap StoreEvent.acknowledged).Subperm points) ∧
    ((srv.serveWrite r).statusCode = 204 ∨ (srv.serveWrite r).statusCode = 200 →
      ∃ body points, srv.readBody r = .ok body ∧ srv.parse r body = some (points, none) ∧
        ((srv.handleWrite r).calls.flatMap StoreEvent.acknowledged).Perm points) ∧
    ((srv.serveWrite r).statusCode = 404 ∨ (srv.serveWrite r).statusCode = 413 →
      (srv.handleWrite r).calls = []) ∧
    ∀ body, srv.readBody r = .ok body → srv.parse r body = none →
      (srv.handleWrite r).calls = [] := by
  refine ⟨?_, fun success => ?_, fun refused => ?_, fun body read panics => ?_⟩
  · rcases srv.handleWrite_cases r with
      ⟨e, stop⟩ | ⟨body, points, parseError, level, -, read, parsed, -, wrote⟩
    · exact .inl (by rw [stop])
    · refine .inr ⟨body, points, parseError, read, parsed, ?_⟩
      rw [wrote]
      exact (srv.writePoints_spec _ _ _).acknowledged_subperm
  · obtain ⟨points, takes⟩ := Server.serveWrite_success_iff.mp success
    obtain ⟨body, read, parsed⟩ := takes.parsed
    exact ⟨body, points, read, parsed, takes.acknowledged⟩
  · rcases srv.handleWrite_cases r with ⟨e, stop⟩ | ⟨_, points, parseError, _, -, -, -, -, wrote⟩
    · rw [stop]
    · obtain ⟨found, fits⟩ := code_of_handed wrote
      exact (refused.elim found fits).elim
  · rcases srv.handleWrite_cases r with ⟨e, stop⟩ | ⟨body', points, _, _, -, read', parsed, -, -⟩
    · rw [stop]
    · obtain rfl : body' = body := Except.ok.inj (read'.symm.trans read)
      rw [panics] at parsed
      cases parsed

end

/-- A server on which the shard of one point is created, and every other request times out. -/
def weekServer : Server where
  parser := decimalParser
  now := Time.unix 1552506060 0
  hasDatabase database := database = str "foo"
  authEnabled := true
  user r := r.basicAuth.map Prod.fst
  authorizeWrite id database := id = str "bar" ∧ database = str "foo"
  maxBodySize := 25000000
  gunzip _ := .error (str "gzip: invalid header")
  quote s := str "\"" ++ s ++ str "\""
  errorBody message := message
  runtime := .ordered
  metaClient := weekClient
  writePoints database retentionPolicy points :=
    if (database, retentionPolicy, points) = (str "foo", [], [answerPoint]) then (creatingLog, none)
    else ([], idleOutcome .ordered weekClient database retentionPolicy points)
  writePoints_spec database retentionPolicy points := by
    split_ifs with one
    · cases one
      exact creating_writePoints
    · exact writePoints_idle _ _ _ _ _

/-- The request of the repository's test. -/
def answerRequest : Request where
  url := ⟨str "http", str "localhost:8086", str "/write", []⟩
  params :=
    [(str "db", str "foo"), (str "rp", []), (str "precision", str "s"), (str "consistency", [])]
  contentType := []
  userAgent := str "InfluxDBClient"
  basicAuth := some (str "bar", str "baz")
  body := str "answer,foo=bar,sensu_entity_name=entity1 value=42 1552506033\n"

theorem serveWrite_acknowledged_answer :
    (weekServer.serveWrite answerRequest.arrives).statusCode = 204 ∧
      ∃ points, weekServer.parse answerRequest.arrives answerRequest.body = some (points, none) ∧
        ((weekServer.handleWrite answerRequest.arrives).calls.flatMap StoreEvent.acknowledged).Perm
          points := by
  have success : (weekServer.serveWrite answerRequest.arrives).statusCode = 204 := by
    decide +kernel
  obtain ⟨body, points, read, parsed, acknowledged⟩ :=
    (serveWrite_acknowledged weekServer answerRequest.arrives).2.1 (.inl success)
  rw [Server.readBody_arrives read] at parsed
  exact ⟨success, points, parsed, acknowledged⟩

end InfluxHandler.Influx
