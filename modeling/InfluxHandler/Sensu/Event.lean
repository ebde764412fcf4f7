import InfluxHandler.Go.Strconv
import InfluxHandler.Library.Traced

/-!
# Sensu events and their validation

The records of `sensu-go/api/core/v2` with the fields that the handler or a validator reads. A
pointer field is an `Option`, and so is an element of a slice of pointers: the decoder can leave
a nil in either. An error is its text.

`Metrics.validate` accepts everything. In particular it does not look at the points, so names,
tags and nil elements all pass.
-/
namespace InfluxHandler.Sensu
open Go

structure ObjectMeta where
  name : Bytes
  namespace_ : Bytes
  deriving DecidableEq

structure Entity where
  entityClass : Bytes
  metadata : ObjectMeta
  deriving DecidableEq

structure MetricTag where
  name : Bytes
  value : Bytes
  deriving DecidableEq

structure MetricPoint where
  name : Bytes
  value : Float
  timestamp : Int64
  tags : List (Option MetricTag)
  deriving DecidableEq

structure Metrics where
  points : List (Option MetricPoint)
  deriving DecidableEq

structure ProxyRequests where
  entityAttributes : List Bytes
  splay : Bool
  splayCoverage : UInt32
  deriving DecidableEq

/-- A time window of a day, as two times in the format `3:04PM`. -/
structure TimeWindowTimeRange where
  begin_ : Bytes
  end_ : Bytes
  deriving DecidableEq

structure Check where
  metadata : ObjectMeta
  cron : Bytes
  interval : UInt32
  ttl : Int64
  runtimeAssets : List Bytes
  proxyEntityName : Bytes
  proxyRequests : Option ProxyRequests
  outputMetricFormat : Bytes
  lowFlapThreshold : UInt32
  highFlapThreshold : UInt32
  envVars : List Bytes
  maxOutputSize : Int64
  subdue : Option (List TimeWindowTimeRange)
  deriving DecidableEq

structure Event where
  entity : Option Entity
  check : Option Check
  metrics : Option Metrics
  metadata : ObjectMeta
  deriving DecidableEq

/-- The parsers that `Check.Validate` calls and that are not modelled: of packages for cron and for
JavaScript expressions, and `TimeWindowTimeRange.Validate` for the clock times of a subdue window. -/
structure Parsers where
  cronParseStandard : Bytes → Except Bytes Unit
  parseExpressions : List Bytes → Except Bytes Unit
  validateWindow : TimeWindowTimeRange → Except Bytes Unit

/-- `if bad { return errors.New(message) }`. -/
def require (good : Bool) (message : String) : Except Bytes Unit :=
  if good then .ok () else .error (str message)

/-- `errors.New(context + err.Error())`. -/
def inContext (context : String) (x : Except Bytes Unit) : Except Bytes Unit :=
  x.mapError (str context ++ ·)

/-! ## Names -/

def isLower (c : UInt8) : Bool := 97 ≤ c.toNat && c.toNat ≤ 122
def isUpper (c : UInt8) : Bool := 65 ≤ c.toNat && c.toNat ≤ 90

/-- A byte of the class `[\w\.\-]`. -/
def isNameByte (c : UInt8) : Bool :=
  isDigit c || isLower c || isUpper c || c == 95 || c == Byte.dot || c == Byte.minus

/-- `ValidateName`, whose pattern is `\A[\w\.\-]+\z`. -/
def validateName (name : Bytes) : Except Bytes Unit := do
  require (name != []) "must not be empty"
  require (name.all isNameByte) "cannot contain spaces or special characters"

/-- A byte of the class `[a-z0-9\/\_\.\-]`. -/
def isAssetByte (c : UInt8) : Bool :=
  isDigit c || isLower c || c == 47 || c == 95 || c == Byte.dot || c == Byte.minus

def validateAssetName (name : Bytes) : Except Bytes Unit := do
  require (name != []) "name cannot be empty"
  require (name.all isAssetByte)
    "name must be lowercase and may only contain forward slashes, underscores, dashes and numbers"

/-! ## Validators -/

def Entity.validate (e : Entity) : Except Bytes Unit := do
  inContext "entity name " (validateName e.metadata.name)
  inContext "entity class " (validateName e.entityClass)
  require (e.metadata.namespace_ != []) "namespace must be set"

def outputMetricFormats : List Bytes :=
  [str "nagios_perfdata", str "graphite_plaintext", str "opentsdb_line", str "influxdb_line"]

/-- An environment variable has the form `FOO=BAR`. -/
def validateVar (v : Bytes) : Except Bytes Unit :=
  match split v Byte.equals with
  | [key, value] =>
    require (key != [] && value != []) "environment variables must be of the form FOO=BAR"
  | _ => .error (str "environment variables must be of the form FOO=BAR")

def ProxyRequests.validate (parsers : Parsers) (p : ProxyRequests) : Except Bytes Unit := do
  require (p.splayCoverage ≤ 100) "proxy request splay coverage must be between 0 and 100"
  require (!(p.splay && p.splayCoverage == 0))
    "proxy request splay coverage must be greater than 0 if splay is enabled"
  parsers.parseExpressions p.entityAttributes

/-- The schedule is an interval or a cron expression. -/
def Check.validateSchedule (parsers : Parsers) (c : Check) : Except Bytes Unit :=
  if c.cron ≠ [] then do
    require (c.interval == 0) "must only specify either an interval or a cron schedule"
    (parsers.cronParseStandard c.cron).mapError fun _ => str "check cron string is invalid"
  else require (1 ≤ c.interval) "check interval must be greater than or equal to 1"

def Check.validate (parsers : Parsers) (c : Check) : Except Bytes Unit :=
  -- the agent's test check skips every rule
  if c.metadata.name = str "!sensu_test_check!" then .ok ()
  else do
    inContext "check name " (validateName c.metadata.name)
    c.validateSchedule parsers
    require (!(0 < c.ttl && c.ttl ≤ Int64.ofNat c.interval.toNat))
      "ttl must be greater than check interval"
    require (!(0 < c.ttl && c.ttl < 5)) "minimum ttl is 5 seconds"
    c.runtimeAssets.forM fun asset => inContext "asset's " (validateAssetName asset)
    if c.proxyEntityName ≠ [] then inContext "proxy entity name " (validateName c.proxyEntityName)
    c.proxyRequests.forM (ProxyRequests.validate parsers)
    if c.outputMetricFormat ≠ [] then
      require (outputMetricFormats.contains c.outputMetricFormat) "output metric format is not valid"
    require (!(c.lowFlapThreshold != 0 && c.highFlapThreshold != 0 &&
      c.highFlapThreshold ≤ c.lowFlapThreshold)) "invalid flap thresholds"
    c.envVars.forM validateVar
    require (0 ≤ c.maxOutputSize) "MaxOutputSize must be >= 0"
    c.subdue.forM fun windows => windows.forM parsers.validateWindow

def Metrics.validate (_ : Metrics) : Except Bytes Unit := .ok ()

def Event.hasCheck (e : Event) : Bool := e.check.isSome

def Event.hasMetrics (e : Event) : Bool := e.metrics.isSome

def Event.validate (parsers : Parsers) (e : Event) : Except Bytes Unit :=
  match e.entity with
  | none => .error (str "event must contain an entity")
  | some entity => do
    require (e.hasCheck || e.hasMetrics) "event must contain a check or metrics"
    inContext "entity is invalid: " entity.validate
    e.check.forM fun c => inContext "check is invalid: " (c.validate parsers)
    e.metrics.forM fun m => inContext "metrics are invalid: " m.validate
    require (e.metadata.name == []) "events cannot be named"

/-! ## What validation guarantees -/

theorem require_eq_ok_iff {good : Bool} {message : String} {u : Unit} :
    require good message = .ok u ↔ good = true := by
  cases good <;> simp [require]

theorem inContext_eq_ok_iff {context : String} {x : Except Bytes Unit} {u : Unit} :
    inContext context x = .ok u ↔ x = .ok u := by
  cases x <;> simp [inContext, Except.mapError]

theorem validateName_eq_ok_iff {name : Bytes} :
    validateName name = .ok () ↔ name ≠ [] ∧ ∀ c ∈ name, isNameByte c = true := by
  simp [validateName, Except.bind_eq_ok_iff, require_eq_ok_iff]

theorem newline_not_mem_of_validateName {name : Bytes} (h : validateName name = .ok ()) :
    Byte.newline ∉ name := fun hm =>
  absurd ((validateName_eq_ok_iff.mp h).2 _ hm) (by decide)

/-- A valid event has an entity with a valid name. -/
theorem Event.entity_of_validate {parsers : Parsers} {e : Event} (h : e.validate parsers = .ok ()) :
    ∃ entity, e.entity = some entity ∧ validateName entity.metadata.name = .ok () := by
  unfold Event.validate at h
  rcases he : e.entity with _ | entity
  · rw [he] at h
    cases h
  · rw [he] at h
    simp only [Except.bind_eq_ok_iff, inContext_eq_ok_iff, Entity.validate] at h
    obtain ⟨_, _, _, ⟨_, name, _⟩, _⟩ := h
    exact ⟨entity, rfl, name⟩

end InfluxHandler.Sensu
