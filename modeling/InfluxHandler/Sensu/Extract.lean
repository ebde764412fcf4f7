import InfluxHandler.Sensu.Transform

/-!
# Metrics from other sources of the agent

Beside the InfluxDB line format the agent reads check output in Graphite, OpenTSDB and Nagios
format, and its StatsD listener turns a flush into metric points. `extractMetrics` is what the agent
attaches to the result of a check, `prepareMetrics` what it sends for a flush.

A line that is not well formed is logged and dropped. Maps of a flush are lists here, in the order
in which they are visited.
-/
namespace InfluxHandler.Sensu
open Go

/-! ## Check output -/

structure Graphite where
  path : Bytes
  value : Float
  timestamp : Int64

structure OpenTSDB where
  name : Bytes
  value : Float
  tagSet : List MetricTag
  timestamp : Int64

structure Nagios where
  label : Bytes
  value : Float
  timestamp : Int64

section
variable (parseFloat : Bytes → Except GoError Float)

def parseGraphiteLine (line : Bytes) : Option Graphite :=
  match split line Byte.space with
  | [path, value, timestamp] => do
    let value ← (parseFloat value).toOption
    let timestamp ← (parseInt timestamp).toOption
    pure ⟨path, value, timestamp⟩
  | _ => none

def parseGraphite (output : Bytes) : List Graphite :=
  (split (trimSpace output) Byte.newline).filterMap (parseGraphiteLine parseFloat)

/-- A timestamp of thirteen characters is in milliseconds. -/
def parseOpenTSDBLine (metric : Bytes) : Option OpenTSDB :=
  match split metric Byte.space with
  | name :: timestamp :: value :: tag :: tags => do
    let seconds ← (parseInt timestamp).toOption
    let value ← (parseFloat value).toOption
    let tagSet ← (tag :: tags).mapM parseTag
    pure ⟨name, value, tagSet, if timestamp.length = 13 then seconds / 1000 else seconds⟩
  | _ => none

def parseOpenTSDB (output : Bytes) : List OpenTSDB :=
  (split (trimSpace output) Byte.newline).filterMap (parseOpenTSDBLine parseFloat)

/-- The label and the value before the first semicolon. All but digits, dots and minus signs is
removed from the value, units and exponents alike. -/
def parseNagiosMetric (executed : Int64) (metric : Bytes) : Option Nagios :=
  let metric := trimSpace metric
  if metric = [] then none
  else match split ((split metric 59).headD []) Byte.equals with
    | [label, value] =>
      let label := label.map fun c => if c = Byte.space then 95 else c
      let strValue := value.filter fun c => c == Byte.minus || isDigit c || c == Byte.dot
      (parseFloat strValue).toOption.map (⟨label, ·, executed⟩)
    | _ => none

/-- The performance data stand behind the only bar. -/
def parseNagios (executed : Int64) (output : Bytes) : List Nagios :=
  match split output 124 with
  | [_, perfdata] =>
    (split (trimSpace perfdata) Byte.space).filterMap (parseNagiosMetric parseFloat executed)
  | _ => []

end

/-- What `extractMetrics` reads of a check. -/
structure CheckOutput where
  outputMetricFormat : Bytes
  output : Bytes
  executed : Int64

/-- The points of a check's output, by its format. -/
def extractMetrics (parseFloat : Bytes → Except GoError Float) (now : Nat → Int64)
    (check : Option CheckOutput) : List (Option MetricPoint) :=
  match check with
  | none => []
  | some check =>
    if check.outputMetricFormat = str "graphite_plaintext" then
      (parseGraphite parseFloat check.output).map fun g => some ⟨g.path, g.value, g.timestamp, []⟩
    else if check.outputMetricFormat = str "influxdb_line" then
      transform (parseInflux parseFloat now check.output)
    else if check.outputMetricFormat = str "nagios_perfdata" then
      (parseNagios parseFloat check.executed check.output).map fun n =>
        some ⟨n.label, n.value, n.timestamp, []⟩
    else if check.outputMetricFormat = str "opentsdb_line" then
      (parseOpenTSDB parseFloat check.output).map fun o =>
        some ⟨o.name, o.value, o.timestamp, o.tagSet.map some⟩
    else []

/-! ## StatsD -/

structure Counter where
  perSecond : Float
  value : Int64

structure Percentile where
  float : Float
  str : Bytes

structure Timer where
  min : Float
  max : Float
  count : Int
  perSecond : Float
  mean : Float
  median : Float
  stdDev : Float
  sum : Float
  sumSquares : Float
  percentiles : List Percentile

structure Gauge where
  value : Float

/-- The values of a set. -/
structure StatsdSet where
  values : List Bytes

/-- A kind of metrics of a flush: key, tags and value of each. -/
abbrev Entries (α : Type) := List (Bytes × Bytes × α)

structure MetricMap where
  counters : Entries Counter
  timers : Entries Timer
  gauges : Entries Gauge
  sets : Entries StatsdSet

/-- The name and the value of a tag; what stands behind a second colon is dropped. -/
def tagValues (tag : Bytes) : Option (Bytes × Bytes) :=
  match split tag 58 with
  | name :: value :: _ => some (name, value)
  | _ => none

/-- The loop of `composeMetricTags`. A tag without a colon keeps the name and the value of the tag
before it. -/
def composeTags : Bytes × Bytes → List Bytes → List MetricTag
  | _, [] => []
  | last, tag :: tags =>
    let last := (tagValues tag).getD last
    if tag = [] then composeTags last tags else ⟨last.1, last.2⟩ :: composeTags last tags

def composeMetricTags (tagsKey : Bytes) : List (Option MetricTag) :=
  (composeTags ([], []) (split tagsKey Byte.comma)).map some

/-- One point for each suffix of the key. -/
def composePoints (key : Bytes) (tags : List (Option MetricTag)) (now : Int64)
    (values : List (Bytes × Float)) : List (Option MetricPoint) :=
  values.map fun v => some ⟨key ++ [Byte.dot] ++ v.1, v.2, now, tags⟩

def composeCounterPoints (counter : Counter) (key : Bytes) (tags : List (Option MetricTag))
    (now : Int64) : List (Option MetricPoint) :=
  composePoints key tags now
    [(str "value", Float.ofInt counter.value.toInt), (str "per_second", counter.perSecond)]

def composeTimerPoints (timer : Timer) (key : Bytes) (tags : List (Option MetricTag))
    (now : Int64) : List (Option MetricPoint) :=
  composePoints key tags now
    ([(str "min", timer.min), (str "max", timer.max), (str "count", Float.ofInt timer.count),
      (str "per_second", timer.perSecond), (str "mean", timer.mean), (str "median", timer.median),
      (str "stddev", timer.stdDev), (str "sum", timer.sum),
      (str "sum_squares", timer.sumSquares)] ++
      timer.percentiles.map fun pct => (str "percentile_" ++ pct.str, pct.float))

def composeGaugePoints (gauge : Gauge) (key : Bytes) (tags : List (Option MetricTag))
    (now : Int64) : List (Option MetricPoint) :=
  composePoints key tags now [(str "value", gauge.value)]

def composeSetPoints (set : StatsdSet) (key : Bytes) (tags : List (Option MetricTag))
    (now : Int64) : List (Option MetricPoint) :=
  composePoints key tags now [(str "value", Float.ofNat set.values.length)]

/-- The points of all metrics of one kind. -/
def eachPoints {α : Type}
    (compose : α → Bytes → List (Option MetricTag) → Int64 → List (Option MetricPoint))
    (now : Int64) (entries : Entries α) : List (Option MetricPoint) :=
  entries.flatMap fun e => compose e.2.2 e.1 (composeMetricTags e.2.1) now

def prepareMetrics (now : Int64) (metrics : MetricMap) : List (Option MetricPoint) :=
  eachPoints composeCounterPoints now metrics.counters ++
    eachPoints composeTimerPoints now metrics.timers ++
    eachPoints composeGaugePoints now metrics.gauges ++
    eachPoints composeSetPoints now metrics.sets

end InfluxHandler.Sensu
