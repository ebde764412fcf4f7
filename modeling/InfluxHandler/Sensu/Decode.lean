import InfluxHandler.Go.Json
import InfluxHandler.Sensu.Event

/-!
# encoding/json: decoding into an event

A decoder writes a JSON value over an existing Go value, as `json.Unmarshal` does. A null sets a
pointer or a slice to nil and leaves anything else alone, so a null in an array of pointers
becomes a nil element. A key selects the field of that name, or else a field whose name differs in
case only; other keys are skipped, and so are the fields that the records here leave out. If a key
is repeated, the later array is written over the elements of the slice; elements that a shorter
array has cut off are forgotten here, while Go finds them again behind the slice when a third array
is longer.
-/
namespace InfluxHandler.Sensu
open Go Go.Json

abbrev Decoder (α : Type) := α → Value → Except Bytes α

def typeError {α : Type} (target : String) : Except Bytes α :=
  .error (str "json: cannot unmarshal value into Go value of type " ++ str target)

def decodeString : Decoder Bytes
  | old, .null => .ok old
  | _, .string s => .ok s
  | _, _ => typeError "string"

def decodeBool : Decoder Bool
  | old, .null => .ok old
  | _, .bool b => .ok b
  | _, _ => typeError "bool"

def decodeInt64 : Decoder Int64
  | old, .null => .ok old
  | _, .number text => match parseInt text with
    | .ok i => .ok i
    | .error _ => typeError "int64"
  | _, _ => typeError "int64"

def decodeUint32 : Decoder UInt32
  | old, .null => .ok old
  | _, .number text => match parseUint text with
    | .ok n => if n < 2 ^ 32 then .ok (UInt32.ofNat n) else typeError "uint32"
    | .error _ => typeError "uint32"
  | _, _ => typeError "uint32"

def decodeFloat64 : Decoder Float
  | old, .null => .ok old
  | _, .number text => match Json.parseFloat text with
    | some v => .ok v
    | none => typeError "float64"
  | _, _ => typeError "float64"

/-- A nil pointer is allocated before its target is decoded. -/
def decodePointer {α : Type} (zero : α) (d : Decoder α) : Decoder (Option α)
  | _, .null => .ok none
  | old, v => some <$> d (old.getD zero) v

/-- The elements of an array over those that the slice has. -/
def decodeElements {α : Type} (zero : α) (d : Decoder α) : List α → List Value → Except Bytes (List α)
  | _, [] => .ok []
  | old, v :: vs => do
    let a ← d (old.headD zero) v
    let as ← decodeElements zero d old.tail vs
    pure (a :: as)

def decodeSlice {α : Type} (zero : α) (d : Decoder α) : Decoder (List α)
  | _, .null => .ok []
  | old, .array vs => decodeElements zero d old vs
  | _, _ => typeError "slice"

/-- A decoder for one field of a record. -/
def field {σ α : Type} (get : σ → α) (set : σ → α → σ) (d : Decoder α) : Decoder σ :=
  fun s v => set s <$> d (get s) v

def toLower (c : UInt8) : UInt8 := if isUpper c then c + 32 else c

/-- A key in lower case. The long s and the Kelvin sign count as s and k. -/
def foldKey : Bytes → Bytes
  | 0xC5 :: 0xBF :: rest => 115 :: foldKey rest
  | 0xE2 :: 0x84 :: 0xAA :: rest => 107 :: foldKey rest
  | c :: rest => toLower c :: foldKey rest
  | [] => []

def findField {σ : Type} (fields : List (String × Decoder σ)) (key : Bytes) : Option (Decoder σ) :=
  ((fields.find? fun f => str f.1 == key).or
    (fields.find? fun f => str f.1 == foldKey key)).map Prod.snd

def decodeMember {σ : Type} (fields : List (String × Decoder σ)) (s : σ) (m : Bytes × Value) :
    Except Bytes σ :=
  match findField fields m.1 with
  | some d => d s m.2
  | none => .ok s

def decodeStruct {σ : Type} (fields : List (String × Decoder σ)) : Decoder σ
  | old, .null => .ok old
  | old, .object members => members.foldlM (decodeMember fields) old
  | _, _ => typeError "struct"

/-! ## The records -/

def decodeObjectMeta : Decoder ObjectMeta := decodeStruct
  [("name", field (·.name) (fun s v => { s with name := v }) decodeString),
   ("namespace", field (·.namespace_) (fun s v => { s with namespace_ := v }) decodeString)]

def decodeEntity : Decoder Entity := decodeStruct
  [("entity_class", field (·.entityClass) (fun s v => { s with entityClass := v }) decodeString),
   ("metadata", field (·.metadata) (fun s v => { s with metadata := v }) decodeObjectMeta)]

def decodeMetricTag : Decoder MetricTag := decodeStruct
  [("name", field (·.name) (fun s v => { s with name := v }) decodeString),
   ("value", field (·.value) (fun s v => { s with value := v }) decodeString)]

def decodeMetricPoint : Decoder MetricPoint := decodeStruct
  [("name", field (·.name) (fun s v => { s with name := v }) decodeString),
   ("value", field (·.value) (fun s v => { s with value := v }) decodeFloat64),
   ("timestamp", field (·.timestamp) (fun s v => { s with timestamp := v }) decodeInt64),
   ("tags", field (·.tags) (fun s v => { s with tags := v })
     (decodeSlice none (decodePointer ⟨[], []⟩ decodeMetricTag)))]

def decodeMetrics : Decoder Metrics := decodeStruct
  [("points", field (·.points) (fun s v => { s with points := v })
     (decodeSlice none (decodePointer ⟨[], 0, 0, []⟩ decodeMetricPoint)))]

def decodeProxyRequests : Decoder ProxyRequests := decodeStruct
  [("entity_attributes", field (·.entityAttributes) (fun s v => { s with entityAttributes := v })
     (decodeSlice [] decodeString)),
   ("splay", field (·.splay) (fun s v => { s with splay := v }) decodeBool),
   ("splay_coverage", field (·.splayCoverage) (fun s v => { s with splayCoverage := v })
     decodeUint32)]

def decodeTimeRange : Decoder TimeWindowTimeRange := decodeStruct
  [("begin", field (·.begin_) (fun s v => { s with begin_ := v }) decodeString),
   ("end", field (·.end_) (fun s v => { s with end_ := v }) decodeString)]

/-- The windows of all days, in the order in which the document lists them. -/
def decodeSubdue : Decoder (List TimeWindowTimeRange) :=
  let day : Decoder (List TimeWindowTimeRange) := fun windows v =>
    (windows ++ ·) <$> decodeSlice ⟨[], []⟩ decodeTimeRange [] v
  decodeStruct [("days", decodeStruct
    [("all", day), ("sunday", day), ("monday", day), ("tuesday", day), ("wednesday", day),
     ("thursday", day), ("friday", day), ("saturday", day)])]

def Check.zero : Check :=
  ⟨⟨[], []⟩, [], 0, 0, [], [], none, [], 0, 0, [], 0, none⟩

def decodeCheck : Decoder Check := decodeStruct
  [("metadata", field (·.metadata) (fun s v => { s with metadata := v }) decodeObjectMeta),
   ("cron", field (·.cron) (fun s v => { s with cron := v }) decodeString),
   ("interval", field (·.interval) (fun s v => { s with interval := v }) decodeUint32),
   ("ttl", field (·.ttl) (fun s v => { s with ttl := v }) decodeInt64),
   ("runtime_assets", field (·.runtimeAssets) (fun s v => { s with runtimeAssets := v })
     (decodeSlice [] decodeString)),
   ("proxy_entity_name", field (·.proxyEntityName) (fun s v => { s with proxyEntityName := v })
     decodeString),
   ("proxy_requests", field (·.proxyRequests) (fun s v => { s with proxyRequests := v })
     (decodePointer ⟨[], false, 0⟩ decodeProxyRequests)),
   ("output_metric_format", field (·.outputMetricFormat)
     (fun s v => { s with outputMetricFormat := v }) decodeString),
   ("low_flap_threshold", field (·.lowFlapThreshold) (fun s v => { s with lowFlapThreshold := v })
     decodeUint32),
   ("high_flap_threshold", field (·.highFlapThreshold) (fun s v => { s with highFlapThreshold := v })
     decodeUint32),
   ("env_vars", field (·.envVars) (fun s v => { s with envVars := v })
     (decodeSlice [] decodeString)),
   ("max_output_size", field (·.maxOutputSize) (fun s v => { s with maxOutputSize := v })
     decodeInt64),
   ("subdue", field (·.subdue) (fun s v => { s with subdue := v }) (decodePointer [] decodeSubdue))]

def decodeEvent : Decoder Event := decodeStruct
  [("entity", field (·.entity) (fun s v => { s with entity := v })
     (decodePointer ⟨[], ⟨[], []⟩⟩ decodeEntity)),
   ("check", field (·.check) (fun s v => { s with check := v })
     (decodePointer Check.zero decodeCheck)),
   ("metrics", field (·.metrics) (fun s v => { s with metrics := v })
     (decodePointer ⟨[]⟩ decodeMetrics)),
   ("metadata", field (·.metadata) (fun s v => { s with metadata := v }) decodeObjectMeta)]

/-- `json.Unmarshal(data, &types.Event{})`. -/
def unmarshalEvent (data : Bytes) : Except Bytes Event :=
  match Json.parse data with
  | some v => decodeEvent ⟨none, none, none, ⟨[], []⟩⟩ v
  | none => .error (str "invalid character in JSON input")

end InfluxHandler.Sensu
