import InfluxHandler.Sensu.Event

/-!
# Metrics from check output

The agent turns the output of a check in InfluxDB line format into metric points. `parseInflux`
reads it line by line and drops a line that is not well formed; `transform` makes a point of every
field. A timestamp is cut to ten characters here, before the handler cuts it again.

The tags and fields that are read are pointers to new values, so none of them is nil.
-/
namespace InfluxHandler.Sensu
open Go

/-! ## strings.TrimSpace -/

/-- The characters of `unicode.IsSpace` in UTF-8. -/
def spaces : List Bytes :=
  [[9], [10], [11], [12], [13], [32], [0xC2, 0x85], [0xC2, 0xA0], [0xE1, 0x9A, 0x80]] ++
    (List.range 11).map (fun i => [0xE2, 0x80, UInt8.ofNat (0x80 + i)]) ++
    [[0xE2, 0x80, 0xA8], [0xE2, 0x80, 0xA9], [0xE2, 0x80, 0xAF], [0xE2, 0x81, 0x9F],
     [0xE3, 0x80, 0x80]]

/-- Drop the listed words from the start; each has a byte, so the length is enough fuel. -/
def trimStart (words : List Bytes) : Nat → Bytes → Bytes
  | 0, s => s
  | fuel + 1, s =>
    match words.find? (·.isPrefixOf s) with
    | some word => trimStart words fuel (s.drop word.length)
    | none => s

def trimSpace (s : Bytes) : Bytes :=
  let left := trimStart spaces s.length s
  (trimStart (spaces.map List.reverse) left.length left.reverse).reverse

/-! ## Lines -/

structure Field where
  key : Bytes
  value : Float

structure Influx where
  measurement : Bytes
  tagSet : List MetricTag
  fieldSet : List Field
  timestamp : Int64

def parseTag (tagSet : Bytes) : Option MetricTag :=
  match split tagSet Byte.equals with
  | [name, value] => some ⟨name, value⟩
  | _ => none

/-- The third argument of a line: its first ten characters as a number. -/
def parseTimestamp (timestamp : Bytes) : Except GoError Int64 :=
  parseInt (if 10 < timestamp.length then timestamp.take 10 else timestamp)

section
variable (parseFloat : Bytes → Except GoError Float)

def parseField (fieldSet : Bytes) : Option Field :=
  match split fieldSet Byte.equals with
  | [key, value] => (parseFloat value).toOption.map (⟨key, ·⟩)
  | _ => none

/-- The arguments of a line; a tag, a field or a timestamp that is not well formed drops it. -/
def parseArgs (measurementTags fieldSets : Bytes) (timestamp : Option Int64) : Option Influx := do
  let measurementTag := split measurementTags Byte.comma
  let tagSet ← measurementTag.tail.mapM parseTag
  let fieldSet ← (split fieldSets Byte.comma).mapM (parseField parseFloat)
  let timestamp ← timestamp
  pure ⟨measurementTag.headD [], tagSet, fieldSet, timestamp⟩

/-- A line has two arguments, or three with a timestamp. Without one it gets the current time. -/
def parseLine (now : Int64) (line : Bytes) : Option Influx :=
  match split line Byte.space with
  | [measurementTags, fieldSets] => parseArgs parseFloat measurementTags fieldSets (some now)
  | [measurementTags, fieldSets, timestamp] =>
    parseArgs parseFloat measurementTags fieldSets (parseTimestamp timestamp).toOption
  | _ => none

/-- `ParseInflux` on the output of a check. The clock is read at each line. -/
def parseInflux (now : Nat → Int64) (output : Bytes) : List Influx :=
  (split (trimSpace output) Byte.newline).zipIdx.filterMap fun (line, l) =>
    parseLine parseFloat (now l) line

end

/-- `InfluxList.Transform`. -/
def transform (list : List Influx) : List (Option MetricPoint) :=
  list.flatMap fun influx => influx.fieldSet.map fun field =>
    some ⟨influx.measurement ++ [Byte.dot] ++ field.key, field.value, influx.timestamp,
      influx.tagSet.map some⟩

/-! ## What a transformed point looks like -/

section
variable {parseFloat : Bytes → Except GoError Float}

theorem timestamp_of_parseArgs {m f : Bytes} {timestamp : Option Int64} {influx : Influx}
    (h : parseArgs parseFloat m f timestamp = some influx) : timestamp = some influx.timestamp := by
  simp only [parseArgs, Option.bind_eq_bind, Option.bind_eq_some_iff] at h
  obtain ⟨tagSet, -, fieldSet, -, t, ht, h⟩ := h
  cases h
  exact ht

/-- The time of a line is the current one, or was read from ten characters at most. -/
theorem timestamp_of_parseLine {now : Int64} {line : Bytes} {influx : Influx}
    (h : parseLine parseFloat now line = some influx) :
    influx.timestamp = now ∨ ∃ text, parseTimestamp text = .ok influx.timestamp := by
  unfold parseLine at h
  split at h
  · exact .inl (Option.some.inj (timestamp_of_parseArgs h)).symm
  · rename_i text _
    have read := timestamp_of_parseArgs h
    rcases ht : parseTimestamp text with e | t
    · rw [ht] at read
      cases read
    · rw [ht] at read
      cases read
      exact .inr ⟨text, ht⟩
  · cases h

theorem mem_transform {list : List Influx} {point : Option MetricPoint} :
    point ∈ transform list ↔ ∃ influx ∈ list, ∃ field ∈ influx.fieldSet, some
      ⟨influx.measurement ++ [Byte.dot] ++ field.key, field.value, influx.timestamp,
        influx.tagSet.map some⟩ = point := by
  simp only [transform, List.mem_flatMap, List.mem_map]

/-- The time of a transformed point. -/
theorem timestamp_of_mem_transform {now : Nat → Int64} {output : Bytes} {p : MetricPoint}
    (h : some p ∈ transform (parseInflux parseFloat now output)) :
    (∃ l, p.timestamp = now l) ∨ ∃ text, parseTimestamp text = .ok p.timestamp := by
  obtain ⟨influx, hi, field, -, hp⟩ := mem_transform.mp h
  obtain ⟨⟨line, l⟩, -, hl⟩ := List.mem_filterMap.mp hi
  cases hp
  exact (timestamp_of_parseLine hl).imp_left fun current => ⟨l, current⟩

end

end InfluxHandler.Sensu
