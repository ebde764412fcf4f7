import InfluxHandler.Influx.Client
import InfluxHandler.Sensu.Event

/-!
# From a metric point to an InfluxDB point

One turn of the loop in `sendMetrics`: the name is split at its first dot, the timestamp is cut
to ten characters, the tags are written over the entity's tag, and `client.NewPoint` checks the
result. The pieces are named here; `Handler.Main` runs them in a loop.
-/
namespace InfluxHandler.Handler
open Go KeyedMap Influx Sensu

/-- The measurement and the field key of a metric name. -/
def splitName (name : Bytes) : Bytes × Bytes :=
  let nameField := split name Byte.dot
  (nameField.headD [],
    if 1 < nameField.length then join nameField.tail [Byte.dot] else str "value")

/-- Seconds from a timestamp in an unknown unit: the first ten characters of its text. -/
def cutTimestamp (timestamp : Int64) : Except GoError Int64 :=
  let stringTimestamp := formatInt timestamp
  parseInt (if 10 < stringTimestamp.length then stringTimestamp.take 10 else stringTimestamp)

abbrev entityTag : Bytes := str "sensu_entity_name"

/-- The loop over the tags. It starts from the entity's own tag. -/
def tagMap (entityName : Bytes) (tags : List (Option MetricTag)) : Except Stop (Map Bytes Bytes) :=
  tags.foldlM (fun m tag => do
    let tag ← deref tag
    pure (m.insert tag.name tag.value)) ((∅ : Map Bytes Bytes).insert entityTag entityName)

/-- The arguments of the call to `client.NewPoint`. -/
structure PointArgs where
  name : Bytes
  tags : Map Bytes Bytes
  fields : Fields
  timestamp : Time

def pointArgs (event : Event) (point : Option MetricPoint) : Except Stop PointArgs := do
  let point ← deref point
  let (name, tagKey) := splitName point.name
  let fields := Finmap.singleton tagKey (FieldValue.float64 point.value)
  let t ← check (cutTimestamp point.timestamp)
  let timestamp := Time.unix t 0
  let entity ← deref event.entity
  let tags ← tagMap entity.metadata.name point.tags
  pure ⟨name, tags, fields, timestamp⟩

def convertPoint (rt : Runtime) (event : Event) (point : Option MetricPoint) :
    Except Stop Point := do
  let a ← pointArgs event point
  check (Client.newPoint rt a.name a.tags a.fields [a.timestamp])

/-! ## The name -/

/-- Joining a measurement and a field with a dot is undone, dots inside the field included. -/
theorem splitName_append {m : Bytes} (hm : Byte.dot ∉ m) (f : Bytes) :
    splitName (m ++ Byte.dot :: f) = (m, f) := by
  have parts : split (m ++ Byte.dot :: f) Byte.dot = m :: split f Byte.dot :=
    List.splitOn_append_cons_self_of_not_mem hm f
  have more : 1 < (m :: split f Byte.dot).length := by
    have := List.length_pos_iff.mpr (List.splitOn_ne_nil Byte.dot f)
    simpa [split] using this
  rw [splitName, parts]
  simp only [List.headD_cons, List.tail_cons, if_pos more]
  rw [join, split, List.intercalate_splitOn]

/-- A name without a dot is all measurement. -/
theorem splitName_of_not_mem {name : Bytes} (h : Byte.dot ∉ name) :
    splitName name = (name, str "value") := by
  rw [splitName, split, List.splitOn_eq_singleton h]
  rfl

/-- The two forms of a name. -/
theorem name_cases (name : Bytes) :
    Byte.dot ∉ name ∨ ∃ m f, name = m ++ Byte.dot :: f ∧ Byte.dot ∉ m := by
  by_cases h : Byte.dot ∈ name
  · exact .inr (List.eq_append_cons_of_mem h)
  · exact .inl h

/-- Splitting a name undoes the joining of measurement and field, and joining undoes the splitting.
-/
theorem splitName_join_inverse :
    (∀ m f : Bytes, Byte.dot ∉ m → splitName (m ++ [Byte.dot] ++ f) = (m, f)) ∧
      (∀ name : Bytes, Byte.dot ∈ name → Byte.dot ∉ (splitName name).1 ∧
        (splitName name).1 ++ [Byte.dot] ++ (splitName name).2 = name) ∧
      ∀ name : Bytes, Byte.dot ∉ name → splitName name = (name, str "value") := by
  refine ⟨fun m f hm => ?_, fun name hname => ?_, fun name => splitName_of_not_mem⟩
  · rw [List.append_assoc]
    exact splitName_append hm f
  · obtain ⟨m, f, rfl, hm⟩ := List.eq_append_cons_of_mem hname
    rw [splitName_append hm]
    exact ⟨hm, by simp⟩

theorem splitName_cpu_load : splitName (str "cpu.load.1") = (str "cpu", str "load.1") :=
  splitName_join_inverse.1 (str "cpu") (str "load.1") (by decide)

/-! ## The timestamp -/

/-- The seconds that a timestamp is cut to. -/
def cutSeconds (timestamp : Int64) : Int64 :=
  Int64.ofInt (timestamp.toInt.tdiv (10 ^ ((formatInt timestamp).length - 10)))

theorem cutTimestamp_eq_parseInt_take (t : Int64) :
    cutTimestamp t = parseInt ((formatInt t).take 10) := by
  unfold cutTimestamp
  dsimp only
  split_ifs with h
  · rfl
  · rw [List.take_of_length_le (not_lt.mp h)]

/-- Cutting the text always leaves a number. -/
theorem cutTimestamp_eq (t : Int64) : cutTimestamp t = .ok (cutSeconds t) := by
  rw [cutTimestamp_eq_parseInt_take, parseInt_take_formatInt t (by norm_num)]
  rfl

theorem toInt_cutSeconds (t : Int64) :
    (cutSeconds t).toInt = t.toInt.tdiv (10 ^ ((formatInt t).length - 10)) := by
  have hlo := t.le_toInt
  have hhi := t.toInt_lt
  have small := Nat.div_le_self t.toInt.natAbs (10 ^ ((formatInt t).length - 10))
  unfold cutSeconds
  by_cases neg : t.toInt < 0
  · rw [tdiv_of_neg neg]
    generalize t.toInt.natAbs / 10 ^ ((formatInt t).length - 10) = q at *
    apply Int64.toInt_ofInt_of_le <;> omega
  · rw [tdiv_of_nonneg (not_lt.mp neg)]
    generalize t.toInt.natAbs / 10 ^ ((formatInt t).length - 10) = q at *
    apply Int64.toInt_ofInt_of_le <;> omega

/-- Ten characters hold ten digits, or a sign and nine. -/
theorem tdiv_fits_iff (t : Int64) (k : Nat) :
    -10 ^ 9 < t.toInt.tdiv (10 ^ k) ∧ t.toInt.tdiv (10 ^ k) < 10 ^ 10 ↔
      (formatInt t).length - 10 ≤ k := by
  rw [length_formatInt]
  by_cases neg : t.toInt < 0
  · have digits : t.toInt.natAbs / 10 ^ k < 10 ^ 9 ↔ _ :=
      Numeral.div_pow_lt_iff (by norm_num) (by norm_num) k
    rw [if_pos neg, tdiv_of_neg neg, Nat.add_sub_add_right _ 1 9, ← digits]
    generalize t.toInt.natAbs / 10 ^ k = q
    omega
  · have digits : t.toInt.natAbs / 10 ^ k < 10 ^ 10 ↔ _ :=
      Numeral.div_pow_lt_iff (by norm_num) (by norm_num) k
    rw [if_neg neg, tdiv_of_nonneg (not_lt.mp neg), Nat.add_zero, ← digits]
    generalize t.toInt.natAbs / 10 ^ k = q
    omega

theorem cutSeconds_bounds (t : Int64) :
    -10 ^ 9 < (cutSeconds t).toInt ∧ (cutSeconds t).toInt < 10 ^ 10 := by
  rw [toInt_cutSeconds]
  exact (tdiv_fits_iff t _).mpr le_rfl

/-! ## The tags -/

/-- The name and value of each tag that is there. -/
def tagPairs (tags : List (Option MetricTag)) : List (Bytes × Bytes) :=
  tags.reduceOption.map fun t => (t.name, t.value)

/-- The tag map of a point: its own tags over the entity's. -/
def pointTags (entityName : Bytes) (tags : List (Option MetricTag)) : Map Bytes Bytes :=
  insertAll ((∅ : Map Bytes Bytes).insert entityTag entityName) (tagPairs tags)

theorem mapM_deref {α : Type} [DecidableEq α] (l : List (Option α)) :
    l.mapM deref = if none ∈ l then .error .nilDereference else .ok l.reduceOption := by
  induction l with
  | nil => rfl
  | cons a l ih =>
    cases a with
    | none => rw [Except.mapM_cons_error deref_none, if_pos List.mem_cons_self]
    | some a =>
      rw [Except.mapM_cons_ok (deref_some a), ih]
      by_cases h : none ∈ l
      · rw [if_pos h, if_pos (List.mem_cons_of_mem _ h)]
        rfl
      · rw [if_neg h, if_neg (by simpa using h)]
        rfl

theorem tagMap_eq (entityName : Bytes) (tags : List (Option MetricTag)) :
    tagMap entityName tags =
      if none ∈ tags then .error .nilDereference else .ok (pointTags entityName tags) := by
  have loop := Except.foldlM_push deref (fun m (tag : MetricTag) => m.insert tag.name tag.value)
    tags ((∅ : Map Bytes Bytes).insert entityTag entityName)
  have fill : tags.reduceOption.foldl (fun m tag => m.insert tag.name tag.value)
      ((∅ : Map Bytes Bytes).insert entityTag entityName) = pointTags entityName tags := by
    rw [pointTags, insertAll, tagPairs, List.foldl_map]
  rw [mapM_deref] at loop
  refine loop.trans ?_
  split_ifs
  · rfl
  · exact congrArg Except.ok fill

/-- Each key has the value of the point's last tag of that name; the entity's tag is the default
of its own key. -/
theorem lookup_pointTags (entityName : Bytes) (tags : List (Option MetricTag)) (k : Bytes) :
    (pointTags entityName tags).lookup k =
      (lastValue (tagPairs tags) k).or (if k = entityTag then some entityName else none) := by
  rw [pointTags, lookup_insertAll]
  congr 1
  split_ifs with h
  · rw [h, Finmap.lookup_insert]
  · rw [Finmap.lookup_insert_of_ne _ h, Finmap.lookup_empty]

/-! ## One turn of the loop -/

/-- The call that a point leads to when no pointer is nil. -/
def argsOf (entityName : Bytes) (point : MetricPoint) : PointArgs where
  name := (splitName point.name).1
  tags := pointTags entityName point.tags
  fields := Finmap.singleton (splitName point.name).2 (.float64 point.value)
  timestamp := Time.unix (cutSeconds point.timestamp) 0

def PointArgs.newPoint (rt : Runtime) (a : PointArgs) : Except GoError Point :=
  Client.newPoint rt a.name a.tags a.fields [a.timestamp]

theorem pointArgs_some {event : Event} {entity : Entity} (he : event.entity = some entity)
    (point : MetricPoint) :
    pointArgs event (some point) =
      if none ∈ point.tags then .error .nilDereference
      else .ok (argsOf entity.metadata.name point) := by
  simp only [pointArgs, deref_some, cutTimestamp_eq, check_ok, he, tagMap_eq, Except.ok_bind]
  split_ifs <;> rfl

theorem convertPoint_none (rt : Runtime) (event : Event) :
    convertPoint rt event none = .error .nilDereference := rfl

theorem convertPoint_some {rt : Runtime} {event : Event} {entity : Entity}
    (he : event.entity = some entity) (point : MetricPoint) :
    convertPoint rt event (some point) =
      if none ∈ point.tags then .error .nilDereference
      else check ((argsOf entity.metadata.name point).newPoint rt) := by
  unfold convertPoint
  rw [pointArgs_some he]
  split_ifs
  · rw [Except.error_bind]
  · rw [Except.ok_bind, PointArgs.newPoint]

/-! ## A fixture -/

/-- The metric point of the repository's test fixtures. -/
def fixturePoint : MetricPoint :=
  ⟨str "answer", 42, 1552506033123456789, [some ⟨str "foo", str "bar"⟩]⟩

/-- An event of the test's entity. -/
def fixtureEvent (points : List (Option MetricPoint)) : Event where
  entity := some ⟨str "host", ⟨str "entity1", str "default"⟩⟩
  check := none
  metrics := some ⟨points⟩
  metadata := ⟨[], []⟩

theorem pointArgs_fixtureEvent (points : List (Option MetricPoint)) (p : MetricPoint)
    (htags : none ∉ p.tags) :
    pointArgs (fixtureEvent points) (some p) = .ok (argsOf (str "entity1") p) :=
  (pointArgs_some rfl p).trans (if_neg htags)

/-- Parsers for checks; the fixture has no check. -/
def fixtureParsers : Parsers := ⟨fun _ => .ok (), fun _ => .ok (), fun _ => .ok ()⟩

end InfluxHandler.Handler
