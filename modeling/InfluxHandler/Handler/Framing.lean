import InfluxHandler.Handler.Main
import InfluxHandler.Handler.Accept
import InfluxHandler.Library.Lines

/-!
# One line for each point

The body of the request is read line by line. Names and tags are arbitrary bytes, and escaping
treats neither a newline nor a leading `#`; an empty measurement leaves the comma of the first tag
at the start of the line. `postedBody_framed_iff` says for which points the lines of the body are
the lines of the points.
-/
namespace InfluxHandler.Handler
open Go KeyedMap Influx Sensu Lines

/-- The first byte of the line is neither the comma of a tag nor the sign of a comment. A line whose
key is empty starts with a blank and is accepted here. -/
def StartsWithMeasurement (line : Bytes) : Prop :=
  ∃ c, line.head? = some c ∧ c ≠ Byte.comma ∧ c ≠ Byte.hash

theorem startsWithMeasurement_iff {line : Bytes} {c : UInt8} (h : line.head? = some c) :
    StartsWithMeasurement line ↔ c ≠ Byte.comma ∧ c ≠ Byte.hash := by
  simp [StartsWithMeasurement, h]

/-- A body of `n` points has `n` newlines, and every line starts as `StartsWithMeasurement` asks. -/
def Framed (n : Nat) (body : Bytes) : Prop :=
  body.count Byte.newline = n ∧ ∀ line ∈ lines Byte.newline body, StartsWithMeasurement line

/-- The points that are written on one line of their own. A tag counts if it is the last of its name
and has a value; others are not written. -/
def WellFramed (p : MetricPoint) : Prop :=
  (Byte.newline ∉ p.name ∧
    ∀ k v, lastValue (tagPairs p.tags) k = some v → v ≠ [] → Byte.newline ∉ k ∧ Byte.newline ∉ v) ∧
  p.name.head? ≠ some Byte.hash ∧
  (p.name ≠ [] ∧ p.name.head? ≠ some Byte.dot ∨
    lastValue (tagPairs p.tags) entityTag ≠ none ∧
      ∀ k v, lastValue (tagPairs p.tags) k = some v → v = [])

/-! ## The name in the line -/

theorem mem_name_iff {a : UInt8} (hd : a ≠ Byte.dot) (hv : a ∉ str "value") (name : Bytes) :
    a ∈ name ↔ a ∈ (splitName name).1 ∨ a ∈ (splitName name).2 := by
  rcases name_cases name with h | ⟨m, f, rfl, hm⟩
  · simp [splitName_of_not_mem h, hv]
  · simp [splitName_append hm, hd]

theorem measurement_ne_nil_iff (name : Bytes) :
    (splitName name).1 ≠ [] ↔ name ≠ [] ∧ name.head? ≠ some Byte.dot := by
  rcases name_cases name with h | ⟨m, f, rfl, hm⟩
  · rw [splitName_of_not_mem h]
    have : name.head? ≠ some Byte.dot := fun hh => h (List.mem_of_mem_head? hh)
    simp [this]
  · rw [splitName_append hm]
    cases m with
    | nil => simp
    | cons c m =>
      have : c ≠ Byte.dot := fun h => hm (h ▸ List.mem_cons_self)
      simp [this]

theorem head?_measurement_eq_hash_iff (name : Bytes) :
    (splitName name).1.head? = some Byte.hash ↔ name.head? = some Byte.hash := by
  rcases name_cases name with h | ⟨m, f, rfl, hm⟩
  · rw [splitName_of_not_mem h]
  · rw [splitName_append hm]
    have : Byte.dot ≠ Byte.hash := by decide
    cases m <;> simp [this]

/-! ## The line of a point -/

section
variable {rt : Runtime} {entityName : Bytes} {p : MetricPoint}

/-- The tags of a point that are considered for its key: its own, and the entity's by default. -/
theorem forall_newTags_iff {P : Bytes → Bytes → Prop} :
    (∀ t ∈ newTags rt (pointTags entityName p.tags), P t.key t.value) ↔
      (∀ k v, lastValue (tagPairs p.tags) k = some v → P k v) ∧
        (lastValue (tagPairs p.tags) entityTag = none → P entityTag entityName) := by
  have entries : (∀ t ∈ newTags rt (pointTags entityName p.tags), P t.key t.value) ↔
      ∀ k v, (pointTags entityName p.tags).lookup k = some v → P k v := by
    constructor
    · intro h k v hk
      exact h ⟨k, v⟩ (mem_newTags.mpr hk)
    · intro h t ht
      exact h t.key t.value (mem_newTags.mp ht)
  simp only [entries, lookup_pointTags]
  constructor
  · intro h
    refine ⟨fun k v hk => h k v ?_, fun hnone => h _ _ ?_⟩
    · rw [hk, Option.some_or]
    · rw [hnone, if_pos rfl, Option.none_or]
  · rintro ⟨own, default⟩ k v hk
    rcases ho : lastValue (tagPairs p.tags) k with _ | w
    · rw [ho, Option.none_or] at hk
      split_ifs at hk with he
      cases hk
      exact he ▸ default (he ▸ ho)
    · rw [ho, Option.some_or] at hk
      exact own k v (ho.trans hk)

variable (hname : validateName entityName = .ok ())
include hname

/-- A newline in the line comes from the name or from a tag that is written. -/
theorem newline_not_mem_line_iff (precision : Bytes) :
    Byte.newline ∉ (pointOf rt entityName p).precisionString precision ↔
      Byte.newline ∉ p.name ∧ ∀ k v, lastValue (tagPairs p.tags) k = some v → v ≠ [] →
        Byte.newline ∉ k ∧ Byte.newline ∉ v := by
  have entity := newline_not_mem_of_validateName hname
  have key : Byte.newline ∉ seriesKey rt entityName p ↔ Byte.newline ∉ (splitName p.name).1 ∧
      ∀ k v, lastValue (tagPairs p.tags) k = some v → v ≠ [] →
        Byte.newline ∉ k ∧ Byte.newline ∉ v := by
    rw [seriesKey, mem_makeKey_iff (by decide), not_or]
    apply and_congr_right'
    have own : (∀ t ∈ newTags rt (pointTags entityName p.tags),
        t.value ≠ [] → Byte.newline ∉ t.key ∧ Byte.newline ∉ t.value) ↔ _ :=
      forall_newTags_iff (P := fun k v => v ≠ [] → Byte.newline ∉ k ∧ Byte.newline ∉ v)
    have default : lastValue (tagPairs p.tags) entityTag = none →
        entityName ≠ [] → Byte.newline ∉ entityTag ∧ Byte.newline ∉ entityName :=
      fun _ _ => ⟨by decide, entity⟩
    simp only [not_exists, not_and, not_or]
    exact own.trans (and_iff_left default)
  have space : Byte.newline ≠ Byte.space := by decide
  have name := mem_name_iff (a := Byte.newline) (by decide) (by decide) p.name
  rw [precisionString_pointOf, name]
  simp only [List.mem_append, List.mem_cons, space, newline_not_mem_formatInt, or_false, false_or,
    not_or, newline_mem_appendField_iff, key]
  exact and_right_comm

/-- How the line starts. -/
theorem startsWithMeasurement_line_iff (precision : Bytes) :
    StartsWithMeasurement ((pointOf rt entityName p).precisionString precision) ↔
      p.name.head? ≠ some Byte.hash ∧
        (p.name ≠ [] ∧ p.name.head? ≠ some Byte.dot ∨
          lastValue (tagPairs p.tags) entityTag ≠ none ∧
            ∀ k v, lastValue (tagPairs p.tags) k = some v → v = []) := by
  obtain ⟨rest, line⟩ : ∃ rest, (pointOf rt entityName p).precisionString precision =
      seriesKey rt entityName p ++ Byte.space :: rest := ⟨_, precisionString_pointOf ..⟩
  have start : ∀ c, (seriesKey rt entityName p).head? = some c →
      ((pointOf rt entityName p).precisionString precision).head? = some c := by
    intro c h
    rw [line, List.head?_append, h, Option.some_or]
  refine Iff.trans ?_ (and_congr (not_congr (head?_measurement_eq_hash_iff p.name))
    (or_congr_left (measurement_ne_nil_iff p.name)))
  by_cases hm : (splitName p.name).1 = []
  · -- without a measurement the key is empty or starts with the comma of a tag
    have tags : (∀ t ∈ newTags rt (pointTags entityName p.tags), t.value = []) ↔
        lastValue (tagPairs p.tags) entityTag ≠ none ∧
          ∀ k v, lastValue (tagPairs p.tags) k = some v → v = [] := by
      refine (forall_newTags_iff (P := fun _ v => v = [])).trans ⟨?_, ?_⟩
      · rintro ⟨own, default⟩
        exact ⟨fun h => (validateName_eq_ok_iff.mp hname).1 (default h), own⟩
      · rintro ⟨overridden, own⟩
        exact ⟨own, fun h => absurd h overridden⟩
    have key : seriesKey rt entityName p =
        (newTags rt (pointTags entityName p.tags)).flatMap tagPart := by
      rw [seriesKey, hm, makeKey_nil]
    rw [hm, ← tags]
    rcases head?_flatMap_tagPart (newTags rt (pointTags entityName p.tags)) with
      ⟨comma, t, ht, hv⟩ | ⟨empty, all⟩
    · rw [startsWithMeasurement_iff (start _ (key ▸ comma))]
      have : ¬ ∀ t ∈ newTags rt (pointTags entityName p.tags), t.value = [] := fun h => hv (h t ht)
      simp [this]
    · have space :
          ((pointOf rt entityName p).precisionString precision).head? = some Byte.space := by
        rw [line, key, empty]
        rfl
      rw [startsWithMeasurement_iff space]
      exact ⟨fun _ => ⟨by simp, .inr all⟩, fun _ => by decide⟩
  · -- the first byte is that of the escaped measurement, which is no comma
    have key := head?_makeKey_of_ne_nil hm (newTags rt (pointTags entityName p.tags))
    obtain ⟨c, hc⟩ := Option.ne_none_iff_exists'.mp
      (mt List.head?_eq_none_iff.mp (mt (measurement_eq_nil_iff _).mp hm))
    have comma : c ≠ Byte.comma := fun h => head?_escapeMeasurement_ne_comma _ (h ▸ hc)
    have hash : (splitName p.name).1.head? = some Byte.hash ↔ c = Byte.hash := by
      rw [← head?_measurement_iff (by decide), hc, Option.some.injEq]
    rw [startsWithMeasurement_iff (start c (key.trans hc)), hash]
    simp [comma, hm]

/-- A point is on one line of its own exactly when it is well framed. -/
theorem wellFramed_line_iff (precision : Bytes) :
    Byte.newline ∉ (pointOf rt entityName p).precisionString precision ∧
        StartsWithMeasurement ((pointOf rt entityName p).precisionString precision) ↔
      WellFramed p := by
  rw [newline_not_mem_line_iff hname, startsWithMeasurement_line_iff hname, WellFramed]

end

/-! ## The body -/

theorem body_eq_unlines (bp : BatchPoints) (pts : List Point) :
    BatchPoints.body { bp with points := pts.map some } =
      unlines Byte.newline (pts.map (·.precisionString bp.precision)) := by
  rw [BatchPoints.body_map_some, unlines, List.flatMap_map]

theorem framed_body_iff {rt : Runtime} {entityName : Bytes}
    (hname : validateName entityName = .ok ()) (bp : BatchPoints) (ps : List MetricPoint) :
    Framed ps.length (BatchPoints.body
        { bp with points := (ps.map (pointOf rt entityName)).map some }) ↔
      ∀ p ∈ ps, WellFramed p := by
  have count : ps.length =
      ((ps.map (pointOf rt entityName)).map (·.precisionString bp.precision)).length := by
    rw [List.length_map, List.length_map]
  rw [body_eq_unlines, Framed, count, framed_iff, List.forall_mem_map, List.forall_mem_map]
  exact forall₂_congr fun p _ => wellFramed_line_iff hname bp.precision

/-- The posted body of a valid event has one line for each metric point, starting with a
measurement, exactly when all its points are well framed. -/
theorem postedBody_framed_iff {rt : Runtime} {parsers : Parsers} {w : World} {cfg : Config}
    {event : Event} {metrics : Metrics} (hv : event.validate parsers = .ok ())
    (hm : event.metrics = some metrics) {bp : BatchPoints}
    (hw : bp ∈ writes (sendMetrics rt w cfg event)) :
    (∀ b ∈ postedBodies (sendMetrics rt w cfg event), b = bp.body) ∧
      (Framed metrics.points.length bp.body ↔ ∀ p, some p ∈ metrics.points → WellFramed p) := by
  obtain ⟨entity, he, hname⟩ := Event.entity_of_validate hv
  obtain ⟨c, bp₀, pts, -, converted, hbp, send⟩ := of_mem_writes_sendMetrics hm hw
  obtain ⟨ps, points, -, hpts⟩ := (mapM_convertPoint_eq_ok_iff he).mp converted
  constructor
  · intro b hb
    rw [send] at hb
    exact Client.postedBodies_write hb
  · rw [hbp, hpts, points, List.length_map, framed_body_iff hname]
    simp

theorem fixture_framed :
    ∃ bp ∈ writes (sendMetrics .ordered fixtureWorld fixtureConfig
        (fixtureEvent [some fixturePoint])), Framed 1 bp.body := by
  have written : (⟨[some (pointOf .ordered (str "entity1") fixturePoint)], str "foo", str "s", [],
      []⟩ : BatchPoints) ∈ writes (sendMetrics .ordered fixtureWorld fixtureConfig
        (fixtureEvent [some fixturePoint])) := by decide +kernel
  have valid : (fixtureEvent [some fixturePoint]).validate fixtureParsers = .ok () := by decide
  refine ⟨_, written, (postedBody_framed_iff valid rfl written).2.mpr ?_⟩
  intro p hp
  obtain rfl : p = fixturePoint := by simpa [fixtureEvent] using hp
  refine ⟨⟨by decide, fun k v hk _ => ?_⟩, by decide, .inl (by decide)⟩
  have mem := mem_of_lastValue_eq_some hk
  have clean : ∀ e ∈ tagPairs fixturePoint.tags, Byte.newline ∉ e.1 ∧ Byte.newline ∉ e.2 := by
    decide
  exact clean _ mem

/-- A tag value with a newline in it. -/
def newlinePoint : MetricPoint :=
  { fixturePoint with tags := [some ⟨str "foo", str "bar\nforged"⟩] }

/-- The body of this one point has two lines, and the second is a point that was never sent:
`forged,sensu_entity_name=entity1 value=42 1552506033`. -/
theorem newlinePoint_injects :
    (fixtureEvent [some newlinePoint]).validate fixtureParsers = .ok () ∧
      ∃ bp ∈ writes (sendMetrics .ordered fixtureWorld fixtureConfig
          (fixtureEvent [some newlinePoint])),
        lines Byte.newline bp.body = [str "answer,foo=bar",
          str "forged,sensu_entity_name=entity1 value=42 1552506033"] ∧ ¬ Framed 1 bp.body := by
  refine ⟨by decide,
    ⟨[some (pointOf .ordered (str "entity1") newlinePoint)], str "foo", str "s", [], []⟩,
    by decide +kernel, by decide +kernel, fun h => absurd h.1 (by decide +kernel)⟩

end InfluxHandler.Handler
