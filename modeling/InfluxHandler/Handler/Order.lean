import InfluxHandler.Handler.Accept
import InfluxHandler.Handler.Main

/-!
# Order does not matter

The tags of a point go through a map whose iteration order is not specified and through a sort that
is not stable. What is written depends on neither (`run_deterministic`), and not on the order of the
tags either (`sendMetrics_reordered`), as long as tags of one name keep theirs: the last of them is
the one that counts.
-/
namespace InfluxHandler.Handler
open Go KeyedMap Influx Sensu

/-- The name of a tag; a nil tag has none. -/
def tagName (tag : Option MetricTag) : Option Bytes := tag.map (·.name)

/-- The same metric point with its tags in another order. -/
structure Reordered (p q : MetricPoint) : Prop where
  name : p.name = q.name
  value : p.value = q.value
  timestamp : p.timestamp = q.timestamp
  tags : StablePerm tagName p.tags q.tags

theorem Reordered.refl (p : MetricPoint) : Reordered p p := ⟨rfl, rfl, rfl, .refl _ _⟩

theorem tagPairs_eq_filterMap (tags : List (Option MetricTag)) :
    tagPairs tags = tags.filterMap fun tag => tag.map fun t => (t.name, t.value) := by
  change (tags.filterMap id).map _ = _
  rw [List.map_filterMap]
  rfl

/-- The tag map sees only the order of tags of one name. -/
theorem pointTags_eq_of_stablePerm (entityName : Bytes) {tags tags' : List (Option MetricTag)}
    (h : StablePerm tagName tags tags') :
    pointTags entityName tags = pointTags entityName tags' := by
  have pairs : StablePerm Prod.fst (tagPairs tags) (tagPairs tags') := by
    rw [tagPairs_eq_filterMap, tagPairs_eq_filterMap]
    refine h.filterMap ?_
    rintro (_ | tag) pair ⟨⟩
    rfl
  apply Finmap.ext_lookup
  intro k
  rw [lookup_pointTags, lookup_pointTags, pairs.lastValue_eq]

section
variable (rt rt' : Runtime) {p q : MetricPoint}

theorem Reordered.seriesKey_eq (h : Reordered p q) (entityName : Bytes) :
    seriesKey rt entityName p = seriesKey rt' entityName q := by
  rw [seriesKey, seriesKey, h.name, pointTags_eq_of_stablePerm entityName h.tags, newTags_eq rt rt']

theorem Reordered.pointOf_eq (h : Reordered p q) (entityName : Bytes) :
    pointOf rt entityName p = pointOf rt' entityName q := by
  rw [pointOf, pointOf, h.seriesKey_eq rt rt', h.name, h.value, h.timestamp]

/-- A turn of the loop ends the same way, in a point, an error or a panic. -/
theorem Reordered.convertPoint_eq (h : Reordered p q) {event event' : Event}
    (he : event.entity = event'.entity) :
    convertPoint rt event (some p) = convertPoint rt' event' (some q) := by
  rcases hentity : event'.entity with _ | entity
  · simp [convertPoint, pointArgs, he, hentity, cutTimestamp_eq]
  · have nils : none ∈ p.tags ↔ none ∈ q.tags := h.tags.perm.mem_iff
    rw [convertPoint_some (he.trans hentity), convertPoint_some hentity, newPoint_argsOf,
      newPoint_argsOf, h.seriesKey_eq rt rt', h.pointOf_eq rt rt', h.name, h.value, h.timestamp]
    simp only [nils]

end

/-! ## The series of a point -/

/-- The series key of a point, and the point itself, depend neither on the order of its tags nor on
the order in which the runtime visits the tag map, nor on how it sorts. -/
theorem series_order_independent (rt rt' : Runtime) (p : MetricPoint)
    {tags : List (Option MetricTag)} (h : StablePerm tagName p.tags tags) :
    (∀ entityName, makeKey (splitName p.name).1 (newTags rt (pointTags entityName p.tags)) =
      makeKey (splitName p.name).1 (newTags rt' (pointTags entityName tags))) ∧
    ∀ event, convertPoint rt event (some p) =
      convertPoint rt' event (some { p with tags := tags }) := by
  have same : Reordered p { p with tags := tags } := ⟨rfl, rfl, rfl, h⟩
  constructor
  · intro entityName
    exact same.seriesKey_eq rt rt' entityName
  · intro event
    exact same.convertPoint_eq rt rt' rfl

/-- A runtime that visits maps by decreasing key. -/
def reversedRuntime : Runtime where
  range m := (Runtime.ordered.range m).reverse
  range_enumerates m := (Runtime.ordered.range_enumerates m).of_perm (List.reverse_perm _)
  sort := Runtime.ordered.sort
  sort_perm := Runtime.ordered.sort_perm
  sort_sorted := Runtime.ordered.sort_sorted

/-- A point with two tags of one name. -/
def repeatedTagPoint : MetricPoint :=
  { fixturePoint with
    tags := [some ⟨str "foo", str "1"⟩, some ⟨str "bar", str "2"⟩, some ⟨str "foo", str "3"⟩] }

theorem repeatedTagPoint_order_independent :
    makeKey (splitName repeatedTagPoint.name).1
        (newTags .ordered (pointTags (str "entity1") repeatedTagPoint.tags)) =
      makeKey (splitName repeatedTagPoint.name).1 (newTags reversedRuntime (pointTags
        (str "entity1") [some ⟨str "bar", str "2"⟩, some ⟨str "foo", str "1"⟩,
          some ⟨str "foo", str "3"⟩])) ∧
    seriesKey .ordered (str "entity1") repeatedTagPoint =
      str "answer,bar=2,foo=3,sensu_entity_name=entity1" := by
  constructor
  · exact (series_order_independent .ordered reversedRuntime repeatedTagPoint
      (.swap (by decide) _)).1 (str "entity1")
  · decide +kernel

/-! ## The whole run -/

theorem convertPoint_runtime (rt rt' : Runtime) : convertPoint rt = convertPoint rt' := by
  funext event point
  cases point with
  | none => rfl
  | some p => exact (Reordered.refl p).convertPoint_eq rt rt' rfl

/-- A run does the same under every runtime. -/
theorem run_deterministic (rt rt' : Runtime) : run rt = run rt' := by
  unfold run sendMetrics
  rw [convertPoint_runtime rt rt']

/-- Nothing but the converted points matters. -/
theorem sendMetrics_congr {rt rt' : Runtime} (w : World) (cfg : Config) {event event' : Event}
    {metrics metrics' : Metrics} (hm : event.metrics = some metrics)
    (hm' : event'.metrics = some metrics')
    (h : metrics.points.mapM (convertPoint rt event) =
      metrics'.points.mapM (convertPoint rt' event')) :
    sendMetrics rt w cfg event = sendMetrics rt' w cfg event' := by
  by_cases ready : ∃ c bp, Ready w cfg c bp
  · obtain ⟨c, bp, ready⟩ := ready
    rw [sendMetrics_eq rt ready hm, sendMetrics_eq rt' ready hm', h]
  · obtain ⟨e, stop⟩ := sendMetrics_not_ready ready
    rw [stop, stop]

/-- Events whose points differ in the order of their tags are sent alike. -/
theorem sendMetrics_reordered (rt rt' : Runtime) (w : World) (cfg : Config) {event event' : Event}
    {metrics metrics' : Metrics} (he : event.entity = event'.entity)
    (hm : event.metrics = some metrics) (hm' : event'.metrics = some metrics')
    (h : List.Forall₂ (Option.Rel Reordered) metrics.points metrics'.points) :
    sendMetrics rt w cfg event = sendMetrics rt' w cfg event' := by
  refine sendMetrics_congr w cfg hm hm' (Except.mapM_eq_of_forall₂ (h.imp ?_))
  intro point point' same
  cases same with
  | none => rfl
  | some same => exact same.convertPoint_eq rt rt' he

end InfluxHandler.Handler
