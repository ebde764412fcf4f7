import InfluxHandler.Handler.Delivery
import InfluxHandler.Handler.Order
import InfluxHandler.Influx.Scan
import InfluxHandler.Library.Lines
import InfluxHandler.Sensu.Extract

/-!
# From the agent to the handler

The agent makes metric points of StatsD flushes, and the handler writes them. A StatsD tag without a
value is not written (`statsd_bare_tags`).
-/
namespace InfluxHandler.Handler
open Go KeyedMap Influx Sensu Lines

/-! ## StatsD tags -/

/-- The tags key without the tags that have no value. -/
def keepValued (tagsKey : Bytes) : Bytes :=
  join ((split tagsKey Byte.comma).filter fun tag => (tagValues tag).isSome) [Byte.comma]

/-- The pairs of the tags that have a value. -/
def valuedTags (tags : List Bytes) : List (Bytes × Bytes) := tags.filterMap tagValues

theorem tagValues_nil : tagValues [] = none := rfl

/-- Beside the tags with a value there are only copies of them, each behind its original, and copies
of the tag that the loop starts with. -/
theorem lastValue_composeTags (last : Bytes × Bytes) (tags : List Bytes) (k : Bytes) :
    lastValue (tagPairs ((composeTags last tags).map some)) k = lastValue (valuedTags tags) k ∨
      lastValue (valuedTags tags) k = none ∧ k = last.1 ∧
        lastValue (tagPairs ((composeTags last tags).map some)) k = some last.2 := by
  induction tags generalizing last with
  | nil => exact .inl rfl
  | cons tag tags ih =>
    cases hv : tagValues tag with
    | some pair =>
      have there : tag ≠ [] := by
        rintro rfl
        cases hv
      have composed : tagPairs ((composeTags last (tag :: tags)).map some) =
          pair :: tagPairs ((composeTags pair tags).map some) := by
        simp [composeTags, hv, there, tagPairs_eq_filterMap]
      have valued : valuedTags (tag :: tags) = pair :: valuedTags tags := by
        simp [valuedTags, hv]
      left
      rw [composed, valued, lastValue_cons, lastValue_cons]
      rcases ih pair with same | ⟨absent, rfl, copy⟩
      · rw [same]
      · rw [absent, copy, if_pos rfl]
        rfl
    | none =>
      have valued : valuedTags (tag :: tags) = valuedTags tags := by
        simp [valuedTags, hv]
      rw [valued]
      by_cases empty : tag = []
      · have composed : composeTags last (tag :: tags) = composeTags last tags := by
          simp [composeTags, tagValues_nil, empty]
        rw [composed]
        exact ih last
      · have composed : tagPairs ((composeTags last (tag :: tags)).map some) =
            last :: tagPairs ((composeTags last tags).map some) := by
          simp [composeTags, hv, empty, tagPairs_eq_filterMap]
        rw [composed, lastValue_cons]
        rcases ih last with same | ⟨absent, rfl, copy⟩
        · rw [same]
          by_cases hk : last.1 = k <;> cases hl : lastValue (valuedTags tags) k <;> simp [hk]
        · rw [copy]
          exact .inr ⟨absent, rfl, rfl⟩

/-- With values only, the loop finds the pairs. -/
theorem composeTags_of_valued {tags : List Bytes} (h : ∀ tag ∈ tags, (tagValues tag).isSome)
    (last : Bytes × Bytes) :
    composeTags last tags = (valuedTags tags).map fun t => ⟨t.1, t.2⟩ := by
  induction tags generalizing last with
  | nil => rfl
  | cons tag tags ih =>
    obtain ⟨first, others⟩ := List.forall_mem_cons.mp h
    obtain ⟨pair, hv⟩ := Option.isSome_iff_exists.mp first
    have there : tag ≠ [] := by
      rintro rfl
      cases hv
    simp [composeTags, valuedTags, hv, there, ih others]

theorem composeMetricTags_keepValued (tagsKey : Bytes) :
    composeMetricTags (keepValued tagsKey) =
      (valuedTags (split tagsKey Byte.comma)).map fun t => some ⟨t.1, t.2⟩ := by
  have kept : valuedTags ((split tagsKey Byte.comma).filter fun tag => (tagValues tag).isSome) =
      valuedTags (split tagsKey Byte.comma) := by
    rw [valuedTags, valuedTags, List.filterMap_filter]
    refine List.filterMap_congr fun tag _ => ?_
    cases tagValues tag <;> rfl
  rw [← kept, composeMetricTags, keepValued]
  generalize hf : (split tagsKey Byte.comma).filter (fun tag => (tagValues tag).isSome) = tags
  have valued : ∀ tag ∈ tags, (tagValues tag).isSome := by
    intro tag ht
    rw [← hf] at ht
    exact (List.mem_filter.mp ht).2
  cases tags with
  | nil => rfl
  | cons tag tags =>
    have pieces : split (join (tag :: tags) [Byte.comma]) Byte.comma = tag :: tags := by
      refine List.splitOn_intercalate _ (fun piece hp => ?_) (List.cons_ne_nil _ _)
      rw [← hf] at hp
      exact not_mem_of_mem_splitOn (List.mem_of_mem_filter hp)
    rw [pieces, composeTags_of_valued valued, List.map_map]
    rfl

/-- The key of a series does not show tags without a value. -/
theorem makeKey_newTags_congr (rt : Runtime) (name : Bytes) {m m' : Map Bytes Bytes}
    (h : ∀ k v, v ≠ [] → (m.lookup k = some v ↔ m'.lookup k = some v)) :
    makeKey name (newTags rt m) = makeKey name (newTags rt m') := by
  have same := filter_eq_of_sorted (fun _ _ => List.le_antisymm) (enumerates_newTags rt m)
    (enumerates_newTags rt m') (sorted_newTags rt m) (sorted_newTags rt m')
    (q := fun v => decide (v ≠ [])) (fun k v hv => h k v (of_decide_eq_true hv))
  rw [List.filter_map, List.filter_map] at same
  have tags := Tag.entry_injective.list_map same
  rw [makeKey_eq_wireKey, makeKey_eq_wireKey]
  exact congrArg _ tags

theorem seriesKey_keepValued (rt : Runtime) (entityName name : Bytes) (value : Float)
    (timestamp : Int64) (tagsKey : Bytes) :
    seriesKey rt entityName ⟨name, value, timestamp, composeMetricTags tagsKey⟩ =
      seriesKey rt entityName ⟨name, value, timestamp, composeMetricTags (keepValued tagsKey)⟩ := by
  refine makeKey_newTags_congr rt _ fun k v hv => ?_
  have pairs : tagPairs (composeMetricTags (keepValued tagsKey)) =
      valuedTags (split tagsKey Byte.comma) := by
    rw [composeMetricTags_keepValued]
    simp [tagPairs_eq_filterMap, List.filterMap_map]
  rw [lookup_pointTags, lookup_pointTags, pairs, composeMetricTags]
  rcases lastValue_composeTags ([], []) (split tagsKey Byte.comma) k with same | ⟨absent, rfl, copy⟩
  · rw [same]
  · -- a copy of the empty tag has no value, and is not the entity's
    rw [absent, copy]
    have other : ([] : Bytes) ≠ entityTag := by decide
    simp [other, Ne.symm hv]

/-! ## StatsD flushes -/

/-- Points that the handler cannot tell apart. -/
def ConvertedAlike (point point' : Option MetricPoint) : Prop :=
  ∀ rt event, convertPoint rt event point = convertPoint rt event point'

theorem not_mem_composeMetricTags (tagsKey : Bytes) : none ∉ composeMetricTags tagsKey := by
  simp [composeMetricTags]

theorem convertedAlike_keepValued (name : Bytes) (value : Float) (timestamp : Int64)
    (tagsKey : Bytes) :
    ConvertedAlike (some ⟨name, value, timestamp, composeMetricTags tagsKey⟩)
      (some ⟨name, value, timestamp, composeMetricTags (keepValued tagsKey)⟩) := by
  intro rt event
  rcases he : event.entity with _ | entity
  · simp [convertPoint, pointArgs, he, cutTimestamp_eq]
  · rw [convertPoint_some he, convertPoint_some he, if_neg (not_mem_composeMetricTags _),
      if_neg (not_mem_composeMetricTags _), newPoint_argsOf, newPoint_argsOf, pointOf, pointOf,
      seriesKey_keepValued]

theorem composePoints_keepValued (key tagsKey : Bytes) (now : Int64)
    (values : List (Bytes × Float)) :
    List.Forall₂ ConvertedAlike (composePoints key (composeMetricTags tagsKey) now values)
      (composePoints key (composeMetricTags (keepValued tagsKey)) now values) := by
  rw [composePoints, composePoints, List.forall₂_map_left_iff, List.forall₂_map_right_iff,
    List.forall₂_same]
  exact fun v _ => convertedAlike_keepValued _ _ _ _

/-- The entries of a flush without the tags that have no value. -/
def keepValuedEntries {α : Type} (entries : Entries α) : Entries α :=
  entries.map fun e => (e.1, keepValued e.2.1, e.2.2)

def keepValuedMap (metrics : MetricMap) : MetricMap where
  counters := keepValuedEntries metrics.counters
  timers := keepValuedEntries metrics.timers
  gauges := keepValuedEntries metrics.gauges
  sets := keepValuedEntries metrics.sets

theorem eachPoints_keepValued {α : Type}
    {compose : α → Bytes → List (Option MetricTag) → Int64 → List (Option MetricPoint)}
    (h : ∀ a key tagsKey now, List.Forall₂ ConvertedAlike
      (compose a key (composeMetricTags tagsKey) now)
      (compose a key (composeMetricTags (keepValued tagsKey)) now))
    (now : Int64) (entries : Entries α) :
    List.Forall₂ ConvertedAlike (eachPoints compose now entries)
      (eachPoints compose now (keepValuedEntries entries)) := by
  induction entries with
  | nil => exact .nil
  | cons e entries ih => exact List.rel_append (h _ _ _ _) ih

theorem prepareMetrics_keepValued (now : Int64) (metrics : MetricMap) :
    List.Forall₂ ConvertedAlike (prepareMetrics now metrics)
      (prepareMetrics now (keepValuedMap metrics)) := by
  refine List.rel_append (List.rel_append (List.rel_append ?_ ?_) ?_) ?_
  all_goals exact eachPoints_keepValued (fun _ _ _ _ => composePoints_keepValued _ _ _ _) _ _

/-- A StatsD tag that is a word without a value never reaches the database: whatever is sent for a
flush is what is sent for the same flush without such tags. -/
theorem statsd_bare_tags (rt : Runtime) (w : World) (cfg : Config) (event : Event) (now : Int64)
    (metrics : MetricMap) :
    sendMetrics rt w cfg { event with metrics := some ⟨prepareMetrics now metrics⟩ } =
      sendMetrics rt w cfg
        { event with metrics := some ⟨prepareMetrics now (keepValuedMap metrics)⟩ } := by
  refine sendMetrics_congr w cfg rfl rfl (Except.mapM_eq_of_forall₂ ?_)
  exact (prepareMetrics_keepValued now metrics).imp fun point point' alike => alike rt _

end InfluxHandler.Handler
