import InfluxHandler.Handler.Agent
import InfluxHandler.Handler.Cut
import InfluxHandler.Handler.Framing
import InfluxHandler.Handler.Timestamp

/-!
# What is written once is written again

A body in seconds that the handler has posted, printed by a check and read by an agent in the
InfluxDB line format, makes a second handler post the same body (`relay_posts_again`). Agent and
handler agree on the lines as long as no text in them needs to be escaped: the agent splits at every
comma, blank and equals sign.
-/
namespace InfluxHandler.Handler
open Go KeyedMap Influx Sensu Lines Escape

/-! ## Texts that stand for themselves -/

/-- The bytes that the handler escapes or the agent splits at. -/
def marks : Bytes :=
  [Byte.comma, Byte.equals, Byte.space, Byte.newline, Byte.backslash, Byte.quote]

def Unmarked (s : Bytes) : Prop := s ≠ [] ∧ ∀ c ∈ marks, c ∉ s

instance (s : Bytes) : Decidable (Unmarked s) := inferInstanceAs (Decidable (_ ∧ _))

theorem Unmarked.measurement {s : Bytes} (h : Unmarked s) :
    escapeMeasurement (unescapeMeasurement s) = s := by
  rw [unescapeMeasurement_eq_self (h.2 Byte.backslash (by decide))]
  exact escapeWith_eq_self fun c hc => h.2 c.k (by revert c; decide)

theorem Unmarked.tag {s : Bytes} (h : Unmarked s) : escapeTag s = s :=
  escapeWith_eq_self fun c hc => h.2 c.k (by revert c; decide)

theorem Unmarked.field {s : Bytes} (h : Unmarked s) : escapeString s = s := by
  rw [escapeString_eq]
  refine escape_eq_self fun c hc => h.2 c ?_
  revert c
  decide +kernel

/-- A byte that is trimmed from no end of a text. -/
def VisibleByte (c : UInt8) : Prop := 33 ≤ c ∧ c < 128

instance (c : UInt8) : Decidable (VisibleByte c) := inferInstanceAs (Decidable (_ ∧ _))

/-- The handler's points that an agent reads as they are meant. -/
structure Relayable (parseFloat : Bytes → Except GoError Float) (entityName : Bytes)
    (p : MetricPoint) : Prop where
  measurement : Unmarked (splitName p.name).1
  /-- The output of a check is trimmed. -/
  visible : ∀ c ∈ (splitName p.name).1.head?, VisibleByte c
  field : Unmarked (splitName p.name).2
  tags : ∀ k v, (pointTags entityName p.tags).lookup k = some v → Unmarked k ∧ Unmarked v
  value : parseFloat (formatFloat p.value) = .ok p.value

/-- The point that the agent makes of the line of a point. -/
def relayed (rt : Runtime) (entityName : Bytes) (p : MetricPoint) : MetricPoint where
  name := (splitName p.name).1 ++ [Byte.dot] ++ (splitName p.name).2
  value := p.value
  timestamp := cutSeconds p.timestamp
  tags := (newTags rt (pointTags entityName p.tags)).map fun t => some ⟨t.key, t.value⟩

/-! ## The line -/

/-- The tag as it stands in a line. -/
def tagWord (t : Tag) : Bytes := t.key ++ Byte.equals :: t.value

section
variable {rt : Runtime} {parseFloat : Bytes → Except GoError Float} {entityName : Bytes}
  {p : MetricPoint} (h : Relayable parseFloat entityName p)
include h

theorem Relayable.unmarked_tag {t : Tag} (ht : t ∈ newTags rt (pointTags entityName p.tags)) :
    Unmarked t.key ∧ Unmarked t.value := h.tags _ _ (mem_newTags.mp ht)

theorem Relayable.seriesKey_eq :
    seriesKey rt entityName p = join ((splitName p.name).1 ::
      (newTags rt (pointTags entityName p.tags)).map tagWord) [Byte.comma] := by
  have parts : (newTags rt (pointTags entityName p.tags)).flatMap tagPart =
      ((newTags rt (pointTags entityName p.tags)).map tagWord).flatMap (Byte.comma :: ·) := by
    rw [List.flatMap_map]
    refine List.flatMap_congr fun t ht => ?_
    obtain ⟨key, value⟩ := h.unmarked_tag ht
    rw [tagPart, if_neg value.1, key.tag, value.tag]
    rfl
  rw [seriesKey, makeKey_eq, h.measurement.measurement, parts, join, intercalate_cons]

/-- The three words of the line. -/
theorem Relayable.precisionString_eq (accepted : ¬ Refused rt entityName p) :
    (pointOf rt entityName p).precisionString (str "s") =
      join [seriesKey rt entityName p, (splitName p.name).2 ++ Byte.equals :: formatFloat p.value,
        formatInt (cutSeconds p.timestamp)] [Byte.space] := by
  have bounds := cutSeconds_bounds p.timestamp
  have mult : getPrecisionMultiplier (str "s") = 1000000000 := by decide
  have second : (Time.unix (cutSeconds p.timestamp) 0).unixNano / 1000000000 =
      cutSeconds p.timestamp := by
    have back := (safeCalcTime_unixNano bounds.1 (cutSeconds_le_of_not_refused accepted) (str "s")
      mult rfl).1
    rw [← Int64.toInt_inj, back]
    exact Int.mul_tdiv_cancel _ (by decide)
  have field : appendField [] (splitName p.name).2 (.float64 p.value) =
      (splitName p.name).2 ++ Byte.equals :: formatFloat p.value := by
    simp [appendField, formatFieldValue, h.field.field]
  have time : (pointOf rt entityName p).time = Time.unix (cutSeconds p.timestamp) 0 := rfl
  rw [precisionString_pointOf, mult, time, second, field, join, intercalate_cons]
  simp

omit h in
theorem not_mem_formatFloat {c : UInt8} (hc : c ∉ floatBytes) (v : Float) : c ∉ formatFloat v :=
  fun mem => hc (mem_formatUnpacked mem)

omit h in
theorem not_mem_formatInt {c : UInt8} (hd : isDigit c = false) (hm : c ≠ Byte.minus) (i : Int64) :
    c ∉ formatInt i := by
  intro mem
  rcases isDigit_or_minus_of_mem_formatInt mem with digit | minus
  · rw [hd] at digit
    cases digit
  · exact hm minus

variable (rt) in
/-- The bytes that separate words and lines are not in the words. -/
theorem Relayable.not_mem_words {c : UInt8} (hc : c = Byte.space ∨ c = Byte.newline) :
    ∀ word ∈ [seriesKey rt entityName p, (splitName p.name).2 ++ Byte.equals :: formatFloat p.value,
      formatInt (cutSeconds p.timestamp)], c ∉ word := by
  have facts : c ∈ marks ∧ c ≠ Byte.comma ∧ c ≠ Byte.equals ∧ c ∉ floatBytes ∧ isDigit c = false ∧
      c ≠ Byte.minus := by
    rcases hc with rfl | rfl <;> decide
  obtain ⟨marked, comma, equals, float, digit, minus⟩ := facts
  simp only [List.forall_mem_cons, List.not_mem_nil, false_imp_iff, implies_true, and_true]
  refine ⟨?_, ?_, not_mem_formatInt digit minus _⟩
  · rw [h.seriesKey_eq]
    refine not_mem_intercalate comma (List.forall_mem_cons.mpr ⟨h.measurement.2 c marked, ?_⟩)
    intro word hw
    obtain ⟨t, ht, rfl⟩ := List.mem_map.mp hw
    obtain ⟨key, value⟩ := h.unmarked_tag ht
    simp [tagWord, equals, key.2 c marked, value.2 c marked]
  · simp [equals, h.field.2 c marked, not_mem_formatFloat float]

omit h in
theorem split_word {s t : Bytes} (hs : Byte.equals ∉ s) (ht : Byte.equals ∉ t) :
    split (s ++ Byte.equals :: t) Byte.equals = [s, t] := by
  rw [split, List.splitOn_append_cons_self_of_not_mem hs, List.splitOn_eq_singleton ht]

/-- The agent reads the line. -/
theorem Relayable.parseLine_eq (accepted : ¬ Refused rt entityName p) (now : Int64) :
    parseLine parseFloat now ((pointOf rt entityName p).precisionString (str "s")) =
      some ⟨(splitName p.name).1,
        (newTags rt (pointTags entityName p.tags)).map fun t => ⟨t.key, t.value⟩,
        [⟨(splitName p.name).2, p.value⟩], cutSeconds p.timestamp⟩ := by
  have distinct : Byte.comma ≠ Byte.equals := by decide
  have words := List.splitOn_intercalate Byte.space (h.not_mem_words rt (.inl rfl))
    (List.cons_ne_nil _ _)
  have key : split (seriesKey rt entityName p) Byte.comma = (splitName p.name).1 ::
      (newTags rt (pointTags entityName p.tags)).map tagWord := by
    rw [h.seriesKey_eq]
    refine List.splitOn_intercalate _ (List.forall_mem_cons.mpr ⟨h.measurement.2 _ (by decide), ?_⟩)
      (List.cons_ne_nil _ _)
    intro word hw
    obtain ⟨t, ht, rfl⟩ := List.mem_map.mp hw
    obtain ⟨key, value⟩ := h.unmarked_tag ht
    simp [tagWord, distinct, key.2 Byte.comma (by decide), value.2 Byte.comma (by decide)]
  have tags : ((newTags rt (pointTags entityName p.tags)).map tagWord).mapM parseTag =
      some ((newTags rt (pointTags entityName p.tags)).map fun t => ⟨t.key, t.value⟩) := by
    rw [List.mapM_map]
    refine Option.mapM_eq_some fun t ht => ?_
    obtain ⟨key, value⟩ := h.unmarked_tag ht
    change parseTag (t.key ++ Byte.equals :: t.value) = _
    rw [parseTag, split_word (key.2 _ (by decide)) (value.2 _ (by decide))]
  have one : split ((splitName p.name).2 ++ Byte.equals :: formatFloat p.value) Byte.comma =
      [(splitName p.name).2 ++ Byte.equals :: formatFloat p.value] := by
    refine List.splitOn_eq_singleton ?_
    simp [distinct, h.field.2 Byte.comma (by decide),
      not_mem_formatFloat (c := Byte.comma) (by decide)]
  have field : parseField parseFloat ((splitName p.name).2 ++ Byte.equals :: formatFloat p.value) =
      some ⟨(splitName p.name).2, p.value⟩ := by
    simp only [parseField, split_word (h.field.2 _ (by decide))
      (not_mem_formatFloat (c := Byte.equals) (by decide) p.value), h.value]
    rfl
  have time : (parseTimestamp (formatInt (cutSeconds p.timestamp))).toOption =
      some (cutSeconds p.timestamp) := by
    have again : parseTimestamp (formatInt (cutSeconds p.timestamp)) =
        .ok (cutSeconds p.timestamp) :=
      cutTimestamp_eq_self_iff.mpr (cutSeconds_bounds p.timestamp)
    rw [again]
    rfl
  rw [h.precisionString_eq accepted, parseLine, split, join, words]
  simp [parseArgs, key, tags, one, field, time]

end

/-! ## The body -/

theorem not_isPrefixOf_of_visible {c : UInt8} (hc : VisibleByte c) (s : Bytes) {words : List Bytes}
    (h : words.all fun word => word.head?.any fun b => b < 33 || 128 ≤ b) :
    ∀ word ∈ words, word.isPrefixOf (c :: s) = false := by
  intro word hw
  have start := List.all_eq_true.mp h word hw
  cases word with
  | nil => cases start
  | cons b word =>
    have other : b ≠ c := by
      rintro rfl
      simp only [List.head?_cons, Option.any_some, Bool.or_eq_true, decide_eq_true_eq] at start
      rcases start with below | above
      · exact UInt8.lt_irrefl _ (UInt8.lt_of_lt_of_le below hc.1)
      · exact UInt8.lt_irrefl _ (UInt8.lt_of_lt_of_le hc.2 above)
    simp [List.isPrefixOf, other]

theorem trimStart_eq_self {words : List Bytes} {s : Bytes}
    (h : ∀ word ∈ words, word.isPrefixOf s = false) (fuel : Nat) : trimStart words fuel s = s := by
  cases fuel with
  | zero => rfl
  | succ fuel =>
    have none : words.find? (·.isPrefixOf s) = none :=
      List.find?_eq_none.mpr fun word hw => Bool.not_eq_true _ ▸ h word hw
    rw [trimStart, none]

/-- Only the newline at the end is trimmed. -/
theorem trimSpace_line {s : Bytes} (first : ∃ c, s.head? = some c ∧ VisibleByte c)
    (last : ∃ c, s.getLast? = some c ∧ VisibleByte c) : trimSpace (s ++ [Byte.newline]) = s := by
  obtain ⟨c, hc, visible⟩ := first
  obtain ⟨d, hd, visible'⟩ := last
  obtain ⟨t, rfl⟩ : ∃ t, s = c :: t := by
    cases s with
    | nil => cases hc
    | cons b t => exact ⟨t, by rw [Option.some.inj hc]⟩
  obtain ⟨u, reversed⟩ : ∃ u, (c :: t).reverse = d :: u := by
    rw [← List.head?_reverse] at hd
    cases hr : (c :: t).reverse with
    | nil => rw [hr] at hd; cases hd
    | cons b u => rw [hr] at hd; exact ⟨u, by rw [Option.some.inj hd]⟩
  have left (fuel : Nat) :
      trimStart spaces fuel (c :: t ++ [Byte.newline]) = c :: t ++ [Byte.newline] :=
    trimStart_eq_self (not_isPrefixOf_of_visible visible _ (by decide)) fuel
  have right (fuel : Nat) :
      trimStart (spaces.map List.reverse) (fuel + 1) (Byte.newline :: d :: u) =
      d :: u :=
    trimStart_eq_self (not_isPrefixOf_of_visible visible' u (by decide)) fuel
  rw [trimSpace, left, List.reverse_append, List.reverse_singleton, List.singleton_append, reversed,
    List.length_append, List.length_singleton, right, ← reversed, List.reverse_reverse]

theorem visible_of_isDigit {c : UInt8} (h : isDigit c = true) : VisibleByte c := by
  simp only [isDigit, Bool.and_eq_true, decide_eq_true_eq] at h
  constructor
  · exact UInt8.le_iff_toNat_le.mpr (by change 33 ≤ c.toNat; omega)
  · exact UInt8.lt_iff_toNat_lt.mpr (by change c.toNat < 128; omega)

theorem getLast?_formatInt (i : Int64) : ∃ c, (formatInt i).getLast? = some c ∧ VisibleByte c := by
  have digits : ∃ c, (formatUint i.toInt.natAbs).getLast? = some c ∧ VisibleByte c := by
    have last := List.getLast?_eq_some_getLast (formatUint_ne_nil i.toInt.natAbs)
    exact ⟨_, last, visible_of_isDigit (isDigit_of_mem_formatUint (List.mem_of_getLast? last))⟩
  obtain ⟨c, last, visible⟩ := digits
  refine ⟨c, ?_, visible⟩
  unfold formatInt
  split_ifs
  · rw [← List.singleton_append, List.getLast?_append, last]
    rfl
  · exact last

/-- What the agent reads from the line of a point. -/
def relayedLine (rt : Runtime) (entityName : Bytes) (p : MetricPoint) : Sensu.Influx where
  measurement := (splitName p.name).1
  tagSet := (newTags rt (pointTags entityName p.tags)).map fun t => ⟨t.key, t.value⟩
  fieldSet := [⟨(splitName p.name).2, p.value⟩]
  timestamp := cutSeconds p.timestamp

theorem transform_relayedLine (rt : Runtime) (entityName : Bytes) (ps : List MetricPoint) :
    transform (ps.map (relayedLine rt entityName)) =
      ps.map fun p => some (relayed rt entityName p) := by
  rw [transform, List.flatMap_map, List.map_eq_flatMap]
  refine List.flatMap_congr fun p _ => ?_
  simp [relayedLine, relayed]

theorem Relayable.line_ends {rt : Runtime} {parseFloat : Bytes → Except GoError Float}
    {entityName : Bytes} {p : MetricPoint} (h : Relayable parseFloat entityName p)
    (accepted : ¬ Refused rt entityName p) :
    (∃ c, ((pointOf rt entityName p).precisionString (str "s")).head? = some c ∧ VisibleByte c) ∧
      (∃ c, ((pointOf rt entityName p).precisionString (str "s")).getLast? = some c ∧
        VisibleByte c) ∧
      Byte.newline ∉ (pointOf rt entityName p).precisionString (str "s") := by
  rw [h.precisionString_eq accepted]
  refine ⟨?_, ?_, not_mem_intercalate (by decide) (h.not_mem_words rt (.inr rfl))⟩
  · obtain ⟨c, m, measurement⟩ := List.exists_cons_of_ne_nil h.measurement.1
    refine ⟨c, ?_, h.visible c (by rw [measurement]; rfl)⟩
    rw [h.seriesKey_eq, measurement, join, join, intercalate_cons, intercalate_cons]
    rfl
  · obtain ⟨c, last, visible⟩ := getLast?_formatInt (cutSeconds p.timestamp)
    refine ⟨c, ?_, visible⟩
    simp [join, List.getLast?_append, List.getLast?_cons, last]

theorem filterMap_zipIdx_map {α β γ : Type*} {f : β × Nat → Option γ} {k : α → β} {g : α → γ}
    {l : List α} (h : ∀ a ∈ l, ∀ i, f (k a, i) = some (g a)) (n : Nat) :
    ((l.map k).zipIdx n).filterMap f = l.map g := by
  induction l generalizing n with
  | nil => rfl
  | cons a l ih =>
    rw [List.forall_mem_cons] at h
    rw [List.map_cons, List.zipIdx_cons, List.filterMap_cons_some (h.1 n), ih h.2, List.map_cons]

section
variable {rt : Runtime} {parseFloat : Bytes → Except GoError Float} {entityName : Bytes}
  {ps : List MetricPoint} (h : ∀ p ∈ ps, Relayable parseFloat entityName p)
  (accepted : ∀ p ∈ ps, ¬ Refused rt entityName p)
include h accepted

theorem split_trimSpace_body (hps : ps ≠ []) :
    split (trimSpace (unlines Byte.newline
        (ps.map fun p => (pointOf rt entityName p).precisionString (str "s")))) Byte.newline =
      ps.map fun p => (pointOf rt entityName p).precisionString (str "s") := by
  have ends (p : MetricPoint) (hp : p ∈ ps) := (h p hp).line_ends (accepted p hp)
  have lines : (ps.map fun p => (pointOf rt entityName p).precisionString (str "s")) ≠ [] := by
    simpa using hps
  rw [unlines_eq_append lines, trimSpace_line]
  · refine List.splitOn_intercalate _ (fun line hl => ?_) lines
    obtain ⟨p, hp, rfl⟩ := List.mem_map.mp hl
    exact (ends p hp).2.2
  · obtain ⟨p, ps', rfl⟩ := List.exists_cons_of_ne_nil hps
    obtain ⟨c, head, visible⟩ := (ends p List.mem_cons_self).1
    refine ⟨c, ?_, visible⟩
    rw [List.map_cons, intercalate_cons, List.head?_append, head]
    rfl
  · refine getLast?_intercalate (fun line hl => ?_) lines
    obtain ⟨p, hp, rfl⟩ := List.mem_map.mp hl
    exact (ends p hp).2.1

/-- The agent finds one point for each line. -/
theorem extractMetrics_body (now : Nat → Int64) (executed : Int64) :
    extractMetrics parseFloat now (some ⟨str "influxdb_line", unlines Byte.newline
        (ps.map fun p => (pointOf rt entityName p).precisionString (str "s")), executed⟩) =
      ps.map fun p => some (relayed rt entityName p) := by
  have read : parseInflux parseFloat now (unlines Byte.newline
        (ps.map fun p => (pointOf rt entityName p).precisionString (str "s"))) =
      ps.map (relayedLine rt entityName) := by
    by_cases hps : ps = []
    · rw [hps]
      rfl
    · rw [parseInflux, split_trimSpace_body h accepted hps]
      refine filterMap_zipIdx_map (fun p hp i => ?_) 0
      exact (h p hp).parseLine_eq (accepted p hp) (now i)
  have format : str "influxdb_line" ≠ str "graphite_plaintext" := by decide
  simp only [extractMetrics, format, if_false, if_true, read, transform_relayedLine]

end

/-! ## The second handler -/

section
variable {rt rt' : Runtime} {entityName entityName' : Bytes} {p : MetricPoint}

theorem splitName_relayed (rt : Runtime) (entityName : Bytes) (p : MetricPoint) :
    splitName (relayed rt entityName p).name = splitName p.name := by
  have noDot : Byte.dot ∉ (splitName p.name).1 := by
    rcases name_cases p.name with none | ⟨m, f, name, noDot⟩
    · rwa [splitName_of_not_mem none]
    · rwa [name, splitName_append noDot]
  rw [relayed, List.append_assoc, List.singleton_append, splitName_append noDot]

/-- The tags carry the first entity's name, so the second one is not asked for. -/
theorem pointTags_relayed (rt : Runtime) (entityName entityName' : Bytes) (p : MetricPoint) :
    pointTags entityName' (relayed rt entityName p).tags = pointTags entityName p.tags := by
  have pairs : tagPairs (relayed rt entityName p).tags =
      ((newTags rt (pointTags entityName p.tags)).map Tag.entry).map fun e => (e.1, e.2) := by
    simp [tagPairs_eq_filterMap, relayed, List.filterMap_map, Tag.entry]
  apply Finmap.ext_lookup
  intro k
  rw [lookup_pointTags, pairs, (enumerates_newTags rt _).lastValue_eq]
  by_cases hk : k = entityTag
  · obtain ⟨v, hv⟩ : ∃ v, (pointTags entityName p.tags).lookup k = some v := by
      rw [lookup_pointTags, if_pos hk]
      cases lastValue (tagPairs p.tags) k <;> simp
    rw [hv]
    rfl
  · rw [if_neg hk, Option.or_none]

theorem cutSeconds_relayed (rt : Runtime) (entityName : Bytes) (p : MetricPoint) :
    cutSeconds (relayed rt entityName p).timestamp = cutSeconds p.timestamp :=
  cutSeconds_eq_self_iff.mpr (cutSeconds_bounds p.timestamp)

theorem seriesKey_relayed (rt rt' : Runtime) (entityName entityName' : Bytes) (p : MetricPoint) :
    seriesKey rt' entityName' (relayed rt entityName p) = seriesKey rt entityName p := by
  rw [seriesKey, seriesKey, splitName_relayed, pointTags_relayed, newTags_eq rt' rt]

/-- The second handler makes the same point. -/
theorem convertPoint_relayed {event' : Event} {entity' : Entity} (he : event'.entity = some entity')
    (accepted : ¬ Refused rt entityName p) :
    convertPoint rt' event' (some (relayed rt entityName p)) = .ok (pointOf rt entityName p) := by
  refine (convertPoint_eq_ok_iff he).mpr ⟨by simp [relayed], ?_, ?_⟩
  · rw [Refused, seriesKey_relayed, splitName_relayed, cutSeconds_relayed]
    exact accepted
  · rw [pointOf, pointOf, seriesKey_relayed, splitName_relayed, cutSeconds_relayed]
    rfl

end

theorem body_of_ready {w : World} {cfg : Config} {c : Client} {bp : BatchPoints}
    (ready : Ready w cfg c bp) (hs : cfg.precision = str "s") (pts : List Point) :
    BatchPoints.body { bp with points := pts.map some } =
      unlines Byte.newline (pts.map (·.precisionString (str "s"))) := by
  have seconds : bp.precision = str "s" := by
    rw [(newBatchPoints_ok ready.batch).2.1, Config.batchPointsConfig, hs]
    rfl
  rw [body_eq_unlines, seconds]

/-- What the second handler writes for the extracted points. -/
theorem writes_relayed (rt' : Runtime) (event : Event) {rt : Runtime} {w : World} {cfg : Config}
    {entity : Entity} {entityName : Bytes} {ps : List MetricPoint} (he : event.entity = some entity)
    (hm : event.metrics = some ⟨ps.map fun p => some (relayed rt entityName p)⟩)
    (accepted : ∀ p ∈ ps, ¬ Refused rt entityName p) (ready : ∃ c bp, Ready w cfg c bp) :
    ∃ c bp, Ready w cfg c bp ∧ writes (sendMetrics rt' w cfg event) =
      [{ bp with points := (ps.map (pointOf rt entityName)).map some }] := by
  have converts : (ps.map fun p => some (relayed rt entityName p)).mapM (convertPoint rt' event) =
      .ok (ps.map (pointOf rt entityName)) := by
    rw [Except.mapM_eq_ok_iff, List.forall₂_map_left_iff, List.forall₂_map_right_iff,
      List.forall₂_same]
    exact fun p hp => convertPoint_relayed he (accepted p hp)
  obtain ⟨c, bp, ready⟩ := ready
  refine ⟨c, bp, ready, ?_⟩
  rw [sendMetrics_eq rt' ready hm, converts]
  exact c.writes_write w _

/-- A body in seconds that a handler has written, printed by a check and extracted by an agent of
any entity, makes the handler write the same points and the same body again. -/
theorem relay_posts_again {rt rt' : Runtime} {w w' : World} {cfg cfg' : Config}
    (event event' : Event) {metrics : Metrics} {entity entity' : Entity}
    {parseFloat : Bytes → Except GoError Float} {now : Nat → Int64} {executed : Int64}
    (hm : event.metrics = some metrics) (he : event.entity = some entity)
    (he' : event'.entity = some entity')
    (relayable : ∀ p, some p ∈ metrics.points → Relayable parseFloat entity.metadata.name p)
    (hs : cfg.precision = str "s") (hs' : cfg'.precision = str "s")
    {bp : BatchPoints} (wrote : bp ∈ writes (sendMetrics rt w cfg event))
    (ready : ∃ c bp₀, Ready w' cfg' c bp₀) :
    ∃ bp', writes (sendMetrics rt' w' cfg' { event' with
        metrics := some ⟨extractMetrics parseFloat now
          (some ⟨str "influxdb_line", bp.body, executed⟩)⟩ }) = [bp'] ∧
      bp'.points = bp.points ∧ bp'.body = bp.body := by
  obtain ⟨c, bp₀, pts, ready₀, converted, rfl, -⟩ := of_mem_writes_sendMetrics hm wrote
  obtain ⟨ps, points, whole, rfl⟩ := (mapM_convertPoint_eq_ok_iff he).mp converted
  have body := body_of_ready ready₀ hs (ps.map (pointOf rt entity.metadata.name))
  have extracted : extractMetrics parseFloat now (some ⟨str "influxdb_line",
      BatchPoints.body { bp₀ with points := (ps.map (pointOf rt entity.metadata.name)).map some },
      executed⟩) = ps.map fun p => some (relayed rt entity.metadata.name p) := by
    have lines : (ps.map (pointOf rt entity.metadata.name)).map (·.precisionString (str "s")) =
        ps.map fun p => (pointOf rt entity.metadata.name p).precisionString (str "s") := by
      simp only [List.map_map, Function.comp_def]
    rw [body, lines, extractMetrics_body (fun p hp => relayable p (by simp [points, hp]))
      (fun p hp => (whole p hp).2) now executed]
  rw [extracted]
  obtain ⟨c', bp₁, ready₁, written⟩ := writes_relayed rt' { event' with
    metrics := some ⟨ps.map fun p => some (relayed rt entity.metadata.name p)⟩ } he' rfl
    (fun p hp => (whole p hp).2) ready
  exact ⟨_, written, rfl, (body_of_ready ready₁ hs' _).trans body.symm⟩

theorem fixturePoint_relayable :
    Relayable Json.readDecimal (str "entity1") fixturePoint where
  measurement := by decide +kernel
  visible := by decide +kernel
  field := by decide +kernel
  tags k v hv := by
    have mem := fixturePoint_tags.mem_iff.mpr hv
    simp only [List.mem_cons, List.not_mem_nil, or_false] at mem
    rcases mem with mem | mem <;> cases mem <;> decide +kernel
  value := by
    have text : formatFloat fixturePoint.value = str "42" := by decide +kernel
    rw [text]
    rfl

/-- The point of the repository's test, relayed by an agent on another entity. -/
theorem fixture_relayed :
    ∃ bp', writes (sendMetrics reversedRuntime fixtureWorld fixtureConfig
        { fixtureEvent [] with
          entity := some ⟨str "host", ⟨str "entity2", str "default"⟩⟩
          metrics := some ⟨extractMetrics Json.readDecimal (fun _ => 0)
            (some ⟨str "influxdb_line",
              BatchPoints.body ⟨[some (pointOf .ordered (str "entity1") fixturePoint)], str "foo",
                str "s", [], []⟩, 0⟩)⟩ }) = [bp'] ∧
      bp'.body = BatchPoints.body ⟨[some (pointOf .ordered (str "entity1") fixturePoint)],
        str "foo", str "s", [], []⟩ := by
  have wrote :
      ⟨[some (pointOf .ordered (str "entity1") fixturePoint)], str "foo", str "s", [], []⟩ ∈
        writes (sendMetrics .ordered fixtureWorld fixtureConfig
          (fixtureEvent [some fixturePoint])) := by
    decide +kernel
  have relayable (p : MetricPoint) (hp : some p ∈ [some fixturePoint]) :
      Relayable Json.readDecimal (str "entity1") p := by
    rw [Option.some.inj (List.mem_singleton.mp hp)]
    exact fixturePoint_relayable
  obtain ⟨bp', writes, -, body⟩ := relay_posts_again (fixtureEvent [some fixturePoint])
    { fixtureEvent [] with
      entity := some ⟨str "host", ⟨str "entity2", str "default"⟩⟩ } rfl rfl rfl relayable
    rfl rfl wrote ⟨_, _, fixture_ready⟩
  exact ⟨bp', writes, body⟩

end InfluxHandler.Handler
