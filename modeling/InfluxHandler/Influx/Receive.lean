import InfluxHandler.Influx.Client
import InfluxHandler.Influx.Wire
import InfluxHandler.Library.Lines

/-!
# What the server makes of a body

A line that a client writes is one block for the server, and its key, fields and time are what the
client put into it. A body is read line by line, and no line has influence on another
(`parsePoints_unlines`). Whatever a body is, the points that are accepted are well formed
(`parsePoints_wellFormed`).
-/
namespace InfluxHandler.Influx
open Go Escape KeyedMap Lines Sorting

/-! ## Times -/

/-- The time at the end of a line; it can be left out. -/
def timeText : Option Int64 → Bytes
  | none => []
  | some n => Byte.space :: formatInt n

/-- What the server reads from it. -/
def wireTime (defaultTime : Time) (precision : Bytes) : Option Int64 → Except GoError Time
  | none => .ok (setPrecision defaultTime precision)
  | some n => safeCalcTime n precision

theorem fieldsEnd_timeText (time : Option Int64) : FieldsEnd (timeText time) := by
  cases time with
  | none => exact .inl rfl
  | some n => exact .inr rfl

theorem scanTimeLoop_digits {ds : Bytes} (h : ∀ c ∈ ds, isDigit c = true) (first : Bool) :
    scanTimeLoop first ds = .ok (ds, []) := by
  induction ds generalizing first with
  | nil => rfl
  | cons c ds ih =>
    obtain ⟨digit, others⟩ := List.forall_mem_cons.mp h
    have stop : ¬ (c = Byte.newline ∨ c = Byte.space) := by
      rintro (rfl | rfl) <;> cases digit
    rw [scanTimeLoop, if_neg stop, if_pos (.inr digit), ih others]
    rfl

theorem scanTime_timeText (time : Option Int64) :
    scanTime (timeText time) = .ok ((timeText time).tail, []) := by
  cases time with
  | none => rfl
  | some n =>
    have digits (c : UInt8) (hc : c ∈ formatUint n.toInt.natAbs) : isDigit c = true :=
      isDigit_of_mem_formatUint hc
    have skip : skipWhitespace (timeText (some n)) = formatInt n := by
      refine (List.dropWhile_cons_of_pos rfl).trans (skipWhitespace_eq_self fun c hc => ?_)
      rcases isDigit_or_minus_of_mem_formatInt (List.mem_of_mem_head? hc) with h | rfl
      · simp only [isBlank, Bool.or_eq_false_iff, beq_eq_false_iff_ne]
        exact ⟨⟨ne_of_isDigit h (by decide), ne_of_isDigit h (by decide)⟩,
          ne_of_isDigit h (by decide)⟩
      · decide
    rw [scanTime, skip, timeText, List.tail_cons, formatInt]
    split_ifs
    · have loop := scanTimeLoop_digits digits false
      rw [scanTimeLoop, if_neg (by decide), if_pos (.inl ⟨rfl, rfl⟩), loop]
      rfl
    · exact scanTimeLoop_digits digits true

theorem lineTime_timeText (defaultTime : Time) (precision : Bytes) (time : Option Int64) :
    lineTime (timeText time).tail [] defaultTime precision =
      wireTime defaultTime precision time := by
  cases time with
  | none => rfl
  | some n =>
    have text : (timeText (some n)).tail = formatInt n := rfl
    rw [text, lineTime, if_neg (numberText_formatInt n).ne_nil, parseInt_formatInt, Except.ok_bind,
      wireTime]
    cases safeCalcTime n precision <;> rfl

/-- A quotient is multiplied back without overflow, and ends no further from zero than the dividend.
-/
theorem safeSignedMult_div {x m : Int64} (hlo : minNanoTime.toInt ≤ x.toInt)
    (hhi : x.toInt ≤ maxNanoTime.toInt) (hm : m = 1 ∨ 1000 ≤ m.toInt ∧ m.toInt ≤ 3600000000000) :
    safeSignedMult (x / m) m = (x / m * m, true) ∧ (x / m * m).toInt.natAbs ≤ x.toInt.natAbs := by
  have lowest : minNanoTime.toInt = -9223372036854775806 := rfl
  have greatest : maxNanoTime.toInt = 9223372036854775806 := rfl
  rcases hm with rfl | ⟨large, small⟩
  · have same : x / 1 * 1 = x := by rw [Int64.mul_one, Int64.div_one]
    refine ⟨if_pos (by simp), ?_⟩
    rw [same]
  · have positive : m ≠ -1 := fun h => absurd (h ▸ large) (by decide)
    have quotient : (x / m).toInt = x.toInt.tdiv m.toInt := Int64.toInt_div_of_ne_right _ _ positive
    have shrinks : ((x / m).toInt * m.toInt).natAbs ≤ x.toInt.natAbs := by
      rw [quotient, Int.natAbs_mul, Int.natAbs_tdiv]
      exact Nat.div_mul_le_self _ _
    have notLowest : x / m ≠ minNanoTime := by
      intro h
      rw [h, lowest, Int.natAbs_mul] at shrinks
      have := Nat.mul_le_mul_left (Int.natAbs (-9223372036854775806))
        (show 2 ≤ m.toInt.natAbs by omega)
      omega
    have notGreatest : m ≠ maxNanoTime := by
      rintro rfl
      omega
    obtain ⟨product, safe⟩ :=
      safeSignedMult_eq notLowest notGreatest (by omega) (by omega) (by omega)
    exact ⟨safe, by rwa [product]⟩

/-- A time that a client accepts can be read again, without what lies below the precision. -/
theorem safeCalcTime_div {x : Int64} (hlo : minNanoTime.toInt ≤ x.toInt)
    (hhi : x.toInt ≤ maxNanoTime.toInt) (precision : Bytes) :
    safeCalcTime (x / getPrecisionMultiplier precision) precision =
      .ok (Time.unix 0
        (x / getPrecisionMultiplier precision * getPrecisionMultiplier precision)) := by
  have unit : getPrecisionMultiplier precision = 1 ∨
      1000 ≤ (getPrecisionMultiplier precision).toInt ∧
        (getPrecisionMultiplier precision).toInt ≤ 3600000000000 := by
    rw [← Int64.toInt_inj, Int64.toInt_one]
    rcases getPrecisionMultiplier_cases precision with h | ⟨-, h⟩ | ⟨-, h⟩
    · simp only [List.mem_cons, List.not_mem_nil, or_false] at h
      omega
    · omega
    · omega
  obtain ⟨safe, shrinks⟩ := safeSignedMult_div hlo hhi unit
  have lowest : minNanoTime.toInt = -9223372036854775806 := rfl
  have greatest : maxNanoTime.toInt = 9223372036854775806 := rfl
  rw [safeCalcTime, safe]
  simp only [if_true]
  rw [checkTime_unixNano (by omega) (by omega)]
  rfl

/-! ## One line -/

/-- The parts of a line that keeps its form on the way. A measurement that starts with a hash sign
would make the line a comment. -/
structure Sendable (P : Parser) (name : Bytes) (tags : List Tag) (l : List (Bytes × Bytes)) :
    Prop where
  shown : Shown name
  hash : name.head? ≠ some Byte.hash
  clean : ∀ t ∈ tags, Clean t.key ∧ Clean t.value
  count : ¬ Crowded tags.length
  nodup : (tags.map Tag.key).Nodup
  ne_nil : l ≠ []
  fields : ∀ e ∈ l, FieldLine P e
  size : ∀ e ∈ l, seriesKeySize (wireKey name tags) (escapeString e.1) ≤ maxKeyLength

def wireLine (name : Bytes) (tags : List Tag) (l : List (Bytes × Bytes)) (time : Option Int64) :
    Bytes :=
  wireKey name tags ++ Byte.space :: (fieldsText l ++ timeText time)

theorem length_wireKey_serverOrder (name : Bytes) (tags : List Tag) :
    (wireKey name (serverOrder tags)).length = (wireKey name tags).length := by
  have perm := (serverOrder_perm tags).map Tag.wire
  have parts := perm.flatMap_right (Byte.comma :: ·)
  rw [wireKey, wireKey, joinKey, joinKey, List.length_append, List.length_append, parts.length_eq]

section
variable {P : Parser} {name : Bytes} {tags : List Tag} {l : List (Bytes × Bytes)}
  (h : Sendable P name tags l) (time : Option Int64)
include h

theorem Sendable.parsePoint (defaultTime : Time) (precision : Bytes) :
    P.parsePoint (wireLine name tags l time) defaultTime precision =
      ScanFailure.check ((wireTime defaultTime precision time).map fun t =>
        ⟨wireKey name (serverOrder tags), t, fieldsText l⟩) := by
  obtain ⟨e, l, rfl⟩ := List.exists_cons_of_ne_nil h.ne_nil
  have readable : ∀ t ∈ tags, t.Readable := fun t ht =>
    ⟨(h.clean t ht).1.readable, (h.clean t ht).2.readable⟩
  have scan : scanKey (wireLine name tags (e :: l) time) =
      .ok (wireKey name (serverOrder tags),
        Byte.space :: (fieldsText (e :: l) ++ timeText time)) := by
    rw [wireLine, scanKey_wireKey h.shown.visible readable rfl, if_neg h.count, if_pos h.nodup]
  have key : wireKey name (serverOrder tags) ≠ [] := by
    have token := h.shown.readable.measurementToken
    exact List.append_ne_nil_of_left_ne_nil token.ne_nil _
  have size : ∀ f ∈ e :: l,
      seriesKeySize (wireKey name (serverOrder tags)) (escapeString f.1) ≤ maxKeyLength := by
    intro f hf
    rw [seriesKeySize, length_wireKey_serverOrder]
    exact h.size f hf
  have short : ¬ maxKeyLength < (wireKey name (serverOrder tags)).length := by
    have first := size e List.mem_cons_self
    rw [seriesKeySize] at first
    omega
  have fields (back : Bytes) := P.scanFields_fieldsText h.fields (fieldsEnd_timeText time) back
  have walk : walkFields (wireKey name (serverOrder tags)) (fieldsText (e :: l)).length
      (fieldsText (e :: l)) = .ok () :=
    walkFields_fieldsText h.fields size (length_le_fieldsText _)
  have some : fieldsText (e :: l) ≠ [] := by simp [fieldsText_cons]
  unfold Parser.parsePoint Parser.parseBehindKey
  simp only [scan, Except.ok_bind, key, if_false, short, fields, some, walk, scanTime_timeText,
    lineTime_timeText]
  cases wireTime defaultTime precision time <;> rfl

/-- Whatever follows behind its newline, the line is found. -/
theorem Sendable.scanLine (t : Bytes) :
    scanLine {} false (wireLine name tags l time ++ Byte.newline :: t) =
      (wireLine name tags l time, Byte.newline :: t) := by
  obtain ⟨e, l, rfl⟩ := List.exists_cons_of_ne_nil h.ne_nil
  have plain : ∀ c ∈ timeText time, c ∉ fieldMarks := by
    have disjoint : (str "-.0123456789").all (fun c => !fieldMarks.contains c) = true := by decide
    cases time with
    | none => exact fun c hc => absurd hc List.not_mem_nil
    | some n =>
      refine List.forall_mem_cons.mpr ⟨by decide, fun c hc => ?_⟩
      simpa using List.all_eq_true.mp disjoint c ((numberText_formatInt n).mem c hc)
  have space : LineScan.Passes {} [Byte.space] ⟨true, false, 0, 0⟩ := .of_step (by decide) rfl
  have line := (LineScan.passes_wireKey h.shown.toClean h.clean).append <| space.append <|
    (LineScan.passes_fieldsText h.fields 0).append (LineScan.passes_plain plain)
  have stop (n m : Nat) : Influx.scanLine ⟨true, false, n, m⟩ false (Byte.newline :: t) =
      ([], Byte.newline :: t) := rfl
  have whole := line (Byte.newline :: t) (List.cons_ne_nil _ _)
  rw [stop, List.append_nil] at whole
  exact whole

/-- The last byte is one of a value or of a time. -/
theorem Sendable.getLast? : (wireLine name tags l time).getLast? ≠ some Byte.newline := by
  cases time with
  | none =>
    obtain ⟨e, l, rfl⟩ := List.exists_cons_of_ne_nil h.ne_nil
    have some : fieldsText (e :: l) ≠ [] := by simp [fieldsText_cons]
    rw [wireLine, timeText, List.append_nil, ← List.singleton_append, ← List.append_assoc,
      List.getLast?_append_of_ne_nil _ some]
    exact getLast?_fieldsText h.fields
  | some n =>
    rw [wireLine, timeText, ← List.cons_append, ← List.singleton_append (l := formatInt n),
      ← List.append_assoc, ← List.append_assoc,
      List.getLast?_append_of_ne_nil _ (numberText_formatInt n).ne_nil]
    exact fun last => newline_not_mem_formatInt n (List.mem_of_getLast? last)

/-- The line is a point, neither blank nor a comment. -/
theorem Sendable.readBlock {defaultTime : Time} {precision : Bytes} {t : Time}
    (ht : wireTime defaultTime precision time = .ok t) :
    P.readBlock defaultTime precision (wireLine name tags l time) =
      some (.ok ⟨wireKey name (serverOrder tags), t, fieldsText l⟩) := by
  have first (r : Bytes) : (wireKey name tags ++ r).head? = (escapeMeasurement name).head? := by
    have token := h.shown.readable.measurementToken
    rw [wireKey, joinKey, List.append_assoc, token.head?_append]
  have skip : skipWhitespace (wireLine name tags l time) = wireLine name tags l time := by
    refine skipWhitespace_eq_self fun c hc => ?_
    rw [wireLine, first, escapeMeasurement_eq] at hc
    exact isBlank_head?_escape (by decide) h.shown.head hc
  have hash : (wireLine name tags l time).head? ≠ some Byte.hash := by
    have same := (sameOutside_escapeWith backslashed_measurement name).head Byte.hash (by decide)
      (Plain.measurement (by decide))
    rw [wireLine, first]
    exact mt same.mp h.hash
  have last := h.getLast? time
  have some : wireLine name tags l time ≠ [] := by simp [wireLine]
  have parsed := h.parsePoint time defaultTime precision
  rw [ht] at parsed
  unfold Parser.readBlock
  simp only [skip, some, hash, or_self, if_false, last, parsed, Except.map, ScanFailure.check_ok]

end

/-! ## Bodies -/

/-- A line that ends at its newline, whatever follows. -/
def Closed (line : Bytes) : Prop :=
  ∀ t, scanLine {} false (line ++ Byte.newline :: t) = (line, Byte.newline :: t)

/-- Without quotes and backslashes a line is closed. -/
theorem closed_of_plain {line : Bytes}
    (h : ∀ c ∈ line, c ≠ Byte.newline ∧ c ≠ Byte.quote ∧ c ≠ Byte.backslash) : Closed line := by
  intro t
  suffices ∀ st : LineScan, st.quoted = false →
      scanLine st false (line ++ Byte.newline :: t) = (line, Byte.newline :: t) from this {} rfl
  induction line with
  | nil =>
    intro st hq
    obtain ⟨fields, quoted, n, m⟩ := st
    subst hq
    cases fields <;> rfl
  | cons c line ih =>
    obtain ⟨⟨newline, quote, backslash⟩, others⟩ := List.forall_mem_cons.mp h
    intro st hq
    obtain ⟨st', step, hq'⟩ : ∃ st', st.step c = some st' ∧ st'.quoted = false := by
      simp only [LineScan.step, newline, quote, false_and, and_false, if_false]
      split_ifs <;> exact ⟨_, rfl, by simpa using hq⟩
    rw [List.cons_append, scanLine, if_neg Bool.false_ne_true, if_neg fun h => backslash h.1, step]
    simp only [ih others st' hq']

/-- The scan cuts the text in two. -/
theorem scanLine_append (st : LineScan) (escaped : Bool) (buf : Bytes) :
    (scanLine st escaped buf).1 ++ (scanLine st escaped buf).2 = buf := by
  induction buf generalizing st escaped with
  | nil => rfl
  | cons c buf ih =>
    unfold scanLine
    split_ifs
    · exact congrArg (c :: ·) (ih st false)
    · exact congrArg (c :: ·) (ih st true)
    · cases st.step c with
      | none => rfl
      | some st => exact congrArg (c :: ·) (ih st false)

theorem length_scanLine {buf : Bytes} (h : buf ≠ []) :
    (scanLine {} false buf).2.tail.length < buf.length := by
  have parts := congrArg List.length (scanLine_append {} false buf)
  have pos := List.length_pos_iff.mpr h
  rw [List.length_append] at parts
  rw [List.length_tail]
  omega

section
variable (P : Parser) (defaultTime : Time) (precision : Bytes)

theorem Parser.readBlocks_of_le {buf : Bytes} {fuel fuel' : Nat} (hf : buf.length ≤ fuel)
    (hf' : buf.length ≤ fuel') :
    P.readBlocks defaultTime precision fuel buf = P.readBlocks defaultTime precision fuel' buf := by
  induction fuel generalizing buf fuel' with
  | zero =>
    rw [List.eq_nil_of_length_eq_zero (Nat.le_zero.mp hf)]
    cases fuel' <;> rfl
  | succ fuel ih =>
    by_cases h : buf = []
    · rw [h]
      cases fuel' <;> rfl
    · have pos := List.length_pos_iff.mpr h
      have shorter := length_scanLine h
      obtain ⟨fuel', rfl⟩ : ∃ n, fuel' = n + 1 := ⟨fuel' - 1, by omega⟩
      simp only [Parser.readBlocks, if_neg h]
      rw [ih (by omega) (show _ ≤ fuel' by omega)]

/-- Closed lines are read one by one. -/
theorem Parser.readBlocks_unlines {ls : List Bytes} (h : ∀ l ∈ ls, Closed l) (rest : Bytes)
    {fuel : Nat} (hf : (unlines Byte.newline ls ++ rest).length ≤ fuel) :
    P.readBlocks defaultTime precision fuel (unlines Byte.newline ls ++ rest) =
      ls.filterMap (P.readBlock defaultTime precision) ++
        P.readBlocks defaultTime precision rest.length rest := by
  induction ls generalizing fuel with
  | nil => exact P.readBlocks_of_le defaultTime precision hf le_rfl
  | cons l ls ih =>
    obtain ⟨closed, others⟩ := List.forall_mem_cons.mp h
    have text : unlines Byte.newline (l :: ls) ++ rest =
        l ++ Byte.newline :: (unlines Byte.newline ls ++ rest) := by
      rw [unlines_cons, List.append_assoc, List.cons_append]
    rw [text, List.length_append, List.length_cons] at hf
    obtain ⟨fuel, rfl⟩ : ∃ n, fuel = n + 1 := ⟨fuel - 1, by omega⟩
    rw [text, Parser.readBlocks, if_neg (by simp)]
    simp only [closed _, List.tail_cons]
    rw [ih others (by omega)]
    cases hb : P.readBlock defaultTime precision l with
    | none => rw [List.filterMap_cons_none hb]; rfl
    | some b => rw [List.filterMap_cons_some hb]; rfl

end

/-! ## Points from a client -/

/-- The number of tags with a value. -/
def valuedTags (tags : Map Bytes Bytes) : Nat := (tags.entries.filter fun e => e.2 ≠ []).card

theorem length_filter_newTags (rt : Runtime) (tags : Map Bytes Bytes) :
    ((newTags rt tags).filter (·.value ≠ [])).length = valuedTags tags := by
  have entries : ((newTags rt tags).map Tag.entry : Multiset _) = tags.entries :=
    enumerates_newTags rt tags
  rw [valuedTags, ← entries, Multiset.filter_coe, Multiset.coe_card, List.filter_map,
    List.length_map]
  rfl

/-- What a client made a point of, where nothing stands in the way of reading it again. The server
checks the size of a key with the escaped name of the field. -/
structure Written (P : Parser) (p : Point) (name : Bytes) (tags : Map Bytes Bytes)
    (fields : Fields) : Prop where
  made : ∃ rt t, Client.newPoint rt name tags fields t = .ok p ∧
    ∀ u ∈ t.head?, ∃ x, u = Time.unix 0 x
  shown : Shown name
  hash : name.head? ≠ some Byte.hash
  clean : ∀ k v, tags.lookup k = some v → v ≠ [] → Clean k ∧ Clean v
  count : ¬ Crowded (valuedTags tags)
  writable : ∀ k v, fields.lookup k = some v → Shown k ∧ v.Writable P
  size : ∀ k v, fields.lookup k = some v → seriesKeySize p.key (escapeString k) ≤ maxKeyLength

/-- What can be read from a point. A tag without a value is no tag. -/
structure Point.Holds (parseFloat : Bytes → Option Float) (p : Point) (name : Bytes)
    (tags : Map Bytes Bytes) (fields : Fields) : Prop where
  key : ∃ tags', parseKey p.key = (name, tags') ∧
    ∀ t, t ∈ tags' ↔ tags.lookup t.key = some t.value ∧ t.value ≠ []
  fields : ∃ fields', p.unmarshalBinary parseFloat = .ok fields' ∧
    ∀ k, fields'.lookup k = (fields.lookup k).bind FieldValue.stored

/-- The time without what lies below the precision, or the server's own time if there is none. -/
def receivedTime (defaultTime : Time) (precision : Bytes) (t : Time) : Time :=
  if t.isZero then setPrecision defaultTime precision
  else
    Time.unix 0 (t.unixNano / getPrecisionMultiplier precision * getPrecisionMultiplier precision)

def Point.stamp (p : Point) (precision : Bytes) : Option Int64 :=
  if p.time.isZero then none else some (p.time.unixNano / getPrecisionMultiplier precision)

theorem Point.precisionString_eq (p : Point) (precision : Bytes) :
    p.precisionString precision =
      p.key ++ Byte.space :: (p.fields ++ timeText (p.stamp precision)) := by
  unfold Point.precisionString Point.stamp
  split_ifs <;> simp [timeText]

/-- The parts of a point that `NewPoint` returned. -/
theorem newPoint_ok {rt : Runtime} {name : Bytes} {tags : List Tag} {fields : Fields} {t : Time}
    {p : Point} (h : newPoint rt name tags fields t = .ok p) :
    p = ⟨makeKey name tags, t, marshalBinary rt fields⟩ ∧ fields.entries.card ≠ 0 ∧
      (t.isZero = false → checkTime t = .ok ()) := by
  obtain ⟨key, hkey, hp⟩ := Except.bind_eq_ok_iff.mp h
  cases hp
  unfold pointKey at hkey
  by_cases empty : fields.entries.card = 0
  · simp only [empty, if_true, Except.error_bind, reduceCtorEq] at hkey
  · simp only [empty, if_false] at hkey
    cases zero : t.isZero with
    | true =>
      simp only [zero, not_true_eq_false, if_false] at hkey
      obtain ⟨_, -, hkey⟩ := Except.bind_eq_ok_iff.mp hkey
      obtain ⟨_, -, hkey⟩ := Except.bind_eq_ok_iff.mp hkey
      cases hkey
      exact ⟨rfl, empty, nofun⟩
    | false =>
      simp only [zero, Bool.false_eq_true, not_false_eq_true, if_true] at hkey
      obtain ⟨_, time, hkey⟩ := Except.bind_eq_ok_iff.mp hkey
      obtain ⟨_, -, hkey⟩ := Except.bind_eq_ok_iff.mp hkey
      obtain ⟨_, -, hkey⟩ := Except.bind_eq_ok_iff.mp hkey
      cases hkey
      exact ⟨rfl, empty, fun _ => time⟩

theorem wireTime_stamp {p : Point} (ht : p.time.isZero = false → checkTime p.time = .ok ())
    (hx : p.time.isZero = true ∨ ∃ x, p.time = Time.unix 0 x) (defaultTime : Time)
    (precision : Bytes) :
    wireTime defaultTime precision (p.stamp precision) =
      .ok (receivedTime defaultTime precision p.time) := by
  cases zero : p.time.isZero with
  | true => simp [Point.stamp, receivedTime, zero, wireTime]
  | false =>
    obtain ⟨x, time⟩ := hx.resolve_left (by simp [zero])
    have range := ht zero
    rw [time, checkTime] at range
    simp only [Bool.or_eq_true, Time.before_unix, Time.after_unix, ite_eq_right_iff, reduceCtorEq,
      imp_false, not_or, not_lt] at range
    simp only [Point.stamp, receivedTime, zero, Bool.false_eq_true, if_false, wireTime]
    rw [time, Time.unixNano_unix]
    exact safeCalcTime_div range.1 range.2 precision

section
variable {P : Parser} {p : Point} {name : Bytes} {tags : Map Bytes Bytes} {fields : Fields}

theorem Written.sendable (h : Written P p name tags fields) :
    ∃ rt l, Enumerates l fields ∧
      Sendable P name ((newTags rt tags).filter (·.value ≠ []))
        (l.map fun e => (e.1, formatFieldValue e.2)) ∧
      p.key = wireKey name ((newTags rt tags).filter (·.value ≠ [])) ∧
      p.fields = fieldsText (l.map fun e => (e.1, formatFieldValue e.2)) := by
  obtain ⟨rt, t, made, -⟩ := h.made
  obtain ⟨point, nonempty, -⟩ := newPoint_ok made
  obtain ⟨l, enum, text⟩ := marshalBinary_eq rt fields
  have key : p.key = wireKey name ((newTags rt tags).filter (·.value ≠ [])) := by
    rw [point, makeKey_eq_wireKey, unescapeMeasurement_eq_self h.shown.backslash]
  refine ⟨rt, l, enum, ?_, key, by rw [point, text]⟩
  have entry : ∀ e ∈ l, fields.lookup e.1 = some e.2 := fun e he => enum.mem_iff.mp he
  refine ⟨h.shown, h.hash, ?_, length_filter_newTags rt tags ▸ h.count, ?_, ?_, ?_, ?_⟩
  · intro t ht
    obtain ⟨mem, value⟩ := List.mem_filter.mp ht
    exact h.clean t.key t.value (mem_newTags.mp mem) (of_decide_eq_true value)
  · have keys := (enumerates_newTags rt tags).nodupKeys
    rw [List.NodupKeys, List.keys, List.map_map] at keys
    exact (List.filter_sublist.map Tag.key).nodup keys
  · intro empty
    rw [List.map_eq_nil_iff.mp empty] at enum
    exact nonempty (by rw [← enum]; rfl)
  · intro e he
    obtain ⟨e, mem, rfl⟩ := List.mem_map.mp he
    obtain ⟨shown, writable⟩ := h.writable e.1 e.2 (entry e mem)
    exact ⟨shown, e.2, writable, rfl⟩
  · intro e he
    obtain ⟨e, mem, rfl⟩ := List.mem_map.mp he
    rw [← key]
    exact h.size e.1 e.2 (entry e mem)

theorem Written.received (h : Written P p name tags fields) (defaultTime : Time)
    (precision : Bytes) :
    ∃ p', P.readBlock defaultTime precision (p.precisionString precision) = some (.ok p') ∧
      Closed (p.precisionString precision) ∧ p'.Holds P.parseFloat name tags fields ∧
      p'.time = receivedTime defaultTime precision p.time := by
  obtain ⟨rt, l, enum, sendable, key, text⟩ := h.sendable
  have line : p.precisionString precision = wireLine name ((newTags rt tags).filter (·.value ≠ []))
      (l.map fun e => (e.1, formatFieldValue e.2)) (p.stamp precision) := by
    rw [p.precisionString_eq, key, text, wireLine]
  have time : wireTime defaultTime precision (p.stamp precision) =
      .ok (receivedTime defaultTime precision p.time) := by
    obtain ⟨rt, t, made, instant⟩ := h.made
    obtain ⟨point, -, range⟩ := newPoint_ok made
    refine wireTime_stamp (by rw [point]; exact range) ?_ defaultTime precision
    rw [point]
    cases t with
    | nil => exact .inl rfl
    | cons u t => exact .inr (instant u rfl)
  rw [line]
  refine ⟨_, sendable.readBlock _ time, sendable.scanLine _, ⟨?_, ?_⟩, rfl⟩
  · have perm := serverOrder_perm ((newTags rt tags).filter (·.value ≠ []))
    refine ⟨_, parseKey_wireKey h.shown.readable fun t ht => ?_, fun t => ?_⟩
    · obtain ⟨key, value⟩ := sendable.clean t (perm.mem_iff.mp ht)
      exact ⟨key.readable, value.readable⟩
    · rw [perm.mem_iff, List.mem_filter, mem_newTags, decide_eq_true_eq]
  · refine unmarshalBinary_fieldsText enum (fun e he => ?_) rfl
    obtain ⟨shown, writable⟩ := h.writable e.1 e.2 (enum.mem_iff.mp he)
    exact ⟨shown.readable, writable.stable⟩

end

theorem BatchPoints.body_eq (bp : BatchPoints) :
    bp.body =
      unlines Byte.newline ((bp.points.filterMap id).map (·.precisionString bp.precision)) := by
  unfold BatchPoints.body
  induction bp.points with
  | nil => rfl
  | cons p points ih =>
    cases p with
    | none => exact ih
    | some p => exact congrArg (p.precisionString bp.precision ++ [Byte.newline] ++ ·) ih

/-! ## What the loop collects -/

section
variable {blocks blocks' : List (Except ScanFailure Point)}

theorem collectBlocks_eq_none_iff :
    collectBlocks blocks = none ↔ .error .indexOutOfRange ∈ blocks := by
  unfold collectBlocks
  split_ifs with panics <;> simp [panics]

theorem collectBlocks_eq_some_iff {points : List Point} {err : Option Bytes} :
    collectBlocks blocks = some (points, err) ↔
      .error .indexOutOfRange ∉ blocks ∧ points = blocks.filterMap Except.toOption ∧
        err = if failedLines blocks = [] then none
          else some (join (failedLines blocks) [Byte.newline]) := by
  unfold collectBlocks
  split_ifs with panics <;> simp [panics, eq_comm]

theorem failedLines_append : failedLines (blocks ++ blocks') =
    failedLines blocks ++ failedLines blocks' := List.filterMap_append

/-- Blocks that follow each other: the points one after the other, and an error if there is one. -/
theorem collectBlocks_append {points points' : List Point} {err err' : Option Bytes}
    (h : collectBlocks blocks = some (points, err))
    (h' : collectBlocks blocks' = some (points', err')) :
    ∃ both, collectBlocks (blocks ++ blocks') = some (points ++ points', both) ∧
      (both = none ↔ err = none ∧ err' = none) := by
  obtain ⟨calm, rfl, rfl⟩ := collectBlocks_eq_some_iff.mp h
  obtain ⟨calm', rfl, rfl⟩ := collectBlocks_eq_some_iff.mp h'
  refine ⟨_, collectBlocks_eq_some_iff.mpr ⟨?_, List.filterMap_append.symm, rfl⟩, ?_⟩
  · simp [calm, calm']
  · simp [failedLines_append]

/-- Without an error, every block is a point. -/
theorem collectBlocks_eq_some_none_iff {points : List Point} :
    collectBlocks blocks = some (points, none) ↔ blocks = points.map .ok := by
  constructor
  · intro h
    obtain ⟨calm, rfl, none⟩ := collectBlocks_eq_some_iff.mp h
    replace none : failedLines blocks = [] := by
      by_contra failed
      rw [if_neg failed] at none
      cases none
    clear h
    induction blocks with
    | nil => rfl
    | cons b blocks ih =>
      cases b with
      | ok p =>
        rw [List.mem_cons, not_or] at calm
        exact congrArg (.ok p :: ·) (ih calm.2 none)
      | error failure =>
        cases failure with
        | err e => cases none
        | indexOutOfRange => exact absurd List.mem_cons_self calm
  · rintro rfl
    refine collectBlocks_eq_some_iff.mpr ⟨by simp, ?_, ?_⟩
    · rw [List.filterMap_map]
      exact List.filterMap_some.symm
    · have none : failedLines (points.map .ok) = [] := by simp [failedLines]
      rw [if_pos none]

end

section
variable (P : Parser) (defaultTime : Time) (precision : Bytes)

/-- The blocks of closed lines. -/
theorem Parser.readBlocks_closed {ls : List Bytes} (h : ∀ l ∈ ls, Closed l) :
    P.readBlocks defaultTime precision (unlines Byte.newline ls).length (unlines Byte.newline ls) =
      ls.filterMap (P.readBlock defaultTime precision) := by
  have blocks := P.readBlocks_unlines defaultTime precision h [] le_rfl
  rw [List.append_nil] at blocks
  exact blocks.trans (List.append_nil _)

/-- A closed line alone. -/
theorem Parser.parsePoints_line {line : Bytes} (h : Closed line) :
    P.parsePointsWithPrecision defaultTime precision (line ++ [Byte.newline]) =
      collectBlocks (P.readBlock defaultTime precision line).toList := by
  have closed : ∀ l ∈ [line], Closed l := by simpa using h
  have one := P.readBlocks_closed defaultTime precision closed
  rw [unlines_cons] at one
  refine congrArg collectBlocks (one.trans ?_)
  cases hb : P.readBlock defaultTime precision line <;> simp [hb]

/-- A body is what its lines are. If one of them makes the server panic, so does the body; if not,
the points are those of the lines, one after the other, and there is an error if one of the lines
has an error. -/
theorem parsePoints_unlines {ls : List Bytes} (h : ∀ l ∈ ls, Closed l) :
    (P.parsePointsWithPrecision defaultTime precision (unlines Byte.newline ls) = none ↔
        ∃ l ∈ ls, P.parsePointsWithPrecision defaultTime precision (l ++ [Byte.newline]) = none) ∧
      ∀ parts : List (List Point × Option Bytes), (ls.map fun l =>
          P.parsePointsWithPrecision defaultTime precision (l ++ [Byte.newline])) =
            parts.map some →
        ∃ err, P.parsePointsWithPrecision defaultTime precision (unlines Byte.newline ls) =
            some (parts.flatMap Prod.fst, err) ∧
          (err = none ↔ ∀ part ∈ parts, part.2 = none) := by
  rw [Parser.parsePointsWithPrecision, P.readBlocks_closed defaultTime precision h]
  constructor
  · rw [collectBlocks_eq_none_iff, List.mem_filterMap]
    refine exists_congr fun l => and_congr_right fun hl => ?_
    rw [P.parsePoints_line defaultTime precision (h l hl), collectBlocks_eq_none_iff,
      Option.mem_toList]
  · intro parts each
    induction ls generalizing parts with
    | nil =>
      obtain rfl := List.map_eq_nil_iff.mp each.symm
      exact ⟨none, rfl, by simp⟩
    | cons l ls ih =>
      obtain ⟨part, parts, rfl⟩ : ∃ part others, parts = part :: others := by
        cases parts with
        | nil => cases each
        | cons part others => exact ⟨part, others, rfl⟩
      obtain ⟨closed, others⟩ := List.forall_mem_cons.mp h
      obtain ⟨first, rest⟩ := List.cons.inj each
      obtain ⟨err, tail, none⟩ := ih others parts rest
      replace first := (P.parsePoints_line defaultTime precision closed).symm.trans first
      obtain ⟨both, whole, either⟩ := collectBlocks_append first tail
      refine ⟨both, ?_, ?_⟩
      · rw [List.flatMap_cons, ← whole]
        cases hb : P.readBlock defaultTime precision l <;> simp [hb]
      · rw [either, none, List.forall_mem_cons]

/-- A line that cannot be read leaves the others as they are. -/
theorem parsePoints_unlines_three :
    ∃ err, decimalParser.parsePointsWithPrecision ⟨0, 0⟩ (str "s")
        (unlines Byte.newline [str "cpu v=1i 60", str "cpu v= 61", str "mem v=T 62"]) =
      some ([⟨str "cpu", Time.unix 60 0, str "v=1i"⟩, ⟨str "mem", Time.unix 62 0, str "v=T"⟩],
        some err) := by
  have plain : ∀ l ∈ [str "cpu v=1i 60", str "cpu v= 61", str "mem v=T 62"], ∀ c ∈ l,
      c ≠ Byte.newline ∧ c ≠ Byte.quote ∧ c ≠ Byte.backslash := by
    decide +kernel
  have lines := (parsePoints_unlines decimalParser ⟨0, 0⟩ (str "s")
    fun l hl => closed_of_plain (plain l hl)).2
  obtain ⟨err, parsed, none⟩ := lines
    [([⟨str "cpu", Time.unix 60 0, str "v=1i"⟩], none),
      ([], some (str "unable to parse 'cpu v= 61': missing field value")),
      ([⟨str "mem", Time.unix 62 0, str "v=T"⟩], none)] (by decide +kernel)
  cases err with
  | none => simp at none
  | some err => exact ⟨err, parsed⟩

end

/-- The points that the server finds for those of a client. -/
def Received (P : Parser) (defaultTime : Time) (precision : Bytes) (p p' : Point) : Prop :=
  p'.time = receivedTime defaultTime precision p.time ∧
    ∀ name tags fields, Written P p name tags fields → p'.Holds P.parseFloat name tags fields

section
variable {P : Parser} {pts : List Point}
  (h : ∀ p ∈ pts, ∃ name tags fields, Written P p name tags fields) (defaultTime : Time)
  (precision : Bytes)
include h

theorem exists_received :
    ∃ pts', (pts.map (·.precisionString precision)).filterMap (P.readBlock defaultTime precision) =
        pts'.map .ok ∧ List.Forall₂ (Received P defaultTime precision) pts pts' := by
  induction pts with
  | nil => exact ⟨[], rfl, .nil⟩
  | cons p pts ih =>
    obtain ⟨⟨name, tags, fields, written⟩, others⟩ := List.forall_mem_cons.mp h
    obtain ⟨p', block, -, -, time⟩ := written.received defaultTime precision
    obtain ⟨pts', blocks, received⟩ := ih others
    refine ⟨p' :: pts', ?_, .cons ⟨time, fun name tags fields written => ?_⟩ received⟩
    · rw [List.map_cons, List.filterMap_cons_some block, blocks, List.map_cons]
    · -- whatever else the point can be made of, the server reads the same line
      obtain ⟨q, block', -, holds, -⟩ := written.received defaultTime precision
      cases block.symm.trans block'
      exact holds

/-- The lines of the points are read without an error. -/
theorem parsePoints_received :
    ∃ pts', P.parsePointsWithPrecision defaultTime precision
        (unlines Byte.newline (pts.map (·.precisionString precision))) = some (pts', none) ∧
      List.Forall₂ (Received P defaultTime precision) pts pts' := by
  obtain ⟨pts', blocks, received⟩ := exists_received h defaultTime precision
  have closed : ∀ l ∈ pts.map (·.precisionString precision), Closed l := by
    intro l hl
    obtain ⟨p, mem, rfl⟩ := List.mem_map.mp hl
    obtain ⟨name, tags, fields, written⟩ := h p mem
    exact (written.received defaultTime precision).choose_spec.2.1
  have read := P.readBlocks_closed defaultTime precision closed
  exact ⟨pts', collectBlocks_eq_some_none_iff.mpr (read.trans blocks), received⟩

/-- A batch arrives whole and in order: the server reads its body without an error, and finds one
point for each of the batch, with the measurement, the tags, the fields and the time of that point.
-/
theorem parsePoints_body {bp : BatchPoints} (hbp : bp.points.filterMap id = pts) :
    ∃ pts', P.parsePointsWithPrecision defaultTime bp.precision bp.body = some (pts', none) ∧
      List.Forall₂ (Received P defaultTime bp.precision) pts pts' := by
  rw [bp.body_eq, hbp]
  exact parsePoints_received h defaultTime bp.precision

end

/-- A point with the two fields and a tag with a space in it. -/
def twoFieldsPoint : Point where
  key := str "cpu,host=a\\ b"
  time := Time.unix 0 1552506033123456789
  fields := marshalBinary .ordered twoFields

theorem twoFieldsPoint_written :
    Written decimalParser twoFieldsPoint (str "cpu")
      (Finmap.singleton (str "host") (str "a b")) twoFields where
  made := by
    refine ⟨.ordered, [Time.unix 0 1552506033123456789], by decide +kernel, ?_⟩
    rintro u ⟨⟩
    exact ⟨_, rfl⟩
  shown := by decide
  hash := by decide
  clean k v hv _ := by
    obtain ⟨rfl, rfl⟩ := of_lookup_singleton hv
    decide
  count := by decide +kernel
  writable k v hv := by
    have mem := (show Enumerates _ twoFields from rfl).mem_iff.mpr hv
    simp only [List.mem_cons, List.not_mem_nil, or_false] at mem
    rcases mem with mem | mem <;> cases mem
    · exact ⟨by decide, trivial⟩
    · exact ⟨by decide, trivial⟩
  size k v hv := by
    have mem := (show Enumerates _ twoFields from rfl).mem_iff.mpr hv
    simp only [List.mem_cons, List.not_mem_nil, or_false] at mem
    rcases mem with mem | mem <;> cases mem <;> decide +kernel

/-- A batch with a nil point before this one, in milliseconds. -/
theorem parsePoints_body_twoFields :
    ∃ p', decimalParser.parsePointsWithPrecision ⟨0, 0⟩ (str "ms")
        (BatchPoints.body ⟨[none, some twoFieldsPoint], str "db", str "ms", [], []⟩) =
          some ([p'], none) ∧
      p'.time = Time.unix 0 1552506033123000000 ∧
      p'.Holds decimalParser.parseFloat (str "cpu")
        (Finmap.singleton (str "host") (str "a b")) twoFields := by
  have written : ∀ p ∈ [twoFieldsPoint], ∃ name tags fields,
      Written decimalParser p name tags fields := by
    intro p hp
    cases List.mem_singleton.mp hp
    exact ⟨_, _, _, twoFieldsPoint_written⟩
  have points :
      (BatchPoints.mk [none, some twoFieldsPoint] (str "db") (str "ms") [] []).points.filterMap
      id = [twoFieldsPoint] := rfl
  obtain ⟨pts', read, received⟩ := parsePoints_body written ⟨0, 0⟩ points
  cases received with
  | cons first rest =>
    cases rest
    exact ⟨_, read, first.1.trans (by decide +kernel), first.2 _ _ _ twoFieldsPoint_written⟩

/-! ## What is accepted -/

/-- A point as the server stores it. -/
structure Point.WellFormed (defaultTime : Time) (precision : Bytes) (p : Point) : Prop where
  /-- A measurement and tags, each tag key once and in order. -/
  key : ∃ m tags, p.key = joinKey m tags ∧ MeasurementToken m ∧ (∀ t ∈ tags, TagToken t) ∧
    tags.Pairwise fun a b => tagKeyOf a < tagKeyOf b
  /-- The key is its own normal form. -/
  normal : ∀ rest, rest.head? = some Byte.space → scanKey (p.key ++ rest) = .ok (p.key, rest)
  fields : p.fields ≠ []
  /-- Every field that the iterator shows fits into the index. -/
  size : ∀ item ∈ p.fieldItems, seriesKeySize p.key item.key ≤ maxKeyLength
  time : p.time = setPrecision defaultTime precision ∨ checkTime p.time = .ok ()

theorem head?_scanFieldValue (quoted : Bool) (buf : Bytes) :
    ∀ c ∈ (scanFieldValue quoted buf).2.head?, c = Byte.comma := by
  fun_induction scanFieldValue quoted buf <;> simp_all

/-- `walkFields` measures the fields that the iterator shows. -/
theorem seriesKeySize_of_walkFields {key : Bytes} {fuel : Nat} {buf : Bytes}
    (h : walkFields key fuel buf = .ok ()) {prev : Option UInt8} (hp : prev ≠ some Byte.backslash)
    {item : FieldItem} (hi : item ∈ fieldItems fuel prev buf) :
    seriesKeySize key item.key ≤ maxKeyLength := by
  induction fuel generalizing prev buf with
  | zero => cases hi
  | succ fuel ih =>
    rw [walkFields] at h
    rw [fieldItems] at hi
    by_cases empty : buf = []
    · simp [empty] at hi
    rw [if_neg empty] at h hi
    have same : scanTo Byte.equals prev buf = scanTo Byte.equals none buf := span_eq_of_ne hp buf
    simp only [nextField, same, List.mem_cons] at hi
    dsimp only at h
    split_ifs at h
    · cases h
    obtain ⟨_, size, walk⟩ := Except.bind_eq_ok_iff.mp h
    rcases hi with rfl | later
    · -- the stored name is not longer than the one that was measured
      rw [FieldItem.key_ofValue]
      have fits : ¬ maxKeyLength < seriesKeySize key (scanTo Byte.equals none buf).1 :=
        fun long => by simp [checkKeySize, long] at size
      have shorter : (unescapeBytes (scanTo Byte.equals none buf).1).length ≤
          (scanTo Byte.equals none buf).1.length := length_unescape_le _
      simp only [seriesKeySize] at fits ⊢
      split_ifs <;> omega
    · refine ih walk ?_ later
      intro backslash
      exact absurd (head?_scanFieldValue _ _ _ backslash) (by decide)

section
variable {P : Parser} {defaultTime : Time} {precision : Bytes} {p : Point}

theorem checkTime_of_lineTime {ts rest : Bytes} {t : Time}
    (h : lineTime ts rest defaultTime precision = .ok t) :
    t = setPrecision defaultTime precision ∨ checkTime t = .ok () := by
  unfold lineTime at h
  by_cases empty : ts = []
  · rw [if_pos empty] at h
    exact .inl (Except.ok.inj h).symm
  · rw [if_neg empty] at h
    obtain ⟨n, -, h⟩ := Except.bind_eq_ok_iff.mp h
    obtain ⟨u, made, h⟩ := Except.bind_eq_ok_iff.mp h
    split_ifs at h
    cases h
    unfold safeCalcTime at made
    dsimp only at made
    split_ifs at made
    obtain ⟨_, inRange, same⟩ := Except.bind_eq_ok_iff.mp made
    cases same
    exact .inr inRange

theorem Parser.wellFormed_of_parsePoint {line : Bytes}
    (h : P.parsePoint line defaultTime precision = .ok p) : p.WellFormed defaultTime precision := by
  obtain ⟨⟨key, rest⟩, hkey, h⟩ := Except.bind_eq_ok_iff.mp h
  replace h := ScanFailure.check_eq_ok_iff.mp h
  unfold Parser.parseBehindKey at h
  by_cases empty : key = []
  · rw [if_pos empty] at h
    cases h
  rw [if_neg empty] at h
  by_cases long : maxKeyLength < key.length
  · rw [if_pos long] at h
    cases h
  rw [if_neg long] at h
  obtain ⟨⟨fields, rest'⟩, -, h⟩ := Except.bind_eq_ok_iff.mp h
  dsimp only at h
  by_cases missing : fields = []
  · rw [if_pos missing] at h
    cases h
  rw [if_neg missing] at h
  obtain ⟨_, walk, h⟩ := Except.bind_eq_ok_iff.mp h
  obtain ⟨⟨ts, rest''⟩, -, h⟩ := Except.bind_eq_ok_iff.mp h
  obtain ⟨time, ht, h⟩ := Except.bind_eq_ok_iff.mp h
  cases h
  obtain ⟨m, tags, shape, few, nodup, rfl⟩ := scanKey_eq_ok_iff.mp hkey
  have tokens : ∀ t ∈ sortBy tagKeyOf tags, TagToken t :=
    fun t mem => shape.tagTokens t ((sortBy_perm tagKeyOf tags).mem_iff.mp mem)
  exact {
    key := ⟨m, _, rfl, shape.measurement, tokens, sortBy_strict nodup⟩
    normal := fun rest space => shape.scanKey_sorted few nodup space
    fields := missing
    size := fun item hi => seriesKeySize_of_walkFields walk (Option.some_ne_none _).symm hi
    time := checkTime_of_lineTime ht }

/-- What is found in a body was read from one of its blocks. -/
theorem Parser.exists_readBlock {fuel : Nat} {buf : Bytes} {found : Except ScanFailure Point}
    (h : found ∈ P.readBlocks defaultTime precision fuel buf) :
    ∃ block, P.readBlock defaultTime precision block = some found := by
  induction fuel generalizing buf with
  | zero => cases h
  | succ fuel ih =>
    rw [readBlocks] at h
    split_ifs at h
    · cases h
    · rcases List.mem_append.mp h with first | later
      · exact ⟨_, Option.mem_toList.mp first⟩
      · exact ih later

theorem Parser.parsePoint_of_readBlock {block : Bytes}
    (h : P.readBlock defaultTime precision block = some (.ok p)) :
    ∃ line, P.parsePoint line defaultTime precision = .ok p := by
  simp only [Parser.readBlock] at h
  split_ifs at h <;> split at h <;> cases h <;> exact ⟨_, ‹_›⟩

/-- Whatever the body, what the server accepts of it is well formed. -/
theorem parsePoints_wellFormed {body : Bytes} {points : List Point} {err : Option Bytes}
    (h : P.parsePointsWithPrecision defaultTime precision body = some (points, err))
    (hp : p ∈ points) : p.WellFormed defaultTime precision := by
  obtain ⟨-, rfl, -⟩ := collectBlocks_eq_some_iff.mp h
  obtain ⟨found, mem, ok⟩ := List.mem_filterMap.mp hp
  obtain rfl : found = .ok p := by
    cases found with
    | ok q => rw [Option.some.inj ok]
    | error message => cases ok
  obtain ⟨block, read⟩ := Parser.exists_readBlock mem
  obtain ⟨line, parsed⟩ := Parser.parsePoint_of_readBlock read
  exact Parser.wellFormed_of_parsePoint parsed

end

/-- A point whose tags were sorted, from a body with a line that is refused. -/
theorem parsePoints_wellFormed_cpu :
    Point.WellFormed ⟨0, 0⟩ (str "s") ⟨str "cpu,a=1,b=2", Time.unix 60 0, str "v=1i"⟩ := by
  have parsed : decimalParser.parsePointsWithPrecision ⟨0, 0⟩ (str "s")
      (str "cpu,b=2,a=1 v=1i 60\ncpu v= 1\n") =
      some ([⟨str "cpu,a=1,b=2", Time.unix 60 0, str "v=1i"⟩],
        some (str "unable to parse 'cpu v= 1': missing field value")) := by
    decide +kernel
  exact parsePoints_wellFormed parsed List.mem_cons_self

end InfluxHandler.Influx
