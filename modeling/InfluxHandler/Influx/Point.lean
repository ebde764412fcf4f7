import InfluxHandler.Influx.Tags
import InfluxHandler.Go.Float
import InfluxHandler.Go.Time
import InfluxHandler.Library.Traced

/-!
# Points: construction, checks and the line protocol

`newPoint` refuses a point without fields, out of time range, with a value that is no number,
with an unnamed field, or with a key that is too long, in this order. The point itself keeps only
encoded text: the series key, the fields and the time. `precisionString` is its line.
-/
namespace InfluxHandler.Influx
open Go KeyedMap

/-! ## The supported time range -/

/-- The two least `int64` values are sentinels, and so is the greatest. -/
abbrev minNanoTime : Int64 := -9223372036854775806
abbrev maxNanoTime : Int64 := 9223372036854775806

def errTimeOutOfRange : GoError :=
  .text (str "time outside range " ++ formatInt minNanoTime ++ str " - " ++ formatInt maxNanoTime)

def checkTime (t : Time) : Except GoError Unit :=
  if t.before (Time.unix 0 minNanoTime) || t.after (Time.unix 0 maxNanoTime) then
    .error errTimeOutOfRange
  else .ok ()

/-- The product and whether it is exact. -/
def safeSignedMult (a b : Int64) : Int64 × Bool :=
  if a = 0 ∨ b = 0 ∨ a = 1 ∨ b = 1 then (a * b, true)
  else if a = minNanoTime ∨ b = maxNanoTime then (0, false)
  else (a * b, a * b / b == a)

def getPrecisionMultiplier (precision : Bytes) : Int64 :=
  if precision = str "u" then 1000
  else if precision = str "ms" then 1000000
  else if precision = str "s" then 1000000000
  else if precision = str "m" then 60000000000
  else if precision = str "h" then 3600000000000
  else 1

/-- The instant that the server reads from a written timestamp. -/
def safeCalcTime (timestamp : Int64) (precision : Bytes) : Except GoError Time :=
  let (t, ok) := safeSignedMult timestamp (getPrecisionMultiplier precision)
  if ok then do
    checkTime (Time.unix 0 t)
    pure (Time.unix 0 t)
  else .error errTimeOutOfRange

theorem checkTime_unixNano {x : Int64} (hlo : minNanoTime.toInt ≤ x.toInt)
    (hhi : x.toInt ≤ maxNanoTime.toInt) : checkTime (Time.unix 0 x) = .ok () := by
  refine if_neg ?_
  rw [Bool.or_eq_true, Time.before_unix, Time.after_unix]
  omega

/-- Which units the multiplier table knows, besides the default. -/
theorem getPrecisionMultiplier_cases (precision : Bytes) :
    (getPrecisionMultiplier precision).toInt ∈ ([1, 1000, 1000000, 1000000000] : List Int) ∨
      precision = str "m" ∧ (getPrecisionMultiplier precision).toInt = 60000000000 ∨
      precision = str "h" ∧ (getPrecisionMultiplier precision).toInt = 3600000000000 := by
  unfold getPrecisionMultiplier
  split_ifs with u ms s m h
  · exact .inl (by decide)
  · exact .inl (by decide)
  · exact .inl (by decide)
  · exact .inr (.inl ⟨m, by decide⟩)
  · exact .inr (.inr ⟨h, by decide⟩)
  · exact .inl (by decide)

theorem getPrecisionMultiplier_range (precision : Bytes) :
    1 ≤ (getPrecisionMultiplier precision).toInt ∧
      (getPrecisionMultiplier precision).toInt ≤ 3600000000000 := by
  rcases getPrecisionMultiplier_cases precision with h | ⟨-, h⟩ | ⟨-, h⟩
  · simp only [List.mem_cons, List.not_mem_nil, or_false] at h
    omega
  · omega
  · omega

/-- A product that fits and avoids the sentinels is found to be exact. -/
theorem safeSignedMult_eq {a b : Int64} (ha : a ≠ minNanoTime) (hb : b ≠ maxNanoTime)
    (hpos : 0 < b.toInt) (hlo : -2 ^ 63 ≤ a.toInt * b.toInt) (hhi : a.toInt * b.toInt < 2 ^ 63) :
    (a * b).toInt = a.toInt * b.toInt ∧ safeSignedMult a b = (a * b, true) := by
  have prod : (a * b).toInt = a.toInt * b.toInt := by
    rw [Int64.toInt_mul]
    exact Int.bmod_eq_of_le (by omega) (by omega)
  refine ⟨prod, ?_⟩
  unfold safeSignedMult
  split_ifs with trivial sentinel
  · rfl
  · tauto
  · have back : a * b / b = a := by
      have positive : b ≠ -1 := by
        rintro rfl
        exact absurd hpos (by decide)
      rw [← Int64.toInt_inj, Int64.toInt_div_of_ne_right _ _ positive, prod,
        Int.mul_tdiv_cancel _ hpos.ne']
    rw [back, beq_self_eq_true]

/-! ## Fields -/

/-- The cases of the type switch on a field value. All integer types but `uint64` are converted
to `int64`; a value of any other type is printed with `%v`. -/
inductive FieldValue where
  | float64 (v : Float)
  | float32 (v : Float32)
  | integer (v : Int64)
  | unsigned (v : UInt64)
  | boolean (v : Bool)
  | string (v : Bytes)
  | bytes (v : Bytes)
  | nil
  | other (text : Bytes)
  deriving DecidableEq

abbrev Fields := Map Bytes FieldValue

/-- `escape.String`. -/
def escapeString (s : Bytes) : Bytes :=
  s.flatMap fun c =>
    if c = Byte.comma ∨ c = Byte.quote ∨ c = Byte.space ∨ c = Byte.equals then [Byte.backslash, c]
    else [c]

def escapeStringField (s : Bytes) : Bytes :=
  s.flatMap fun c => if c = Byte.quote ∨ c = Byte.backslash then [Byte.backslash, c] else [c]

def quoted (s : Bytes) : Bytes := Byte.quote :: (escapeStringField s ++ [Byte.quote])

def formatFieldValue : FieldValue → Bytes
  | .float64 v => formatFloat v
  | .float32 v => formatFloat32 v
  | .integer v => formatInt v ++ str "i"
  | .unsigned v => formatUint v.toNat ++ str "u"
  | .boolean v => if v then str "true" else str "false"
  | .string v => quoted v
  | .bytes v => v
  | .nil => []
  | .other text => quoted text

def appendField (b k : Bytes) (v : FieldValue) : Bytes :=
  b ++ escapeString k ++ [Byte.equals] ++ formatFieldValue v

/-- `Fields.MarshalBinary`: the fields by increasing key, separated by commas. -/
def marshalBinary (rt : Runtime) (p : Fields) : Bytes :=
  join ((rt.sort (fun a b => less a.1 b.1) (rt.range p)).map fun e => appendField [] e.1 e.2)
    [Byte.comma]

/-! ## Points -/

structure Point where
  key : Bytes
  time : Time
  fields : Bytes
  deriving DecidableEq

abbrev maxKeyLength : Nat := 65535

/-- Four bytes separate the key from the field in storage. -/
def seriesKeySize (key field : Bytes) : Nat := key.length + 4 + field.length

/-- The checks of one field: the value first, then the name. -/
def checkField (key : Bytes) (value : FieldValue) : Except GoError Unit := do
  match value with
  | .float64 v => checkNumber v.isInf v.isNaN
  | .float32 v => checkNumber v.isInf v.isNaN
  | _ => pure ()
  if key = [] then .error (.text (str "all fields must have non-empty names"))
where
  checkNumber (isInf isNaN : Bool) : Except GoError Unit :=
    if isInf then .error (.text (str "+/-Inf is an unsupported value for field " ++ key))
    else if isNaN then .error (.text (str "NaN is an unsupported value for field " ++ key))
    else .ok ()

def checkKeySize (key field : Bytes) : Except GoError Unit :=
  if maxKeyLength < seriesKeySize key field then
    .error (.text (str "max key length exceeded: " ++ formatUint (seriesKeySize key field) ++
      str " > " ++ formatUint maxKeyLength))
  else .ok ()

def pointKey (rt : Runtime) (measurement : Bytes) (tags : List Tag) (fields : Fields) (t : Time) :
    Except GoError Bytes := do
  if fields.entries.card = 0 then .error (.text (str "point without fields is unsupported"))
  if ¬ t.isZero then checkTime t
  (rt.range fields).forM fun e => checkField e.1 e.2
  let key := makeKey measurement tags
  (rt.range fields).forM fun e => checkKeySize key e.1
  pure key

def newPoint (rt : Runtime) (name : Bytes) (tags : List Tag) (fields : Fields) (t : Time) :
    Except GoError Point := do
  let key ← pointKey rt name tags fields t
  pure ⟨key, t, marshalBinary rt fields⟩

/-- The point's line, with its time in the unit of the precision. -/
def Point.precisionString (p : Point) (precision : Bytes) : Bytes :=
  if p.time.isZero then p.key ++ [Byte.space] ++ p.fields
  else p.key ++ [Byte.space] ++ p.fields ++ [Byte.space] ++
    formatInt (p.time.unixNano / getPrecisionMultiplier precision)

/-- The bytes of a field key that matter for framing are those of the field. -/
theorem newline_mem_escapeString_iff (k : Bytes) :
    Byte.newline ∈ escapeString k ↔ Byte.newline ∈ k := by
  unfold escapeString
  induction k with
  | nil => rfl
  | cons c k ih =>
    rw [List.flatMap_cons, List.mem_append, ih, List.mem_cons]
    apply or_congr_left
    split_ifs with h
    · rcases h with rfl | rfl | rfl | rfl <;> decide
    · simp

theorem newline_mem_appendField_iff (k : Bytes) (v : Float) :
    Byte.newline ∈ appendField [] k (.float64 v) ↔ Byte.newline ∈ k := by
  have equals : Byte.newline ≠ Byte.equals := by decide
  simp [appendField, formatFieldValue, newline_not_mem_formatFloat, newline_mem_escapeString_iff,
    equals]

/-- The timestamp of a line, which is its last word. -/
def lineTimestamp (line : Bytes) : Except GoError Int64 :=
  parseInt ((split line Byte.space).getLastD [])

theorem lineTimestamp_precisionString {p : Point} (h : p.time.isZero = false) (precision : Bytes) :
    lineTimestamp (p.precisionString precision) =
      .ok (p.time.unixNano / getPrecisionMultiplier precision) := by
  have space : Byte.space ∉ formatInt (p.time.unixNano / getPrecisionMultiplier precision) := by
    intro hm
    rcases isDigit_or_minus_of_mem_formatInt hm with h | h <;> cases h
  rw [lineTimestamp, Point.precisionString, if_neg (by simp [h]), List.append_assoc _ [Byte.space],
    List.singleton_append, split, List.splitOn_append_cons_self, List.splitOn_eq_singleton space,
    List.getLastD_concat, parseInt_formatInt]

/-! ## Points with one field -/

section
variable (rt : Runtime) (k : Bytes) (v : FieldValue)

theorem range_singleton {V : Type} (v : V) : rt.range (Finmap.singleton k v) = [⟨k, v⟩] :=
  (rt.range_enumerates _).singleton

theorem marshalBinary_singleton : marshalBinary rt (Finmap.singleton k v) = appendField [] k v := by
  rw [marshalBinary, range_singleton, List.perm_singleton.mp (rt.sort_perm _ [_])]
  simp [join]

/-- With one field the checks run in a line: time, value, name, size. -/
theorem newPoint_singleton (name : Bytes) (tags : List Tag) {t : Time} (ht : t.isZero = false) :
    newPoint rt name tags (Finmap.singleton k v) t = (do
      checkTime t
      checkField k v
      checkKeySize (makeKey name tags) k
      pure ⟨makeKey name tags, t, appendField [] k v⟩) := by
  have one : ¬ (Finmap.singleton k v : Fields).entries.card = 0 := by
    simp [Finmap.singleton]
  have visit {α : Type} (a : α) (f : α → Except GoError Unit) : [a].forM f = f a := bind_pure (f a)
  simp only [newPoint, pointKey, one, if_false, range_singleton, marshalBinary_singleton, ht, visit,
    bind_assoc, pure_bind, Bool.false_eq_true, not_false_eq_true, if_true]

end

/-! ## Whole seconds in the time range -/

section
variable {n : Int64} (hlo : -10 ^ 18 ≤ n.toInt) (hhi : n.toInt ≤ 10 ^ 18)
include hlo hhi

theorem before_minNanoTime :
    (Time.unix n 0).before (Time.unix 0 minNanoTime) = true ↔ n.toInt ≤ -9223372037 := by
  have first : Time.unix 0 minNanoTime = ⟨-9223372037 + Time.unixToInternal, 145224194⟩ := by decide
  have edge : ((-9223372037 : Int64) + Time.unixToInternal).toInt = 52912224763 := by decide
  have behind : (0 : Int64) < 145224194 := by decide
  rw [first, Time.unix_zero, Time.before]
  simp only [Bool.or_eq_true, Bool.and_eq_true, decide_eq_true_eq, beq_iff_eq, behind, and_true,
    Int64.lt_iff_toInt_lt, ← Int64.toInt_inj, Time.toInt_internal hlo hhi, edge]
  omega

theorem after_maxNanoTime :
    (Time.unix n 0).after (Time.unix 0 maxNanoTime) = true ↔ 9223372037 ≤ n.toInt := by
  have last : Time.unix 0 maxNanoTime = ⟨9223372036 + Time.unixToInternal, 854775806⟩ := by decide
  have edge : ((9223372036 : Int64) + Time.unixToInternal).toInt = 71358968836 := by decide
  have behind : ¬ (854775806 : Int64) < 0 := by decide
  rw [last, Time.unix_zero, Time.after]
  simp only [Bool.or_eq_true, Bool.and_eq_true, decide_eq_true_eq, beq_iff_eq, behind, and_false,
    or_false, Int64.lt_iff_toInt_lt, Time.toInt_internal hlo hhi, edge]
  omega

theorem checkTime_unix :
    checkTime (Time.unix n 0) =
      if -9223372036 ≤ n.toInt ∧ n.toInt ≤ 9223372036 then .ok ()
      else .error errTimeOutOfRange := by
  unfold checkTime
  simp only [Bool.or_eq_true, before_minNanoTime hlo hhi, after_maxNanoTime hlo hhi]
  split_ifs <;> first | rfl | omega

end

end InfluxHandler.Influx
