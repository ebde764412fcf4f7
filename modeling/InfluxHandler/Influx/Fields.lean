import InfluxHandler.Influx.Key

/-!
# Reading fields

A point keeps its fields as text, `key=value,...`; the field iterator reads them back one by one.
The type of a value is told from its first and last byte. `unmarshalBinary_marshalBinary` is the
round trip through that text for maps of any size.
-/
namespace InfluxHandler.Influx
open Go Escape KeyedMap

/-! ## The iterator -/

/-- `scanFieldValue`: the value up to a comma outside quotes. In quotes and outside, a backslash
escapes a quote or a backslash. -/
def scanFieldValue (quoted : Bool) : Bytes → Bytes × Bytes
  | [] => ([], [])
  | [c] => if c = Byte.comma ∧ quoted = false then ([], [c]) else ([c], [])
  | c :: d :: buf =>
    if c = Byte.backslash ∧ (d = Byte.quote ∨ d = Byte.backslash) then
      (c :: d :: (scanFieldValue quoted buf).1, (scanFieldValue quoted buf).2)
    else if c = Byte.quote then
      (c :: (scanFieldValue (!quoted) (d :: buf)).1, (scanFieldValue (!quoted) (d :: buf)).2)
    else if c = Byte.comma ∧ quoted = false then ([], c :: d :: buf)
    else (c :: (scanFieldValue quoted (d :: buf)).1, (scanFieldValue quoted (d :: buf)).2)

inductive FieldType where
  | integer
  | float
  | boolean
  | string
  | empty
  | unsigned
  deriving DecidableEq

/-- `escape.IsEscaped`. -/
def isEscaped : Bytes → Bool
  | c :: d :: b => c = Byte.backslash && d ∈ escapeChars || isEscaped (d :: b)
  | _ => false

/-- What the iterator shows of a field; the value is without its type suffix. -/
structure FieldItem where
  key : Bytes
  type : FieldType
  value : Bytes
  deriving DecidableEq

def FieldItem.ofValue (key value : Bytes) : FieldItem :=
  match value with
  | [] => ⟨key, .empty, value⟩
  | c :: _ =>
    if c = Byte.quote then ⟨key, .string, value⟩
    else if c ∈ str "0123456789-.nNiIu" then
      if value.getLast? = some 105 then ⟨key, .integer, value.dropLast⟩
      else if value.getLast? = some 117 then ⟨key, .unsigned, value.dropLast⟩
      else ⟨key, .float, value⟩
    else ⟨key, .boolean, value⟩

/-- One call of `Next`: the field at the front, the text behind its comma, and the byte before that.
-/
def nextField (prev : Option UInt8) (buf : Bytes) : FieldItem × Option UInt8 × Bytes :=
  let (key, buf) := scanTo Byte.equals prev buf
  let (value, buf) := scanFieldValue false buf.tail
  (.ofValue (if isEscaped key then unescapeBytes key else key) value, buf.head?, buf.tail)

/-- All fields. Every field takes a byte. -/
def fieldItems : Nat → Option UInt8 → Bytes → List FieldItem
  | 0, _, _ => []
  | fuel + 1, prev, buf =>
    if buf = [] then []
    else
      let (item, prev, buf) := nextField prev buf
      item :: fieldItems fuel prev buf

def Point.fieldItems (p : Point) : List FieldItem := Influx.fieldItems p.fields.length none p.fields

/-! ## Values -/

/-- `unescapeStringField`. -/
def unescapeStringField (s : Bytes) : Bytes :=
  unescape Byte.backslash [Byte.backslash, Byte.quote] s

/-- `strconv.ParseBool`. -/
def parseBool (s : Bytes) : Option Bool :=
  if s ∈ [str "1", str "t", str "T", str "true", str "TRUE", str "True"] then some true
  else if s ∈ [str "0", str "f", str "F", str "false", str "FALSE", str "False"] then some false
  else none

/-- The parts of the error for a value that is not of its type. -/
structure FieldError where
  key : Bytes
  type : FieldType
  value : Bytes
  deriving DecidableEq

section
variable (parseFloat : Bytes → Option Float)

/-- The value of a field; an empty one has none. -/
def FieldItem.read (item : FieldItem) : Except FieldError (Option FieldValue) :=
  let orFail {α : Type} (v : Option α) (f : α → FieldValue) :
      Except FieldError (Option FieldValue) :=
    match v with
    | some v => .ok (some (f v))
    | none => .error ⟨item.key, item.type, item.value⟩
  match item.type with
  | .float => orFail (parseFloat item.value) .float64
  | .integer => orFail (parseInt item.value).toOption .integer
  | .unsigned => orFail (parseUint item.value).toOption fun n => .unsigned (UInt64.ofNat n)
  | .boolean => orFail (parseBool item.value) .boolean
  | .string => .ok (some (.string (unescapeStringField item.value.tail.dropLast)))
  | .empty => .ok none

/-- The loop of `unmarshalBinary`: fields without a name or a value are left out, and of two fields
of one name the last one stays. -/
def readItems (items : List FieldItem) : Except FieldError Fields :=
  items.foldlM (fun fields item => do
    if item.key = [] then pure fields
    else match ← item.read parseFloat with
      | some v => pure (fields.insert item.key v)
      | none => pure fields) ∅

/-- `point.Fields`. -/
def Point.unmarshalBinary (p : Point) : Except FieldError Fields :=
  readItems parseFloat p.fieldItems

end

/-! ## The end of a value -/

section
variable {quoted : Bool} {c : UInt8}

/-- A byte that means nothing where it stands. -/
theorem scanFieldValue_pass (hq : c ≠ Byte.quote) (hb : c ≠ Byte.backslash)
    (hc : c = Byte.comma → quoted = true) (s : Bytes) :
    scanFieldValue quoted (c :: s) =
      (c :: (scanFieldValue quoted s).1, (scanFieldValue quoted s).2) := by
  have comma : ¬ (c = Byte.comma ∧ quoted = false) := fun h => by
    rw [hc h.1] at h
    exact absurd h.2 (by decide)
  cases s with
  | nil => exact if_neg comma
  | cons d s => rw [scanFieldValue, if_neg fun h => hb h.1, if_neg hq, if_neg comma]

theorem scanFieldValue_quote (s : Bytes) :
    scanFieldValue quoted (Byte.quote :: s) =
      (Byte.quote :: (scanFieldValue (!quoted) s).1, (scanFieldValue (!quoted) s).2) := by
  cases s with
  | nil => rfl
  | cons d s => rfl

theorem scanFieldValue_escaped {d : UInt8} (hd : d = Byte.quote ∨ d = Byte.backslash) (s : Bytes) :
    scanFieldValue quoted (Byte.backslash :: d :: s) =
      (Byte.backslash :: d :: (scanFieldValue quoted s).1, (scanFieldValue quoted s).2) := by
  rw [scanFieldValue, if_pos ⟨rfl, hd⟩]

end

/-- A text that is read as one value, at the end or before a comma. -/
def ValueText (v : Bytes) : Prop :=
  ∀ t, t = [] ∨ t.head? = some Byte.comma → scanFieldValue false (v ++ t) = (v, t)

theorem scanFieldValue_stop {t : Bytes} (h : t = [] ∨ t.head? = some Byte.comma) :
    scanFieldValue false t = ([], t) := by
  rcases h with rfl | h
  · rfl
  · obtain ⟨s, rfl⟩ := List.head?_eq_some_iff.mp h
    cases s <;> rfl

theorem valueText_of_plain {v : Bytes}
    (h : ∀ c ∈ v, c ≠ Byte.quote ∧ c ≠ Byte.backslash ∧ c ≠ Byte.comma) : ValueText v := by
  intro t ht
  induction v with
  | nil => exact scanFieldValue_stop ht
  | cons c v ih =>
    obtain ⟨⟨hq, hb, hc⟩, rest⟩ := List.forall_mem_cons.mp h
    rw [List.cons_append, scanFieldValue_pass hq hb fun h => absurd h hc, ih rest]

theorem valueText_of_all {v : Bytes}
    (h : v.all (fun c => c != Byte.quote && c != Byte.backslash && c != Byte.comma) = true) :
    ValueText v := by
  refine valueText_of_plain fun c hc => ?_
  simpa [and_assoc] using List.all_eq_true.mp h c hc

theorem escapeStringField_eq (s : Bytes) :
    escapeStringField s = escape Byte.backslash [Byte.backslash, Byte.quote] s := by
  have same (c : UInt8) :
      c = Byte.quote ∨ c = Byte.backslash ↔ c ∈ [Byte.backslash, Byte.quote] := by
    simp [or_comm]
  simp only [escapeStringField, escape, same]

/-- Inside quotes the scan runs over an escaped text, whatever bytes it has. -/
theorem scanFieldValue_escapeStringField (s t : Bytes) :
    scanFieldValue true (escapeStringField s ++ t) =
      (escapeStringField s ++ (scanFieldValue true t).1, (scanFieldValue true t).2) := by
  rw [escapeStringField_eq]
  induction s with
  | nil => rfl
  | cons c s ih =>
    by_cases h : c ∈ [Byte.backslash, Byte.quote]
    · have special : c = Byte.quote ∨ c = Byte.backslash := by simpa [or_comm] using h
      rw [escape_cons_mem h, List.cons_append, List.cons_append, scanFieldValue_escaped special, ih]
      rfl
    · simp only [List.mem_cons, List.not_mem_nil, or_false, not_or] at h
      rw [escape_cons_not_mem (by simp [h]), List.cons_append,
        scanFieldValue_pass h.2 h.1 fun _ => rfl, ih]
      rfl

theorem valueText_quoted (s : Bytes) : ValueText (quoted s) := by
  intro t ht
  rw [quoted, List.cons_append, List.append_assoc, List.singleton_append, scanFieldValue_quote,
    Bool.not_false, scanFieldValue_escapeStringField, scanFieldValue_quote, Bool.not_true,
    scanFieldValue_stop ht]

/-- The text between the quotes gives the string back. -/
theorem unescapeStringField_quoted (s : Bytes) :
    unescapeStringField (quoted s).tail.dropLast = s := by
  rw [quoted, List.tail_cons, List.dropLast_concat, unescapeStringField, escapeStringField_eq]
  exact unescape_escape_of_mem (by decide) s

/-! ## One field -/

section
variable {k v : Bytes}

/-- The iterator takes the shortcut for keys without escapes; it changes nothing. -/
theorem unescapeBytes_of_not_isEscaped {s : Bytes} (h : isEscaped s = false) :
    unescapeBytes s = s := by
  induction s with
  | nil => rfl
  | cons c s ih =>
    cases s with
    | nil => rfl
    | cons d s =>
      rw [isEscaped, Bool.or_eq_false_iff, Bool.and_eq_false_iff] at h
      have plain : ¬ (c = Byte.backslash ∧ d ∈ escapeChars) := by
        rintro ⟨rfl, hd⟩
        simp [hd] at h
      rw [unescapeBytes, unescape, if_neg plain]
      exact congrArg (c :: ·) (ih h.2)

theorem unescapeBytes_escapeString (k : Bytes) : unescapeBytes (escapeString k) = k := by
  rw [escapeString_eq]
  exact unescape_escape (by decide) k

/-- A key ends at its equals sign. -/
theorem scanTo_escapeString (hk : Readable k) (prev : Option UInt8) (t : Bytes) :
    scanTo Byte.equals prev (escapeString k ++ Byte.equals :: t) =
      (escapeString k, Byte.equals :: t) := by
  have visible : k.getLast?.or prev ≠ some Byte.backslash := by
    have last := List.getLast?_eq_some_getLast hk.ne_nil
    rw [last, Option.some_or, ← last]
    exact hk.last
  have block : Block Byte.backslash [Byte.equals] prev (escapeString k) := by
    rw [escapeString_eq]
    exact block_escape (by decide) (by decide) visible
  exact block.span_append (List.mem_singleton_self _) t

theorem nextField_eq (hk : Readable k) (hv : ValueText v) {t : Bytes}
    (ht : t = [] ∨ t.head? = some Byte.comma) (prev : Option UInt8) :
    nextField prev (escapeString k ++ Byte.equals :: (v ++ t)) =
      (.ofValue k v, t.head?, t.tail) := by
  have key : (if isEscaped (escapeString k) then unescapeBytes (escapeString k)
      else escapeString k) = k := by
    split_ifs with h
    · exact unescapeBytes_escapeString k
    · rw [← unescapeBytes_of_not_isEscaped (Bool.eq_false_of_not_eq_true h),
        unescapeBytes_escapeString]
  simp only [nextField, scanTo_escapeString hk, List.tail_cons, hv t ht, key]

end

/-! ## All fields -/

/-- The text of a list of fields, given by key and encoded value. -/
def fieldsText (l : List (Bytes × Bytes)) : Bytes :=
  join (l.map fun e => escapeString e.1 ++ Byte.equals :: e.2) [Byte.comma]

/-- The same text where another field stands before it. -/
def fieldsTail (l : List (Bytes × Bytes)) : Bytes :=
  l.flatMap fun e => Byte.comma :: (escapeString e.1 ++ Byte.equals :: e.2)

theorem join_cons (x : Bytes) (xs : List Bytes) :
    join (x :: xs) [Byte.comma] = x ++ xs.flatMap (Byte.comma :: ·) := by
  induction xs generalizing x with
  | nil => simp [join]
  | cons y ys ih =>
    rw [List.flatMap_cons, List.cons_append, ← ih y, join, List.intercalate_cons_cons]
    simp [join]

theorem fieldsText_cons (e : Bytes × Bytes) (l : List (Bytes × Bytes)) :
    fieldsText (e :: l) = escapeString e.1 ++ Byte.equals :: (e.2 ++ fieldsTail l) := by
  rw [fieldsText, List.map_cons, join_cons, List.append_assoc, List.cons_append, List.flatMap_map,
    fieldsTail]

theorem tail_fieldsTail (l : List (Bytes × Bytes)) : (fieldsTail l).tail = fieldsText l := by
  cases l with
  | nil => rfl
  | cons e l =>
    rw [fieldsText_cons, fieldsTail, List.flatMap_cons, List.cons_append, List.tail_cons,
      List.append_assoc, List.cons_append, fieldsTail]

theorem fieldsTail_cons (e : Bytes × Bytes) (l : List (Bytes × Bytes)) :
    fieldsTail (e :: l) = [Byte.comma] ++ fieldsText (e :: l) := by
  rw [← tail_fieldsTail]
  rfl

theorem fieldsTail_stop (l : List (Bytes × Bytes)) :
    fieldsTail l = [] ∨ (fieldsTail l).head? = some Byte.comma := by
  cases l with
  | nil => exact .inl rfl
  | cons e l => exact .inr rfl

/-- A field that the iterator reads whole. -/
structure FieldText (e : Bytes × Bytes) : Prop where
  key : Readable e.1
  value : ValueText e.2

theorem fieldItems_fieldsText {l : List (Bytes × Bytes)} (h : ∀ e ∈ l, FieldText e) {fuel : Nat}
    (hf : l.length ≤ fuel) (prev : Option UInt8) :
    fieldItems fuel prev (fieldsText l) = l.map fun e => .ofValue e.1 e.2 := by
  induction l generalizing fuel prev with
  | nil => cases fuel <;> rfl
  | cons e l ih =>
    rw [List.length_cons] at hf
    obtain ⟨fuel, rfl⟩ : ∃ n, fuel = n + 1 := ⟨fuel - 1, by omega⟩
    obtain ⟨⟨key, value⟩, others⟩ := List.forall_mem_cons.mp h
    rw [fieldsText_cons, fieldItems, if_neg (by simp)]
    simp only [nextField_eq key value (fieldsTail_stop l), tail_fieldsTail, List.map_cons,
      ih others (Nat.le_of_succ_le_succ hf)]

theorem length_le_fieldsText (l : List (Bytes × Bytes)) : l.length ≤ (fieldsText l).length := by
  induction l with
  | nil => exact le_rfl
  | cons e l ih =>
    have tail := congrArg List.length (tail_fieldsTail l)
    rw [List.length_tail] at tail
    simp only [fieldsText_cons, List.length_append, List.length_cons]
    omega

/-! ## Encoded values -/

/-- What is stored of a value: nil is left out, and a value of another type is its text. -/
def FieldValue.stored : FieldValue → Option FieldValue
  | .nil => none
  | .other text => some (.string text)
  | v => some v

/-- The values that are read back: a number is one that `strconv` reads back, and neither a
`float32`, which would be read as a `float64`, nor a byte slice, which is written without quotes. -/
def FieldValue.Stable (parseFloat : Bytes → Option Float) : FieldValue → Prop
  | .float64 v => v.isInf = false ∧ v.isNaN = false ∧ parseFloat (formatFloat v) = some v
  | .float32 _ => False
  | .bytes _ => False
  | _ => True

/-- A number as it is printed, before its type suffix. -/
structure NumberText (s : Bytes) : Prop where
  ne_nil : s ≠ []
  mem : ∀ c ∈ s, c ∈ str "-.0123456789"

theorem digitByte_mem_number {d : Nat} (h : d < 10) : digitByte d ∈ str "-.0123456789" := by
  interval_cases d <;> decide

theorem map_digitByte_mem_number {ds : List Nat} (hd : ∀ d ∈ ds, d < 10) :
    ∀ c ∈ ds.map digitByte, c ∈ str "-.0123456789" := by
  intro c hc
  obtain ⟨d, mem, rfl⟩ := List.mem_map.mp hc
  exact digitByte_mem_number (hd d mem)

theorem numberText_formatUint (n : Nat) : NumberText (formatUint n) where
  ne_nil := formatUint_ne_nil n
  mem := map_digitByte_mem_number fun _ hd => Numeral.lt_base_of_mem_numeral (by norm_num) hd

theorem numberText_formatInt (i : Int64) : NumberText (formatInt i) := by
  have digits := numberText_formatUint i.toInt.natAbs
  unfold formatInt
  split_ifs
  · exact ⟨by simp, List.forall_mem_cons.mpr ⟨by decide, digits.mem⟩⟩
  · exact digits

theorem numberText_of_decimalText {s : Bytes} (h : DecimalText s) : NumberText s := by
  obtain ⟨sign, whole, fraction, hne, hw, hf, rfl⟩ := h.shape
  refine ⟨by simp [hne], fun c hc => ?_⟩
  rcases List.mem_append.mp hc with hc | hc
  · cases sign with
    | positive => cases hc
    | negative =>
      rw [List.mem_singleton.mp hc]
      decide
  · rcases List.mem_append.mp hc with hc | hc
    · exact map_digitByte_mem_number hw c hc
    · split_ifs at hc
      · cases hc
      · rcases List.mem_cons.mp hc with rfl | hc
        · decide
        · exact map_digitByte_mem_number hf c hc

section
variable {s : Bytes} (h : NumberText s)
include h

theorem NumberText.mem_append {suffix : Bytes} (hs : suffix ∈ [[], str "i", str "u"]) {c : UInt8}
    (hc : c ∈ s ++ suffix) : c ∈ str "-.0123456789iu" := by
  rcases List.mem_append.mp hc with hc | hc
  · exact List.mem_append_left (str "iu") (h.mem c hc)
  · simp only [List.mem_cons, List.not_mem_nil, or_false] at hs
    rcases hs with rfl | rfl | rfl
    · cases hc
    · rw [List.mem_singleton.mp hc]
      decide
    · rw [List.mem_singleton.mp hc]
      decide

/-- A number, with or without a suffix letter, has no byte that ends or quotes a value. -/
theorem NumberText.valueText {suffix : Bytes} (hs : suffix ∈ [[], str "i", str "u"]) :
    ValueText (s ++ suffix) := by
  refine valueText_of_plain fun c hc => ?_
  have allowed := h.mem_append hs hc
  refine ⟨?_, ?_, ?_⟩ <;>
  · rintro rfl
    exact absurd allowed (by decide)

/-- The first byte of a number tells that it is one. -/
theorem NumberText.ofValue (k suffix : Bytes) :
    FieldItem.ofValue k (s ++ suffix) =
      if (s ++ suffix).getLast? = some 105 then ⟨k, .integer, (s ++ suffix).dropLast⟩
      else if (s ++ suffix).getLast? = some 117 then ⟨k, .unsigned, (s ++ suffix).dropLast⟩
      else ⟨k, .float, s ++ suffix⟩ := by
  obtain ⟨c, w, rfl⟩ := List.exists_cons_of_ne_nil h.ne_nil
  have first := h.mem c List.mem_cons_self
  have noQuote : c ≠ Byte.quote := by
    rintro rfl
    exact absurd first (by decide)
  have number : c ∈ str "0123456789-.nNiIu" := by
    have subset : (str "-.0123456789").all (str "0123456789-.nNiIu").contains = true := by decide
    exact List.contains_iff_mem.mp (List.all_eq_true.mp subset c first)
  rw [FieldItem.ofValue.eq_def]
  simp only [List.cons_append, if_neg noQuote, if_pos number]

theorem NumberText.ofValue_float (k : Bytes) : FieldItem.ofValue k s = ⟨k, .float, s⟩ := by
  have last {c : UInt8} (hc : c ∉ str "-.0123456789") : s.getLast? ≠ some c := fun h' =>
    hc (h.mem c (List.mem_of_getLast? h'))
  have read := h.ofValue k []
  rw [List.append_nil, if_neg (last (by decide)), if_neg (last (by decide))] at read
  exact read

end

/-! ## The round trip -/

@[simp] theorem FieldItem.key_ofValue (k v : Bytes) : (FieldItem.ofValue k v).key = k := by
  unfold FieldItem.ofValue
  cases v with
  | nil => rfl
  | cons c v => simp only [apply_ite FieldItem.key, ite_self]

section
variable {parseFloat : Bytes → Option Float}

theorem valueText_formatFieldValue {v : FieldValue} (h : v.Stable parseFloat) :
    ValueText (formatFieldValue v) := by
  cases v with
  | float64 v =>
    have number := numberText_of_decimalText (decimalText_formatFloat h.1 h.2.1)
    have text : ValueText (formatFloat v ++ []) := number.valueText (by simp)
    rwa [List.append_nil] at text
  | float32 v => exact h.elim
  | integer v => exact (numberText_formatInt v).valueText (by simp)
  | unsigned v => exact (numberText_formatUint v.toNat).valueText (by simp)
  | boolean v => cases v <;> exact valueText_of_all (by decide)
  | string v => exact valueText_quoted v
  | bytes v => exact h.elim
  | nil => exact fun t ht => scanFieldValue_stop ht
  | other text => exact valueText_quoted text

/-- Every kind of value is told from the others by its text. -/
theorem read_formatFieldValue {v : FieldValue} (h : v.Stable parseFloat) (k : Bytes) :
    (FieldItem.ofValue k (formatFieldValue v)).read parseFloat = .ok v.stored := by
  cases v with
  | float64 v =>
    have number := numberText_of_decimalText (decimalText_formatFloat h.1 h.2.1)
    simp only [formatFieldValue, number.ofValue_float, FieldItem.read, h.2.2]
    rfl
  | float32 v => exact h.elim
  | integer v =>
    have item := (numberText_formatInt v).ofValue k [105]
    rw [List.getLast?_concat, if_pos rfl, List.dropLast_concat] at item
    have text : str "i" = [105] := by decide
    simp only [formatFieldValue, text, item, FieldItem.read, parseInt_formatInt]
    rfl
  | unsigned v =>
    have item := (numberText_formatUint v.toNat).ofValue k [117]
    rw [List.getLast?_concat, if_neg (by decide), if_pos rfl, List.dropLast_concat] at item
    have text : str "u" = [117] := by decide
    have small : v.toNat ≤ maxUint64 := Nat.le_of_lt_succ v.toNat_lt
    simp only [formatFieldValue, text, item, FieldItem.read, parseUint_formatUint small]
    simp [Except.toOption, FieldValue.stored]
  | boolean v => cases v <;> rfl
  | string v =>
    have item : FieldItem.ofValue k (quoted v) = ⟨k, .string, quoted v⟩ := rfl
    simp only [formatFieldValue, item, FieldItem.read, unescapeStringField_quoted]
    rfl
  | bytes v => exact h.elim
  | nil => rfl
  | other text =>
    have item : FieldItem.ofValue k (quoted text) = ⟨k, .string, quoted text⟩ := rfl
    simp only [formatFieldValue, item, FieldItem.read, unescapeStringField_quoted]
    rfl

/-- The loop assigns what is stored of each value. -/
theorem readItems_eq {l : List (Σ _ : Bytes, FieldValue)}
    (h : ∀ e ∈ l, e.1 ≠ [] ∧ e.2.Stable parseFloat) :
    readItems parseFloat (l.map fun e => .ofValue e.1 (formatFieldValue e.2)) =
      .ok (insertAll ∅ (l.filterMap fun e => e.2.stored.map (e.1, ·))) := by
  unfold readItems
  generalize (∅ : Fields) = fields
  induction l generalizing fields with
  | nil => rfl
  | cons e l ih =>
    obtain ⟨⟨key, stable⟩, others⟩ := List.forall_mem_cons.mp h
    rw [List.map_cons, List.foldlM_cons, FieldItem.key_ofValue, if_neg key,
      read_formatFieldValue stable, Except.ok_bind]
    rcases hv : e.2.stored with _ | v
    · rw [List.filterMap_cons_none (by rw [hv]; rfl)]
      exact ih others fields
    · rw [List.filterMap_cons_some (by rw [hv]; rfl)]
      exact ih others (fields.insert e.1 v)

theorem marshalBinary_eq (rt : Runtime) (fields : Fields) :
    ∃ l, Enumerates l fields ∧
      marshalBinary rt fields = fieldsText (l.map fun e => (e.1, formatFieldValue e.2)) := by
  refine ⟨rt.sort (fun a b => less a.1 b.1) (rt.range fields), ?_, ?_⟩
  · exact (rt.range_enumerates fields).of_perm (rt.sort_perm _ _)
  · simp [marshalBinary, fieldsText, appendField, List.map_map, Function.comp_def]

theorem unmarshalBinary_fieldsText {fields : Fields} {l : List (Σ _ : Bytes, FieldValue)}
    (enum : Enumerates l fields) (h : ∀ e ∈ l, Readable e.1 ∧ e.2.Stable parseFloat) {p : Point}
    (hp : p.fields = fieldsText (l.map fun e => (e.1, formatFieldValue e.2))) :
    ∃ fields', p.unmarshalBinary parseFloat = .ok fields' ∧
      ∀ k, fields'.lookup k = (fields.lookup k).bind FieldValue.stored := by
  have fieldText : ∀ e ∈ l.map fun e => (e.1, formatFieldValue e.2), FieldText e := by
    intro e he
    obtain ⟨e, mem, rfl⟩ := List.mem_map.mp he
    exact ⟨(h e mem).1, valueText_formatFieldValue (h e mem).2⟩
  refine ⟨_, ?_, fun k => lookup_insertAll_filterMap enum FieldValue.stored k⟩
  rw [Point.unmarshalBinary, Point.fieldItems, hp,
    fieldItems_fieldsText fieldText (length_le_fieldsText _), List.map_map]
  exact readItems_eq fun e he => ⟨(h e he).1.ne_nil, (h e he).2⟩

/-- The fields of a point are read back from their text: every key with the value that is stored for
it, strings with any bytes included. -/
theorem unmarshalBinary_marshalBinary (rt : Runtime) {fields : Fields}
    (h : ∀ k v, fields.lookup k = some v → Readable k ∧ v.Stable parseFloat) {p : Point}
    (hp : p.fields = marshalBinary rt fields) :
    ∃ fields', p.unmarshalBinary parseFloat = .ok fields' ∧
      ∀ k, fields'.lookup k = (fields.lookup k).bind FieldValue.stored := by
  obtain ⟨l, enum, text⟩ := marshalBinary_eq rt fields
  exact unmarshalBinary_fieldsText enum (fun e he => h e.1 e.2 (enum.mem_iff.mp he)) (hp.trans text)

end

/-- A string with a quote, a comma, a newline and a backslash, under a key with a space, and an
integer. -/
def twoFields : Fields where
  entries := ([⟨str "a b", .string (str "\"x\",\n\\")⟩, ⟨str "n", .integer (-5)⟩] :
    List (Σ _ : Bytes, FieldValue))
  nodupKeys := Multiset.coe_nodupKeys.mpr (show [str "a b", str "n"].Nodup by decide)

theorem twoFields_unmarshalBinary :
    ∃ fields', Point.unmarshalBinary (fun _ => none)
        ⟨[], ⟨0, 0⟩, marshalBinary .ordered twoFields⟩ = .ok fields' ∧
      fields'.lookup (str "a b") = some (.string (str "\"x\",\n\\")) ∧
      marshalBinary .ordered twoFields = str "a\\ b=\"\\\"x\\\",\n\\\\\",n=-5i" := by
  have listed : Enumerates _ twoFields := rfl
  have entries : ∀ k v, twoFields.lookup k = some v →
      Readable k ∧ v.Stable (fun _ => none) := by
    intro k v hv
    have mem := listed.mem_iff.mpr hv
    simp only [List.mem_cons, List.not_mem_nil, or_false] at mem
    rcases mem with mem | mem <;> cases mem
    · exact ⟨by decide, trivial⟩
    · exact ⟨by decide, trivial⟩
  obtain ⟨fields', read, lookup⟩ := unmarshalBinary_marshalBinary .ordered entries
    (p := ⟨[], ⟨0, 0⟩, marshalBinary .ordered twoFields⟩) rfl
  refine ⟨fields', read, ?_, by decide +kernel⟩
  rw [lookup, listed.mem_iff.mp List.mem_cons_self]
  rfl

end InfluxHandler.Influx
