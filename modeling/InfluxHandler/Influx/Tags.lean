import InfluxHandler.Go.Basic
import InfluxHandler.Library.Replace

/-!
# Series keys: escaping, tags and their order

A series key is the escaped measurement followed by the tags, sorted by key and escaped, with
the tags of empty value left out. The order of the tags is fixed by the map alone (`newTags_eq`),
whatever the runtime does. Escaping covers the bytes that separate the parts of a key; a
newline is not one of them, and neither is a leading `#`.
-/
namespace InfluxHandler.Influx
open Go Replace KeyedMap

/-! ## Escaping -/

structure EscapeSet where
  k : UInt8
  esc : Bytes

def measurementEscapeCodes : List EscapeSet :=
  [⟨Byte.comma, [Byte.backslash, Byte.comma]⟩, ⟨Byte.space, [Byte.backslash, Byte.space]⟩]

def tagEscapeCodes : List EscapeSet :=
  [⟨Byte.comma, [Byte.backslash, Byte.comma]⟩, ⟨Byte.space, [Byte.backslash, Byte.space]⟩,
   ⟨Byte.equals, [Byte.backslash, Byte.equals]⟩]

/-- Replace each byte of the codes by its escape, one code after the other. -/
def escapeWith (codes : List EscapeSet) (s : Bytes) : Bytes :=
  codes.foldl (fun s c => if c.k ∈ s then replaceAll [c.k] c.esc s else s) s

/-- Replace each escape by its byte, one code after the other. -/
def unescapeWith (codes : List EscapeSet) (s : Bytes) : Bytes :=
  if Byte.backslash ∈ s then
    codes.foldl (fun s c => if c.k ∈ s then replaceAll c.esc [c.k] s else s) s
  else s

def escapeMeasurement (s : Bytes) : Bytes := escapeWith measurementEscapeCodes s
def unescapeMeasurement (s : Bytes) : Bytes := unescapeWith measurementEscapeCodes s
def escapeTag (s : Bytes) : Bytes := escapeWith tagEscapeCodes s

/-- What every replacement of a code keeps, the run over all codes keeps. -/
theorem foldl_codes_induction {P : Bytes → Prop} {codes : List EscapeSet}
    {f : EscapeSet → Bytes → Bytes} (step : ∀ c ∈ codes, ∀ s, P s → P (f c s)) {s : Bytes}
    (h : P s) : P (codes.foldl (fun s c => if c.k ∈ s then f c s else s) s) := by
  refine List.foldlRecOn codes _ h ?_
  intro s hs c hc
  split_ifs
  · exact step c hc s hs
  · exact hs

theorem escapeWith_induction {P : Bytes → Prop} {codes : List EscapeSet}
    (step : ∀ c ∈ codes, ∀ s, P s → P (replaceAll [c.k] c.esc s)) {s : Bytes} (h : P s) :
    P (escapeWith codes s) :=
  foldl_codes_induction (f := fun c s => replaceAll [c.k] c.esc s) step h

theorem unescapeWith_induction {P : Bytes → Prop} {codes : List EscapeSet}
    (step : ∀ c ∈ codes, ∀ s, P s → P (replaceAll c.esc [c.k] s)) {s : Bytes} (h : P s) :
    P (unescapeWith codes s) := by
  unfold unescapeWith
  split_ifs
  · exact foldl_codes_induction (f := fun c s => replaceAll c.esc [c.k] s) step h
  · exact h

/-- A code escapes its byte by a backslash before it. -/
def Backslashed (codes : List EscapeSet) : Prop :=
  ∀ c ∈ codes, c.esc = [Byte.backslash, c.k]

theorem backslashed_measurement : Backslashed measurementEscapeCodes := by
  simp [Backslashed, measurementEscapeCodes]

theorem backslashed_tag : Backslashed tagEscapeCodes := by
  simp [Backslashed, tagEscapeCodes]

section
variable {codes : List EscapeSet}

/-- What escaping keeps of a text: the number of the bytes that take no part in it, the first byte
if it is such a byte, and whether there is a byte at all. -/
structure SameOutside (codes : List EscapeSet) (s t : Bytes) : Prop where
  count : ∀ a, a ≠ Byte.backslash → (∀ c ∈ codes, a ≠ c.k) → t.count a = s.count a
  head : ∀ a, a ≠ Byte.backslash → (∀ c ∈ codes, a ≠ c.k) →
    (t.head? = some a ↔ s.head? = some a)
  nil : t = [] ↔ s = []

theorem SameOutside.refl (s : Bytes) : SameOutside codes s s :=
  ⟨fun _ _ _ => rfl, fun _ _ _ => Iff.rfl, Iff.rfl⟩

theorem SameOutside.trans {s t u : Bytes} (h : SameOutside codes s t) (h' : SameOutside codes t u) :
    SameOutside codes s u where
  count a hs ha := (h'.count a hs ha).trans (h.count a hs ha)
  head a hs ha := (h'.head a hs ha).trans (h.head a hs ha)
  nil := h'.nil.trans h.nil

/-- One replacement between words that have no other bytes. -/
theorem SameOutside.replaceAll {old new : Bytes} (hold : old ≠ []) (hnew : new ≠ [])
    (ho : ∀ a, a ≠ Byte.backslash → (∀ c ∈ codes, a ≠ c.k) → a ∉ old)
    (hn : ∀ a, a ≠ Byte.backslash → (∀ c ∈ codes, a ≠ c.k) → a ∉ new) (s : Bytes) :
    SameOutside codes s (replaceAll old new s) where
  count a hs ha := count_replaceAll hold (ho a hs ha) (hn a hs ha) s
  head a hs ha := head?_replaceAll_iff hold hnew (fun h => ho a hs ha (List.mem_of_mem_head? h))
    (fun h => hn a hs ha (List.mem_of_mem_head? h)) s
  nil := replaceAll_eq_nil_iff hold hnew s

theorem sameOutside_escapeWith (hb : Backslashed codes) (s : Bytes) :
    SameOutside codes s (escapeWith codes s) := by
  refine escapeWith_induction (fun c hc t h => h.trans ?_) (.refl s)
  rw [hb c hc]
  apply SameOutside.replaceAll
  · simp
  · simp
  · intro a _ ha
    simp [ha c hc]
  · intro a hs ha
    simp [hs, ha c hc]

theorem sameOutside_unescapeWith (hb : Backslashed codes) (s : Bytes) :
    SameOutside codes s (unescapeWith codes s) := by
  refine unescapeWith_induction (fun c hc t h => h.trans ?_) (.refl s)
  rw [hb c hc]
  apply SameOutside.replaceAll
  · simp
  · simp
  · intro a hs ha
    simp [hs, ha c hc]
  · intro a _ ha
    simp [ha c hc]

/-- A text without a byte to escape is left as it is. -/
theorem escapeWith_eq_self {s : Bytes} (h : ∀ c ∈ codes, c.k ∉ s) : escapeWith codes s = s := by
  unfold escapeWith
  induction codes with
  | nil => rfl
  | cons c codes ih =>
    rw [List.foldl_cons, if_neg (h c List.mem_cons_self)]
    exact ih fun c' hc' => h c' (List.mem_cons_of_mem _ hc')

end

/-- The measurement of a key is unescaped and escaped again. -/
theorem sameOutside_measurement (s : Bytes) :
    SameOutside measurementEscapeCodes s (escapeMeasurement (unescapeMeasurement s)) :=
  (sameOutside_unescapeWith backslashed_measurement s).trans
    (sameOutside_escapeWith backslashed_measurement _)

theorem sameOutside_tag (s : Bytes) : SameOutside tagEscapeCodes s (escapeTag s) :=
  sameOutside_escapeWith backslashed_tag s

/-- An escaped measurement does not start with a comma. -/
theorem head?_escapeMeasurement_ne_comma (s : Bytes) :
    (escapeMeasurement s).head? ≠ some Byte.comma := by
  let commas := escapeWith [⟨Byte.comma, [Byte.backslash, Byte.comma]⟩] s
  have start : commas.head? ≠ some Byte.comma := by
    simp only [commas, escapeWith, List.foldl_cons, List.foldl_nil]
    split_ifs with h
    · exact head?_replaceAll_self _ (by simp) (by decide) s
    · intro hs
      exact h (List.mem_of_mem_head? hs)
  -- the second code, for the space, leaves the first byte unless it is a space
  have rest : (escapeWith [⟨Byte.space, [Byte.backslash, Byte.space]⟩] commas).head? =
      some Byte.comma ↔ commas.head? = some Byte.comma :=
    (sameOutside_escapeWith (by simp [Backslashed]) commas).head _ (by decide) (by decide)
  exact fun h => start (rest.mp h)

/-! ## Tags -/

structure Tag where
  key : Bytes
  value : Bytes
  deriving DecidableEq

/-- `NewTags`: the entries of the map, sorted by key. -/
def newTags (rt : Runtime) (m : Map Bytes Bytes) : List Tag :=
  if m.entries.card = 0 then []
  else rt.sort (fun a b => less a.key b.key) ((rt.range m).map fun e => ⟨e.1, e.2⟩)

def needsEscape (a : List Tag) : Bool :=
  a.any fun t => tagEscapeCodes.any fun c => decide (c.k ∈ t.key ∨ c.k ∈ t.value)

/-- `Tags.AppendHashKey`. -/
def appendHashKey (dst : Bytes) (a : List Tag) : Bytes :=
  if a = [] then dst
  else
    let escaped := if needsEscape a then a.map fun t => ⟨escapeTag t.key, escapeTag t.value⟩ else a
    dst ++ escaped.flatMap fun k =>
      if k.value = [] then [] else Byte.comma :: (k.key ++ Byte.equals :: k.value)

def appendMakeKey (dst name : Bytes) (tags : List Tag) : Bytes :=
  appendHashKey (dst ++ escapeMeasurement (unescapeMeasurement name)) tags

def makeKey (name : Bytes) (tags : List Tag) : Bytes := appendMakeKey [] name tags

/-! ## The shape of a key -/

/-- What one tag adds to the key. -/
def tagPart (t : Tag) : Bytes :=
  if t.value = [] then [] else Byte.comma :: (escapeTag t.key ++ Byte.equals :: escapeTag t.value)

/-- The short cut for tags that need no escaping changes nothing. -/
theorem appendHashKey_eq (dst : Bytes) (a : List Tag) :
    appendHashKey dst a = dst ++ a.flatMap tagPart := by
  unfold appendHashKey
  split_ifs with hnil hesc
  · simp [hnil]
  · simp only [List.flatMap_map, (sameOutside_tag _).nil]
    rfl
  · have plain : ∀ t ∈ a, escapeTag t.key = t.key ∧ escapeTag t.value = t.value := by
      simp only [needsEscape, List.any_eq_true, not_exists, not_and, decide_eq_true_eq,
        not_or] at hesc
      intro t ht
      exact ⟨escapeWith_eq_self fun c hc => (hesc t ht c hc).1,
        escapeWith_eq_self fun c hc => (hesc t ht c hc).2⟩
    change dst ++ a.flatMap _ = _
    congr 1
    refine List.flatMap_congr fun t ht => ?_
    rw [tagPart, (plain t ht).1, (plain t ht).2]

theorem makeKey_eq (name : Bytes) (tags : List Tag) :
    makeKey name tags = escapeMeasurement (unescapeMeasurement name) ++ tags.flatMap tagPart := by
  rw [makeKey, appendMakeKey, appendHashKey_eq, List.nil_append]

/-! ## The order of the tags -/

/-- The tag as an entry of the map. -/
def Tag.entry (t : Tag) : Σ _ : Bytes, Bytes := ⟨t.key, t.value⟩

theorem Tag.entry_injective : Function.Injective Tag.entry := by
  rintro ⟨k, v⟩ ⟨k', v'⟩ h
  cases h
  rfl

section
variable (rt rt' : Runtime) (m : Map Bytes Bytes)

/-- Sorting loses no entry and adds none. -/
theorem enumerates_newTags : Enumerates ((newTags rt m).map Tag.entry) m := by
  unfold newTags
  split_ifs with h
  · exact (Multiset.card_eq_zero.mp h).symm
  · have sorted := (rt.sort_perm (fun a b => less a.key b.key)
      ((rt.range m).map fun e => (⟨e.1, e.2⟩ : Tag))).map Tag.entry
    rw [List.map_map] at sorted
    exact (rt.range_enumerates m).of_perm (sorted.trans (.of_eq (List.map_id _)))

theorem sorted_newTags : ((newTags rt m).map Tag.entry).Pairwise fun a b => a.1 ≤ b.1 := by
  rw [List.pairwise_map]
  unfold newTags
  split_ifs with h
  · exact .nil
  · have sorted := rt.sort_sorted (fun a b : Tag => less a.key b.key)
      ((rt.range m).map fun e => ⟨e.1, e.2⟩) (strictWeak_less.on Tag.key)
    simp only [less_eq_false_iff] at sorted
    exact sorted

/-- The keys of a map are different, so neither its iteration order nor the choices of the sort
can be seen in the tags. -/
theorem newTags_eq : newTags rt m = newTags rt' m :=
  Tag.entry_injective.list_map (eq_of_enumerates_of_sorted (fun _ _ => List.le_antisymm)
    (enumerates_newTags rt m) (enumerates_newTags rt' m) (sorted_newTags rt m)
    (sorted_newTags rt' m))

end

/-- The tags are the entries of the map. -/
theorem mem_newTags {rt : Runtime} {m : Map Bytes Bytes} {t : Tag} :
    t ∈ newTags rt m ↔ m.lookup t.key = some t.value := by
  rw [← (enumerates_newTags rt m).mem_iff, ← List.mem_map_of_injective Tag.entry_injective]
  rfl

/-! ## The bytes of a key -/

/-- A byte that takes no part in escaping. -/
def Plain (a : UInt8) : Prop :=
  a ≠ Byte.backslash ∧ ∀ c ∈ tagEscapeCodes, a ≠ c.k

instance (a : UInt8) : Decidable (Plain a) := inferInstanceAs (Decidable (_ ∧ _))

section
variable {a : UInt8}

theorem Plain.measurement (ha : Plain a) : ∀ c ∈ measurementEscapeCodes, a ≠ c.k := by
  have fewer : measurementEscapeCodes ⊆ tagEscapeCodes := by
    simp [measurementEscapeCodes, tagEscapeCodes]
  exact fun c hc => ha.2 c (fewer hc)

theorem mem_escapeTag_iff (ha : Plain a) (s : Bytes) : a ∈ escapeTag s ↔ a ∈ s := by
  rw [← List.count_pos_iff, ← List.count_pos_iff, (sameOutside_tag s).count a ha.1 ha.2]

theorem mem_measurement_iff (ha : Plain a) (s : Bytes) :
    a ∈ escapeMeasurement (unescapeMeasurement s) ↔ a ∈ s := by
  rw [← List.count_pos_iff, ← List.count_pos_iff,
    (sameOutside_measurement s).count a ha.1 ha.measurement]

theorem head?_measurement_iff (ha : Plain a) (s : Bytes) :
    (escapeMeasurement (unescapeMeasurement s)).head? = some a ↔ s.head? = some a :=
  (sameOutside_measurement s).head a ha.1 ha.measurement

/-- Where a plain byte of a key comes from. -/
theorem mem_makeKey_iff (ha : Plain a) (name : Bytes) (tags : List Tag) :
    a ∈ makeKey name tags ↔
      a ∈ name ∨ ∃ t ∈ tags, t.value ≠ [] ∧ (a ∈ t.key ∨ a ∈ t.value) := by
  have comma : a ≠ Byte.comma :=
    ha.2 ⟨Byte.comma, [Byte.backslash, Byte.comma]⟩ (by simp [tagEscapeCodes])
  have equals : a ≠ Byte.equals :=
    ha.2 ⟨Byte.equals, [Byte.backslash, Byte.equals]⟩ (by simp [tagEscapeCodes])
  have part (t : Tag) : a ∈ tagPart t ↔ t.value ≠ [] ∧ (a ∈ t.key ∨ a ∈ t.value) := by
    unfold tagPart
    split_ifs with h
    · simp [h]
    · simp [h, comma, equals, mem_escapeTag_iff ha]
  rw [makeKey_eq, List.mem_append, mem_measurement_iff ha, List.mem_flatMap]
  simp only [part]

end

/-- A measurement stays empty or not under escaping. -/
theorem measurement_eq_nil_iff (s : Bytes) :
    escapeMeasurement (unescapeMeasurement s) = [] ↔ s = [] :=
  (sameOutside_measurement s).nil

/-- The tags of a key start with a comma if one of them has a value. -/
theorem head?_flatMap_tagPart (tags : List Tag) :
    (tags.flatMap tagPart).head? = some Byte.comma ∧ (∃ t ∈ tags, t.value ≠ []) ∨
      tags.flatMap tagPart = [] ∧ ∀ t ∈ tags, t.value = [] := by
  induction tags with
  | nil => exact .inr (by simp)
  | cons t tags ih =>
    by_cases h : t.value = []
    · simpa [tagPart, h] using ih
    · exact .inl (by simp [tagPart, h])

/-- A key starts with its measurement, if there is one. -/
theorem head?_makeKey_of_ne_nil {name : Bytes} (h : name ≠ []) (tags : List Tag) :
    (makeKey name tags).head? = (escapeMeasurement (unescapeMeasurement name)).head? := by
  rw [makeKey_eq, List.head?_append_of_ne_nil _ (by rwa [ne_eq, measurement_eq_nil_iff])]

theorem makeKey_nil (tags : List Tag) : makeKey [] tags = tags.flatMap tagPart := by
  rw [makeKey_eq, (measurement_eq_nil_iff []).mpr rfl, List.nil_append]

end InfluxHandler.Influx
