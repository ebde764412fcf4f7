import InfluxHandler.Influx.Scan

/-!
# Keys on the wire and keys in the store

`scanKey` reads the key of a line and sorts its tags; the sorted key names the series. The results:
which texts are keys and which key they get (`scanKey_eq_ok_iff`), that a series key is read as
itself, that the order in which a client writes the tags has no influence, and that measurement and
tags can be read back from what a client or the server makes of them.
-/
namespace InfluxHandler.Influx
open Go Escape Sorting

/-! ## The key of a line -/

/-- The parts of the key at the start of a line; the fields follow behind a space. -/
structure KeyShape (buf m : Bytes) (tags : List Bytes) (rest : Bytes) : Prop where
  measurement : MeasurementToken m
  tagTokens : ∀ t ∈ tags, TagToken t
  space : rest.head? = some Byte.space
  text : skipWhitespace buf = joinKey m tags ++ rest

section
variable {buf m rest : Bytes} {tags : List Bytes}

theorem sortedKey_eq :
    sortedKey m tags =
      if (tags.map tagKeyOf).Nodup then .ok (joinKey m (sortBy tagKeyOf tags))
      else .error duplicateTags := by
  unfold sortedKey
  rw [canonical_eq]
  split_ifs <;> rfl

@[simp] theorem joinKey_nil (m : Bytes) : joinKey m [] = m := List.append_nil m

theorem joinKey_cons (m t : Bytes) (ts : List Bytes) :
    joinKey m (t :: ts) = m ++ Byte.comma :: (t ++ ts.flatMap (Byte.comma :: ·)) := by
  simp [joinKey]

/-- A text of that shape is read; only the slice of the indices and the sorting can still fail. -/
theorem KeyShape.scanKey_eq (h : KeyShape buf m tags rest) :
    scanKey buf =
      if Crowded tags.length then .error .indexOutOfRange
      else if (tags.map tagKeyOf).Nodup then .ok (joinKey m (sortBy tagKeyOf tags), rest)
      else .error (.err duplicateTags) := by
  unfold scanKey
  cases tags with
  | nil =>
    have scan : scanMeasurement (skipWhitespace buf) = ⟨.ok .fieldsState, m, rest⟩ :=
      scanMeasurement_eq_iff.mpr ⟨h.measurement, rest, ⟨rfl, h.space⟩, by simpa using h.text⟩
    have few : ¬ Crowded 0 := fun crowded => absurd crowded.le (by decide)
    simp only [scan, ScanFailure.check_ok, Except.ok_bind, List.length_nil, few, if_false,
      List.map_nil, List.nodup_nil, if_true]
    exact congrArg (fun key => Except.ok (key, rest)) (joinKey_nil m).symm
  | cons t ts =>
    have text : skipWhitespace buf =
        m ++ Byte.comma :: (t ++ ts.flatMap (Byte.comma :: ·) ++ rest) := by
      rw [h.text, joinKey_cons, List.append_assoc, List.cons_append]
    have next (r : Bytes) : ScanState.tagKeyState.Leads (Byte.comma :: r) r := rfl
    have scan := scanMeasurement_eq_iff.mpr ⟨h.measurement, _, next _, text⟩
    have shape : TagsShape (t ++ ts.flatMap (Byte.comma :: ·) ++ rest) (t :: ts) rest :=
      ⟨h.tagTokens, h.space, t, ts, rfl, rfl⟩
    have found := shape.scanTags_eq shape.length_le Indices.make
    rw [show Indices.make.commas + (t :: ts).length = (t :: ts).length from Nat.zero_add _] at found
    simp only [scan, ScanFailure.check_ok, Except.ok_bind]
    by_cases crowded : Crowded (t :: ts).length
    · rw [found, if_pos crowded, if_pos crowded, Except.error_bind]
    · rw [found, if_neg crowded, if_neg crowded, Except.ok_bind, sortedKey_eq]
      split_ifs <;> rfl

/-- What is read has that shape. -/
theorem exists_keyShape {key : Bytes} (h : scanKey buf = .ok (key, rest)) :
    ∃ m tags, KeyShape buf m tags rest := by
  obtain ⟨state, hstate, h₁⟩ := Except.bind_eq_ok_iff.mp h
  replace hstate := ScanFailure.check_eq_ok_iff.mp hstate
  obtain ⟨m, r, scan⟩ : ∃ m r, scanMeasurement (skipWhitespace buf) = ⟨.ok state, m, r⟩ :=
    ⟨_, _, by rw [← hstate]⟩
  simp only [scan] at h₁
  obtain ⟨tok, text, leads, ht⟩ := scanMeasurement_eq_iff.mp scan
  cases state with
  | fieldsState =>
    cases h₁
    obtain ⟨rfl, space⟩ := leads
    exact ⟨_, [], tok, by simp, space, by simpa using ht⟩
  | tagKeyState =>
    cases leads
    obtain ⟨⟨tags, r'⟩, htags, h₂⟩ := Except.bind_eq_ok_iff.mp h₁
    obtain ⟨key', hkey, h₃⟩ := Except.bind_eq_ok_iff.mp h₂
    cases h₃
    obtain ⟨⟨all, space, t, ts, rfl, rfl⟩, -⟩ := tagsShape_of_scanTags htags
    refine ⟨m, t :: ts, tok, all, space, ?_⟩
    rw [ht, joinKey_cons]
    simp

/-- What remains behind blanks does not start with one. -/
theorem head?_skipWhitespace (buf : Bytes) {c : UInt8} (h : (skipWhitespace buf).head? = some c) :
    isBlank c = false := by
  have first := List.head?_dropWhile_not isBlank buf
  rw [skipWhitespace] at h
  rw [h] at first
  simpa using first

theorem skipWhitespace_eq_self (h : ∀ c, buf.head? = some c → isBlank c = false) :
    skipWhitespace buf = buf := by
  cases buf with
  | nil => rfl
  | cons c buf => exact List.dropWhile_cons_of_neg (by simpa using h c rfl)

theorem MeasurementToken.head?_append (h : MeasurementToken m) (t : Bytes) :
    (m ++ t).head? = m.head? := List.head?_append_of_ne_nil _ h.ne_nil

/-- A measurement that was read does not start with a blank. -/
theorem KeyShape.head? (h : KeyShape buf m tags rest) {c : UInt8} (hc : m.head? = some c) :
    isBlank c = false := by
  refine head?_skipWhitespace buf ?_
  rw [h.text, joinKey, List.append_assoc, h.measurement.head?_append, hc]

end

/-- The keys that the server accepts, and the series key that it makes of them: words separated by
commas, no tag key twice, and the tags in the order of their keys. -/
theorem scanKey_eq_ok_iff {buf key rest : Bytes} :
    scanKey buf = .ok (key, rest) ↔
      ∃ m tags, KeyShape buf m tags rest ∧ ¬ Crowded tags.length ∧ (tags.map tagKeyOf).Nodup ∧
        key = joinKey m (sortBy tagKeyOf tags) := by
  constructor
  · intro h
    obtain ⟨m, tags, shape⟩ := exists_keyShape h
    rw [shape.scanKey_eq] at h
    split_ifs at h with crowded nodup
    cases h
    exact ⟨m, tags, shape, crowded, nodup, rfl⟩
  · rintro ⟨m, tags, shape, few, nodup, rfl⟩
    rw [shape.scanKey_eq, if_neg few, if_pos nodup]

/-- With its tags in order, a key is read as it is, whatever fields follow. -/
theorem KeyShape.scanKey_sorted {buf m rest : Bytes} {tags : List Bytes}
    (h : KeyShape buf m tags rest) (few : ¬ Crowded tags.length)
    (nodup : (tags.map tagKeyOf).Nodup) {rest' : Bytes}
    (space : rest'.head? = some Byte.space) :
    scanKey (joinKey m (sortBy tagKeyOf tags) ++ rest') =
      .ok (joinKey m (sortBy tagKeyOf tags), rest') := by
  have perm := sortBy_perm tagKeyOf tags
  have nodup' := (perm.map tagKeyOf).nodup_iff.mpr nodup
  refine scanKey_eq_ok_iff.mpr ⟨m, sortBy tagKeyOf tags, ⟨h.measurement, ?_, space, ?_⟩,
    perm.length_eq ▸ few, nodup', ?_⟩
  · exact fun t ht => h.tagTokens t (perm.mem_iff.mp ht)
  · refine skipWhitespace_eq_self fun c hc => h.head? ?_
    rwa [joinKey, List.append_assoc, h.measurement.head?_append] at hc
  · rw [sortBy_eq_self nodup' (sortBy_sorted tagKeyOf tags)]

/-- A series key is read as itself, so that what the server has sorted stays as it is. -/
theorem scanKey_idempotent {buf key rest : Bytes} (h : scanKey buf = .ok (key, rest)) :
    scanKey (key ++ rest) = .ok (key, rest) := by
  obtain ⟨m, tags, shape, few, nodup, rfl⟩ := scanKey_eq_ok_iff.mp h
  exact shape.scanKey_sorted few nodup shape.space

theorem scanKey_idempotent_cpu :
    scanKey (str "cpu,a=1,b=2" ++ str " v=1") = .ok (str "cpu,a=1,b=2", str " v=1") := by
  have unsorted : scanKey (str "cpu,b=2,a=1 v=1") = .ok (str "cpu,a=1,b=2", str " v=1") := by
    decide +kernel
  exact scanKey_idempotent unsorted

/-! ## Keys of escaped texts -/

/-- A measurement whose first byte is not skipped as a blank. A space is no blank here, for it is
escaped. -/
structure Visible (name : Bytes) : Prop where
  readable : Readable name
  head : name.head? ≠ some 9 ∧ name.head? ≠ some 0

instance (name : Bytes) : Decidable (Visible name) :=
  decidable_of_iff (Readable name ∧ name.head? ≠ some 9 ∧ name.head? ≠ some 0)
    ⟨fun h => ⟨h.1, h.2⟩, fun h => ⟨h.1, h.2⟩⟩

section
variable {name : Bytes} {tags : List Tag}

/-- An escaped text does not start with a blank, unless it starts with a tab or a zero byte. -/
theorem isBlank_head?_escape {special s : Bytes} (hs : Byte.space ∈ special)
    (h : s.head? ≠ some 9 ∧ s.head? ≠ some 0) {c : UInt8}
    (hc : (escape Byte.backslash special s).head? = some c) : isBlank c = false := by
  rw [head?_escape] at hc
  obtain ⟨d, hd, first⟩ := Option.map_eq_some_iff.mp hc
  split_ifs at first with special
  · rw [← first]
    decide
  · subst first
    simp only [isBlank, Bool.or_eq_false_iff, beq_eq_false_iff_ne]
    refine ⟨⟨?_, ?_⟩, ?_⟩
    · rintro rfl
      exact special hs
    · rintro rfl
      exact h.1 hd
    · rintro rfl
      exact h.2 hd

theorem keyShape_wireKey (hn : Visible name) (ht : ∀ t ∈ tags, t.Readable) {rest : Bytes}
    (space : rest.head? = some Byte.space) :
    KeyShape (wireKey name tags ++ rest) (escapeMeasurement name) (tags.map Tag.wire) rest where
  measurement := hn.readable.measurementToken
  tagTokens := by
    intro u hu
    obtain ⟨t, mem, rfl⟩ := List.mem_map.mp hu
    exact (ht t mem).tagToken
  space := space
  text := by
    refine skipWhitespace_eq_self fun c hc => ?_
    rw [wireKey, joinKey, List.append_assoc, hn.readable.measurementToken.head?_append,
      escapeMeasurement_eq] at hc
    exact isBlank_head?_escape (by decide) hn.head hc

/-- The key of a tag's text ends at its equals sign. -/
theorem tagKeyOf_tagText {key : Bytes} (h : TagKeyToken key) (value : Bytes) :
    tagKeyOf (tagText key value) = key := by
  have block : Block Byte.backslash [Byte.equals] none key := h.block (by decide) (by decide) none
  rw [tagKeyOf, scanTo, tagText, block.span_append (by decide)]

/-- The tags in the order of the server, which compares escaped keys. -/
def serverOrder (tags : List Tag) : List Tag := sortBy (fun t => escapeTag t.key) tags

theorem map_tagKeyOf_wire (ht : ∀ t ∈ tags, t.Readable) :
    (tags.map Tag.wire).map tagKeyOf = (tags.map Tag.key).map escapeTag := by
  rw [List.map_map, List.map_map]
  exact List.map_congr_left fun t mem => tagKeyOf_tagText (ht t mem).key.tagKeyToken _

theorem sortBy_wire (ht : ∀ t ∈ tags, t.Readable) (hn : (tags.map Tag.key).Nodup) :
    sortBy tagKeyOf (tags.map Tag.wire) = (serverOrder tags).map Tag.wire := by
  have perm := sortBy_perm (fun t : Tag => escapeTag t.key) tags
  have nodup : ((tags.map Tag.wire).map tagKeyOf).Nodup := by
    rw [map_tagKeyOf_wire ht]
    exact hn.map escapeTag_injective
  rw [sortBy_eq_of_perm (perm.map Tag.wire).symm nodup]
  refine sortBy_eq_self ?_ ?_
  · exact ((perm.map Tag.wire).map tagKeyOf).nodup_iff.mpr nodup
  · rw [List.pairwise_map]
    refine (sortBy_sorted (fun t : Tag => escapeTag t.key) tags).imp_of_mem fun ha hb h => ?_
    rw [Tag.wire, Tag.wire, tagKeyOf_tagText (ht _ (perm.mem_iff.mp ha)).key.tagKeyToken,
      tagKeyOf_tagText (ht _ (perm.mem_iff.mp hb)).key.tagKeyToken]
    exact h

/-- A written key crowds the slice, or is refused if two tags have one key, else it becomes the key
with the tags in the server's order. -/
theorem scanKey_wireKey (hn : Visible name) (ht : ∀ t ∈ tags, t.Readable) {rest : Bytes}
    (space : rest.head? = some Byte.space) :
    scanKey (wireKey name tags ++ rest) =
      if Crowded tags.length then .error .indexOutOfRange
      else if (tags.map Tag.key).Nodup then .ok (wireKey name (serverOrder tags), rest)
      else .error (.err duplicateTags) := by
  have keys : ((tags.map Tag.wire).map tagKeyOf).Nodup ↔ (tags.map Tag.key).Nodup := by
    rw [map_tagKeyOf_wire ht, List.nodup_map_iff escapeTag_injective]
  rw [(keyShape_wireKey hn ht space).scanKey_eq, List.length_map]
  simp only [keys]
  split_ifs with crowded nodup
  · rfl
  · rw [sortBy_wire ht nodup]
    rfl
  · rfl

end

/-! ## Reading a stored key -/

section
variable {m : Bytes}

/-- The two sides of a tag, as they stand in a key. -/
structure Tag.Tokens (t : Tag) : Prop where
  key : TagKeyToken t.key
  value : TagValueToken t.value

def Tag.text (t : Tag) : Bytes := tagText t.key t.value

/-- The loop of `walkTags` finds the tags again. -/
theorem walkTagsLoop_eq {t : Tag} {ts : List Tag} (h : ∀ u ∈ t :: ts, u.Tokens) {fuel : Nat}
    (hf : ts.length < fuel) :
    walkTagsLoop fuel (some Byte.comma) (t.text ++ ts.flatMap (Byte.comma :: Tag.text ·)) =
      t :: ts := by
  induction ts generalizing t fuel with
  | nil =>
    obtain ⟨fuel, rfl⟩ : ∃ n, fuel = n + 1 := ⟨fuel - 1, by omega⟩
    obtain ⟨key, value⟩ := h t List.mem_cons_self
    have keyBlock : Block Byte.backslash [Byte.equals] (some Byte.comma) t.key :=
      key.block (by decide) (by decide) _
    have valueBlock : Block Byte.backslash [Byte.comma] (some Byte.equals) t.value :=
      value.block (by decide) (by decide) _
    rw [List.flatMap_nil, List.append_nil, Tag.text, tagText, walkTagsLoop, if_neg (by simp)]
    simp only [scanTo, scanTagValue, keyBlock.span_append (List.mem_singleton_self _),
      List.tail_cons, valueBlock.passes, if_neg value.ne_nil]
    cases fuel <;> simp [walkTagsLoop]
  | cons u ts ih =>
    obtain ⟨fuel, rfl⟩ : ∃ n, fuel = n + 1 := ⟨fuel - 1, by omega⟩
    obtain ⟨⟨key, value⟩, others⟩ := List.forall_mem_cons.mp h
    have keyBlock : Block Byte.backslash [Byte.equals] (some Byte.comma) t.key :=
      key.block (by decide) (by decide) _
    have valueBlock : Block Byte.backslash [Byte.comma] (some Byte.equals) t.value :=
      value.block (by decide) (by decide) _
    have tail := ih others (Nat.lt_of_succ_lt_succ hf)
    rw [List.flatMap_cons, Tag.text, tagText, walkTagsLoop, if_neg (by simp)]
    simp only [scanTo, scanTagValue, List.append_assoc, List.cons_append,
      keyBlock.span_append (List.mem_singleton_self _), List.tail_cons,
      valueBlock.span_append (List.mem_singleton_self _), if_neg value.ne_nil, tail]

theorem walkTags_eq (hm : MeasurementToken m) {tags : List Tag} (h : ∀ t ∈ tags, t.Tokens) :
    walkTags (joinKey m (tags.map Tag.text)) =
      if Byte.backslash ∈ joinKey m (tags.map Tag.text) then
        tags.map fun t => ⟨unescapeTag t.key, unescapeTag t.value⟩
      else tags := by
  have block : Block Byte.backslash [Byte.comma] none m := hm.block (by decide) (by decide) _
  unfold walkTags
  cases tags with
  | nil =>
    simp only [List.map_nil, joinKey_nil, scanTo, block.passes, if_neg hm.ne_nil]
    rfl
  | cons t ts =>
    have text : joinKey m ((t :: ts).map Tag.text) =
        m ++ Byte.comma :: (t.text ++ ts.flatMap (Byte.comma :: Tag.text ·)) := by
      rw [List.map_cons, joinKey_cons, List.flatMap_map]
    have enough : ts.length <
        (Byte.comma :: (t.text ++ ts.flatMap (Byte.comma :: Tag.text ·))).length := by
      have commas := length_le_flatMap_comma Tag.text ts
      simp only [List.length_cons, List.length_append]
      omega
    simp only [scanTo, text, block.span_append (List.mem_singleton_self _), if_neg hm.ne_nil,
      List.tail_cons, walkTagsLoop_eq h enough]

end

/-- The tag as it is written. -/
def Tag.escape (t : Tag) : Tag := ⟨escapeTag t.key, escapeTag t.value⟩

theorem Tag.Readable.tokens {t : Tag} (h : t.Readable) : t.escape.Tokens :=
  ⟨h.key.tagKeyToken, h.value.tagValueToken⟩

theorem escapeTag_eq_self {s : Bytes} (h : Byte.backslash ∉ escapeTag s) : escapeTag s = s := by
  rw [escapeTag_eq] at h ⊢
  exact escape_eq_self_of_not_mem (by decide) h

section
variable {name : Bytes} {tags : List Tag}

/-- The tags are read back from a written key, whether it needs unescaping or not. -/
theorem parseTags_wireKey (hn : Readable name) (ht : ∀ t ∈ tags, t.Readable) :
    parseTags (wireKey name tags) = tags := by
  have written : wireKey name tags =
      joinKey (escapeMeasurement name) ((tags.map Tag.escape).map Tag.text) := by
    rw [wireKey, List.map_map]
    rfl
  have tokens : ∀ u ∈ tags.map Tag.escape, u.Tokens := by
    intro u hu
    obtain ⟨t, mem, rfl⟩ := List.mem_map.mp hu
    exact (ht t mem).tokens
  rw [parseTags, written, walkTags_eq hn.measurementToken tokens]
  split_ifs with escaped
  · rw [List.map_map]
    refine (List.map_congr_left fun t _ => ?_).trans (List.map_id tags)
    simp [Tag.escape]
  · -- no backslash was written, so nothing was escaped
    refine (List.map_congr_left fun t mem => ?_).trans (List.map_id tags)
    have plain : Byte.backslash ∉ t.escape.text := by
      contrapose! escaped
      rw [joinKey, List.mem_append, List.mem_flatMap]
      exact .inr ⟨_, List.mem_map_of_mem (List.mem_map_of_mem mem), List.mem_cons_of_mem _ escaped⟩
    simp only [Tag.text, tagText, Tag.escape, List.mem_append, List.mem_cons, not_or] at plain
    rw [Tag.escape, escapeTag_eq_self plain.1, escapeTag_eq_self plain.2.2]
    rfl

theorem parseKey_wireKey (hn : Readable name) (ht : ∀ t ∈ tags, t.Readable) :
    parseKey (wireKey name tags) = (name, tags) := by
  have readTags := parseTags_wireKey hn ht
  unfold parseKey
  cases tags with
  | nil =>
    have scan : token Byte.backslash [Byte.comma] measurementStops (escapeMeasurement name) =
        some (escapeMeasurement name, []) := by
      rw [escapeMeasurement_eq]
      exact token_escape_end (by decide) (by decide) (by decide) hn.ne_nil
    rw [wireKey, List.map_nil, joinKey_nil, scanMeasurement, scan]
    simp
  | cons t ts =>
    have next (r : Bytes) : ScanState.tagKeyState.Leads (Byte.comma :: r) r := rfl
    have text := joinKey_cons (escapeMeasurement name) t.wire (ts.map Tag.wire)
    have scan := scanMeasurement_eq_iff.mpr ⟨hn.measurementToken, _, next _, text⟩
    rw [← List.map_cons] at scan
    rw [readTags, wireKey, scan]
    simp

end

/-- Measurement and tags are read back from the key that a client makes of them: the measurement
without the escapes it came with, and the tags that have a value. -/
theorem parseKey_makeKey {name : Bytes} {tags : List Tag} (hn : Readable (unescapeMeasurement name))
    (ht : ∀ t ∈ tags, t.value ≠ [] → t.Readable) :
    parseKey (makeKey name tags) = (unescapeMeasurement name, tags.filter (·.value ≠ [])) := by
  rw [makeKey_eq_wireKey]
  refine parseKey_wireKey hn fun t mem => ?_
  obtain ⟨mem, value⟩ := List.mem_filter.mp mem
  exact ht t mem (of_decide_eq_true value)

/-- A tag key with an equals sign, a value with a backslash before a comma, and a tag without value.
-/
theorem parseKey_makeKey_escapes :
    parseKey (makeKey (str "cpu load") [⟨str "a=b", str "x\\,y"⟩, ⟨str "c", []⟩]) =
      (str "cpu load", [⟨str "a=b", str "x\\,y"⟩]) :=
  parseKey_makeKey (by decide) (by decide)

/-! ## One series, however its tags are written -/

theorem serverOrder_perm (tags : List Tag) : (serverOrder tags).Perm tags := sortBy_perm _ tags

theorem serverOrder_eq_of_perm {tags tags' : List Tag} (hp : tags.Perm tags')
    (hn : (tags.map Tag.key).Nodup) : serverOrder tags = serverOrder tags' := by
  refine sortBy_eq_of_perm hp ?_
  have nodup := hn.map escapeTag_injective
  rwa [List.map_map] at nodup

/-- The server gives one series key to all orders in which the tags can be written, and measurement
and tags can be read back from it; tags of one key are refused wherever they stand. With tags that
crowd the slice of the indices it panics, in whatever order they are. -/
theorem scanKey_makeKey_of_perm {name : Bytes} {tags tags' : List Tag}
    (hn : Visible (unescapeMeasurement name)) (ht : ∀ t ∈ tags, t.value ≠ [] → t.Readable)
    (hp : tags.Perm tags') (rest : Bytes) :
    scanKey (makeKey name tags' ++ Byte.space :: rest) =
        scanKey (makeKey name tags ++ Byte.space :: rest) ∧
      if Crowded (tags.filter (·.value ≠ [])).length then
        scanKey (makeKey name tags ++ Byte.space :: rest) = .error .indexOutOfRange
      else if ((tags.filter (·.value ≠ [])).map Tag.key).Nodup then
        ∃ key sorted, scanKey (makeKey name tags ++ Byte.space :: rest) =
            .ok (key, Byte.space :: rest) ∧
          sorted.Perm (tags.filter (·.value ≠ [])) ∧
          parseKey key = (unescapeMeasurement name, sorted)
      else scanKey (makeKey name tags ++ Byte.space :: rest) = .error (.err duplicateTags) := by
  have perm := hp.filter fun t => decide (t.value ≠ [])
  have readable : ∀ t ∈ tags.filter (·.value ≠ []), t.Readable := by
    intro t mem
    obtain ⟨mem, value⟩ := List.mem_filter.mp mem
    exact ht t mem (of_decide_eq_true value)
  have readable' : ∀ t ∈ tags'.filter (·.value ≠ []), t.Readable :=
    fun t mem => readable t (perm.mem_iff.mpr mem)
  have nodup_iff := (perm.map Tag.key).nodup_iff
  rw [makeKey_eq_wireKey, makeKey_eq_wireKey, scanKey_wireKey hn readable rfl,
    scanKey_wireKey hn readable' rfl, ← perm.length_eq]
  by_cases crowded : Crowded (tags.filter (·.value ≠ [])).length
  · simp only [if_pos crowded, and_self]
  simp only [if_neg crowded]
  by_cases nodup : ((tags.filter (·.value ≠ [])).map Tag.key).Nodup
  · rw [if_pos nodup, if_pos (nodup_iff.mp nodup), if_pos nodup, serverOrder_eq_of_perm perm nodup]
    refine ⟨rfl, _, _, rfl, (serverOrder_perm _).trans perm.symm, ?_⟩
    exact parseKey_wireKey hn.readable fun t mem =>
      readable' t ((serverOrder_perm _).mem_iff.mp mem)
  · rw [if_neg nodup, if_neg (mt nodup_iff.mpr nodup), if_neg nodup]
    exact ⟨rfl, rfl⟩

/-- A client sorts the raw keys and a server the escaped ones, so these two change places. -/
theorem scanKey_makeKey_space_first :
    scanKey (makeKey (str "m") [⟨str "a!", str "2"⟩, ⟨str "a ", str "1"⟩] ++ str " v=1") =
      scanKey (makeKey (str "m") [⟨str "a ", str "1"⟩, ⟨str "a!", str "2"⟩] ++ str " v=1") :=
  (scanKey_makeKey_of_perm (by decide) (by decide) (.swap _ _ _) (str "v=1")).1

end InfluxHandler.Influx
