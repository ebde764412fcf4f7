import InfluxHandler.Influx.Point
import InfluxHandler.Library.Escape
import InfluxHandler.Library.Sorting

/-!
# Reading series keys

The scanners of `models/points.go` for the first block of a line, `measurement,tag=value,...`. A
scanner works on the text from its position on and returns the part that it passed and the rest; it
looks one byte back to see whether a byte is escaped. `scanKey` is what the server does with the key
of a line, `parseKey` is what it does with a stored key.
-/
namespace InfluxHandler.Influx
open Go Escape

/-! ## Blocks -/

/-- `scanTo`: the block before the first unescaped stop byte. `prev` is the byte before the block.
-/
def scanTo (stop : UInt8) (prev : Option UInt8) (buf : Bytes) : Bytes × Bytes :=
  span Byte.backslash [stop] prev buf

/-- `scanToSpaceOr`: the block before the first unescaped stop byte or space. At the end of the text
the source reads past it if there is no block, or if the block ends in a backslash. -/
def scanToSpaceOr (stop : UInt8) (buf : Bytes) : Option Bytes :=
  let (block, rest) := span Byte.backslash [stop, Byte.space] none buf
  if rest = [] ∧ (block = [] ∨ block.getLast? = some Byte.backslash) then none else some block

def scanTagValue (prev : Option UInt8) (buf : Bytes) : Bytes × Bytes :=
  span Byte.backslash [Byte.comma] prev buf

def unescapeTag (s : Bytes) : Bytes := unescapeWith tagEscapeCodes s

/-- The bytes of `escape.Codes`. -/
def escapeChars : Bytes := [Byte.comma, Byte.quote, Byte.space, Byte.equals]

/-- `escape.Unescape`. -/
def unescapeBytes (s : Bytes) : Bytes := unescape Byte.backslash escapeChars s

/-- Spaces, tabs and zero bytes are skipped. -/
def isBlank (c : UInt8) : Bool := c == Byte.space || c == 9 || c == 0

def skipWhitespace (buf : Bytes) : Bytes := buf.dropWhile isBlank

/-! ## The parts of a key -/

/-- Where a scan goes on: at a tag key behind a comma, or at the space before the fields. -/
inductive ScanState where
  | tagKeyState
  | fieldsState
  deriving DecidableEq

/-- The bytes that end a measurement, a tag key and a tag value. -/
abbrev measurementStops : Bytes := [Byte.comma, Byte.space]
abbrev tagKeyStops : Bytes := [Byte.space, Byte.comma, Byte.equals]
abbrev tagValueStops : Bytes := [Byte.equals, Byte.comma, Byte.space]

/-- The results of `scanMeasurement`: the next state or the error, the measurement, and the text
from the new position on. -/
structure Measurement where
  state : Except GoError ScanState
  text : Bytes
  rest : Bytes

def scanMeasurement (buf : Bytes) : Measurement :=
  match token Byte.backslash [Byte.comma] measurementStops buf with
  | none => ⟨.error (.text (str "missing measurement")), [], buf⟩
  | some (name, []) => ⟨.error (.text (str "missing fields")), name, []⟩
  | some (name, c :: rest) =>
    if c = Byte.comma then ⟨.ok .tagKeyState, name, rest⟩
    else ⟨.ok .fieldsState, name, c :: rest⟩

/-- A tag key, and the text behind its equals sign. -/
def scanTagsKey (buf : Bytes) : Except GoError (Bytes × Bytes) :=
  match token Byte.backslash tagKeyStops tagKeyStops buf with
  | none => .error (.text (str "missing tag key"))
  | some (_, []) => .error (.text (str "missing tag value"))
  | some (key, c :: rest) =>
    if c = Byte.equals then .ok (key, rest) else .error (.text (str "missing tag value"))

/-- A tag value, the next state, and the text from there on. -/
def scanTagsValue (buf : Bytes) : Except GoError (Bytes × ScanState × Bytes) :=
  match token Byte.backslash [Byte.comma, Byte.space] tagValueStops buf with
  | none => .error (.text (str "missing tag value"))
  | some (_, []) => .error (.text (str "missing fields"))
  | some (value, c :: rest) =>
    if c = Byte.equals then .error (.text (str "invalid tag format"))
    else if c = Byte.comma then .ok (value, .tagKeyState, rest)
    else .ok (value, .fieldsState, c :: rest)

/-- The text of a tag. -/
def tagText (key value : Bytes) : Bytes := key ++ Byte.equals :: value

/-- How a key or a line fails: with an error, or at an index past the end of a slice, where the
goroutine panics. -/
inductive ScanFailure where
  | err (e : GoError)
  | indexOutOfRange
  deriving DecidableEq

/-- `if err != nil { return err }`. -/
def ScanFailure.check {α : Type} (x : Except GoError α) : Except ScanFailure α := x.mapError .err

/-- The slice of the indices where the tags start: its length, and how many of its places are in
use. It is made with a hundred places, and doubled for a tag that finds no place. -/
structure Indices where
  len : Nat
  commas : Nat
  doubled : ∃ k, len = 100 * 2 ^ k
  fits : commas ≤ len
  /-- It was not doubled before it had to be. -/
  needed : len = 100 ∨ len < 2 * commas

def Indices.make : Indices := ⟨100, 0, ⟨0, rfl⟩, by decide, .inl rfl⟩

/-- The index of one more tag is stored. -/
def Indices.store (indices : Indices) : Indices where
  len := if indices.len ≤ indices.commas then indices.len * 2 else indices.len
  commas := indices.commas + 1
  doubled := by
    obtain ⟨k, length⟩ := indices.doubled
    split_ifs
    · exact ⟨k + 1, by rw [length, pow_succ, mul_assoc]⟩
    · exact ⟨k, length⟩
  fits := by
    obtain ⟨k, length⟩ := indices.doubled
    have positive := Nat.two_pow_pos k
    have fits := indices.fits
    split_ifs <;> omega
  needed := by
    have fits := indices.fits
    have needed := indices.needed
    split_ifs <;> omega

/-- The texts of the tags, which the source keeps as indices, and the text from the fields on. The
position of the fields is stored behind the tags, where the slice does not grow. Every tag takes a
byte, so the length of the text is enough fuel; what is left without fuel is empty. -/
def scanTags : Nat → Indices → Bytes → Except ScanFailure (List Bytes × Bytes)
  | 0, _, _ => .error (.err (.text (str "missing tag key")))
  | fuel + 1, indices, buf => do
    let indices := indices.store
    let (key, buf) ← ScanFailure.check (scanTagsKey buf)
    let (value, state, buf) ← ScanFailure.check (scanTagsValue buf)
    match state with
    | .fieldsState =>
      if indices.len ≤ indices.commas then .error .indexOutOfRange
      else pure ([tagText key value], buf)
    | .tagKeyState => do
      let (tags, buf) ← scanTags fuel indices buf
      pure (tagText key value :: tags, buf)

/-- The key of a tag's text, which the source finds again for every comparison. -/
def tagKeyOf (tag : Bytes) : Bytes := (scanTo Byte.equals none tag).1

/-! ## The key of a line -/

/-- The measurement with the tags behind it. -/
def joinKey (measurement : Bytes) (tags : List Bytes) : Bytes :=
  measurement ++ tags.flatMap (Byte.comma :: ·)

def duplicateTags : GoError := .text (str "duplicate tags")

/-- The second half of `scanKey`: a pass for tags that are in order, else `insertionSort` and a pass
for repeated keys. -/
def sortedKey (measurement : Bytes) (tags : List Bytes) : Except GoError Bytes :=
  match Sorting.canonical tagKeyOf tags with
  | none => .error duplicateTags
  | some tags => .ok (joinKey measurement tags)

/-- The key of a line, with its tags sorted, and the text behind it. -/
def scanKey (buf : Bytes) : Except ScanFailure (Bytes × Bytes) := do
  let m := scanMeasurement (skipWhitespace buf)
  match ← ScanFailure.check m.state with
  | .fieldsState => pure (m.text, m.rest)
  | .tagKeyState => do
    let (tags, rest) ← scanTags m.rest.length Indices.make m.rest
    let key ← ScanFailure.check (sortedKey m.text tags)
    pure (key, rest)

/-! ## Stored keys -/

/-- The loop of `walkTags`. A tag of empty value does not move the position past its comma. Every
turn takes a byte. -/
def walkTagsLoop : Nat → Option UInt8 → Bytes → List Tag
  | 0, _, _ => []
  | fuel + 1, prev, buf =>
    if buf = [] then []
    else
      let (key, buf) := scanTo Byte.equals prev buf
      let (value, buf) := scanTagValue (some Byte.equals) buf.tail
      if value = [] then walkTagsLoop fuel (some Byte.equals) buf
      else ⟨key, value⟩ :: walkTagsLoop fuel (some Byte.comma) buf.tail

/-- The tags that `walkTags` visits. -/
def walkTags (buf : Bytes) : List Tag :=
  let (name, rest) := scanTo Byte.comma none buf
  if name = [] then []
  else
    let tags := walkTagsLoop rest.length (some Byte.comma) rest.tail
    if Byte.backslash ∈ buf then tags.map fun t => ⟨unescapeTag t.key, unescapeTag t.value⟩
    else tags

def parseTags (buf : Bytes) : List Tag := walkTags buf

/-- `ParseKey`: the error of `scanMeasurement` is ignored. -/
def parseKey (buf : Bytes) : Bytes × List Tag :=
  let m := scanMeasurement buf
  (unescapeMeasurement m.text,
    match m.state with
    | .ok .tagKeyState => parseTags buf
    | _ => [])

/-! ## Tags that crowd the slice -/

@[simp] theorem ScanFailure.check_ok {α : Type} (a : α) : ScanFailure.check (.ok a) = .ok a := rfl

@[simp] theorem ScanFailure.check_error {α : Type} (e : GoError) :
    (ScanFailure.check (.error e) : Except ScanFailure α) = .error (.err e) := rfl

theorem ScanFailure.check_eq_ok_iff {α : Type} {x : Except GoError α} {a : α} :
    ScanFailure.check x = .ok a ↔ x = .ok a := by
  cases x <;> simp

/-- As many tags as the slice has places: a hundred, doubled some times. -/
def Crowded (n : Nat) : Prop := ∃ k, n = 100 * 2 ^ k

theorem Crowded.le {n : Nat} (h : Crowded n) : 100 ≤ n := by
  obtain ⟨k, rfl⟩ := h
  have positive := Nat.two_pow_pos k
  omega

instance (n : Nat) : Decidable (Crowded n) :=
  decidable_of_iff (∃ k < n, n = 100 * 2 ^ k) <| by
    constructor
    · rintro ⟨k, -, h⟩
      exact ⟨k, h⟩
    · rintro ⟨k, h⟩
      have bound := k.lt_two_pow_self
      exact ⟨k, by omega, h⟩

/-- There is no place behind the tags. -/
theorem Indices.full_iff (indices : Indices) :
    indices.len ≤ indices.commas ↔ Crowded indices.commas := by
  obtain ⟨len, commas, ⟨k, length⟩, fits, needed⟩ := indices
  dsimp only
  constructor
  · intro full
    exact ⟨k, by omega⟩
  · rintro ⟨j, count⟩
    by_contra place
    -- the slice would have been doubled too early
    have less : j < k := (Nat.pow_lt_pow_iff_right Nat.one_lt_two).mp (by omega)
    have twice : 2 ^ (j + 1) ≤ 2 ^ k := Nat.pow_le_pow_right (by decide) less
    have positive := Nat.two_pow_pos j
    rw [pow_succ] at twice
    omega

/-! ## What the scanners accept -/

/-- The words of a key: a measurement, the two sides of a tag, a tag. -/
abbrev MeasurementToken (s : Bytes) : Prop := Token Byte.backslash [Byte.comma] measurementStops s
abbrev TagKeyToken (s : Bytes) : Prop := Token Byte.backslash tagKeyStops tagKeyStops s
abbrev TagValueToken (s : Bytes) : Prop :=
  Token Byte.backslash [Byte.comma, Byte.space] tagValueStops s

def TagToken (s : Bytes) : Prop :=
  ∃ key value, s = tagText key value ∧ TagKeyToken key ∧ TagValueToken value

/-- The text behind a word and the text from the new position on. -/
def ScanState.Leads : ScanState → Bytes → Bytes → Prop
  | .tagKeyState, text, rest => text = Byte.comma :: rest
  | .fieldsState, text, rest => text = rest ∧ rest.head? = some Byte.space

section
variable {buf rest : Bytes}

theorem scanMeasurement_eq_iff {state : ScanState} {m : Bytes} :
    scanMeasurement buf = ⟨.ok state, m, rest⟩ ↔
      MeasurementToken m ∧ ∃ text, state.Leads text rest ∧ buf = m ++ text := by
  constructor
  · intro h
    unfold scanMeasurement at h
    split at h
    · cases h
    · cases h
    · rename_i name c r found
      obtain ⟨tok, stop, rfl⟩ := token_eq_some_iff.mp found
      split_ifs at h with hc
      · cases h
        exact ⟨tok, _, rfl, by rw [hc]⟩
      · cases h
        have space : c = Byte.space := by simpa [measurementStops, hc] using stop
        exact ⟨tok, _, ⟨rfl, congrArg some space⟩, rfl⟩
  · rintro ⟨tok, text, leads, rfl⟩
    cases state with
    | tagKeyState =>
      cases leads
      rw [scanMeasurement, token_eq_some_iff.mpr ⟨tok, by decide, rfl⟩]
      rfl
    | fieldsState =>
      obtain ⟨rfl, space⟩ := leads
      obtain ⟨r, rfl⟩ := List.head?_eq_some_iff.mp space
      rw [scanMeasurement, token_eq_some_iff.mpr ⟨tok, by decide, rfl⟩]
      rfl

theorem scanTagsKey_eq_ok_iff {key : Bytes} :
    scanTagsKey buf = .ok (key, rest) ↔ TagKeyToken key ∧ buf = key ++ Byte.equals :: rest := by
  constructor
  · intro h
    unfold scanTagsKey at h
    split at h
    · cases h
    · cases h
    · rename_i found
      split_ifs at h with hc
      cases h
      obtain ⟨tok, -, rfl⟩ := token_eq_some_iff.mp found
      exact ⟨tok, by rw [hc]⟩
  · rintro ⟨tok, rfl⟩
    rw [scanTagsKey, token_eq_some_iff.mpr ⟨tok, by decide, rfl⟩]
    rfl

theorem scanTagsValue_eq_ok_iff {value : Bytes} {state : ScanState} :
    scanTagsValue buf = .ok (value, state, rest) ↔
      TagValueToken value ∧ ∃ text, state.Leads text rest ∧ buf = value ++ text := by
  constructor
  · intro h
    unfold scanTagsValue at h
    split at h
    · cases h
    · cases h
    · rename_i v c r found
      obtain ⟨tok, stop, rfl⟩ := token_eq_some_iff.mp found
      split_ifs at h with equals comma
      · cases h
        exact ⟨tok, _, rfl, by rw [comma]⟩
      · cases h
        have space : c = Byte.space := by simpa [tagValueStops, equals, comma] using stop
        exact ⟨tok, _, ⟨rfl, congrArg some space⟩, rfl⟩
  · rintro ⟨tok, text, leads, rfl⟩
    cases state with
    | tagKeyState =>
      cases leads
      rw [scanTagsValue, token_eq_some_iff.mpr ⟨tok, by decide, rfl⟩]
      rfl
    | fieldsState =>
      obtain ⟨rfl, space⟩ := leads
      obtain ⟨r, rfl⟩ := List.head?_eq_some_iff.mp space
      rw [scanTagsValue, token_eq_some_iff.mpr ⟨tok, by decide, rfl⟩]
      rfl

/-- The text of a list of tags: words separated by commas, up to the space before the fields. -/
structure TagsShape (buf : Bytes) (tags : List Bytes) (rest : Bytes) : Prop where
  tokens : ∀ t ∈ tags, TagToken t
  space : rest.head? = some Byte.space
  text : ∃ t ts, tags = t :: ts ∧ buf = t ++ ts.flatMap (Byte.comma :: ·) ++ rest

/-- Every tag takes a comma. -/
theorem length_le_flatMap_comma {α : Type} (f : α → Bytes) (ts : List α) :
    ts.length ≤ (ts.flatMap (Byte.comma :: f ·)).length := by
  induction ts with
  | nil => exact le_rfl
  | cons t ts ih =>
    simp only [List.flatMap_cons, List.length_append, List.length_cons]
    omega

theorem TagsShape.length_le {tags : List Bytes} (h : TagsShape buf tags rest) :
    tags.length ≤ buf.length := by
  obtain ⟨all, -, t, ts, rfl, rfl⟩ := h
  obtain ⟨key, value, rfl, -, -⟩ := all t List.mem_cons_self
  have commas : ts.length ≤ (ts.flatMap (Byte.comma :: ·)).length := length_le_flatMap_comma id ts
  simp only [tagText, List.length_cons, List.length_append]
  omega

/-- The last tag, with the space before the fields behind it. -/
theorem TagToken.scanTags_last {t : Bytes} (h : TagToken t) (space : rest.head? = some Byte.space)
    (fuel : Nat) (indices : Indices) :
    scanTags (fuel + 1) indices (t ++ rest) =
      if Crowded (indices.commas + 1) then .error .indexOutOfRange else .ok ([t], rest) := by
  obtain ⟨key, value, rfl, keyTok, valueTok⟩ := h
  have hkey : scanTagsKey (tagText key value ++ rest) = .ok (key, value ++ rest) :=
    scanTagsKey_eq_ok_iff.mpr ⟨keyTok, by simp [tagText]⟩
  have fields : ScanState.fieldsState.Leads rest rest := ⟨rfl, space⟩
  have hvalue : scanTagsValue (value ++ rest) = .ok (value, .fieldsState, rest) :=
    scanTagsValue_eq_ok_iff.mpr ⟨valueTok, rest, fields, rfl⟩
  simp only [scanTags, hkey, hvalue, ScanFailure.check_ok, Except.ok_bind, indices.store.full_iff]
  rfl

/-- A tag with a comma behind it. -/
theorem TagToken.scanTags_cons {t : Bytes} (h : TagToken t) (r : Bytes) (fuel : Nat)
    (indices : Indices) :
    scanTags (fuel + 1) indices (t ++ Byte.comma :: r) =
      (scanTags fuel indices.store r).map fun found => (t :: found.1, found.2) := by
  obtain ⟨key, value, rfl, keyTok, valueTok⟩ := h
  have hkey : scanTagsKey (tagText key value ++ Byte.comma :: r) =
      .ok (key, value ++ Byte.comma :: r) :=
    scanTagsKey_eq_ok_iff.mpr ⟨keyTok, by simp [tagText]⟩
  have next : ScanState.tagKeyState.Leads (Byte.comma :: r) r := rfl
  have hvalue : scanTagsValue (value ++ Byte.comma :: r) = .ok (value, .tagKeyState, r) :=
    scanTagsValue_eq_ok_iff.mpr ⟨valueTok, _, next, rfl⟩
  simp only [scanTags, hkey, hvalue, ScanFailure.check_ok, Except.ok_bind]
  cases scanTags fuel indices.store r <;> rfl

/-- Such a text is read, unless its tags crowd the slice. -/
theorem TagsShape.scanTags_eq {tags : List Bytes} (h : TagsShape buf tags rest) {fuel : Nat}
    (hf : tags.length ≤ fuel) (indices : Indices) :
    scanTags fuel indices buf =
      if Crowded (indices.commas + tags.length) then .error .indexOutOfRange
      else .ok (tags, rest) := by
  obtain ⟨all, space, t, ts, rfl, rfl⟩ := h
  induction ts generalizing t fuel indices with
  | nil =>
    obtain ⟨fuel, rfl⟩ : ∃ n, fuel = n + 1 := ⟨fuel - 1, by rw [List.length_singleton] at hf; omega⟩
    have last := (all t List.mem_cons_self).scanTags_last space fuel indices
    rwa [List.flatMap_nil, List.append_nil]
  | cons u us ih =>
    obtain ⟨first, others⟩ := List.forall_mem_cons.mp all
    obtain ⟨fuel, rfl⟩ : ∃ n, fuel = n + 1 := ⟨fuel - 1, by rw [List.length_cons] at hf; omega⟩
    have count : indices.commas + (t :: u :: us).length =
        indices.store.commas + (u :: us).length := by
      simp only [Indices.store, List.length_cons]
      omega
    have text : t ++ (u :: us).flatMap (Byte.comma :: ·) ++ rest =
        t ++ Byte.comma :: (u ++ us.flatMap (Byte.comma :: ·) ++ rest) := by simp
    rw [text, first.scanTags_cons, ih indices.store u (Nat.le_of_succ_le_succ hf) others, count]
    split_ifs <;> rfl

/-- What is read has that shape. -/
theorem tagsShape_of_scanTags {fuel : Nat} {indices : Indices} {tags : List Bytes}
    (h : scanTags fuel indices buf = .ok (tags, rest)) :
    TagsShape buf tags rest ∧ ¬ Crowded (indices.commas + tags.length) := by
  induction fuel generalizing buf tags indices with
  | zero => cases h
  | succ fuel ih =>
    obtain ⟨⟨key, b⟩, hkey, h₁⟩ := Except.bind_eq_ok_iff.mp h
    obtain ⟨⟨value, state, b'⟩, hvalue, h₂⟩ := Except.bind_eq_ok_iff.mp h₁
    clear h h₁
    obtain ⟨keyTok, rfl⟩ := scanTagsKey_eq_ok_iff.mp (ScanFailure.check_eq_ok_iff.mp hkey)
    obtain ⟨valueTok, text, leads, rfl⟩ :=
      scanTagsValue_eq_ok_iff.mp (ScanFailure.check_eq_ok_iff.mp hvalue)
    have tag : TagToken (tagText key value) := ⟨key, value, rfl, keyTok, valueTok⟩
    cases state with
    | fieldsState =>
      dsimp only at h₂
      by_cases full : indices.store.len ≤ indices.store.commas
      · rw [if_pos full] at h₂
        cases h₂
      · rw [if_neg full] at h₂
        cases h₂
        obtain ⟨rfl, space⟩ := leads
        refine ⟨⟨by simpa using tag, space, _, [], rfl, by simp [tagText]⟩, ?_⟩
        exact mt indices.store.full_iff.mpr full
    | tagKeyState =>
      cases leads
      obtain ⟨⟨tags', b⟩, htags, h₃⟩ := Except.bind_eq_ok_iff.mp h₂
      cases h₃
      obtain ⟨⟨all, space, t, ts, rfl, rfl⟩, room⟩ := ih htags
      refine ⟨⟨List.forall_mem_cons.mpr ⟨tag, all⟩, space, _, t :: ts, rfl, by simp [tagText]⟩, ?_⟩
      simpa [Indices.store, Nat.add_assoc, Nat.add_comm 1] using room

theorem TagToken.block {t : Bytes} (h : TagToken t) :
    Block Byte.backslash [Byte.comma, Byte.space] none t := by
  obtain ⟨key, value, rfl, keyTok, valueTok⟩ := h
  have keyBlock : Block Byte.backslash [Byte.comma, Byte.space] none key :=
    keyTok.block (by decide) (by decide) none
  have valueBlock : Block Byte.backslash [Byte.comma, Byte.space] (some Byte.equals) value :=
    valueTok.block (by decide) (by decide) _
  exact .append keyBlock.passes (.cons (fun equals => absurd equals (by decide)) valueBlock)

theorem scanToSpaceOr_tag {t : Bytes} (h : TagToken t) {behind : Bytes}
    (stop : behind.head? = some Byte.comma ∨ behind.head? = some Byte.space) :
    scanToSpaceOr Byte.comma (t ++ behind) = some t := by
  obtain ⟨c, rest, rfl, hc⟩ : ∃ c rest, behind = c :: rest ∧ c ∈ [Byte.comma, Byte.space] := by
    rcases stop with head | head <;> obtain ⟨rest, rfl⟩ := List.head?_eq_some_iff.mp head
    · exact ⟨_, rest, rfl, by decide⟩
    · exact ⟨_, rest, rfl, by decide⟩
  simp [scanToSpaceOr, h.block.span_append hc]

/-- The texts of `scanTags` are those that the source reads again, each at its index, when it puts
the tags in order. -/
theorem scanToSpaceOr_of_scanTags {fuel : Nat} {indices : Indices} {before behind : List Bytes}
    {t : Bytes} (h : scanTags fuel indices buf = .ok (before ++ t :: behind, rest)) :
    ∃ text, buf = before.flatMap (· ++ [Byte.comma]) ++ text ∧
      scanToSpaceOr Byte.comma text = some t := by
  obtain ⟨⟨tokens, space, u, us, split, rfl⟩, -⟩ := tagsShape_of_scanTags h
  have tag : TagToken t := tokens t (by simp)
  refine ⟨t ++ (behind.flatMap (Byte.comma :: ·) ++ rest), ?_, scanToSpaceOr_tag tag ?_⟩
  · cases before with
    | nil =>
      cases split
      simp
    | cons b before =>
      obtain ⟨rfl, rfl⟩ := List.cons.inj split
      -- the commas stand before the tags on one side and behind them on the other
      have commas : before.flatMap (Byte.comma :: ·) ++ [Byte.comma] =
          Byte.comma :: before.flatMap (· ++ [Byte.comma]) := by
        clear split tokens h
        induction before with
        | nil => rfl
        | cons b' before ih => simp [ih]
      calc b ++ (before ++ t :: behind).flatMap (Byte.comma :: ·) ++ rest
        _ = b ++ (before.flatMap (Byte.comma :: ·) ++ [Byte.comma]) ++
            (t ++ (behind.flatMap (Byte.comma :: ·) ++ rest)) := by simp
        _ = _ := by rw [commas]; simp
  · cases behind with
    | nil => exact .inr space
    | cons v behind => exact .inl rfl

end

/-! ## Escaping, symbol by symbol -/

section
variable {codes : List EscapeSet}

/-- The bytes of the codes. -/
def escapeKeys (codes : List EscapeSet) : Bytes := codes.map (·.k)

/-- The codes are applied one after the other; the result is as if all were applied at once. -/
theorem foldl_escape (hb : Backslashed codes) (hk : Byte.backslash ∉ escapeKeys codes)
    (hn : (escapeKeys codes).Nodup) {special : Bytes} (hs : ∀ c ∈ codes, c.k ∉ special)
    (s : Bytes) :
    codes.foldl (fun s c => if c.k ∈ s then Replace.replaceAll [c.k] c.esc s else s)
        (escape Byte.backslash special s) =
      escape Byte.backslash (escapeKeys codes ++ special) s := by
  induction codes generalizing special with
  | nil => rfl
  | cons c codes ih =>
    rw [escapeKeys, List.map_cons, List.mem_cons, not_or] at hk
    rw [escapeKeys, List.map_cons, List.nodup_cons] at hn
    rw [Backslashed, List.forall_mem_cons] at hb
    rw [List.forall_mem_cons] at hs
    have step : (if c.k ∈ escape Byte.backslash special s
        then Replace.replaceAll [c.k] c.esc (escape Byte.backslash special s)
        else escape Byte.backslash special s) = escape Byte.backslash (c.k :: special) s := by
      split_ifs with h
      · rw [hb.1, replaceAll_escape hs.1 (Ne.symm hk.1)]
      · refine escape_congr fun d hd => ?_
        have hdk : d ≠ c.k := fun h' => not_mem_of_escape h (h' ▸ hd)
        simp [hdk]
    rw [List.foldl_cons, step, ih hb.2 hk.2 hn.2]
    · refine escape_congr fun d _ => ?_
      simp only [escapeKeys, List.map_cons, List.mem_append, List.mem_cons]
      tauto
    · intro d hd
      rw [List.mem_cons, not_or]
      exact ⟨fun h => hn.1 (h ▸ List.mem_map_of_mem hd), hs.2 d hd⟩

theorem escapeWith_eq (hb : Backslashed codes) (hk : Byte.backslash ∉ escapeKeys codes)
    (hn : (escapeKeys codes).Nodup) (s : Bytes) :
    escapeWith codes s = escape Byte.backslash (escapeKeys codes) s := by
  have h := foldl_escape hb hk hn (fun c _ => List.not_mem_nil) s
  rwa [List.append_nil, escape_eq_self (by simp)] at h

/-- Taking the codes away one after the other gives the text back. -/
theorem foldl_unescape (hb : Backslashed codes) (hn : (escapeKeys codes).Nodup) {special : Bytes}
    (he : Byte.backslash ∉ special) (hs : ∀ a, a ∈ special ↔ a ∈ escapeKeys codes) (s : Bytes) :
    codes.foldl (fun s c => if c.k ∈ s then Replace.replaceAll c.esc [c.k] s else s)
        (escape Byte.backslash special s) = s := by
  induction codes generalizing special with
  | nil => exact escape_eq_self fun a ha => absurd ((hs a).mp ha) List.not_mem_nil
  | cons c codes ih =>
    rw [escapeKeys, List.map_cons, List.nodup_cons] at hn
    rw [Backslashed, List.forall_mem_cons] at hb
    have hk : c.k ∈ special := (hs _).mpr List.mem_cons_self
    have step : (if c.k ∈ escape Byte.backslash special s
        then Replace.replaceAll c.esc [c.k] (escape Byte.backslash special s)
        else escape Byte.backslash special s) =
        escape Byte.backslash (special.filter (· ≠ c.k)) s := by
      split_ifs with h
      · rw [hb.1, replaceAll_unescape hk he]
      · refine escape_congr fun d hd => ?_
        have hdk : d ≠ c.k := fun h' => not_mem_of_escape h (h' ▸ hd)
        simp [hdk]
    rw [List.foldl_cons, step]
    refine ih hb.2 hn.2 (fun h => he (List.mem_of_mem_filter h)) fun a => ?_
    have others : a ∈ escapeKeys codes → a ≠ c.k := fun ha h => hn.1 (h ▸ ha)
    simp only [List.mem_filter, hs, escapeKeys, List.map_cons, List.mem_cons, decide_eq_true_eq]
    exact ⟨fun h => h.1.resolve_left h.2, fun h => ⟨.inr h, others h⟩⟩

theorem unescapeWith_escape (hb : Backslashed codes) (hk : Byte.backslash ∉ escapeKeys codes)
    (hn : (escapeKeys codes).Nodup) (s : Bytes) :
    unescapeWith codes (escape Byte.backslash (escapeKeys codes) s) = s := by
  unfold unescapeWith
  split_ifs with h
  · exact foldl_unescape hb hn hk (fun _ => Iff.rfl) s
  · exact escape_eq_self_of_not_mem hk h

end

abbrev measurementChars : Bytes := [Byte.comma, Byte.space]
abbrev tagChars : Bytes := [Byte.comma, Byte.space, Byte.equals]

theorem escapeMeasurement_eq (s : Bytes) :
    escapeMeasurement s = escape Byte.backslash measurementChars s :=
  escapeWith_eq backslashed_measurement (by decide) (by decide) s

theorem escapeTag_eq (s : Bytes) : escapeTag s = escape Byte.backslash tagChars s :=
  escapeWith_eq backslashed_tag (by decide) (by decide) s

theorem escapeString_eq (s : Bytes) : escapeString s = escape Byte.backslash escapeChars s := by
  simp [escapeString, escape, escapeChars]

@[simp] theorem unescapeMeasurement_escapeMeasurement (s : Bytes) :
    unescapeMeasurement (escapeMeasurement s) = s := by
  rw [escapeMeasurement_eq]
  exact unescapeWith_escape backslashed_measurement (by decide) (by decide) s

@[simp] theorem unescapeTag_escapeTag (s : Bytes) : unescapeTag (escapeTag s) = s := by
  rw [escapeTag_eq]
  exact unescapeWith_escape backslashed_tag (by decide) (by decide) s

theorem escapeTag_injective : Function.Injective escapeTag :=
  Function.LeftInverse.injective unescapeTag_escapeTag

theorem unescapeMeasurement_eq_self {s : Bytes} (h : Byte.backslash ∉ s) :
    unescapeMeasurement s = s := if_neg h

/-! ## Escaped texts are words -/

/-- A text that is found again when it is escaped and a separator follows: there is one, and it does
not end in a backslash, which would escape the separator. -/
structure Readable (s : Bytes) : Prop where
  ne_nil : s ≠ []
  last : s.getLast? ≠ some Byte.backslash

instance (s : Bytes) : Decidable (Readable s) :=
  decidable_of_iff (s ≠ [] ∧ s.getLast? ≠ some Byte.backslash)
    ⟨fun h => ⟨h.1, h.2⟩, fun h => ⟨h.1, h.2⟩⟩

section
variable {s : Bytes} (h : Readable s)
include h

theorem Readable.measurementToken : MeasurementToken (escapeMeasurement s) := by
  rw [escapeMeasurement_eq]
  exact token_escape (by decide) (by decide) (by decide) h.ne_nil h.last

theorem Readable.tagKeyToken : TagKeyToken (escapeTag s) := by
  rw [escapeTag_eq]
  exact token_escape (by decide) (by decide) (by decide) h.ne_nil h.last

theorem Readable.tagValueToken : TagValueToken (escapeTag s) := by
  rw [escapeTag_eq]
  exact token_escape (by decide) (by decide) (by decide) h.ne_nil h.last

end

/-- The escaped text of a tag. -/
def Tag.wire (t : Tag) : Bytes := tagText (escapeTag t.key) (escapeTag t.value)

/-- The measurement and the tags of a line, in the order of the list. -/
def wireKey (name : Bytes) (tags : List Tag) : Bytes :=
  joinKey (escapeMeasurement name) (tags.map Tag.wire)

structure Tag.Readable (t : Tag) : Prop where
  key : Influx.Readable t.key
  value : Influx.Readable t.value

instance (t : Tag) : Decidable t.Readable :=
  decidable_of_iff (Influx.Readable t.key ∧ Influx.Readable t.value)
    ⟨fun h => ⟨h.1, h.2⟩, fun h => ⟨h.1, h.2⟩⟩

theorem Tag.Readable.tagToken {t : Tag} (h : t.Readable) : TagToken t.wire :=
  ⟨_, _, rfl, h.key.tagKeyToken, h.value.tagValueToken⟩

/-- The key that a client writes holds the tags that have a value. -/
theorem makeKey_eq_wireKey (name : Bytes) (tags : List Tag) :
    makeKey name tags = wireKey (unescapeMeasurement name) (tags.filter (·.value ≠ [])) := by
  have parts : tags.flatMap tagPart =
      ((tags.filter (·.value ≠ [])).map Tag.wire).flatMap (Byte.comma :: ·) := by
    induction tags with
    | nil => rfl
    | cons t tags ih =>
      by_cases h : t.value = []
      · simpa [tagPart, h] using ih
      · simpa [tagPart, h, Tag.wire, tagText] using ih
  rw [makeKey_eq, parts, wireKey, joinKey]

end InfluxHandler.Influx
