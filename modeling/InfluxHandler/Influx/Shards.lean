import InfluxHandler.Influx.Point
import InfluxHandler.Library.Search
import Mathlib.Data.Prod.Lex

/-!
# Shards

The points of a request are spread over shards, by time and by series. `mapShards` first collects
the shard groups that cover the times of the points, then sends every point to a shard of its group.
No point is lost or sent twice (`mapShards_partition`), and a point that falls into no group was too
old for the retention policy (`mapShards_dropped`).
-/
namespace InfluxHandler.Influx
open Go KeyedMap

/-- The errors of a write, by what is done about them. -/
inductive WriteError where
  | text (message : Bytes)
  /-- One that says `AuthorizationFailed`. -/
  | authorization (message : Bytes)
  | partialWrite (reason : Bytes) (dropped : Nat)
  | shardNotFound
  | shardDeletion
  deriving DecidableEq

def WriteError.message : WriteError → Bytes
  | .text message => message
  | .authorization message => message
  | .partialWrite reason dropped =>
    str "partial write: " ++ reason ++ str " dropped=" ++ formatUint dropped
  | .shardNotFound => str "shard not found"
  | .shardDeletion => str "shard is being deleted"

def errDatabaseNotFound (name : Bytes) : WriteError := .text (str "database not found: " ++ name)

def errRetentionPolicyNotFound (name : Bytes) : WriteError :=
  .text (str "retention policy not found: " ++ name)

/-! ## Shard groups -/

/-- The shards are given by their numbers; a group is created with one. -/
structure ShardGroupInfo where
  id : UInt64
  startTime : Time
  endTime : Time
  deletedAt : Time
  truncatedAt : Time
  shards : List UInt64
  shards_ne_nil : shards ≠ []

def ShardGroupInfo.contains (sgi : ShardGroupInfo) (t : Time) : Bool :=
  !t.before sgi.startTime && t.before sgi.endTime

def ShardGroupInfo.deleted (sgi : ShardGroupInfo) : Bool := !sgi.deletedAt.isZero

def ShardGroupInfo.truncated (sgi : ShardGroupInfo) : Bool := !sgi.truncatedAt.isZero

/-- The time that groups are sorted by. -/
def ShardGroupInfo.sortTime (sgi : ShardGroupInfo) : Time :=
  if sgi.truncated then sgi.truncatedAt else sgi.endTime

def ShardGroupInfo.less (a b : ShardGroupInfo) : Bool :=
  if a.sortTime = b.sortTime then a.startTime.before b.startTime else a.sortTime.before b.sortTime

/-- `ShardFor`. -/
def ShardGroupInfo.shardFor (sgi : ShardGroupInfo) (hash : UInt64) : UInt64 :=
  sgi.shards.get ⟨hash.toNat % sgi.shards.length,
    Nat.mod_lt _ (List.length_pos_iff.mpr sgi.shards_ne_nil)⟩

/-- `sgList.ShardGroupAt`. -/
def shardGroupAt (l : List ShardGroupInfo) (t : Time) : Option ShardGroupInfo :=
  match l[Search.search l.length fun i => l[i]?.any (·.endTime.after t)]? with
  | none => none
  | some sgi => if t.before sgi.startTime then none else some sgi

/-- `sgList.Covers`. -/
def covers (l : List ShardGroupInfo) (t : Time) : Bool :=
  if l.length = 0 then false else (shardGroupAt l t).isSome

/-- `sgList.Append`. -/
def appendGroup (rt : Runtime) (l : List ShardGroupInfo) (sgi : ShardGroupInfo) :
    List ShardGroupInfo := rt.sort ShardGroupInfo.less (l ++ [sgi])

/-- `point.HashID`, the 64-bit FNV-1a hash of the key. -/
def Point.hashID (p : Point) : UInt64 :=
  p.key.foldl (fun hash c => (hash ^^^ c.toUInt64) * 1099511628211) 14695981039346656037

/-! ## The mapping -/

/-- The metadata service. What it does with a call may depend on the calls before it. -/
structure MetaClient where
  /-- The default retention policy of a database. -/
  database : Bytes → Option Bytes
  /-- The duration of a retention policy. -/
  retentionPolicy : Bytes → Bytes → Except WriteError (Option Int)
  createShardGroup : Bytes → Bytes → List Time → Time → Except WriteError (Option ShardGroupInfo)
  /-- `time.Now().Add(-d)`. -/
  ago : Int → Time

structure ShardMapping where
  points : Map UInt64 (List Point)
  dropped : List Point
  deriving DecidableEq

section
variable (rt : Runtime) (mc : MetaClient) (database retentionPolicy : Bytes)

/-- One turn of the first loop: nothing to do if the point is too old or has a group already. The
state holds the times of the calls so far, and the groups. -/
def coverPoint (min : Time) (st : List Time × List ShardGroupInfo) (p : Point) :
    Except WriteError (List Time × List ShardGroupInfo) :=
  if p.time.before min || covers st.2 p.time then .ok st
  else do
    match ← mc.createShardGroup database retentionPolicy st.1 p.time with
    | none => .error (.text (str "nil shard group"))
    | some sgi => pure (st.1 ++ [p.time], appendGroup rt st.2 sgi)

/-- One turn of the second loop. -/
def ShardMapping.mapPoint (l : List ShardGroupInfo) (mapping : ShardMapping) (p : Point) :
    ShardMapping :=
  match shardGroupAt l p.time with
  | none => { mapping with dropped := mapping.dropped ++ [p] }
  | some sgi =>
    { mapping with points := appendTo (fun p => sgi.shardFor p.hashID) mapping.points p }

def minTime (duration : Int) : Time :=
  if 0 < duration then mc.ago duration else Time.unix 0 minNanoTime

/-- `MapShards`, with the times of its calls to the metadata service. -/
def mapShardsCalls (points : List Point) : Except WriteError (List Time × ShardMapping) := do
  match ← mc.retentionPolicy database retentionPolicy with
  | none => .error (errRetentionPolicyNotFound retentionPolicy)
  | some duration =>
    let (calls, l) ←
      points.foldlM (coverPoint rt mc database retentionPolicy (minTime mc duration)) ([], [])
    pure (calls, points.foldl (ShardMapping.mapPoint l) ⟨∅, []⟩)

def mapShards (points : List Point) : Except WriteError ShardMapping :=
  Prod.snd <$> mapShardsCalls rt mc database retentionPolicy points

end

/-! ## Times in order -/

/-- The two counters of a time, compared one after the other. -/
def instant (t : Time) : Lex (Int × Int) := toLex (t.sec.toInt, t.nsec.toInt)

theorem before_iff {t u : Time} : t.before u = true ↔ instant t < instant u := by
  simp [Time.before, instant, Prod.Lex.lt_iff, Int64.lt_iff_toInt_lt, ← Int64.toInt_inj]

theorem after_iff {t u : Time} : t.after u = true ↔ instant u < instant t := by
  have swap : t.after u = u.before t := by rw [Time.after, Time.before, BEq.comm (a := t.sec)]
  rw [swap, before_iff]

theorem instant_injective : Function.Injective instant := by
  rintro ⟨s, n⟩ ⟨s', n'⟩ h
  simpa [instant, Int64.toInt_inj] using h

theorem before_eq_false_iff {t u : Time} : t.before u = false ↔ instant u ≤ instant t := by
  rw [← not_lt, ← before_iff, Bool.not_eq_true]

theorem contains_iff {sgi : ShardGroupInfo} {t : Time} :
    sgi.contains t = true ↔
      instant sgi.startTime ≤ instant t ∧ instant t < instant sgi.endTime := by
  rw [ShardGroupInfo.contains, Bool.and_eq_true, Bool.not_eq_true', before_eq_false_iff, before_iff]

/-- What groups are sorted by. -/
def ShardGroupInfo.rank (g : ShardGroupInfo) : Lex (Lex (Int × Int) × Lex (Int × Int)) :=
  toLex (instant g.sortTime, instant g.startTime)

theorem ShardGroupInfo.less_iff {a b : ShardGroupInfo} : a.less b = true ↔ a.rank < b.rank := by
  rw [rank, rank, Prod.Lex.lt_iff, ShardGroupInfo.less]
  by_cases h : a.sortTime = b.sortTime
  · simp [h, before_iff]
  · simp [h, before_iff, instant_injective.eq_iff]

theorem ShardGroupInfo.less_eq_false_iff {a b : ShardGroupInfo} :
    a.less b = false ↔ b.rank ≤ a.rank := by
  rw [← not_lt, ← less_iff, Bool.not_eq_true]

theorem strictWeak_groups : StrictWeak ShardGroupInfo.less where
  asymm a b h := ShardGroupInfo.less_eq_false_iff.mpr (ShardGroupInfo.less_iff.mp h).le
  negTrans a b c hab hbc := by
    rw [ShardGroupInfo.less_eq_false_iff] at *
    exact hbc.trans hab

/-! ## The group of a time -/

/-- Groups that do not overlap, of which none is truncated. -/
structure Separate (l : List ShardGroupInfo) : Prop where
  nonempty : ∀ g ∈ l, instant g.startTime < instant g.endTime
  untruncated : ∀ g ∈ l, g.truncated = false
  disjoint : ∀ g ∈ l, ∀ g' ∈ l, g = g' ∨ instant g.endTime ≤ instant g'.startTime ∨
    instant g'.endTime ≤ instant g.startTime

section
variable {l : List ShardGroupInfo} (hs : Separate l)
  (sorted : l.Pairwise fun a b => b.less a = false)
include hs sorted

theorem sorted_endTime : l.Pairwise fun a b => instant a.endTime ≤ instant b.endTime := by
  refine sorted.imp_of_mem fun {a b} ha hb order => ?_
  have times : a.sortTime = a.endTime ∧ b.sortTime = b.endTime := by
    simp [ShardGroupInfo.sortTime, hs.untruncated a ha, hs.untruncated b hb]
  rw [ShardGroupInfo.less_eq_false_iff, ShardGroupInfo.rank, ShardGroupInfo.rank, Prod.Lex.le_iff,
    times.1, times.2] at order
  rcases order with order | order
  · exact order.le
  · exact order.1.le

/-- The search finds the group that contains the time, if there is one. -/
theorem shardGroupAt_eq_some_iff {t : Time} {g : ShardGroupInfo} :
    shardGroupAt l t = some g ↔ g ∈ l ∧ g.contains t = true := by
  have ends := sorted_endTime hs sorted
  have found : l[Search.search l.length fun i => l[i]?.any (·.endTime.after t)]? =
      l.find? (·.endTime.after t) := by
    refine Search.getElem?_search (ends.imp fun {a b} order ha => ?_)
    rw [after_iff] at ha ⊢
    exact ha.trans_le order
  rw [shardGroupAt, found]
  constructor
  · intro h
    cases hf : l.find? (·.endTime.after t) with
    | none => simp [hf] at h
    | some g' =>
      simp only [hf, Option.ite_none_left_eq_some, Option.some.injEq, Bool.not_eq_true,
        before_eq_false_iff] at h
      obtain ⟨start, rfl⟩ := h
      have ending := List.find?_some hf
      exact ⟨List.mem_of_find?_eq_some hf, contains_iff.mpr ⟨start, after_iff.mp ending⟩⟩
  · rintro ⟨mem, inside⟩
    obtain ⟨start, ending⟩ := contains_iff.mp inside
    have exists_ : (l.find? (·.endTime.after t)).isSome :=
      List.find?_isSome.mpr ⟨g, mem, after_iff.mpr ending⟩
    obtain ⟨g', hf⟩ := Option.isSome_iff_exists.mp exists_
    obtain ⟨later, pre, post, rfl, none⟩ := List.find?_eq_some_iff_append.mp hf
    -- the group found ends no later than `g`, and what does not overlap `g` ends before `t` then
    have first : g' = g := by
      rcases List.mem_append.mp mem with before | behind
      · have skipped := none g before
        rw [after_iff.mpr ending] at skipped
        cases skipped
      · rcases List.mem_cons.mp behind with rfl | behind
        · rfl
        · have order := (List.pairwise_cons.mp (List.pairwise_append.mp ends).2.1).1 g behind
          have width := hs.nonempty g' (by simp)
          rcases hs.disjoint g' (by simp) g mem with same | apart | apart
          · exact same
          · exact absurd (after_iff.mp later) (not_lt.mpr (apart.trans start))
          · exact absurd width (not_lt.mpr (order.trans apart))
    subst first
    simp [hf, before_eq_false_iff.mpr start]

end

/-! ## The first loop -/

section
variable {rt : Runtime} {mc : MetaClient} {database retentionPolicy : Bytes}

/-- What a request relies on in the answers to its own calls: a group contains the time that was
asked for and is not truncated, and it does not overlap an earlier one that does not contain this
time. -/
structure MetaClient.Answered (mc : MetaClient) (database retentionPolicy : Bytes)
    (calls : List Time) : Prop where
  covers : ∀ {before t g}, before ++ [t] <+: calls →
    mc.createShardGroup database retentionPolicy before t = .ok (some g) → g.contains t = true
  untruncated : ∀ {before t g}, before ++ [t] <+: calls →
    mc.createShardGroup database retentionPolicy before t = .ok (some g) → g.truncated = false
  apart : ∀ {before t g before' t' g'}, before ++ [t] <+: before' → before' ++ [t'] <+: calls →
    mc.createShardGroup database retentionPolicy before t = .ok (some g) →
    mc.createShardGroup database retentionPolicy before' t' = .ok (some g') →
    g.contains t' = false →
    instant g.endTime ≤ instant g'.startTime ∨ instant g'.endTime ≤ instant g.startTime

theorem MetaClient.Answered.mono {calls calls' : List Time}
    (h : mc.Answered database retentionPolicy calls') (hp : calls <+: calls') :
    mc.Answered database retentionPolicy calls where
  covers call := h.covers (call.trans hp)
  untruncated call := h.untruncated (call.trans hp)
  apart call call' := h.apart call (call'.trans hp)

/-- The groups of a request: sorted, apart, and each the answer to one of its calls. -/
structure Collected (mc : MetaClient) (database retentionPolicy : Bytes)
    (st : List Time × List ShardGroupInfo) : Prop where
  sorted : st.2.Pairwise fun a b => b.less a = false
  separate : Separate st.2
  source : ∀ g ∈ st.2, ∃ before t, before ++ [t] <+: st.1 ∧
    mc.createShardGroup database retentionPolicy before t = .ok (some g)

theorem collected_nil : Collected mc database retentionPolicy ([], []) :=
  ⟨.nil, ⟨nofun, nofun, nofun⟩, nofun⟩

theorem Collected.covers_iff {st : List Time × List ShardGroupInfo}
    (h : Collected mc database retentionPolicy st) {t : Time} :
    covers st.2 t = true ↔ ∃ g ∈ st.2, g.contains t = true := by
  have found : (shardGroupAt st.2 t).isSome ↔ ∃ g ∈ st.2, g.contains t = true := by
    rw [Option.isSome_iff_exists]
    exact exists_congr fun g => shardGroupAt_eq_some_iff h.separate h.sorted
  unfold covers
  split_ifs with empty
  · simp [List.length_eq_zero_iff.mp empty]
  · exact found

/-- A new group for a time that no group contains. -/
theorem Collected.append {st : List Time × List ShardGroupInfo}
    (h : Collected mc database retentionPolicy st) {t : Time}
    (answered : mc.Answered database retentionPolicy (st.1 ++ [t]))
    (uncovered : ∀ g ∈ st.2, g.contains t = false) {sgi : ShardGroupInfo}
    (made : mc.createShardGroup database retentionPolicy st.1 t = .ok (some sgi)) :
    Collected mc database retentionPolicy (st.1 ++ [t], appendGroup rt st.2 sgi) := by
  have perm : (appendGroup rt st.2 sgi).Perm (st.2 ++ [sgi]) := rt.sort_perm _ _
  have mem {g : ShardGroupInfo} : g ∈ appendGroup rt st.2 sgi ↔ g ∈ st.2 ∨ g = sgi := by
    rw [perm.mem_iff, List.mem_append, List.mem_singleton]
  have inside := contains_iff.mp (answered.covers (List.prefix_refl _) made)
  have apart {g : ShardGroupInfo} (hg : g ∈ st.2) :
      instant g.endTime ≤ instant sgi.startTime ∨ instant sgi.endTime ≤ instant g.startTime := by
    obtain ⟨before, u, call, made'⟩ := h.source g hg
    exact answered.apart call (List.prefix_refl _) made' made (uncovered g hg)
  refine ⟨rt.sort_sorted _ _ strictWeak_groups, ⟨?_, ?_, ?_⟩, ?_⟩
  · intro g hg
    rcases mem.mp hg with old | rfl
    · exact h.separate.nonempty g old
    · exact inside.1.trans_lt inside.2
  · intro g hg
    rcases mem.mp hg with old | rfl
    · exact h.separate.untruncated g old
    · exact answered.untruncated (List.prefix_refl _) made
  · intro g hg g' hg'
    rcases mem.mp hg with old | rfl <;> rcases mem.mp hg' with old' | rfl
    · exact h.separate.disjoint g old g' old'
    · exact .inr (apart old)
    · exact .inr (apart old').symm
    · exact .inl rfl
  · intro g hg
    rcases mem.mp hg with old | rfl
    · obtain ⟨before, u, call, made'⟩ := h.source g old
      exact ⟨before, u, call.trans (List.prefix_append _ _), made'⟩
    · exact ⟨st.1, t, List.prefix_refl _, made⟩

/-- One turn only adds calls. -/
theorem prefix_of_coverPoint {min : Time} {st st' : List Time × List ShardGroupInfo} {p : Point}
    (h : coverPoint rt mc database retentionPolicy min st p = .ok st') : st.1 <+: st'.1 := by
  unfold coverPoint at h
  split_ifs at h
  · cases h
    exact List.prefix_refl _
  · obtain ⟨answer, -, h⟩ := Except.bind_eq_ok_iff.mp h
    cases answer with
    | none => cases h
    | some sgi =>
      cases h
      exact List.prefix_append _ _

/-- One turn keeps the groups and, if the point is not too old, covers it. -/
theorem coverPoint_spec {min : Time} {st st' : List Time × List ShardGroupInfo} {p : Point}
    (h : coverPoint rt mc database retentionPolicy min st p = .ok st')
    (answered : mc.Answered database retentionPolicy st'.1)
    (collected : Collected mc database retentionPolicy st) :
    Collected mc database retentionPolicy st' ∧ (∀ g ∈ st.2, g ∈ st'.2) ∧
      (p.time.before min = false → ∃ g ∈ st'.2, g.contains p.time = true) := by
  unfold coverPoint at h
  split_ifs at h with skip
  · cases h
    refine ⟨collected, fun g hg => hg, fun young => ?_⟩
    rw [young, Bool.false_or] at skip
    exact collected.covers_iff.mp skip
  · obtain ⟨answer, made, h⟩ := Except.bind_eq_ok_iff.mp h
    cases answer with
    | none => cases h
    | some sgi =>
      cases h
      have perm : (appendGroup rt st.2 sgi).Perm (st.2 ++ [sgi]) := rt.sort_perm _ _
      have uncovered : ∀ g ∈ st.2, g.contains p.time = false := by
        intro g hg
        by_contra inside
        rw [Bool.not_eq_false] at inside
        rw [collected.covers_iff.mpr ⟨g, hg, inside⟩, Bool.or_true] at skip
        exact skip rfl
      refine ⟨collected.append answered uncovered made, fun g hg => ?_, fun _ => ?_⟩
      · exact perm.mem_iff.mpr (List.mem_append_left _ hg)
      · exact ⟨sgi, perm.mem_iff.mpr (by simp), answered.covers (List.prefix_refl _) made⟩

theorem prefix_of_foldlM_coverPoint {min : Time} {points : List Point}
    {st st' : List Time × List ShardGroupInfo}
    (h : points.foldlM (coverPoint rt mc database retentionPolicy min) st = .ok st') :
    st.1 <+: st'.1 := by
  induction points generalizing st with
  | nil =>
    cases h
    exact List.prefix_refl _
  | cons p points ih =>
    rw [List.foldlM_cons] at h
    obtain ⟨next, turn, h⟩ := Except.bind_eq_ok_iff.mp h
    exact (prefix_of_coverPoint turn).trans (ih h)

/-- The first loop covers every point that is not too old. -/
theorem foldlM_coverPoint {min : Time} {points : List Point}
    {st st' : List Time × List ShardGroupInfo}
    (h : points.foldlM (coverPoint rt mc database retentionPolicy min) st = .ok st')
    (answered : mc.Answered database retentionPolicy st'.1)
    (collected : Collected mc database retentionPolicy st) :
    Collected mc database retentionPolicy st' ∧ (∀ g ∈ st.2, g ∈ st'.2) ∧
      ∀ p ∈ points, p.time.before min = false → ∃ g ∈ st'.2, g.contains p.time = true := by
  induction points generalizing st with
  | nil =>
    cases h
    exact ⟨collected, fun g hg => hg, nofun⟩
  | cons p points ih =>
    rw [List.foldlM_cons] at h
    obtain ⟨next, turn, h⟩ := Except.bind_eq_ok_iff.mp h
    have sofar := answered.mono (prefix_of_foldlM_coverPoint h)
    obtain ⟨collected', grows, covered⟩ := coverPoint_spec turn sofar collected
    obtain ⟨last, grows', others⟩ := ih h collected'
    refine ⟨last, fun g hg => grows' g (grows g hg), ?_⟩
    refine List.forall_mem_cons.mpr ⟨fun young => ?_, others⟩
    obtain ⟨g, hg, inside⟩ := covered young
    exact ⟨g, grows' g hg, inside⟩

end

/-! ## The second loop -/

/-- The shard of a point, by time and series. -/
def target (l : List ShardGroupInfo) (p : Point) : Option UInt64 :=
  (shardGroupAt l p.time).map (·.shardFor p.hashID)

/-- Points of one shard stay in order, and those without a group are dropped. -/
theorem foldl_mapPoint (l : List ShardGroupInfo) (points : List Point) :
    points.foldl (ShardMapping.mapPoint l) ⟨∅, []⟩ =
      ⟨group (fun p => (target l p).getD 0) (points.filter fun p => (target l p).isSome),
        points.filter fun p => (target l p).isNone⟩ := by
  induction points using List.reverseRecOn with
  | nil => rfl
  | append_singleton points p ih =>
    rw [List.foldl_concat, ih, ShardMapping.mapPoint, List.filter_append, List.filter_append]
    cases hg : shardGroupAt l p.time with
    | none => simp [target, hg]
    | some g =>
      have shard : target l p = some (g.shardFor p.hashID) := by rw [target, hg]; rfl
      have key : g.shardFor p.hashID = (target l p).getD 0 := by rw [shard]; rfl
      simp only [shard, Option.isSome_some, Option.isNone_some, List.filter_cons_of_pos,
        List.filter_nil, List.filter_cons_of_neg, Bool.false_eq_true, not_false_eq_true,
        List.append_nil, group_concat]
      exact congrArg (ShardMapping.mk · _) (appendTo_congr key _)

section
variable {rt : Runtime} {mc : MetaClient} {database retentionPolicy : Bytes} {points : List Point}
  {mapping : ShardMapping}

theorem of_mapShardsCalls_ok {calls : List Time}
    (h : mapShardsCalls rt mc database retentionPolicy points = .ok (calls, mapping)) :
    ∃ l duration, mc.retentionPolicy database retentionPolicy = .ok (some duration) ∧
      points.foldlM (coverPoint rt mc database retentionPolicy (minTime mc duration)) ([], []) =
        .ok (calls, l) ∧
      mapping = points.foldl (ShardMapping.mapPoint l) ⟨∅, []⟩ := by
  obtain ⟨answer, policy, h⟩ := Except.bind_eq_ok_iff.mp h
  cases answer with
  | none => cases h
  | some duration =>
    obtain ⟨⟨calls, l⟩, loop, h⟩ := Except.bind_eq_ok_iff.mp h
    cases h
    exact ⟨l, duration, policy, loop, rfl⟩

/-- Every point goes to one shard or is dropped, once, and a shard gets its points in the order of
the request. -/
theorem mapShards_partition (h : mapShards rt mc database retentionPolicy points = .ok mapping)
    {e : List (Σ _ : UInt64, List Point)} (he : Enumerates e mapping.points) :
    (e.flatMap Sigma.snd ++ mapping.dropped).Perm points ∧
      ∀ x ∈ e, x.2 ≠ [] ∧ x.2.Sublist points := by
  obtain ⟨⟨calls, mapped⟩, made, same⟩ := Except.map_eq_ok_iff.mp h
  obtain ⟨l, -, -, -, rfl⟩ := of_mapShardsCalls_ok made
  obtain rfl : _ = mapping := same
  rw [foldl_mapPoint] at he ⊢
  constructor
  · have mapped := Enumerates.group_perm _ he
    have split := List.filter_append_perm (fun p => (target l p).isSome) points
    simp only [Option.not_isSome] at split
    exact (mapped.append_right _).trans split
  · intro x hx
    have found := he.mem_iff.mp hx
    rw [lookup_group] at found
    split_ifs at found with empty
    rw [← Option.some.inj found]
    exact ⟨empty, List.filter_sublist.trans List.filter_sublist⟩

/-- The shard of a point is the one that its series has in the group of its time. -/
theorem shard_of_mapShards {calls : List Time}
    (h : mapShardsCalls rt mc database retentionPolicy points = .ok (calls, mapping))
    (answered : mc.Answered database retentionPolicy calls) {shard : UInt64} {ps : List Point}
    (hs : mapping.points.lookup shard = some ps) {p : Point} (hp : p ∈ ps) :
    ∃ g before t, before ++ [t] <+: calls ∧
      mc.createShardGroup database retentionPolicy before t = .ok (some g) ∧
      g.contains p.time = true ∧ shard = g.shardFor p.hashID := by
  obtain ⟨l, duration, -, loop, rfl⟩ := of_mapShardsCalls_ok h
  obtain ⟨collected, -, -⟩ := foldlM_coverPoint loop answered collected_nil
  rw [foldl_mapPoint, lookup_group] at hs
  split_ifs at hs
  rw [← Option.some.inj hs] at hp
  obtain ⟨mapped, same⟩ := List.mem_filter.mp hp
  obtain ⟨-, found⟩ := List.mem_filter.mp mapped
  obtain ⟨target', ht⟩ := Option.isSome_iff_exists.mp found
  obtain ⟨g, hg, rfl⟩ := Option.map_eq_some_iff.mp ht
  obtain ⟨mem, inside⟩ := (shardGroupAt_eq_some_iff collected.separate collected.sorted).mp hg
  obtain ⟨before, t, call, made⟩ := collected.source g mem
  refine ⟨g, before, t, call, made, inside, ?_⟩
  rw [← of_decide_eq_true same, ht]
  rfl

/-- A point that is young enough for the retention policy is not dropped. -/
theorem mapShards_dropped {calls : List Time}
    (h : mapShardsCalls rt mc database retentionPolicy points = .ok (calls, mapping))
    (answered : mc.Answered database retentionPolicy calls) {duration : Int}
    (hd : mc.retentionPolicy database retentionPolicy = .ok (some duration)) {p : Point}
    (hp : p ∈ mapping.dropped) : p.time.before (minTime mc duration) = true := by
  obtain ⟨l, d, hd', loop, rfl⟩ := of_mapShardsCalls_ok h
  cases hd.symm.trans hd'
  rw [foldl_mapPoint] at hp
  obtain ⟨mem, none⟩ := List.mem_filter.mp hp
  obtain ⟨collected, -, covered⟩ := foldlM_coverPoint loop answered collected_nil
  by_contra young
  obtain ⟨g, hg, inside⟩ := covered p mem (Bool.eq_false_of_not_eq_true young)
  have found := (shardGroupAt_eq_some_iff collected.separate collected.sorted).mpr ⟨hg, inside⟩
  rw [target, found] at none
  cases none

end

/-- The week of March 13, 2019, on two shards. -/
def weekGroup : ShardGroupInfo where
  id := 3
  startTime := Time.unix 1552435200 0
  endTime := Time.unix 1553040000 0
  deletedAt := ⟨0, 0⟩
  truncatedAt := ⟨0, 0⟩
  shards := [7, 9]
  shards_ne_nil := nofun

/-- A service with this group only, that keeps an hour. -/
def weekClient : MetaClient where
  database _ := some (str "autogen")
  retentionPolicy _ _ := .ok (some 3600000000000)
  createShardGroup _ _ _ t := .ok (if weekGroup.contains t then some weekGroup else none)
  ago _ := Time.unix 1552506000 0

theorem weekClient_answered (database retentionPolicy : Bytes) (calls : List Time) :
    weekClient.Answered database retentionPolicy calls := by
  have only {t : Time} {g : ShardGroupInfo}
      (h : (.ok (if weekGroup.contains t then some weekGroup else none) :
        Except WriteError (Option ShardGroupInfo)) = .ok (some g)) :
    g = weekGroup ∧ weekGroup.contains t = true := by
    split_ifs at h with inside <;> cases h
    exact ⟨rfl, inside⟩
  constructor
  · intro before t g _ h
    exact (only h).1 ▸ (only h).2
  · intro before t g _ h
    rw [(only h).1]
    decide +kernel
  · intro before t g before' t' g' _ _ h h' outside
    rw [(only h).1, (only h').2] at outside
    cases outside

/-- The point of the repository's test, as the server stores it. -/
def answerPoint : Point :=
  ⟨str "answer,foo=bar,sensu_entity_name=entity1", Time.unix 1552506033 0, str "value=42"⟩

theorem mapShards_dropped_one :
    ∃ calls mapping, mapShardsCalls .ordered weekClient (str "db") (str "autogen")
        [⟨str "cpu,host=a", Time.unix 1000 0, str "load=0.5"⟩, answerPoint] = .ok (calls, mapping) ∧
      mapping.dropped = [⟨str "cpu,host=a", Time.unix 1000 0, str "load=0.5"⟩] ∧
      (Time.unix 1000 0).before (minTime weekClient 3600000000000) = true := by
  have mapped : mapShardsCalls .ordered weekClient (str "db") (str "autogen")
      [⟨str "cpu,host=a", Time.unix 1000 0, str "load=0.5"⟩, answerPoint] =
      .ok ([answerPoint.time], ⟨Finmap.singleton 7 [answerPoint],
        [⟨str "cpu,host=a", Time.unix 1000 0, str "load=0.5"⟩]⟩) := by
    decide +kernel
  exact ⟨_, _, mapped, rfl,
    mapShards_dropped mapped (weekClient_answered _ _ _) rfl List.mem_cons_self⟩

end InfluxHandler.Influx
