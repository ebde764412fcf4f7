import InfluxHandler.Influx.Shards

/-!
# The metadata of shard groups

The part of package `meta` that the points writer asks for shard groups. A group that is missing is
created for the slot of the policy's shard group duration around the time that was asked for. As
long as this duration stays as it is and no group is truncated, the groups of a policy that are not
deleted never overlap, whatever requests and services do at the same time (`SoundAt.run`); a request
then gets the answers that it relies on (`Served.answered`). If nothing is deleted either, the
points of a series and a slot are together in one shard, over all requests
(`mapShards_series_together`).
-/
namespace InfluxHandler.Influx.Meta
open Go Search KeyedMap

/-! ## Data -/

structure RetentionPolicyInfo where
  name : Bytes
  duration : Int64
  shardGroupDuration : Int64
  shardGroups : List ShardGroupInfo

structure DatabaseInfo where
  name : Bytes
  defaultRetentionPolicy : Bytes
  retentionPolicies : List RetentionPolicyInfo

structure Data where
  databases : List DatabaseInfo
  maxShardGroupID : UInt64
  maxShardID : UInt64

def RetentionPolicyInfo.shardGroupByTimestamp (rpi : RetentionPolicyInfo) (timestamp : Time) :
    Option ShardGroupInfo :=
  rpi.shardGroups.find? fun sgi =>
    sgi.contains timestamp && !sgi.deleted &&
      (!sgi.truncated || timestamp.before sgi.truncatedAt)

/-- The default policy is found by the empty name. -/
def DatabaseInfo.retentionPolicy (di : DatabaseInfo) (name : Bytes) : Option RetentionPolicyInfo :=
  if name = [] ∧ di.defaultRetentionPolicy = [] then none
  else
    let name := if name = [] then di.defaultRetentionPolicy else name
    findKey RetentionPolicyInfo.name name di.retentionPolicies

def Data.database (data : Data) (name : Bytes) : Option DatabaseInfo :=
  findKey DatabaseInfo.name name data.databases

section
variable (data : Data) (database policy : Bytes)

def Data.retentionPolicy : Except WriteError (Option RetentionPolicyInfo) :=
  match data.database database with
  | none => .error (errDatabaseNotFound database)
  | some di => .ok (findKey RetentionPolicyInfo.name policy di.retentionPolicies)

def Data.shardGroupByTimestamp (timestamp : Time) : Except WriteError (Option ShardGroupInfo) := do
  match ← data.retentionPolicy database policy with
  | none => .error (errRetentionPolicyNotFound policy)
  | some rpi => pure (rpi.shardGroupByTimestamp timestamp)

def DatabaseInfo.modifyPolicy (f : RetentionPolicyInfo → RetentionPolicyInfo) (di : DatabaseInfo) :
    DatabaseInfo :=
  { di with retentionPolicies := modifyKey RetentionPolicyInfo.name policy f di.retentionPolicies }

/-- A change through the pointer that `Data.RetentionPolicy` returns. -/
def Data.modifyPolicy (f : RetentionPolicyInfo → RetentionPolicyInfo) : Data :=
  { data with
    databases := modifyKey DatabaseInfo.name database (.modifyPolicy policy f) data.databases }

/-- The end of a group, which is not behind the last time that can be stored. -/
def capTime (t : Time) : Time :=
  if t.after (Time.unix 0 maxNanoTime) then Time.unix 0 (maxNanoTime + 1) else t

/-- A group for the slot of the time, with one shard. -/
def RetentionPolicyInfo.newShardGroup (rpi : RetentionPolicyInfo) (id shard : UInt64)
    (timestamp : Time) : ShardGroupInfo :=
  let startTime := timestamp.truncate rpi.shardGroupDuration.toInt
  { id
    startTime
    endTime := capTime (startTime.add rpi.shardGroupDuration.toInt)
    deletedAt := ⟨0, 0⟩
    truncatedAt := ⟨0, 0⟩
    shards := [shard]
    shards_ne_nil := List.cons_ne_nil _ _ }

def RetentionPolicyInfo.addShardGroup (rt : Runtime) (sgi : ShardGroupInfo)
    (rpi : RetentionPolicyInfo) : RetentionPolicyInfo :=
  { rpi with shardGroups := rt.sort ShardGroupInfo.less (rpi.shardGroups ++ [sgi]) }

def Data.createShardGroup (rt : Runtime) (timestamp : Time) : Except WriteError Data := do
  match ← data.retentionPolicy database policy with
  | none => .error (errRetentionPolicyNotFound policy)
  | some rpi =>
    if (rpi.shardGroupByTimestamp timestamp).isSome then pure data
    else
      let sgi := rpi.newShardGroup (data.maxShardGroupID + 1) (data.maxShardID + 1) timestamp
      pure { data.modifyPolicy database policy (.addShardGroup rt sgi) with
        maxShardGroupID := data.maxShardGroupID + 1
        maxShardID := data.maxShardID + 1 }

def RetentionPolicyInfo.deleteShardGroup (id : UInt64) (now : Time) (rpi : RetentionPolicyInfo) :
    RetentionPolicyInfo :=
  { rpi with
    shardGroups :=
      modifyKey ShardGroupInfo.id id ({ · with deletedAt := now }) rpi.shardGroups }

def Data.deleteShardGroup (id : UInt64) (now : Time) : Except WriteError Data := do
  match ← data.retentionPolicy database policy with
  | none => .error (errRetentionPolicyNotFound policy)
  | some rpi =>
    if rpi.shardGroups.any (·.id = id) then
      pure (data.modifyPolicy database policy (.deleteShardGroup id now))
    else .error (.text (str "shard group not found"))

/-! ## The client -/

/-- `createShardGroup` of the client. -/
def createShardGroup (rt : Runtime) (timestamp : Time) :
    Except WriteError (Data × Option ShardGroupInfo) :=
  match data.shardGroupByTimestamp database policy timestamp with
  | .ok (some _) => .error (.text (str "shard group already exists"))
  | _ => do
    let data ← data.createShardGroup database policy rt timestamp
    match ← data.retentionPolicy database policy with
    | none => .error (.text (str "retention policy deleted after shard group created"))
    | some rpi => pure (data, rpi.shardGroupByTimestamp timestamp)

/-- `Client.CreateShardGroup`: the data afterwards, and the answer. Changes in between its two looks
at the data count as made before it; `commit` is the error with which the data cannot be kept. -/
def Client.createShardGroup (rt : Runtime) (commit : Option WriteError) (timestamp : Time) :
    Data × Except WriteError (Option ShardGroupInfo) :=
  match data.shardGroupByTimestamp database policy timestamp with
  | .ok (some sg) => (data, .ok (some sg))
  | _ =>
    match Meta.createShardGroup data database policy rt timestamp, commit with
    | .error err, _ => (data, .error err)
    | .ok _, some err => (data, .error err)
    | .ok (changed, sgi), none => (changed, .ok sgi)

end

def RetentionPolicyInfo.pruneShardGroups (expiration : Time) (rpi : RetentionPolicyInfo) :
    RetentionPolicyInfo :=
  { rpi with
    shardGroups := rpi.shardGroups.filter fun sgi =>
      sgi.deletedAt.isZero || !expiration.after sgi.deletedAt }

def DatabaseInfo.pruneShardGroups (expiration : Time) (di : DatabaseInfo) : DatabaseInfo :=
  { di with retentionPolicies := di.retentionPolicies.map (.pruneShardGroups expiration) }

def Data.pruneShardGroups (data : Data) (expiration : Time) : Data :=
  { data with databases := data.databases.map (.pruneShardGroups expiration) }

/-- What requests and services do with the data, one at a time under the lock of the client.
Precreation makes calls of the first kind. -/
inductive Op where
  | createShardGroup (database policy : Bytes) (timestamp : Time)
  | deleteShardGroup (database policy : Bytes) (id : UInt64) (now : Time)
  | pruneShardGroups (expiration : Time)

def Data.apply (rt : Runtime) (data : Data) : Op → Data
  | .createShardGroup database policy timestamp =>
    (Client.createShardGroup data database policy rt none timestamp).1
  | .deleteShardGroup database policy id now =>
    match data.deleteShardGroup database policy id now with
    | .ok changed => changed
    | .error _ => data
  | .pruneShardGroups expiration => data.pruneShardGroups expiration

def Data.run (rt : Runtime) (data : Data) (ops : List Op) : Data := ops.foldl (Data.apply rt) data

theorem Data.run_append (rt : Runtime) (data : Data) (ops ops' : List Op) :
    data.run rt (ops ++ ops') = (data.run rt ops).run rt ops' := List.foldl_append

/-! ## What an operation does to a policy -/

section
variable {data : Data} {database policy : Bytes}

/-- Only the policy of that name changes. -/
theorem Data.retentionPolicy_modifyPolicy {f : RetentionPolicyInfo → RetentionPolicyInfo}
    (hf : ∀ rpi, (f rpi).name = rpi.name) (database' policy' : Bytes) :
    (data.modifyPolicy database' policy' f).retentionPolicy database policy =
      Option.map (fun rpi => if database = database' ∧ policy = policy' then f rpi else rpi) <$>
        data.retentionPolicy database policy := by
  have keep (di : DatabaseInfo) : (di.modifyPolicy policy' f).name = di.name := rfl
  unfold retentionPolicy Data.database modifyPolicy
  rw [findKey_modifyKey keep]
  cases findKey DatabaseInfo.name database data.databases with
  | none => rfl
  | some di =>
    by_cases same : database = database'
    · simp only [same, if_true, true_and, Option.map_some, DatabaseInfo.modifyPolicy,
        findKey_modifyKey hf]
      rfl
    · simp only [same, if_false, false_and, Option.map_some]
      exact congrArg Except.ok Option.map_id'.symm

theorem Data.retentionPolicy_pruneShardGroups (expiration : Time) :
    (data.pruneShardGroups expiration).retentionPolicy database policy =
      Option.map (.pruneShardGroups expiration) <$> data.retentionPolicy database policy := by
  have keep (di : DatabaseInfo) : (di.pruneShardGroups expiration).name = di.name := rfl
  unfold retentionPolicy Data.database pruneShardGroups
  rw [findKey_map keep]
  cases findKey DatabaseInfo.name database data.databases with
  | none => rfl
  | some di =>
    have keep (rpi : RetentionPolicyInfo) : (rpi.pruneShardGroups expiration).name = rpi.name := rfl
    exact congrArg Except.ok (findKey_map keep policy di.retentionPolicies)

theorem Data.shardGroupByTimestamp_eq_some_iff {timestamp : Time} {g : ShardGroupInfo} :
    data.shardGroupByTimestamp database policy timestamp = .ok (some g) ↔
      ∃ rpi, data.retentionPolicy database policy = .ok (some rpi) ∧
        rpi.shardGroupByTimestamp timestamp = some g := by
  unfold Data.shardGroupByTimestamp
  rcases data.retentionPolicy database policy with e | _ | rpi
  · simp
  · simp
  · simp [pure, Except.pure]

/-- What was created: a group for a time that had none. -/
theorem of_createShardGroup_ok {rt : Runtime} {timestamp : Time} {changed : Data}
    {sgi : Option ShardGroupInfo}
    (h : createShardGroup data database policy rt timestamp = .ok (changed, sgi)) :
    (∃ rpi id shard, data.retentionPolicy database policy = .ok (some rpi) ∧
      rpi.shardGroupByTimestamp timestamp = none ∧
      changed.databases = (data.modifyPolicy database policy
        (.addShardGroup rt (rpi.newShardGroup id shard timestamp))).databases) ∧
    ∃ rpi, changed.retentionPolicy database policy = .ok (some rpi) ∧
      rpi.shardGroupByTimestamp timestamp = sgi := by
  unfold createShardGroup at h
  split at h
  · cases h
  · rename_i absent
    obtain ⟨made, hm, h⟩ := Except.bind_eq_ok_iff.mp h
    obtain ⟨found, hp, h⟩ := Except.bind_eq_ok_iff.mp h
    cases found with
    | none => cases h
    | some rpi' =>
      cases h
      refine ⟨?_, rpi', hp, rfl⟩
      obtain ⟨found, hp, hm⟩ := Except.bind_eq_ok_iff.mp hm
      cases found with
      | none => cases hm
      | some rpi =>
        have none : rpi.shardGroupByTimestamp timestamp = none := by
          by_contra some
          obtain ⟨g, hg⟩ := Option.ne_none_iff_exists'.mp some
          exact absent g (Data.shardGroupByTimestamp_eq_some_iff.mpr ⟨rpi, hp, hg⟩)
        refine ⟨rpi, data.maxShardGroupID + 1, data.maxShardID + 1, hp, none, ?_⟩
        simp only [none, Option.isSome_none, Bool.false_eq_true, if_false] at hm
        cases hm
        rfl

/-- A call leaves the data as they are, or adds a group for a time that had none. -/
theorem Client.createShardGroup_cases (data : Data) (database policy : Bytes) (rt : Runtime)
    (commit : Option WriteError) (timestamp : Time) :
    (Client.createShardGroup data database policy rt commit timestamp).1 = data ∨
      ∃ rpi id shard, data.retentionPolicy database policy = .ok (some rpi) ∧
        rpi.shardGroupByTimestamp timestamp = none ∧
        (Client.createShardGroup data database policy rt commit timestamp).1.databases =
          (data.modifyPolicy database policy
            (.addShardGroup rt (rpi.newShardGroup id shard timestamp))).databases := by
  unfold Client.createShardGroup
  split
  · exact .inl rfl
  · split
    · exact .inl rfl
    · exact .inl rfl
    · rename_i made
      exact .inr (of_createShardGroup_ok made).1

/-- The answer is a group that the data have afterwards. -/
theorem Client.retentionPolicy_of_answer {rt : Runtime} {commit : Option WriteError}
    {timestamp : Time} {g : ShardGroupInfo}
    (h : (Client.createShardGroup data database policy rt commit timestamp).2 = .ok (some g)) :
    ∃ rpi, (Client.createShardGroup data database policy rt commit timestamp).1.retentionPolicy
        database policy = .ok (some rpi) ∧
      rpi.shardGroupByTimestamp timestamp = some g := by
  unfold Client.createShardGroup at h ⊢
  split at h
  · rename_i found
    cases h
    exact Data.shardGroupByTimestamp_eq_some_iff.mp found
  · split at h
    · cases h
    · cases h
    · rename_i made
      cases h
      exact (of_createShardGroup_ok made).2

end

/-! ## Slots -/

/-- A time that a point can have: a number of nanoseconds that passes `CheckTime`. -/
def Storable (t : Time) : Prop :=
  ∃ x : Int64, t = Time.unix 0 x ∧ minNanoTime.toInt ≤ x.toInt ∧ x.toInt ≤ maxNanoTime.toInt

/-- The nanosecond behind the last one that can be stored. -/
def endOfTime : Int := 71358968836854775807

theorem capTime_spec {t : Time} (ht : t.Normal) :
    (capTime t).Normal ∧ (capTime t).nanos = min t.nanos endOfTime := by
  have last : (Time.unix 0 maxNanoTime).nanos = endOfTime - 1 := Time.nanos_unix _
  have behind : (Time.unix 0 (maxNanoTime + 1)).nanos = endOfTime := Time.nanos_unix _
  have after := Time.after_iff_nanos ht (Time.normal_unix maxNanoTime)
  rw [last, Int.sub_one_lt_iff] at after
  unfold capTime
  by_cases beyond : endOfTime ≤ t.nanos
  · rw [if_pos (after.mpr beyond), min_eq_right beyond]
    exact ⟨Time.normal_unix _, behind⟩
  · rw [if_neg (mt after.mp beyond), min_eq_left (not_le.mp beyond).le]
    exact ⟨ht, rfl⟩

section
variable {t : Time} (ht : Storable t)
include ht

theorem Storable.normal : t.Normal := by
  obtain ⟨x, rfl, -, -⟩ := ht
  exact Time.normal_unix x

theorem Storable.bounds : 0 ≤ t.nanos ∧ t.nanos < endOfTime := by
  obtain ⟨x, rfl, lowest, greatest⟩ := ht
  have least : minNanoTime.toInt = -9223372036854775806 := rfl
  have most : maxNanoTime.toInt = 9223372036854775806 := rfl
  rw [Time.nanos_unix, endOfTime]
  omega

end

/-- The group reaches over slot `k` of duration `d`, as far as times can be stored. -/
structure Spans (g : ShardGroupInfo) (d k : Int) : Prop where
  startNormal : g.startTime.Normal
  start : g.startTime.nanos = k * d
  endNormal : g.endTime.Normal
  ending : g.endTime.nanos = min (k * d + d) endOfTime

section
variable {g g' : ShardGroupInfo} {d k k' : Int} {t : Time}

theorem Spans.contains_iff (h : Spans g d k) (ht : t.Normal) :
    g.contains t = true ↔ k * d ≤ t.nanos ∧ t.nanos < min (k * d + d) endOfTime := by
  have before := Time.before_iff_nanos ht h.startNormal
  have behind := Time.before_iff_nanos ht h.endNormal
  rw [h.start] at before
  rw [h.ending] at behind
  rw [ShardGroupInfo.contains, Bool.and_eq_true, behind, Bool.not_eq_true', ← Bool.not_eq_true,
    before, not_lt]

/-- The times of a slot are those with its number. -/
theorem Spans.slot_of_contains (h : Spans g d k) (hd : 0 < d) (ht : t.Normal)
    (inside : g.contains t = true) : t.nanos / d = k := by
  obtain ⟨start, ending⟩ := (h.contains_iff ht).mp inside
  exact (Int.ediv_eq_iff_of_pos hd).mpr ⟨start, ending.trans_le (min_le_left _ _)⟩

theorem Spans.contains_of_slot (h : Spans g d k) (hd : 0 < d) (ht : Storable t)
    (slot : t.nanos / d = k) : g.contains t = true := by
  obtain ⟨start, ending⟩ := (Int.ediv_eq_iff_of_pos hd).mp slot
  exact (h.contains_iff ht.normal).mpr ⟨start, lt_min ending ht.bounds.2⟩

theorem Spans.startTime_eq (h : Spans g d k) (h' : Spans g' d k) : g.startTime = g'.startTime :=
  Time.eq_of_nanos h.startNormal h'.startNormal (h.start.trans h'.start.symm)

theorem instant_le_iff {t u : Time} (ht : t.Normal) (hu : u.Normal) :
    instant t ≤ instant u ↔ t.nanos ≤ u.nanos := by
  rw [← not_lt, ← before_iff, Time.before_iff_nanos hu ht, not_lt]

/-- Groups of different slots do not overlap. -/
theorem Spans.apart (h : Spans g d k) (h' : Spans g' d k') (hd : 0 < d) (less : k < k') :
    instant g.endTime ≤ instant g'.startTime := by
  rw [instant_le_iff h.endNormal h'.startNormal, h.ending, h'.start]
  have next : (k + 1) * d ≤ k' * d := Int.mul_le_mul_of_nonneg_right less hd.le
  rw [Int.add_mul, Int.one_mul] at next
  exact (min_le_left _ _).trans next

/-- A new group reaches over the slot of the time it was created for. -/
theorem spans_newShardGroup (rpi : RetentionPolicyInfo) (hd : 0 < rpi.shardGroupDuration.toInt)
    (id shard : UInt64) (ht : Storable t) :
    Spans (rpi.newShardGroup id shard t) rpi.shardGroupDuration.toInt
      (t.nanos / rpi.shardGroupDuration.toInt) := by
  obtain ⟨lowest, greatest⟩ := ht.bounds
  have long := rpi.shardGroupDuration.toInt_lt
  unfold RetentionPolicyInfo.newShardGroup
  generalize rpi.shardGroupDuration.toInt = d at hd long ⊢
  obtain ⟨start, ending⟩ := (Int.ediv_eq_iff_of_pos hd).mp (Eq.refl (t.nanos / d))
  have first : 0 ≤ t.nanos / d * d := Int.mul_nonneg (Int.ediv_nonneg lowest hd.le) hd.le
  have cut : t.truncate d = Time.ofNanos (t.nanos / d * d) := by
    have whole := Int.mul_ediv_add_emod t.nanos d
    rw [mul_comm] at whole
    rw [Time.truncate, if_neg (not_le.mpr hd)]
    congr 1
    omega
  rw [endOfTime] at greatest
  have startNanos : (t.truncate d).nanos = t.nanos / d * d := by
    rw [cut]
    exact Time.nanos_ofNanos first (by omega)
  have endNanos : ((t.truncate d).add d).nanos = t.nanos / d * d + d := by
    rw [Time.add, startNanos]
    exact Time.nanos_ofNanos (by omega) (by omega)
  obtain ⟨capped, bound⟩ := capTime_spec (Time.normal_ofNanos ((t.truncate d).nanos + d))
  refine ⟨?_, startNanos, capped, bound.trans ?_⟩
  · dsimp only
    rw [cut]
    exact Time.normal_ofNanos _
  · rw [← endNanos, Time.add]

end

/-! ## Runs -/

/-- A policy whose groups were all made with its present shard group duration: those that are not
deleted are not truncated either, and there is one for a slot. -/
structure RetentionPolicyInfo.Sound (rpi : RetentionPolicyInfo) : Prop where
  positive : 0 < rpi.shardGroupDuration.toInt
  untruncated : ∀ g ∈ rpi.shardGroups, g.deleted = false → g.truncated = false
  spans : ∀ g ∈ rpi.shardGroups, g.deleted = false → ∃ k, Spans g rpi.shardGroupDuration.toInt k
  unique : ∀ g ∈ rpi.shardGroups, ∀ g' ∈ rpi.shardGroups, g.deleted = false → g'.deleted = false →
    g.startTime = g'.startTime → g = g'

section
variable {rpi : RetentionPolicyInfo} (h : rpi.Sound)
include h

/-- The group that is found for a time. -/
theorem RetentionPolicyInfo.Sound.of_found {t : Time} {g : ShardGroupInfo}
    (found : rpi.shardGroupByTimestamp t = some g) :
    g ∈ rpi.shardGroups ∧ g.deleted = false ∧ g.truncated = false ∧ g.contains t = true ∧
      ∃ k, Spans g rpi.shardGroupDuration.toInt k := by
  have mem := List.mem_of_find?_eq_some found
  have good := List.find?_some found
  simp only [Bool.and_eq_true, Bool.not_eq_true'] at good
  exact ⟨mem, good.1.2, h.untruncated g mem good.1.2, good.1.1, h.spans g mem good.1.2⟩

/-- For a time without a group, no group has its slot. -/
theorem RetentionPolicyInfo.Sound.slot_ne {t : Time} (ht : Storable t)
    (missing : rpi.shardGroupByTimestamp t = none) {g : ShardGroupInfo} (hg : g ∈ rpi.shardGroups)
    (live : g.deleted = false) {k : Int} (spans : Spans g rpi.shardGroupDuration.toInt k) :
    t.nanos / rpi.shardGroupDuration.toInt ≠ k := by
  intro slot
  have inside := spans.contains_of_slot h.positive ht slot
  have skipped := List.find?_eq_none.mp missing g hg
  simp [inside, live, h.untruncated g hg live] at skipped

theorem RetentionPolicyInfo.Sound.addShardGroup (rt : Runtime) {t : Time} (ht : Storable t)
    (missing : rpi.shardGroupByTimestamp t = none) (id shard : UInt64) :
    (rpi.addShardGroup rt (rpi.newShardGroup id shard t)).Sound := by
  have fresh := spans_newShardGroup rpi h.positive id shard ht
  have mem {g : ShardGroupInfo} :
      g ∈ (rpi.addShardGroup rt (rpi.newShardGroup id shard t)).shardGroups ↔
        g ∈ rpi.shardGroups ∨ g = rpi.newShardGroup id shard t := by
    rw [RetentionPolicyInfo.addShardGroup, (rt.sort_perm _ _).mem_iff, List.mem_append,
      List.mem_singleton]
  have other {g : ShardGroupInfo} (hg : g ∈ rpi.shardGroups) (live : g.deleted = false) :
      g.startTime ≠ (rpi.newShardGroup id shard t).startTime := by
    intro same
    obtain ⟨k, spans⟩ := h.spans g hg live
    refine h.slot_ne ht missing hg live spans ?_
    have start := fresh.start
    rw [← same, spans.start] at start
    exact (Int.eq_of_mul_eq_mul_right h.positive.ne' start).symm
  refine ⟨h.positive, ?_, ?_, ?_⟩
  · intro g hg live
    rcases mem.mp hg with old | rfl
    · exact h.untruncated g old live
    · rfl
  · intro g hg live
    rcases mem.mp hg with old | rfl
    · exact h.spans g old live
    · exact ⟨_, fresh⟩
  · intro g hg g' hg' live live' same
    rcases mem.mp hg with old | rfl <;> rcases mem.mp hg' with old' | rfl
    · exact h.unique g old g' old' live live' same
    · exact absurd same (other old live)
    · exact absurd same.symm (other old' live')
    · rfl

/-- Deleting groups does no harm. -/
theorem RetentionPolicyInfo.Sound.of_subset {rpi' : RetentionPolicyInfo}
    (duration : rpi'.shardGroupDuration = rpi.shardGroupDuration)
    (subset : ∀ g ∈ rpi'.shardGroups, g.deleted = false → g ∈ rpi.shardGroups) : rpi'.Sound where
  positive := duration ▸ h.positive
  untruncated g hg live := h.untruncated g (subset g hg live) live
  spans g hg live := duration ▸ h.spans g (subset g hg live) live
  unique g hg g' hg' live live' :=
    h.unique g (subset g hg live) g' (subset g' hg' live') live live'

end

/-- What the operations ask of their times. -/
def Op.Legal : Op → Prop
  | .createShardGroup _ _ timestamp => Storable timestamp
  | .deleteShardGroup _ _ _ now => now.isZero = false
  | .pruneShardGroups _ => True

/-- The database has the policy, with this shard group duration, and it is sound. -/
def Data.SoundAt (data : Data) (database policy : Bytes) (d : Int64) : Prop :=
  ∃ rpi, data.retentionPolicy database policy = .ok (some rpi) ∧ rpi.shardGroupDuration = d ∧
    rpi.Sound

section
variable (rt : Runtime) {data : Data} {database policy : Bytes} {d : Int64}

theorem Data.SoundAt.modifyPolicy (h : data.SoundAt database policy d)
    {f : RetentionPolicyInfo → RetentionPolicyInfo}
    (hf : ∀ rpi, (f rpi).name = rpi.name ∧ (f rpi).shardGroupDuration = rpi.shardGroupDuration)
    {database' policy' : Bytes}
    (sound : ∀ rpi, data.retentionPolicy database' policy' = .ok (some rpi) → rpi.Sound →
      (f rpi).Sound) : (data.modifyPolicy database' policy' f).SoundAt database policy d := by
  obtain ⟨rpi, found, duration, good⟩ := h
  rw [SoundAt, Data.retentionPolicy_modifyPolicy fun rpi => (hf rpi).1, found]
  refine ⟨_, rfl, ?_, ?_⟩
  · split_ifs
    · exact (hf rpi).2.trans duration
    · exact duration
  · split_ifs with same
    · obtain ⟨rfl, rfl⟩ := same
      exact sound rpi found good
    · exact good

theorem Data.retentionPolicy_unique {rpi rpi' : RetentionPolicyInfo}
    (h : data.retentionPolicy database policy = .ok (some rpi))
    (h' : data.retentionPolicy database policy = .ok (some rpi')) : rpi = rpi' :=
  Option.some.inj (Except.ok.inj (h.symm.trans h'))

theorem Data.retentionPolicy_congr {data' : Data} (h : data'.databases = data.databases) :
    data'.retentionPolicy database policy = data.retentionPolicy database policy := by
  rw [Data.retentionPolicy, Data.retentionPolicy, Data.database, Data.database, h]

theorem Data.SoundAt.createShardGroup (h : data.SoundAt database policy d)
    (database' policy' : Bytes) {t : Time} (ht : Storable t) :
    (Client.createShardGroup data database' policy' rt none t).1.SoundAt database policy d := by
  rcases Client.createShardGroup_cases data database' policy' rt none t with
    same | ⟨rpi, id, shard, found, missing, changed⟩
  · rw [same]
    exact h
  · rw [SoundAt, Data.retentionPolicy_congr changed]
    have keep (rpi' : RetentionPolicyInfo) :
        (rpi'.addShardGroup rt (rpi.newShardGroup id shard t)).name = rpi'.name ∧
        (rpi'.addShardGroup rt (rpi.newShardGroup id shard t)).shardGroupDuration =
          rpi'.shardGroupDuration := ⟨rfl, rfl⟩
    refine h.modifyPolicy keep fun rpi' found' good => ?_
    obtain rfl := Data.retentionPolicy_unique found found'
    exact good.addShardGroup rt ht missing id shard

theorem Data.SoundAt.deleteShardGroup (h : data.SoundAt database policy d)
    {database' policy' : Bytes} {id : UInt64} {now : Time} (hn : now.isZero = false)
    {changed : Data} (hc : data.deleteShardGroup database' policy' id now = .ok changed) :
    changed.SoundAt database policy d := by
  obtain ⟨found, -, hc⟩ := Except.bind_eq_ok_iff.mp hc
  cases found with
  | none => cases hc
  | some rpi =>
    dsimp only at hc
    split_ifs at hc
    cases hc
    have keep (rpi : RetentionPolicyInfo) : (rpi.deleteShardGroup id now).name = rpi.name ∧
        (rpi.deleteShardGroup id now).shardGroupDuration = rpi.shardGroupDuration := ⟨rfl, rfl⟩
    refine h.modifyPolicy keep fun rpi _ good => good.of_subset rfl ?_
    intro g hg live
    rcases mem_modifyKey hg with old | ⟨g', -, rfl⟩
    · exact old
    · simp [ShardGroupInfo.deleted, hn] at live

theorem Data.SoundAt.pruneShardGroups (h : data.SoundAt database policy d) (expiration : Time) :
    (data.pruneShardGroups expiration).SoundAt database policy d := by
  obtain ⟨rpi, found, duration, good⟩ := h
  rw [SoundAt, Data.retentionPolicy_pruneShardGroups, found]
  exact ⟨_, rfl, duration, good.of_subset rfl fun g hg _ => List.mem_of_mem_filter hg⟩

/-- Every operation keeps the policy sound. -/
theorem Data.SoundAt.apply (h : data.SoundAt database policy d) {op : Op} (legal : op.Legal) :
    (data.apply rt op).SoundAt database policy d := by
  cases op with
  | createShardGroup database' policy' t => exact h.createShardGroup rt database' policy' legal
  | deleteShardGroup database' policy' id now =>
    rw [Data.apply]
    split
    · rename_i changed
      exact h.deleteShardGroup legal changed
    · exact h
  | pruneShardGroups expiration => exact h.pruneShardGroups expiration

/-- So a policy stays sound, whoever does what in whatever order. -/
theorem Data.SoundAt.run (h : data.SoundAt database policy d) {ops : List Op}
    (legal : ∀ op ∈ ops, op.Legal) : (data.run rt ops).SoundAt database policy d := by
  induction ops generalizing data with
  | nil => exact h
  | cons op ops ih =>
    obtain ⟨first, others⟩ := List.forall_mem_cons.mp legal
    exact ih (h.apply rt first) others

/-! ## Requests in a run -/

/-- The answers that a request gets to its calls are those to calls of a run, at any places in it.
-/
def Served (rt : Runtime) (data : Data) (ops : List Op) (mc : MetaClient)
    (database policy : Bytes) (calls : List Time) : Prop :=
  ∀ before t g, before ++ [t] <+: calls →
    mc.createShardGroup database policy before t = .ok (some g) →
    ∃ earlier later, ops = earlier ++ .createShardGroup database policy t :: later ∧
      (Client.createShardGroup (data.run rt earlier) database policy rt none t).2 = .ok (some g)

/-- The client as the points writer sees it during a request that has the data to itself. -/
def Data.client (data : Data) (ago : Int → Time) : MetaClient where
  database name := (data.database name).map DatabaseInfo.defaultRetentionPolicy
  retentionPolicy database name :=
    match data.database database with
    | none => .error (errDatabaseNotFound database)
    | some di => .ok ((di.retentionPolicy name).map fun rpi => rpi.duration.toInt)
  createShardGroup database policy calls timestamp :=
    let data := data.run rt (calls.map (.createShardGroup database policy))
    (Client.createShardGroup data database policy rt none timestamp).2
  ago

theorem Data.client_served (data : Data) (ago : Int → Time) (database policy : Bytes)
    (calls : List Time) :
    Served rt data (calls.map (.createShardGroup database policy)) (data.client rt ago)
      database policy calls := by
  rintro before t g ⟨later, rfl⟩ answer
  refine ⟨before.map _, later.map (.createShardGroup database policy), ?_, answer⟩
  rw [List.append_assoc, List.map_append]
  rfl

variable {rt} {ops : List Op} {mc : MetaClient} {calls : List Time}

theorem Served.append (h : Served rt data ops mc database policy calls) (ops' : List Op) :
    Served rt data (ops ++ ops') mc database policy calls := by
  intro before t g call made
  obtain ⟨earlier, later, rfl, answer⟩ := h before t g call made
  exact ⟨earlier, later ++ ops', by rw [List.append_assoc, List.cons_append], answer⟩

theorem Served.after {ops' : List Op}
    (h : Served rt (data.run rt ops) ops' mc database policy calls) :
    Served rt data (ops ++ ops') mc database policy calls := by
  intro before t g call made
  obtain ⟨earlier, later, rfl, answer⟩ := h before t g call made
  refine ⟨ops ++ earlier, later, (List.append_assoc _ _ _).symm, ?_⟩
  rw [Data.run_append]
  exact answer

/-- An answer is a group of the policy that is not deleted, for the slot of the time. -/
theorem Data.SoundAt.answer (h : data.SoundAt database policy d) {t : Time} (ht : Storable t)
    {g : ShardGroupInfo}
    (answer : (Client.createShardGroup data database policy rt none t).2 = .ok (some g)) :
    ∃ rpi, (Client.createShardGroup data database policy rt none t).1.retentionPolicy
        database policy = .ok (some rpi) ∧ g ∈ rpi.shardGroups ∧
      g.deleted = false ∧ g.truncated = false ∧ g.contains t = true ∧
      0 < d.toInt ∧ ∃ k, Spans g d.toInt k := by
  obtain ⟨rpi, found, duration, good⟩ := h.createShardGroup rt database policy ht
  obtain ⟨rpi', found', answer⟩ := Client.retentionPolicy_of_answer answer
  obtain rfl := Data.retentionPolicy_unique found found'
  obtain ⟨mem, live, untruncated, inside, spans⟩ := good.of_found answer
  rw [duration] at spans
  exact ⟨rpi, found, mem, live, untruncated, inside, duration ▸ good.positive, spans⟩

/-- An answer in a run, with the time that it was for. -/
theorem Served.answer (served : Served rt data ops mc database policy calls)
    (h : data.SoundAt database policy d) (legal : ∀ op ∈ ops, op.Legal) {before : List Time}
    {t : Time} {g : ShardGroupInfo} (call : before ++ [t] <+: calls)
    (made : mc.createShardGroup database policy before t = .ok (some g)) :
    Storable t ∧ g.truncated = false ∧ g.contains t = true ∧ 0 < d.toInt ∧
      ∃ k, Spans g d.toInt k := by
  obtain ⟨earlier, later, rfl, answer⟩ := served before t g call made
  have ht : Storable t := legal (.createShardGroup database policy t) (by simp)
  have sofar := h.run rt fun op hop => legal op (List.mem_append_left _ hop)
  obtain ⟨rpi, -, -, -, rest⟩ := sofar.answer ht answer
  exact ⟨ht, rest⟩

/-- A request that runs beside others gets the answers that it relies on. -/
theorem Served.answered (served : Served rt data ops mc database policy calls)
    (h : data.SoundAt database policy d) (legal : ∀ op ∈ ops, op.Legal) :
    mc.Answered database policy calls where
  covers call made := (served.answer h legal call made).2.2.1
  untruncated call made := (served.answer h legal call made).2.1
  apart {before t g before' t' g'} call call' made made' outside := by
    have earlier : before ++ [t] <+: calls :=
      call.trans ((List.prefix_append _ _).trans call')
    obtain ⟨-, -, -, positive, k, spans⟩ := served.answer h legal earlier made
    obtain ⟨ht', -, inside', -, k', spans'⟩ := served.answer h legal call' made'
    have slot := spans'.slot_of_contains positive ht'.normal inside'
    have other : k ≠ k' := by
      rintro rfl
      rw [spans.contains_of_slot positive ht' slot] at outside
      cases outside
    rcases lt_or_gt_of_ne other with less | greater
    · exact .inl (spans.apart spans' positive less)
    · exact .inr (spans'.apart spans positive greater)

/-! ## Series over many requests -/

def Op.Creates : Op → Prop
  | .createShardGroup _ _ timestamp => Storable timestamp
  | _ => False

theorem Op.Creates.legal {op : Op} (h : op.Creates) : op.Legal := by
  cases op with
  | createShardGroup => exact h
  | deleteShardGroup | pruneShardGroups => cases h

/-- Calls for groups take no group away. -/
theorem Data.mem_apply {rpi : RetentionPolicyInfo}
    (h : data.retentionPolicy database policy = .ok (some rpi)) {g : ShardGroupInfo}
    (hg : g ∈ rpi.shardGroups) {op : Op} (creates : op.Creates) :
    ∃ rpi', (data.apply rt op).retentionPolicy database policy = .ok (some rpi') ∧
      g ∈ rpi'.shardGroups := by
  cases op with
  | deleteShardGroup | pruneShardGroups => cases creates
  | createShardGroup database' policy' t =>
    rcases Client.createShardGroup_cases data database' policy' rt none t with
      same | ⟨rpi₁, id, shard, -, -, changed⟩
    · rw [Data.apply, same]
      exact ⟨rpi, h, hg⟩
    · have keep (rpi : RetentionPolicyInfo) :
          (rpi.addShardGroup rt (rpi₁.newShardGroup id shard t)).name = rpi.name := rfl
      rw [Data.apply, Data.retentionPolicy_congr changed, Data.retentionPolicy_modifyPolicy keep, h]
      refine ⟨_, rfl, ?_⟩
      split_ifs
      · exact (rt.sort_perm _ _).mem_iff.mpr (List.mem_append_left _ hg)
      · exact hg

theorem Data.mem_run {rpi : RetentionPolicyInfo}
    (h : data.retentionPolicy database policy = .ok (some rpi)) {g : ShardGroupInfo}
    (hg : g ∈ rpi.shardGroups) (creates : ∀ op ∈ ops, op.Creates) :
    ∃ rpi', (data.run rt ops).retentionPolicy database policy = .ok (some rpi') ∧
      g ∈ rpi'.shardGroups := by
  induction ops generalizing data rpi with
  | nil => exact ⟨rpi, h, hg⟩
  | cons op ops ih =>
    obtain ⟨first, others⟩ := List.forall_mem_cons.mp creates
    obtain ⟨rpi', h', hg'⟩ := Data.mem_apply h hg first
    exact ih h' hg' others

/-- If nothing is deleted, an answer is a group of the policy at the end of the run. -/
theorem Served.mem_run (served : Served rt data ops mc database policy calls)
    (h : data.SoundAt database policy d) (creates : ∀ op ∈ ops, op.Creates) {before : List Time}
    {t : Time} {g : ShardGroupInfo} (call : before ++ [t] <+: calls)
    (made : mc.createShardGroup database policy before t = .ok (some g)) :
    ∃ rpi, (data.run rt ops).retentionPolicy database policy = .ok (some rpi) ∧
      g ∈ rpi.shardGroups ∧ g.deleted = false := by
  obtain ⟨earlier, later, rfl, answer⟩ := served before t g call made
  have ht : Storable t := creates (.createShardGroup database policy t) (by simp)
  have sofar := h.run rt fun op hop => (creates op (List.mem_append_left _ hop)).legal
  obtain ⟨rpi, found, mem, live, -⟩ := sofar.answer ht answer
  obtain ⟨rpi', found', mem'⟩ := Data.mem_run found mem
    fun op hop => creates op (List.mem_append_right _ (List.mem_cons_of_mem _ hop))
  refine ⟨rpi', ?_, mem', live⟩
  rw [Data.run_append]
  exact found'

end

/-- The points of a series in one slot of the shard group duration are together in one shard, the
one of a group that has both times, whatever else is in their requests and however the requests and
others take turns at the metadata. -/
theorem mapShards_series_together {rt₀ rt rt' : Runtime} {data : Data} {database policy : Bytes}
    {d : Int64} (sound : data.SoundAt database policy d) {ops : List Op}
    (creates : ∀ op ∈ ops, op.Creates) {mc mc' : MetaClient} {points points' : List Point}
    {calls calls' : List Time} {mapping mapping' : ShardMapping}
    (h : mapShardsCalls rt mc database policy points = .ok (calls, mapping))
    (h' : mapShardsCalls rt' mc' database policy points' = .ok (calls', mapping'))
    (served : Served rt₀ data ops mc database policy calls)
    (served' : Served rt₀ data ops mc' database policy calls') {shard shard' : UInt64}
    {ps ps' : List Point} (hs : mapping.points.lookup shard = some ps)
    (hs' : mapping'.points.lookup shard' = some ps') {p p' : Point} (hp : p ∈ ps) (hp' : p' ∈ ps')
    (normal : p.time.Normal) (normal' : p'.time.Normal) (series : p.key = p'.key)
    (slot : p.time.nanos / d.toInt = p'.time.nanos / d.toInt) :
    shard' = shard ∧ ∃ rpi g, (data.run rt₀ ops).retentionPolicy database policy = .ok (some rpi) ∧
      g ∈ rpi.shardGroups ∧ g.contains p.time = true ∧ g.contains p'.time = true ∧
      shard = g.shardFor p.hashID := by
  have legal : ∀ op ∈ ops, op.Legal := fun op hop => (creates op hop).legal
  obtain ⟨g, before, t, call, made, inside, rfl⟩ :=
    shard_of_mapShards h (served.answered sound legal) hs hp
  obtain ⟨g', before', t', call', made', inside', rfl⟩ :=
    shard_of_mapShards h' (served'.answered sound legal) hs' hp'
  obtain ⟨-, -, -, positive, k, spans⟩ := served.answer sound legal call made
  obtain ⟨-, -, -, -, k', spans'⟩ := served'.answer sound legal call' made'
  -- both times have the number of the slot, and the policy has one group for it
  have same : k = k' := by
    rw [← spans.slot_of_contains positive normal inside, slot]
    exact spans'.slot_of_contains positive normal' inside'
  subst same
  obtain ⟨rpi, found, mem, live⟩ := served.mem_run sound creates call made
  obtain ⟨rpi₁, found₁, mem', live'⟩ := served'.mem_run sound creates call' made'
  obtain rfl := Data.retentionPolicy_unique found found₁
  obtain ⟨rpi₂, found₂, -, good⟩ := sound.run rt₀ legal
  obtain rfl := Data.retentionPolicy_unique found found₂
  obtain rfl := good.unique g mem g' mem' live live' (spans.startTime_eq spans')
  have hash : p'.hashID = p.hashID := by rw [Point.hashID, Point.hashID, series]
  exact ⟨by rw [hash], rpi, g, found, mem, inside, inside', rfl⟩

/-- A database with an empty policy, whose shard groups are for a week. -/
def weekData : Data where
  databases :=
    [⟨str "db", str "autogen", [⟨str "autogen", 0, 604800000000000, []⟩]⟩]
  maxShardGroupID := 0
  maxShardID := 0

theorem weekData_sound :
    weekData.SoundAt (str "db") (str "autogen") 604800000000000 :=
  ⟨⟨str "autogen", 0, 604800000000000, []⟩, rfl, rfl,
    { positive := by decide
      untruncated := by simp
      spans := by simp
      unique := by simp }⟩

/-- The same series a day later. -/
def nextPoint : Point :=
  ⟨str "answer,foo=bar,sensu_entity_name=entity1", Time.unix 1552592433 0, str "value=43"⟩

def stalePoint : Point := ⟨str "cpu,host=a", Time.unix 1000 0, str "load=0.5"⟩

/-- The metadata calls of a request with the first point, and of one with the others behind it. -/
def weekCalls : List Op :=
  [answerPoint.time].map (.createShardGroup (str "db") (str "autogen")) ++
    [stalePoint.time, nextPoint.time].map (.createShardGroup (str "db") (str "autogen"))

theorem storable_answerPoint : Storable answerPoint.time :=
  ⟨1552506033000000000, by decide +kernel, by decide, by decide⟩

theorem storable_nextPoint : Storable nextPoint.time :=
  ⟨1552592433000000000, by decide +kernel, by decide, by decide⟩

theorem weekCalls_creates : ∀ op ∈ weekCalls, op.Creates := by
  have stale : Storable stalePoint.time := ⟨1000000000000, by decide +kernel, by decide, by decide⟩
  simp [weekCalls, Op.Creates, stale, storable_answerPoint, storable_nextPoint]

theorem mapShards_series_together_days :
    ∃ rpi g, (weekData.run .ordered weekCalls).retentionPolicy (str "db") (str "autogen") =
        .ok (some rpi) ∧ g ∈ rpi.shardGroups ∧ g.contains answerPoint.time = true ∧
      g.contains nextPoint.time = true ∧ 1 = g.shardFor answerPoint.hashID := by
  let sofar := weekData.run .ordered
    ([answerPoint.time].map (.createShardGroup (str "db") (str "autogen")))
  let points : Map UInt64 (List Point) := Finmap.singleton 1 [answerPoint]
  let points' : Map UInt64 (List Point) :=
    Finmap.insert 1 [nextPoint] (Finmap.singleton (2 : UInt64) [stalePoint])
  have first : mapShardsCalls .ordered (weekData.client .ordered fun _ => ⟨0, 0⟩) (str "db")
      (str "autogen") [answerPoint] = .ok ([answerPoint.time], ⟨points, []⟩) := by
    decide +kernel
  have second : mapShardsCalls .ordered (sofar.client .ordered fun _ => ⟨0, 0⟩) (str "db")
      (str "autogen") [stalePoint, nextPoint] =
      .ok ([stalePoint.time, nextPoint.time], ⟨points', []⟩) := by
    decide +kernel
  have found : points.lookup 1 = some [answerPoint] := by decide +kernel
  have found' : points'.lookup 1 = some [nextPoint] := by decide +kernel
  exact (mapShards_series_together weekData_sound weekCalls_creates first second
    ((Data.client_served .ordered weekData _ _ _ _).append _)
    (Data.client_served .ordered sofar _ _ _ _).after found found'
    (List.mem_singleton_self answerPoint) (List.mem_singleton_self nextPoint)
    storable_answerPoint.normal storable_nextPoint.normal rfl (by decide +kernel)).2

end InfluxHandler.Influx.Meta
