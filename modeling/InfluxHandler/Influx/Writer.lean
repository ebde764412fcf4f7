import InfluxHandler.Influx.Shards
import InfluxHandler.Library.Gather

/-!
# The points writer

`WritePoints` starts a goroutine for every shard of a request. Each writes its points to the store,
creates the shard if it is missing, and tries once more; the caller waits for all of them, and
returns the first error, a timeout or nil. The store can answer a call in any way, and the
goroutines and the caller take turns in any order.
-/
namespace InfluxHandler.Influx
open Go KeyedMap Gather

/-! ## One shard -/

inductive StoreCall where
  | writeToShard (shard : UInt64) (points : List Point)
  | createShard (shard : UInt64)
  deriving DecidableEq

/-- A call of the store, and the error it returned. -/
structure StoreEvent where
  call : StoreCall
  answer : Option WriteError

/-- The points that the store has taken with this call. -/
def StoreEvent.acknowledged : StoreEvent → List Point
  | ⟨.writeToShard _ points, none⟩ => points
  | _ => []

/-- Where a goroutine is in `writeToShard`; at its end it has sent an error or nil. -/
inductive Stage where
  | write
  | create
  | rewrite
  | done (err : Option WriteError)
  deriving DecidableEq

structure ShardWriter where
  shard : UInt64
  points : List Point
  stage : Stage := .write
  /-- What it has done so far. -/
  history : List StoreEvent := []

def ShardWriter.call (w : ShardWriter) : Option StoreCall :=
  match w.stage with
  | .write | .rewrite => some (.writeToShard w.shard w.points)
  | .create => some (.createShard w.shard)
  | .done _ => none

/-- What is sent for the result of `writeToShard`. -/
def ShardWriter.report (w : ShardWriter) : Option WriteError → Option WriteError
  | some .shardDeletion => some (.partialWrite
      (str "shard " ++ formatUint w.shard.toNat ++ str " is pending deletion") w.points.length)
  | err => err

/-- Where the goroutine goes with an answer. After an error that is no partial write there is a
second attempt. -/
def ShardWriter.next (w : ShardWriter) (answer : Option WriteError) : Stage :=
  match w.stage, answer with
  | .write, none => .done none
  | .write, some (.partialWrite reason dropped) => .done (some (.partialWrite reason dropped))
  | .write, some .shardNotFound => .create
  | .write, some _ => .rewrite
  | .create, none => .rewrite
  | .create, some err => .done (w.report (some err))
  | .rewrite, err => .done (w.report err)
  | .done err, _ => .done err

def ShardWriter.advance (w : ShardWriter) (e : StoreEvent) : ShardWriter :=
  { w with stage := w.next e.answer, history := w.history ++ [e] }

def ShardWriter.sent (w : ShardWriter) : Option (Option WriteError) :=
  match w.stage with
  | .done err => some err
  | _ => none

theorem ShardWriter.sent_eq_some_iff {w : ShardWriter} {err : Option WriteError} :
    w.sent = some err ↔ w.stage = .done err := by
  obtain ⟨shard, points, stage, history⟩ := w
  cases stage <;> simp [sent]

/-! ## All shards -/

def errWriteFailed : WriteError := .text (str "write failed")
def errTimeout : WriteError := .text (str "timeout")

/-- What is returned when all shards are written: points that were dropped before are an error. -/
def droppedError (dropped : List Point) : Option WriteError :=
  if dropped = [] then none
  else some (.partialWrite (str "points beyond retention policy") dropped.length)

/-- The goroutines and the loop that waits for them. It can find the writer closed or the time over.
-/
def writeSystem (dropped : List Point) :
    System ShardWriter StoreEvent (Option WriteError) (Option WriteError) where
  work w e w' := w.call = some e.call ∧ w' = w.advance e
  sent := ShardWriter.sent
  bad := fun
    | none => none
    | some err => some (some err)
  final := droppedError dropped
  interrupt r := r = some errWriteFailed ∨ r = some errTimeout
  rests {w e w'} h := by
    obtain ⟨shard, points, stage, history⟩ := w
    cases stage with
    | done err => cases h.1
    | _ => rfl

theorem ShardWriter.done_of_sent (dropped : List Point) {w : ShardWriter} {m : Option WriteError}
    (sent : w.sent = some m) (good : (writeSystem dropped).bad m = none) :
    w.stage = .done none := by
  cases m with
  | some err => cases good
  | none => exact sent_eq_some_iff.mp sent

/-- The goroutines of a mapping, in the order in which they are started. -/
def shardWriters (e : List (Σ _ : UInt64, List Point)) : List ShardWriter :=
  e.map fun x => { shard := x.1, points := x.2 }

/-- `WritePointsPrivileged` can return this error, or nil, after these calls of the store. -/
inductive WritePoints (rt : Runtime) (mc : MetaClient) (database retentionPolicy : Bytes)
    (points : List Point) : List StoreEvent → Option WriteError → Prop where
  | noDatabase (hrp : retentionPolicy = []) (hdb : mc.database database = none) :
    WritePoints rt mc database retentionPolicy points []
      (some (errDatabaseNotFound database))
  | notMapped {rp : Bytes} {err : WriteError}
    (hrp : if retentionPolicy = [] then mc.database database = some rp else retentionPolicy = rp)
    (h : mapShards rt mc database rp points = .error err) :
    WritePoints rt mc database retentionPolicy points [] (some err)
  | run {rp : Bytes} {mapping : ShardMapping} {e : List (Σ _ : UInt64, List Point)}
    {a : State ShardWriter StoreEvent (Option WriteError) (Option WriteError)}
    {r : Option WriteError}
    (hrp : if retentionPolicy = [] then mc.database database = some rp else retentionPolicy = rp)
    (h : mapShards rt mc database rp points = .ok mapping) (he : Enumerates e mapping.points)
    (ha : Reachable (writeSystem mapping.dropped) (shardWriters e) a) (hr : a.result = some r) :
    WritePoints rt mc database retentionPolicy points a.log r

/-! ## What a goroutine has done -/

/-- The store has taken the points of a goroutine once if it has sent nil, and not at all before
that or with an error. -/
def ShardWriter.Honest (w : ShardWriter) : Prop :=
  w.history.flatMap StoreEvent.acknowledged = if w.stage = .done none then w.points else []

theorem ShardWriter.report_eq_none_iff {w : ShardWriter} {err : Option WriteError} :
    w.report err = none ↔ err = none := by
  unfold report
  split <;> simp

/-- What a call adds is what its answer leads to. -/
theorem ShardWriter.acknowledged_advance {w : ShardWriter} {e : StoreEvent}
    (h : w.call = some e.call) :
    e.acknowledged = if w.next e.answer = .done none then w.points else [] := by
  obtain ⟨shard, points, stage, history⟩ := w
  obtain ⟨call, answer⟩ := e
  cases stage with
  | write =>
    cases h
    cases answer with
    | none => rfl
    | some err => cases err <;> rfl
  | create =>
    cases h
    cases answer with
    | none => rfl
    | some err => simp [StoreEvent.acknowledged, next, report_eq_none_iff]
  | rewrite =>
    cases h
    cases answer with
    | none => rfl
    | some err => simp [StoreEvent.acknowledged, next, report_eq_none_iff]
  | done err => cases h

theorem ShardWriter.honest_advance {w : ShardWriter} {e : StoreEvent} (h : w.call = some e.call)
    (honest : w.Honest) : (w.advance e).Honest := by
  have before : w.stage ≠ .done none := by
    intro done
    rw [call, done] at h
    cases h
  rw [Honest, if_neg before] at honest
  rw [Honest, advance, List.flatMap_append, honest, List.nil_append, List.flatMap_singleton,
    acknowledged_advance h]

/-- At most three calls: two writes with the creation of the shard between them. -/
def Stage.left : Stage → Nat
  | .write => 3
  | .create => 2
  | .rewrite => 1
  | .done _ => 0

theorem ShardWriter.left_advance {w : ShardWriter} {e : StoreEvent} (h : w.call = some e.call) :
    (w.advance e).stage.left < w.stage.left := by
  obtain ⟨shard, points, stage, history⟩ := w
  obtain ⟨call, answer⟩ := e
  cases stage with
  | write =>
    cases answer with
    | none => simp [advance, next, Stage.left]
    | some err => cases err <;> simp [advance, next, Stage.left]
  | create => cases answer <;> simp [advance, next, Stage.left]
  | rewrite => simp [advance, next, Stage.left]
  | done err => cases h

section
variable {dropped : List Point} {e : List (Σ _ : UInt64, List Point)}
  {a : State ShardWriter StoreEvent (Option WriteError) (Option WriteError)}
  (ha : Reachable (writeSystem dropped) (shardWriters e) a)
include ha

/-- The points that the store has taken are those of the goroutines that sent nil. -/
theorem acknowledged_perm :
    (a.log.flatMap StoreEvent.acknowledged).Perm
      (a.workers.flatMap fun w => if w.stage = .done none then w.points else []) := by
  have grows {w w' : ShardWriter} {e : StoreEvent} (h : (writeSystem dropped).work w e w') :
      w'.history = w.history ++ [e] := by
    rw [h.2]
    rfl
  have fresh : ∀ w ∈ shardWriters e, w.history = [] := by
    intro w hw
    obtain ⟨x, -, rfl⟩ := List.mem_map.mp hw
    rfl
  have log := ha.log_perm grows fresh
  have honest : ∀ w ∈ a.workers, w.Honest := by
    refine ha.forall_workers (p := ShardWriter.Honest) ?_ ?_
    · intro w hw
      obtain ⟨x, -, rfl⟩ := List.mem_map.mp hw
      rfl
    · rintro w e _ ⟨call, rfl⟩ honest
      exact ShardWriter.honest_advance call honest
  refine (log.flatMap_right _).trans ?_
  rw [List.flatMap_assoc]
  exact .of_eq (List.flatMap_congr honest)

/-- The goroutines keep their points. -/
theorem flatMap_points : a.workers.flatMap ShardWriter.points = e.flatMap Sigma.snd := by
  have points := ha.map_workers (f := ShardWriter.points) (by rintro w e _ ⟨-, rfl⟩; rfl)
  rw [List.flatMap_def, points, shardWriters, List.map_map, List.flatMap_def]
  rfl

omit ha in
theorem fresh_shardWriters : ∀ w ∈ shardWriters e, w.sent = none := by
  intro w hw
  obtain ⟨x, -, rfl⟩ := List.mem_map.mp hw
  rfl

end

/-! ## What a request has done -/

section
variable {rt : Runtime} {mc : MetaClient} {database retentionPolicy : Bytes} {points : List Point}
  {log : List StoreEvent}

/-- If nil is returned, all goroutines have sent nil and no point was dropped. -/
theorem WritePoints.acknowledged (h : WritePoints rt mc database retentionPolicy points log none) :
    (log.flatMap StoreEvent.acknowledged).Perm points := by
  cases h with
  | @run rp mapping e a _ hrp hm he ha hr =>
    have partition := (mapShards_partition hm he).1
    rw [← flatMap_points ha] at partition
    rcases ha.ended fresh_shardWriters hr with ⟨final, all⟩ | ⟨w, -, m, -, bad⟩ | interrupt
    · have nothing : mapping.dropped = [] := by
        by_contra dropped
        simp [writeSystem, droppedError, dropped] at final
      have done : ∀ w ∈ a.workers, w.stage = .done none := by
        intro w hw
        obtain ⟨m, sent, good⟩ := all w hw
        exact ShardWriter.done_of_sent mapping.dropped sent good
      refine (acknowledged_perm ha).trans ?_
      rw [nothing, List.append_nil] at partition
      rw [List.flatMap_congr fun w hw => if_pos (done w hw)]
      exact partition
    · cases m <;> cases bad
    · simp [writeSystem] at interrupt

theorem WritePoints.acknowledged_subperm {r : Option WriteError}
    (h : WritePoints rt mc database retentionPolicy points log r) :
    (log.flatMap StoreEvent.acknowledged).Subperm points := by
  cases h with
  | noDatabase => exact List.nil_subperm
  | notMapped => exact List.nil_subperm
  | @run rp mapping e a _ hrp hm he ha hr =>
    have partition := (mapShards_partition hm he).1
    rw [← flatMap_points ha] at partition
    have part : (a.workers.flatMap fun w => if w.stage = .done none then w.points else []).Sublist
        (a.workers.flatMap ShardWriter.points) := by
      refine List.Sublist.flatMap_right _ fun w _ => ?_
      split_ifs
      · exact .refl _
      · exact List.nil_sublist _
    have whole := (part.trans (List.sublist_append_left _ mapping.dropped)).subperm
    exact (acknowledged_perm ha).subperm.trans (whole.trans partition.subperm)

/-- Whatever `WritePoints` returns, the store has acknowledged no point twice and none that was not
in the request. If it returns nil, the store has acknowledged all of them. -/
theorem writePoints_acknowledged {r : Option WriteError}
    (h : WritePoints rt mc database retentionPolicy points log r) :
    (log.flatMap StoreEvent.acknowledged).Subperm points ∧
      (r = none → (log.flatMap StoreEvent.acknowledged).Perm points) :=
  ⟨h.acknowledged_subperm, fun nil => (nil ▸ h).acknowledged⟩

end

/-- The goroutine of a point whose shard is not there yet. -/
def answerWriter (stage : Stage) (history : List StoreEvent) : ShardWriter :=
  ⟨7, [answerPoint], stage, history⟩

/-- The store does not know the shard, creates it, and takes the point. -/
def creatingLog : List StoreEvent :=
  [⟨.writeToShard 7 [answerPoint], some .shardNotFound⟩, ⟨.createShard 7, none⟩,
    ⟨.writeToShard 7 [answerPoint], none⟩]

/-- The states after the first one. -/
def creatingRun : List (State ShardWriter StoreEvent (Option WriteError) (Option WriteError)) :=
  [⟨[answerWriter .create (creatingLog.take 1)], [], 1, none, creatingLog.take 1⟩,
    ⟨[answerWriter .rewrite (creatingLog.take 2)], [], 1, none, creatingLog.take 2⟩,
    ⟨[answerWriter (.done none) creatingLog], [none], 1, none, creatingLog⟩,
    ⟨[answerWriter (.done none) creatingLog], [], 0, none, creatingLog⟩,
    ⟨[answerWriter (.done none) creatingLog], [], 0, some none, creatingLog⟩]

theorem creatingRun_isChain :
    (State.start (shardWriters [⟨7, [answerPoint]⟩]) :: creatingRun).IsChain
      (Step (writeSystem [])) := by
  refine .cons_cons (.first ⟨rfl, rfl⟩) ?_
  refine .cons_cons (.first ⟨rfl, rfl⟩) ?_
  refine .cons_cons (.first ⟨rfl, rfl⟩) ?_
  refine .cons_cons (.receive rfl) ?_
  exact .cons_cons .finish (.singleton _)

theorem creating_writePoints :
    WritePoints .ordered weekClient (str "foo") [] [answerPoint] creatingLog none := by
  have mapped : mapShards .ordered weekClient (str "foo") (str "autogen") [answerPoint] =
      .ok ⟨Finmap.singleton 7 [answerPoint], []⟩ := by
    decide +kernel
  have reached := List.relationReflTransGen_of_exists_isChain_cons _ creatingRun_isChain rfl
  exact .run (by simp [weekClient]) mapped rfl reached rfl

/-- A point of another series, for the other shard of the group. -/
def cpuPoint : Point := ⟨str "cpu,host=a", Time.unix 1552506033 0, str "load=0.5"⟩

def cpuWriter (stage : Stage) (history : List StoreEvent) : ShardWriter :=
  ⟨9, [cpuPoint], stage, history⟩

def cpuEvent : StoreEvent := ⟨.writeToShard 9 [cpuPoint], none⟩

/-- The other shard is written while the first one is not there yet. -/
def pairLog : List StoreEvent := creatingLog.take 1 ++ cpuEvent :: creatingLog.drop 1

/-- Both goroutines take turns, and the answer of the second is received before the first is done.
-/
def pairRun : List (State ShardWriter StoreEvent (Option WriteError) (Option WriteError)) :=
  [⟨[cpuWriter .write [], answerWriter .create (creatingLog.take 1)], [], 2, none,
      pairLog.take 1⟩,
    ⟨[cpuWriter (.done none) [cpuEvent], answerWriter .create (creatingLog.take 1)], [none], 2,
      none, pairLog.take 2⟩,
    ⟨[cpuWriter (.done none) [cpuEvent], answerWriter .rewrite (creatingLog.take 2)], [none], 2,
      none, pairLog.take 3⟩,
    ⟨[cpuWriter (.done none) [cpuEvent], answerWriter .rewrite (creatingLog.take 2)], [], 1, none,
      pairLog.take 3⟩,
    ⟨[cpuWriter (.done none) [cpuEvent], answerWriter (.done none) creatingLog], [none], 1, none,
      pairLog⟩,
    ⟨[cpuWriter (.done none) [cpuEvent], answerWriter (.done none) creatingLog], [], 0, none,
      pairLog⟩,
    ⟨[cpuWriter (.done none) [cpuEvent], answerWriter (.done none) creatingLog], [], 0, some none,
      pairLog⟩]

theorem pairRun_isChain :
    (State.start (shardWriters [⟨9, [cpuPoint]⟩, ⟨7, [answerPoint]⟩]) :: pairRun).IsChain
      (Step (writeSystem [])) := by
  refine .cons_cons (.second ⟨rfl, rfl⟩) ?_
  refine .cons_cons (.first ⟨rfl, rfl⟩) ?_
  refine .cons_cons (.second ⟨rfl, rfl⟩) ?_
  refine .cons_cons (.receive rfl) ?_
  refine .cons_cons (.second ⟨rfl, rfl⟩) ?_
  refine .cons_cons (.receive rfl) ?_
  exact .cons_cons .finish (.singleton _)

theorem pair_writePoints :
    WritePoints .ordered weekClient (str "foo") [] [answerPoint, cpuPoint] pairLog none := by
  have mapped : mapShards .ordered weekClient (str "foo") (str "autogen") [answerPoint, cpuPoint] =
      .ok ⟨Finmap.insert 9 [cpuPoint] (Finmap.singleton (7 : UInt64) [answerPoint]), []⟩ := by
    decide +kernel
  have reached := List.relationReflTransGen_of_exists_isChain_cons _ pairRun_isChain rfl
  exact .run (by simp [weekClient]) mapped rfl reached rfl

theorem writePoints_acknowledged_pair :
    (pairLog.flatMap StoreEvent.acknowledged).Perm [answerPoint, cpuPoint] :=
  (writePoints_acknowledged pair_writePoints).2 rfl

/-- What is returned when no goroutine has a turn before the time is over. -/
def idleOutcome (rt : Runtime) (mc : MetaClient) (database retentionPolicy : Bytes)
    (points : List Point) : Option WriteError :=
  match if retentionPolicy = [] then mc.database database else some retentionPolicy with
  | none => some (errDatabaseNotFound database)
  | some rp =>
    match mapShards rt mc database rp points with
    | .error err => some err
    | .ok mapping => if mapping.points = ∅ then droppedError mapping.dropped else some errTimeout

theorem writePoints_idle (rt : Runtime) (mc : MetaClient) (database retentionPolicy : Bytes)
    (points : List Point) : WritePoints rt mc database retentionPolicy points []
      (idleOutcome rt mc database retentionPolicy points) := by
  unfold idleOutcome
  cases hp : if retentionPolicy = [] then mc.database database else some retentionPolicy with
  | none =>
    split_ifs at hp with hrp
    exact .noDatabase hrp hp
  | some rp =>
    have policy : if retentionPolicy = [] then mc.database database = some rp
        else retentionPolicy = rp := by
      split_ifs at hp ⊢
      · exact hp
      · exact Option.some.inj hp
    dsimp only
    cases hm : mapShards rt mc database rp points with
    | error err => exact .notMapped policy hm
    | ok mapping =>
      obtain ⟨e, he⟩ := Quot.exists_rep mapping.points.entries
      dsimp only
      cases e with
      | nil =>
        have empty : mapping.points = ∅ := Finmap.ext he.symm
        rw [if_pos empty]
        exact .run policy hm he (.single .finish) rfl
      | cons x e =>
        have full : mapping.points ≠ ∅ := by
          intro empty
          have found := Enumerates.mem_iff he |>.mp List.mem_cons_self
          rw [empty, Finmap.lookup_empty] at found
          cases found
        rw [if_neg full]
        exact .run policy hm he (.single (.interrupt (.inr rfl))) rfl

/-! ## The end of a request -/

/-- The goroutines and the loop when the writer is not closed and the time does not run out. -/
def calmSystem (dropped : List Point) :
    System ShardWriter StoreEvent (Option WriteError) (Option WriteError) :=
  { writeSystem dropped with interrupt := fun _ => False }

theorem ShardWriter.exists_call {w : ShardWriter} (h : w.sent = none) :
    ∃ call, w.call = some call := by
  obtain ⟨shard, points, stage, history⟩ := w
  cases stage with
  | done err => cases h
  | write | create | rewrite => exact ⟨_, rfl⟩

/-- However the store answers and whoever takes turns, a request ends after at most four steps for
each shard and one more, and the channel never holds more than one message for each shard, also
after a timeout. The loop needs no timeout to end: it returns the error of a goroutine, or it has
heard from all of them. -/
theorem writePoints_returns (dropped : List Point) (e : List (Σ _ : UInt64, List Point)) :
    (∀ run, (State.start (shardWriters e) :: run).IsChain (Step (writeSystem dropped)) →
      run.length ≤ 4 * e.length + 1) ∧
    (∀ a, Reachable (writeSystem dropped) (shardWriters e) a → a.channel.length ≤ e.length) ∧
    ∀ a, Reachable (calmSystem dropped) (shardWriters e) a →
      (a.result = none → ∃ b, Step (calmSystem dropped) a b) ∧
      ∀ r, a.result = some r →
        (r = droppedError dropped ∧ ∀ w ∈ a.workers, w.stage = .done none) ∨
          ∃ w ∈ a.workers, w.stage = .done r ∧ r ≠ none := by
  refine ⟨?_, ?_, ?_⟩
  · intro run chain
    have less {w w' : ShardWriter} {e : StoreEvent} (h : (writeSystem dropped).work w e w') :
        w'.stage.left < w.stage.left := h.2 ▸ ShardWriter.left_advance h.1
    have bound := length_run_le (fun w => w.stage.left) less chain
    have total : ((shardWriters e).map fun w => w.stage.left).sum = e.length * 3 := by
      simp [shardWriters, Function.comp_def, Stage.left]
    have waiting : (shardWriters e).length = e.length := List.length_map _
    simp only [State.left, State.start, total, waiting, Option.isNone_none, if_true] at bound
    omega
  · intro a ha
    have room := ha.channel_le fresh_shardWriters
    rwa [shardWriters, List.length_map] at room
  · intro a ha
    refine ⟨fun running => ?_, fun r hr => ?_⟩
    · refine ha.exists_step fresh_shardWriters (fun w silent => ?_) running
      obtain ⟨call, hc⟩ := ShardWriter.exists_call silent
      exact ⟨⟨call, none⟩, _, hc, rfl⟩
    · rcases ha.ended fresh_shardWriters hr with ⟨final, all⟩ | ⟨w, hw, m, sent, bad⟩ | interrupt
      · refine .inl ⟨final, fun w hw => ?_⟩
        obtain ⟨m, sent, good⟩ := all w hw
        exact ShardWriter.done_of_sent dropped sent good
      · cases m with
        | none => cases bad
        | some err =>
          cases bad
          exact .inr ⟨w, hw, ShardWriter.sent_eq_some_iff.mp sent, Option.some_ne_none err⟩
      · cases interrupt

/-- A run with two shards, of seven steps, and the first state of one that is not interrupted. -/
theorem writePoints_returns_pair :
    pairRun.length ≤ 9 ∧
      ∃ b, Step (calmSystem [])
        (State.start (shardWriters [⟨9, [cpuPoint]⟩, ⟨7, [answerPoint]⟩])) b :=
  have bound := writePoints_returns [] [⟨9, [cpuPoint]⟩, ⟨7, [answerPoint]⟩]
  ⟨bound.1 _ pairRun_isChain, (bound.2.2 _ .refl).1 rfl⟩

end InfluxHandler.Influx
