import Mathlib

/-!
# Workers that report to a collector

A number of workers run side by side; each sends one message when it is done. A collector waits for
as many messages as there are workers, gives up at the first bad one, and can be interrupted before
that. Steps of the workers and of the collector are taken in any order. The log holds what the
workers did, in the order in which it happened.

What holds in every such run: the log is an interleaving of what the single workers did
(`Reachable.log_perm`), no more messages are sent than there are workers, so a channel with that
capacity never blocks one (`Reachable.channel_le`), a collector that ends without a bad message and
without an interrupt has heard from every worker (`Reachable.ended`), and it always ends, because a
run is bounded (`length_run_le`) and does not get stuck before (`Reachable.exists_step`).
-/
namespace Gather

variable {σ ε ρ τ : Type*}

/-- Workers in state `s` can take steps `work s e s'`, by which `e` is recorded; `sent` is the
message of a worker that is done. `bad` is what the collector returns for a message that stops it,
`final` what it returns when it has all, `interrupt` what it may return at any time before. -/
structure System (σ ε ρ τ : Type*) where
  work : σ → ε → σ → Prop
  sent : σ → Option ρ
  bad : ρ → Option τ
  final : τ
  interrupt : τ → Prop
  /-- A worker that is done stays so. -/
  rests : ∀ {s e s'}, work s e s' → sent s = none

structure State (σ ε ρ τ : Type*) where
  workers : List σ
  channel : List ρ
  waiting : Nat
  result : Option τ
  log : List ε

/-- All workers start, and the collector waits for each of them. -/
def State.start (workers : List σ) : State σ ε ρ τ := ⟨workers, [], workers.length, none, []⟩

inductive Step (S : System σ ε ρ τ) : State σ ε ρ τ → State σ ε ρ τ → Prop where
  | work {pre post : List σ} {s s' : σ} {e : ε} {channel waiting result log} (h : S.work s e s') :
    Step S ⟨pre ++ s :: post, channel, waiting, result, log⟩
      ⟨pre ++ s' :: post, channel ++ (S.sent s').toList, waiting, result, log ++ [e]⟩
  | receive {workers : List σ} {m : ρ} {channel waiting log} (h : S.bad m = none) :
    Step S ⟨workers, m :: channel, waiting + 1, none, log⟩ ⟨workers, channel, waiting, none, log⟩
  | stop {workers : List σ} {m : ρ} {channel waiting log} {r : τ} (h : S.bad m = some r) :
    Step S ⟨workers, m :: channel, waiting + 1, none, log⟩
      ⟨workers, channel, waiting, some r, log⟩
  | interrupt {workers : List σ} {channel waiting log} {r : τ} (h : S.interrupt r) :
    Step S ⟨workers, channel, waiting + 1, none, log⟩
      ⟨workers, channel, waiting + 1, some r, log⟩
  | finish {workers : List σ} {channel log} :
    Step S ⟨workers, channel, 0, none, log⟩ ⟨workers, channel, 0, some S.final, log⟩

section
variable {S : System σ ε ρ τ} {s s' w : σ} {e : ε} {post : List σ} {channel : List ρ} {n : Nat}
  {result : Option τ} {log : List ε} (h : S.work s e s')
include h

theorem Step.first : Step S ⟨s :: post, channel, n, result, log⟩
    ⟨s' :: post, channel ++ (S.sent s').toList, n, result, log ++ [e]⟩ :=
  have step : Step S ⟨[] ++ s :: post, channel, n, result, log⟩ ⟨[] ++ s' :: post, _, _, _, _⟩ :=
    .work h
  step

theorem Step.second : Step S ⟨w :: s :: post, channel, n, result, log⟩
    ⟨w :: s' :: post, channel ++ (S.sent s').toList, n, result, log ++ [e]⟩ :=
  have step : Step S ⟨[w] ++ s :: post, channel, n, result, log⟩ ⟨[w] ++ s' :: post, _, _, _, _⟩ :=
    .work h
  step

end

def Reachable (S : System σ ε ρ τ) (workers : List σ) : State σ ε ρ τ → Prop :=
  Relation.ReflTransGen (Step S) (State.start workers)

/-- An invariant of the steps holds in every run. -/
theorem Reachable.induction {S : System σ ε ρ τ} {workers : List σ} {p : State σ ε ρ τ → Prop}
    (start : p (State.start workers)) (step : ∀ {a b}, Step S a b → p a → p b) {a : State σ ε ρ τ}
    (h : Reachable S workers a) : p a := by
  induction h with
  | refl => exact start
  | tail _ last ih => exact step last ih

/-! ## The workers -/

section
variable {S : System σ ε ρ τ} {workers : List σ} {a : State σ ε ρ τ}

/-- What a worker keeps through its steps is kept in the run. -/
theorem Reachable.map_workers {κ : Type*} {f : σ → κ}
    (keeps : ∀ {s e s'}, S.work s e s' → f s' = f s) (h : Reachable S workers a) :
    a.workers.map f = workers.map f := by
  refine h.induction (p := fun a => a.workers.map f = workers.map f) rfl ?_
  intro a b step ih
  cases step with
  | work h => simpa [keeps h] using ih
  | receive | stop | interrupt | finish => exact ih

theorem Reachable.length_workers (h : Reachable S workers a) :
    a.workers.length = workers.length := by
  have shape := h.map_workers (f := fun _ => ()) fun _ => rfl
  simpa using congrArg List.length shape

/-- An invariant of single workers holds of each of them. -/
theorem Reachable.forall_workers {p : σ → Prop} (start : ∀ s ∈ workers, p s)
    (step : ∀ {s e s'}, S.work s e s' → p s → p s') (h : Reachable S workers a) :
    ∀ s ∈ a.workers, p s := by
  refine h.induction (p := fun a => ∀ s ∈ a.workers, p s) start ?_
  intro a b taken ih
  cases taken with
  | @work pre post s s' e _ _ _ _ h =>
    simp only [List.forall_mem_append, List.forall_mem_cons] at ih ⊢
    exact ⟨ih.1, step h ih.2.1, ih.2.2⟩
  | receive | stop | interrupt | finish => exact ih

end

/-! ## The log -/

/-- What is recorded is what the workers have done: `history s` is what a worker in state `s` has
done since it started. -/
theorem Reachable.log_perm {S : System σ ε ρ τ} {history : σ → List ε}
    (grows : ∀ {s e s'}, S.work s e s' → history s' = history s ++ [e]) {workers : List σ}
    (fresh : ∀ s ∈ workers, history s = []) {a : State σ ε ρ τ} (h : Reachable S workers a) :
    a.log.Perm (a.workers.flatMap history) := by
  refine h.induction (p := fun a => a.log.Perm (a.workers.flatMap history)) ?_ ?_
  · have none : workers.flatMap history = [] := List.flatMap_eq_nil_iff.mpr fresh
    exact none ▸ .nil
  · intro a b step ih
    cases step with
    | @work pre post s s' e _ _ _ log h =>
      simp only [List.flatMap_append, List.flatMap_cons, grows h, List.append_assoc] at ih ⊢
      have moved :
          (log ++ [e]).Perm (pre.flatMap history ++ (history s ++ post.flatMap history) ++ [e]) :=
        ih.append_right [e]
      refine moved.trans ?_
      simp only [List.append_assoc]
      refine .append_left _ (.append_left _ ?_)
      exact List.perm_append_comm
    | receive | stop | interrupt | finish => exact ih

/-! ## The messages -/

/-- Every message that was sent has been received or waits in the channel, and the collector's
result tells what it has received. -/
structure Accounted (S : System σ ε ρ τ) (a : State σ ε ρ τ) (received : List ρ) : Prop where
  messages : (a.workers.filterMap S.sent).Perm (received ++ a.channel)
  running : a.result = none →
    (∀ m ∈ received, S.bad m = none) ∧ received.length + a.waiting = a.workers.length
  ended : ∀ r, a.result = some r →
    (r = S.final ∧ (∀ m ∈ received, S.bad m = none) ∧ received.length = a.workers.length) ∨
      (∃ m ∈ received, S.bad m = some r) ∨ S.interrupt r

theorem Step.accounted {S : System σ ε ρ τ} {a b : State σ ε ρ τ} (step : Step S a b)
    {received : List ρ} (h : Accounted S a received) : ∃ received', Accounted S b received' := by
  cases step with
  | @work pre post s s' e channel waiting result log hw =>
    refine ⟨received, ?_, ?_, ?_⟩
    · have before := h.messages
      have silent : [s].filterMap S.sent = [] := by simp [S.rests hw]
      have after : [s'].filterMap S.sent = (S.sent s').toList := by
        cases hs : S.sent s' <;> simp [hs]
      simp only [List.filterMap_append, ← List.singleton_append (l := post), silent, after,
        List.nil_append] at before ⊢
      have moved := before.append_right (S.sent s').toList
      rw [List.append_assoc, List.append_assoc] at moved
      exact (List.perm_append_comm.append_left _).trans moved
    · simpa using h.running
    · simpa using h.ended
  | @receive workers m channel waiting log hm =>
    obtain ⟨good, count⟩ := h.running rfl
    refine ⟨received ++ [m], ?_, fun _ => ⟨?_, ?_⟩, nofun⟩
    · simpa using h.messages
    · grind
    · simp at count ⊢
      omega
  | @stop workers m channel waiting log r hm =>
    refine ⟨received ++ [m], ?_, nofun, ?_⟩
    · simpa using h.messages
    · rintro r' ⟨⟩
      exact .inr (.inl ⟨m, by simp, hm⟩)
  | interrupt hr =>
    refine ⟨received, h.messages, nofun, ?_⟩
    rintro r' ⟨⟩
    exact .inr (.inr hr)
  | finish =>
    obtain ⟨good, count⟩ := h.running rfl
    refine ⟨received, h.messages, nofun, ?_⟩
    rintro r' ⟨⟩
    exact .inl ⟨rfl, good, count⟩

section
variable {S : System σ ε ρ τ} {workers : List σ} {a : State σ ε ρ τ}

theorem Reachable.accounted (fresh : ∀ s ∈ workers, S.sent s = none) (h : Reachable S workers a) :
    ∃ received, Accounted S a received := by
  refine h.induction (p := fun a => ∃ received, Accounted S a received) ⟨[], ?_, ?_, nofun⟩ ?_
  · rw [State.start, List.filterMap_eq_nil_iff.mpr fresh]
    rfl
  · exact fun _ => ⟨nofun, Nat.zero_add _⟩
  · rintro a b step ⟨received, accounted⟩
    exact step.accounted accounted

/-- A channel that has room for a message from each worker never makes one wait. -/
theorem Reachable.channel_le (fresh : ∀ s ∈ workers, S.sent s = none) (h : Reachable S workers a) :
    a.channel.length ≤ workers.length := by
  obtain ⟨received, accounted⟩ := h.accounted fresh
  have sent := accounted.messages.length_eq
  have most := List.length_filterMap_le S.sent a.workers
  rw [List.length_append] at sent
  rw [← h.length_workers]
  omega

/-- What a result says: a good message from every worker, a bad one from some worker, or an
interrupt. -/
theorem Reachable.ended (fresh : ∀ s ∈ workers, S.sent s = none) (h : Reachable S workers a) {r : τ}
    (hr : a.result = some r) :
    (r = S.final ∧ ∀ s ∈ a.workers, ∃ m, S.sent s = some m ∧ S.bad m = none) ∨
      (∃ s ∈ a.workers, ∃ m, S.sent s = some m ∧ S.bad m = some r) ∨ S.interrupt r := by
  obtain ⟨received, accounted⟩ := h.accounted fresh
  rcases accounted.ended r hr with ⟨rfl, all, count⟩ | ⟨m, mem, hm⟩ | hi
  · refine .inl ⟨rfl, fun s hs => ?_⟩
    have sent := accounted.messages.length_eq
    have most := List.length_filterMap_le S.sent a.workers
    rw [List.length_append] at sent
    have whole : (a.workers.filterMap S.sent).length = a.workers.length := by omega
    have each := List.filterMap_length_eq_length.mp whole s hs
    obtain ⟨m, hm⟩ := Option.isSome_iff_exists.mp each
    have arrived : m ∈ received ++ a.channel :=
      accounted.messages.subset (List.mem_filterMap.mpr ⟨s, hs, hm⟩)
    have empty : a.channel.length = 0 := by omega
    rw [List.eq_nil_of_length_eq_zero empty, List.append_nil] at arrived
    exact ⟨m, hm, all m arrived⟩
  · have arrived := accounted.messages.symm.subset (List.mem_append_left _ mem)
    obtain ⟨s, hs, sent⟩ := List.mem_filterMap.mp arrived
    exact .inr (.inl ⟨s, hs, m, sent, hm⟩)
  · exact .inr (.inr hi)

/-- A run does not get stuck before the collector ends, also without an interrupt: a worker can go
on, or all are done and the collector has what it waits for. -/
theorem Reachable.exists_step (fresh : ∀ s ∈ workers, S.sent s = none)
    (able : ∀ s, S.sent s = none → ∃ e s', S.work s e s') (h : Reachable S workers a)
    (running : a.result = none) : ∃ b, Step S a b := by
  obtain ⟨received, accounted⟩ := h.accounted fresh
  have count := (accounted.running running).2
  have sent := accounted.messages.length_eq
  obtain ⟨all, channel, waiting, result, log⟩ := a
  cases running
  by_cases done : ∀ s ∈ all, (S.sent s).isSome
  · rw [List.filterMap_length_eq_length.mpr done, List.length_append] at sent
    cases waiting with
    | zero => exact ⟨_, .finish⟩
    | succ n =>
      cases channel with
      | nil =>
        simp only [List.length_nil] at sent count
        omega
      | cons m channel =>
        cases hm : S.bad m with
        | none => exact ⟨_, .receive hm⟩
        | some r => exact ⟨_, .stop hm⟩
  · push Not at done
    obtain ⟨s, mem, silent⟩ := done
    obtain ⟨pre, post, rfl⟩ := List.append_of_mem mem
    obtain ⟨e, s', work⟩ := able s (by simpa using silent)
    exact ⟨_, .work work⟩

end

/-! ## The end of a run -/

/-- What is left to do, if a worker in state `s` takes at most `left s` more steps. -/
def State.left (left : σ → Nat) (a : State σ ε ρ τ) : Nat :=
  (a.workers.map left).sum + if a.result.isNone then a.waiting + 1 else 0

theorem Step.left_lt {S : System σ ε ρ τ} {left : σ → Nat}
    (less : ∀ {s e s'}, S.work s e s' → left s' < left s) {a b : State σ ε ρ τ}
    (step : Step S a b) :
    b.left left < a.left left := by
  cases step with
  | work h =>
    have fewer := less h
    simp only [State.left, List.map_append, List.map_cons, List.sum_append, List.sum_cons]
    omega
  | receive | stop | interrupt | finish => simp [State.left]

/-- A run takes no more steps than there were left at its start. -/
theorem length_run_le {S : System σ ε ρ τ} (left : σ → Nat)
    (less : ∀ {s e s'}, S.work s e s' → left s' < left s) {a : State σ ε ρ τ}
    {run : List (State σ ε ρ τ)} (h : (a :: run).IsChain (Step S)) : run.length ≤ a.left left := by
  induction run generalizing a with
  | nil => exact Nat.zero_le _
  | cons b run ih =>
    rw [List.isChain_cons_cons] at h
    have later := ih h.2
    have step := h.1.left_lt less
    rw [List.length_cons]
    omega

end Gather
