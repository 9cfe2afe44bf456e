-- The engine behind its queue: producers push messages, the thread of `randpa::loop()`
-- takes them and runs `process_msg` on each, and `stop()` ends that thread. In every
-- interleaving the thread has handled a prefix of the pushed messages, in push order.
import Randpa.Queue
import Randpa.Reachable

namespace randpa_finality

/-! ## Runs of `process_msg` -/

/-- `process_msg` on the messages of `ms`, one after another, each at some time. -/
inductive Randpa.Runs : Randpa → List RandpaMessage → Randpa → Prop
  | nil (e : Randpa) : Runs e [] e
  | snoc {e e1 e2 : Randpa} {ms : List RandpaMessage} {now : Nat} {m : RandpaMessage} :
      Runs e ms e1 → e1.processMsg now m = .ok e2 → Runs e (ms ++ [m]) e2

theorem Randpa.Runs.reachable {e e' : Randpa} {ms : List RandpaMessage} (h0 : Reachable e)
    (h : Randpa.Runs e ms e') : Reachable e' := by
  induction h with
  | nil => exact h0
  | snoc _ hs ih => exact ih.step hs

/-! ## The engine on its thread -/

/-- The message that the loop thread has taken and not yet handled. -/
def LoopPc.pending : LoopPc → List Nat
  | .returned (some m) => [m]
  | _ => []

/-- The queue, the engine that the thread of `randpa::loop()` drives, and the messages it
ran `process_msg` on, oldest first. Messages are numbered as in the queue. -/
structure ThreadedEngine where
  queue : QueueSystem
  engine : Randpa
  handled : List Nat

/-- A step of a thread; a step of the loop thread names the time at which the
`process_msg` in it runs. -/
inductive EngineThread
  | loop (now : Nat)
  | producer (msg : Nat)
  | stop
deriving DecidableEq, Repr

namespace ThreadedEngine

variable (msgs : Nat → RandpaMessage)

/-- The queue as built, with the loop thread started, and the engine that `start` set up. -/
def init (e : Randpa) : ThreadedEngine := ⟨.init, e, []⟩

/-- One step of a thread, `none` if it cannot take one. Past `if (_done) break;` with
message `m`, the loop thread runs `process_msg(m)`; a failed assertion ends the thread. With
no message it would read through a null pointer, which the queue never lets happen
(`QueueSystem.Inv.null`). -/
def step (s : ThreadedEngine) : EngineThread → Option ThreadedEngine
  | .loop now =>
    match s.queue.loopPc, s.queue.randpaDone with
    | .returned (some m), false =>
      match s.engine.processMsg now (msgs m), s.queue.loopStep with
      | .ok e, some q => some ⟨q, e, s.handled ++ [m]⟩
      | _, _ => none
    | .returned none, false => none
    | _, _ => s.queue.loopStep.map ({ s with queue := · })
  | .producer m => (s.queue.pushMessage m).map ({ s with queue := · })
  | .stop => s.queue.stopStep.map ({ s with queue := · })

/-- The steps of a list of threads, in order. -/
def run (s : ThreadedEngine) : List EngineThread → Option ThreadedEngine
  | [] => some s
  | t :: ts => (s.step msgs t).bind (·.run ts)

end ThreadedEngine

/-- The states of the threaded engine started with engine `e`, in every interleaving. -/
inductive ThreadedReachable (msgs : Nat → RandpaMessage) (e : Randpa) : ThreadedEngine → Prop
  | init : ThreadedReachable msgs e (.init e)
  | step {s s' : ThreadedEngine} {t : EngineThread} :
      ThreadedReachable msgs e s → s.step msgs t = some s' → ThreadedReachable msgs e s'

theorem ThreadedReachable.run {msgs : Nat → RandpaMessage} {e : Randpa} {s s' : ThreadedEngine}
    (h : ThreadedReachable msgs e s) :
    ∀ {ts : List EngineThread}, s.run msgs ts = some s' → ThreadedReachable msgs e s'
  | [], hr => by cases hr; exact h
  | t :: ts, hr => by
    obtain ⟨s1, h1, h2⟩ := Option.bind_eq_some.1 hr
    exact (h.step h1).run h2

/-! ## What the producers and `stop()` leave to the loop thread -/

namespace QueueSystem

/-- A step that takes no message and moves the loop thread at most from its block to the
mutex. -/
structure LoopKept (s s' : QueueSystem) : Prop where
  taken : s'.taken = s.taken
  pending : s'.loopPc.pending = s.loopPc.pending
  exited : s'.loopPc = .exited ↔ s.loopPc = .exited
  done : s.randpaDone = true → s'.randpaDone = true

theorem loopKept_notifyOne (s : QueueSystem) : LoopKept s s.notifyOne := by
  refine ⟨rfl, ?_, ?_, id⟩ <;> simp only [notifyOne] <;> split <;> simp_all [LoopPc.pending]

theorem loopKept_pushMessage {s s' : QueueSystem} {m : Nat} (hs : s.pushMessage m = some s') :
    LoopKept s s' ∧ s'.stopPc = s.stopPc := by
  simp only [pushMessage] at hs
  split at hs
  · cases hs
  · cases hs
    split
    · exact ⟨⟨(loopKept_notifyOne _).1, (loopKept_notifyOne _).2, (loopKept_notifyOne _).3, id⟩, rfl⟩
    · exact ⟨⟨rfl, rfl, Iff.rfl, id⟩, rfl⟩

theorem loopKept_stopStep {s s' : QueueSystem} (hs : s.stopStep = some s') :
    LoopKept s s' ∧ (s'.stopPc = .joined → s.loopPc = .exited) := by
  unfold stopStep at hs
  split at hs
  · cases hs; exact ⟨⟨rfl, rfl, Iff.rfl, fun _ => rfl⟩, nofun⟩
  · cases hs; exact ⟨⟨rfl, rfl, Iff.rfl, id⟩, nofun⟩
  · cases hs
    exact ⟨⟨rfl, (loopKept_notifyOne s).2, (loopKept_notifyOne s).3, id⟩, nofun⟩
  · split at hs
    · cases hs; exact ⟨⟨rfl, rfl, Iff.rfl, id⟩, fun _ => ‹_›⟩
    · cases hs
  · cases hs

/-- A step of the loop thread is not taken once it has exited, and leaves `stop()` and
`_done` alone. -/
theorem loopStep_frame {s q : QueueSystem} (hq : s.loopStep = some q) :
    s.loopPc ≠ .exited ∧ q.stopPc = s.stopPc ∧ q.randpaDone = s.randpaDone := by
  unfold loopStep at hq
  split at hq <;> first | cases hq | skip
  all_goals first
    | exact ⟨by simp [*], rfl, rfl⟩
    | (split at hq <;> cases hq <;> exact ⟨by simp [*], rfl, rfl⟩)

/-- A step of the loop thread takes the next message into its hands, or, past a message,
drops it from them: the thread is waiting again, or gone once `_done` is set. -/
theorem loopStep_taken {s q : QueueSystem} (hq : s.loopStep = some q) :
    (s.loopPc.pending = [] ∧ q.taken = s.taken ++ q.loopPc.pending) ∨
    (∃ m, s.loopPc = .returned (some m) ∧ q.taken = s.taken ∧
      q.loopPc = if s.randpaDone then .exited else .waitTop) := by
  cases hpc : s.loopPc with
  | getNext =>
    simp only [loopStep, hpc] at hq
    split at hq <;> cases hq <;> simp [LoopPc.pending]
  | returned o =>
    simp only [loopStep, hpc] at hq
    cases hq
    cases o with
    | none => exact .inl ⟨rfl, by split <;> simp [LoopPc.pending]⟩
    | some m => exact .inr ⟨m, rfl, rfl, rfl⟩
  | waitBlocked => simp [loopStep, hpc] at hq
  | exited => simp [loopStep, hpc] at hq
  | waitChecked =>
    simp only [loopStep, hpc] at hq
    cases hq
    exact .inl ⟨rfl, by simp [LoopPc.pending]⟩
  | waitTop | waitLock | testDone =>
    simp only [loopStep, hpc] at hq
    cases hq
    exact .inl ⟨rfl, by split <;> simp [LoopPc.pending]⟩

/-- The loop thread returns from `loop()` only past `if (_done) break;`. -/
theorem loopStep_exited {s q : QueueSystem} (hq : s.loopStep = some q) (hx : q.loopPc = .exited) :
    q.randpaDone = true := by
  cases hpc : s.loopPc with
  | returned o =>
    simp only [loopStep, hpc] at hq
    cases hq
    split at hx
    · assumption
    · cases hx
  | getNext =>
    simp only [loopStep, hpc] at hq
    split at hq <;> cases hq <;> cases hx
  | waitBlocked => simp [loopStep, hpc] at hq
  | exited => simp [loopStep, hpc] at hq
  | waitChecked => simp only [loopStep, hpc] at hq; cases hq; cases hx
  | waitTop | waitLock | testDone =>
    simp only [loopStep, hpc] at hq
    cases hq
    split at hx <;> cases hx

end QueueSystem

/-! ## The invariant of the threaded engine -/

namespace ThreadedEngine

variable (msgs : Nat → RandpaMessage) (e0 : Randpa)

/-- The invariant: the queue's, the engine as the run of `process_msg` over the handled
messages, these messages the ones taken but the one in hand (or the one dropped when the
loop exits on `_done`), and the loop thread gone once `stop()` has returned. -/
structure Inv (s : ThreadedEngine) : Prop where
  queue : s.queue.Inv
  runs : Randpa.Runs e0 (s.handled.map msgs) s.engine
  taken : s.queue.taken = s.handled ++ s.queue.loopPc.pending ∨
    (s.queue.loopPc = .exited ∧ ∃ m, s.queue.taken = s.handled ++ [m])
  joined : s.queue.stopPc = .joined → s.queue.loopPc = .exited
  exited : s.queue.loopPc = .exited → s.queue.randpaDone = true

theorem inv_init : Inv msgs e0 (init e0) :=
  ⟨QueueSystem.inv_init, .nil e0, .inl rfl, nofun, nofun⟩

variable {msgs e0}

/-- A step of a producer or of `stop()` keeps the invariant. -/
theorem Inv.of_kept {s : ThreadedEngine} {q : QueueSystem} (h : Inv msgs e0 s) (hq : q.Inv)
    (hk : s.queue.LoopKept q) (hj : q.stopPc = .joined → s.queue.loopPc = .exited) :
    Inv msgs e0 { s with queue := q } := by
  refine ⟨hq, h.runs, ?_, fun hq' => hk.exited.2 (hj hq'), fun hx => hk.done (h.exited (hk.exited.1 hx))⟩
  rw [hk.taken, hk.pending, hk.exited]
  exact h.taken

/-- A step of the loop thread that handles no message keeps the invariant. -/
theorem Inv.loopStep {s : ThreadedEngine} {q : QueueSystem} (h : Inv msgs e0 s)
    (hq : s.queue.loopStep = some q)
    (hr : ∀ m, s.queue.loopPc = .returned (some m) → s.queue.randpaDone = true) :
    Inv msgs e0 { s with queue := q } := by
  obtain ⟨hx, hstop, -⟩ := QueueSystem.loopStep_frame hq
  refine ⟨h.queue.loopStep hq, h.runs, ?_, fun hj => absurd (h.joined (hstop ▸ hj)) hx,
    QueueSystem.loopStep_exited hq⟩
  have ht : s.queue.taken = s.handled ++ s.queue.loopPc.pending := h.taken.resolve_right (hx ·.1)
  rcases QueueSystem.loopStep_taken hq with ⟨hp, hq'⟩ | ⟨m, hm, hq', hpc⟩
  · exact .inl (by rw [hq', ht, hp, List.append_nil])
  · rw [hr m hm, if_pos rfl] at hpc
    exact .inr ⟨hpc, m, by rw [hq', ht, hm]; rfl⟩

/-- A step of the loop thread that handles message `m` keeps the invariant. -/
theorem Inv.handle {s : ThreadedEngine} {q : QueueSystem} {e : Randpa} {now m : Nat}
    (h : Inv msgs e0 s) (hq : s.queue.loopStep = some q) (hm : s.queue.loopPc = .returned (some m))
    (hd : s.queue.randpaDone = false) (he : s.engine.processMsg now (msgs m) = .ok e) :
    Inv msgs e0 ⟨q, e, s.handled ++ [m]⟩ := by
  obtain ⟨hx, hstop, -⟩ := QueueSystem.loopStep_frame hq
  refine ⟨h.queue.loopStep hq, by simpa using h.runs.snoc he, ?_,
    fun hj => absurd (h.joined (hstop ▸ hj)) hx, QueueSystem.loopStep_exited hq⟩
  have ht : s.queue.taken = s.handled ++ [m] := by
    simpa [hm, LoopPc.pending] using h.taken.resolve_right (hx ·.1)
  rcases QueueSystem.loopStep_taken hq with ⟨hp, -⟩ | ⟨m', hm', hq', hpc⟩
  · simp [hm, LoopPc.pending] at hp
  · rw [hd] at hpc
    exact .inl (by simp [hq', ht, hpc, LoopPc.pending])

theorem Inv.step {s s' : ThreadedEngine} (h : Inv msgs e0 s) :
    ∀ {t : EngineThread}, s.step msgs t = some s' → Inv msgs e0 s'
  | .loop now, hs => by
    simp only [ThreadedEngine.step] at hs
    split at hs
    · rename_i m hm hd
      split at hs
      · cases hs; exact h.handle ‹_› hm hd ‹_›
      · cases hs
    · cases hs
    · rename_i hn _
      obtain ⟨q, hq, rfl⟩ := Option.map_eq_some'.1 hs
      exact h.loopStep hq fun m hm => by
        cases hd : s.queue.randpaDone
        exacts [(hn m hm hd).elim, rfl]
  | .producer _, hs => by
    obtain ⟨q, hq, rfl⟩ := Option.map_eq_some'.1 hs
    have hk := QueueSystem.loopKept_pushMessage hq
    exact h.of_kept (h.queue.pushMessage hq) hk.1 fun hj => h.joined (hk.2 ▸ hj)
  | .stop, hs => by
    obtain ⟨q, hq, rfl⟩ := Option.map_eq_some'.1 hs
    have hk := QueueSystem.loopKept_stopStep hq
    exact h.of_kept (h.queue.stopStep hq) hk.1 hk.2

/-- The messages handled are a prefix of those pushed. -/
theorem Inv.handled_prefix {s : ThreadedEngine} (h : Inv msgs e0 s) :
    s.handled <+: s.queue.pushed := by
  have ht : s.handled <+: s.queue.taken := by
    rcases h.taken with ht | ⟨-, m, ht⟩ <;> rw [ht] <;> exact List.prefix_append _ _
  exact ht.trans (h.queue.fifo ▸ List.prefix_append _ _)

end ThreadedEngine

theorem ThreadedReachable.inv {msgs : Nat → RandpaMessage} {e : Randpa} {s : ThreadedEngine}
    (h : ThreadedReachable msgs e s) : s.Inv msgs e := by
  induction h with
  | init => exact ThreadedEngine.inv_init msgs e
  | step _ hs ih => exact ih.step hs

theorem ThreadedReachable.run_getD {msgs : Nat → RandpaMessage} {e : Randpa} {s : ThreadedEngine}
    (h : ThreadedReachable msgs e s) {ts : List EngineThread} (hs : (s.run msgs ts).isSome = true) :
    ThreadedReachable msgs e ((s.run msgs ts).getD s) := by
  obtain ⟨s', hs'⟩ := Option.isSome_iff_exists.1 hs
  rw [hs']
  exact h.run hs'

/-! ## The threaded engine refines the sequential one -/

/-- In every interleaving of the producers, the loop thread and `stop()`: the messages the
loop thread ran `process_msg` on are a prefix of the pushed ones, in push order, none
lost, repeated or reordered; the engine is the sequential run of `process_msg` over them,
so a state reachable from a reachable start; and once `stop()` has returned, no thread's
step handles a message or changes the engine. -/
theorem threaded_engine_refines {msgs : Nat → RandpaMessage} {e0 : Randpa} {s : ThreadedEngine}
    (h : ThreadedReachable msgs e0 s) :
    s.handled <+: s.queue.pushed ∧ Randpa.Runs e0 (s.handled.map msgs) s.engine ∧
    (Reachable e0 → Reachable s.engine) ∧
    (s.queue.stopPc = .joined → ∀ t s', s.step msgs t = some s' →
      s'.handled = s.handled ∧ s'.engine = s.engine) := by
  have hi := h.inv
  refine ⟨hi.handled_prefix, hi.runs, fun h0 => hi.runs.reachable h0, fun hj t s' hs => ?_⟩
  have hx := hi.joined hj
  cases t with
  | loop now => simp [ThreadedEngine.step, hx, QueueSystem.loopStep] at hs
  | producer m => obtain ⟨q, -, rfl⟩ := Option.map_eq_some'.1 hs; exact ⟨rfl, rfl⟩
  | stop => simp [ThreadedEngine.step, QueueSystem.stopStep, hj] at hs

/-! ## The loop thread drives every message through -/

/-- The places of the loop thread from the top of its loop to `get_next_msg`: it holds no
message and does not wait. -/
def LoopPc.Fetching : LoopPc → Prop
  | .waitTop | .waitLock | .testDone | .getNext => True
  | _ => False

namespace ThreadedEngine

variable (msgs : Nat → RandpaMessage)

theorem run_append (s : ThreadedEngine) (ts ts' : List EngineThread) :
    s.run msgs (ts ++ ts') = (s.run msgs ts).bind (·.run msgs ts') := by
  induction ts generalizing s with
  | nil => rfl
  | cons t ts ih => rw [List.cons_append, run, run, Option.bind_assoc]; simp only [ih]

/-- With message `m` at the head of the queue and neither `_done` set, the loop thread takes
`m` within four of its own steps from anywhere between the top of its loop and
`get_next_msg`. -/
theorem fetch_head {s : ThreadedEngine} {m : Nat} {q : List Nat} (now : Nat)
    (hq : s.queue.queue = m :: q) (hqd : s.queue.queueDone = false) (hd : s.queue.randpaDone = false)
    (hpc : s.queue.loopPc.Fetching) :
    ∃ k ≤ 4, ∃ s', s.run msgs (List.replicate k (.loop now)) = some s' ∧
      s'.queue.loopPc = .returned (some m) ∧ s'.queue.randpaDone = false ∧
      s'.handled = s.handled ∧ s'.engine = s.engine := by
  obtain ⟨⟨qu, nn, qd, rd, pc, sp, pu, ta⟩, e, hl⟩ := s
  simp only at hq hqd hd hpc
  subst hq hqd hd
  cases pc with
  | waitTop =>
    cases nn
    · exact ⟨3, by omega, _, rfl, rfl, rfl, rfl, rfl⟩
    · exact ⟨4, le_rfl, _, rfl, rfl, rfl, rfl, rfl⟩
  | waitLock => exact ⟨3, by omega, _, rfl, rfl, rfl, rfl, rfl⟩
  | testDone => exact ⟨2, by omega, _, rfl, rfl, rfl, rfl, rfl⟩
  | getNext => exact ⟨1, by omega, _, rfl, rfl, rfl, rfl, rfl⟩
  | waitChecked | waitBlocked | returned _ | exited => exact hpc.elim

/-- Past `_done`'s test with message `m`, a step of the loop thread runs `process_msg` on
`m` and waits again. -/
theorem step_handle {s : ThreadedEngine} {m now : Nat} {e : Randpa}
    (hpc : s.queue.loopPc = .returned (some m)) (hd : s.queue.randpaDone = false)
    (he : s.engine.processMsg now (msgs m) = .ok e) :
    s.step msgs (.loop now) = some ⟨{ s.queue with loopPc := .waitTop }, e, s.handled ++ [m]⟩ := by
  simp [step, hpc, hd, he, QueueSystem.loopStep]

/-- From the top of the loop, with a reachable engine: `m` is handled within five steps. -/
theorem fetch_handle {s : ThreadedEngine} {m : Nat} {q : List Nat} (now : Nat)
    (he : Reachable s.engine) (hq : s.queue.queue = m :: q) (hqd : s.queue.queueDone = false)
    (hd : s.queue.randpaDone = false)
    (hpc : s.queue.loopPc.Fetching) :
    ∃ n ≤ 5, ∃ s', s.run msgs (List.replicate n (.loop now)) = some s' ∧
      s'.handled = s.handled ++ [m] := by
  obtain ⟨k, hk, s1, h1, hpc1, hd1, hh1, he1⟩ := fetch_head msgs now hq hqd hd hpc
  obtain ⟨e', he', -⟩ := Randpa.processMsg_good (he1 ▸ he).good now (msgs m)
  refine ⟨k + 1, by omega, ⟨{ s1.queue with loopPc := .waitTop }, e', s1.handled ++ [m]⟩, ?_,
    by rw [hh1]⟩
  rw [List.replicate_succ', run_append, h1, Option.some_bind, run, step_handle msgs hpc1 hd1 he']
  rfl

end ThreadedEngine

/-- Until `stop()` sets `_done`, from every reachable state with message `m` at the head of
the queue, the loop thread alone runs `process_msg` on `m` within six of its own steps,
right after the message it holds, if any: no pushed message waits behind a running loop
thread, and `process_msg` never stops it. -/
theorem head_handled_within_six {msgs : Nat → RandpaMessage} {e0 : Randpa} {s : ThreadedEngine}
    {m : Nat} {q : List Nat} (h : ThreadedReachable msgs e0 s) (h0 : Reachable e0)
    (hq : s.queue.queue = m :: q) (hd : s.queue.randpaDone = false) (now : Nat) :
    ∃ n ≤ 6, ∃ s', s.run msgs (List.replicate n (.loop now)) = some s' ∧
      s'.handled = s.handled ++ s.queue.loopPc.pending ++ [m] := by
  have hi := h.inv
  have hre := hi.runs.reachable h0
  have hqd : s.queue.queueDone = false := by
    cases hqd : s.queue.queueDone
    · rfl
    · simpa [hd] using hi.queue.done hqd
  have fetching (hpc : s.queue.loopPc.Fetching) : ∃ n ≤ 6, ∃ s',
      s.run msgs (List.replicate n (.loop now)) = some s' ∧ s'.handled = s.handled ++ [m] := by
    obtain ⟨n, hn, s', hs, hh⟩ := ThreadedEngine.fetch_handle msgs now hre hq hqd hd hpc
    exact ⟨n, by omega, s', hs, hh⟩
  cases hpc : s.queue.loopPc with
  | waitTop | waitLock | testDone | getNext =>
    simpa [LoopPc.pending] using fetching (by rw [hpc]; trivial)
  | waitChecked => simpa [hq] using hi.queue.empty (.inl hpc)
  | waitBlocked => simpa [hq] using hi.queue.empty (.inr hpc)
  | exited => simpa [hd] using hi.exited hpc
  | returned o =>
    cases o with
    | none => simpa [hqd] using hi.queue.null hpc
    | some m0 =>
      obtain ⟨e', he', -⟩ := Randpa.processMsg_good hre.good now (msgs m0)
      obtain ⟨n, hn, s2, h2, hh2⟩ := ThreadedEngine.fetch_handle msgs now (s :=
        ⟨{ s.queue with loopPc := .waitTop }, e', s.handled ++ [m0]⟩) (hre.step he') hq hqd hd trivial
      refine ⟨n + 1, by omega, s2, ?_, by simpa [LoopPc.pending] using hh2⟩
      rw [List.replicate_succ, ThreadedEngine.run, ThreadedEngine.step_handle msgs hpc hd he',
        Option.some_bind]
      exact h2

/-- Peer `n` joins, as message `n`. -/
def newPeerMsg (n : Nat) : RandpaMessage := .event (.onNewPeer n.toUInt32)

/-- Two producers push messages 0 and 1, the loop thread handles both, `stop()` sets the
flags, the loop thread returns, and `join()` returns. -/
def twoMessagesThenStop : List EngineThread :=
  [.producer 0, .producer 1] ++ List.replicate 9 (.loop 0) ++ List.replicate 3 .stop ++
    List.replicate 3 (.loop 0) ++ [.stop]

/-- The threaded producer of key 1 after `twoMessagesThenStop`. -/
def twoMessagesState : ThreadedEngine :=
  ((ThreadedEngine.init producerOne).run newPeerMsg twoMessagesThenStop).getD
    (.init producerOne)

theorem threaded_engine_refines_twoMessages :
    twoMessagesState.handled = [0, 1] ∧ twoMessagesState.queue.stopPc = .joined ∧
      twoMessagesState.handled <+: twoMessagesState.queue.pushed ∧
      Reachable twoMessagesState.engine :=
  have hr : ThreadedReachable newPeerMsg producerOne twoMessagesState :=
    ThreadedReachable.init.run_getD (by decide)
  ⟨by decide, by decide, (threaded_engine_refines hr).1,
    (threaded_engine_refines hr).2.2.1 reachable_producerOne⟩

/-- A producer has pushed message 0 to the threaded producer of key 1. -/
def onePushed : ThreadedEngine :=
  ((ThreadedEngine.init producerOne).run newPeerMsg [.producer 0]).getD (.init producerOne)

theorem head_handled_within_six_onePushed :
    ∃ n ≤ 6, ∃ s', onePushed.run newPeerMsg (List.replicate n (.loop 0)) = some s' ∧
      s'.handled = onePushed.handled ++ onePushed.queue.loopPc.pending ++ [0] :=
  @head_handled_within_six newPeerMsg producerOne onePushed 0 []
    (ThreadedReachable.init.run_getD (by decide)) reachable_producerOne (by decide) (by decide) 0

end randpa_finality
