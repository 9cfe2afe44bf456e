-- The queue between the network and the engine's thread (`message_queue` in randpa.hpp):
-- the thread of `randpa::loop()`, any number of producers calling `push_message`, and the
-- thread of `randpa::stop()`. Each region under the mutex is one step, and the wait is split
-- into the test of its predicate and the release of the mutex with the block.
import Mathlib

namespace randpa_finality

/-! ## Threads and state -/

/-- Where the thread of `randpa::loop()` is, in `get_next_msg_wait()` or back in the loop. -/
inductive LoopPc
  /-- At `if (_need_notify)`, the top of the wait's loop. -/
  | waitTop
  /-- About to take the mutex and test the wait's predicate. -/
  | waitLock
  /-- Holding the mutex, the predicate false: about to release it and block. -/
  | waitChecked
  /-- Blocked in `_new_msg_cond.wait`. -/
  | waitBlocked
  /-- At `if (_done) return nullptr;`. -/
  | testDone
  /-- At `get_next_msg()`. -/
  | getNext
  /-- `get_next_msg_wait()` returned `msg`, and the loop is at `if (_done) break;`. -/
  | returned (msg : Option Nat)
  /-- `loop()` returned. -/
  | exited
deriving DecidableEq, Repr

/-- Where the thread of `randpa::stop()` is. -/
inductive StopPc
  /-- Not called yet; its first step is `_done = true`. -/
  | idle
  /-- At the store `_done = true` of `terminate()`. -/
  | terminate
  /-- At the `notify_one()` of `terminate()`. -/
  | notify
  /-- `terminate()` returned; in `_thread_ptr->join()`. -/
  | join
  /-- `stop()` returned. -/
  | joined
deriving DecidableEq, Repr

/-- A thread that takes a step: the loop, a producer pushing message `msg`, or stop. -/
inductive Thread
  | loop
  | producer (msg : Nat)
  | stop
deriving DecidableEq, Repr

/-- The queue (front first), `_need_notify`, the `_done` of the queue and of `randpa`, the
places of the two threads, and, to state what a run does, the messages pushed and taken so
far. Messages are numbered. -/
structure QueueSystem where
  queue : List Nat
  needNotify : Bool
  queueDone : Bool
  randpaDone : Bool
  loopPc : LoopPc
  stopPc : StopPc
  pushed : List Nat
  taken : List Nat
deriving DecidableEq, Repr

namespace QueueSystem

/-- The queue as built, with the loop thread started and stop not called. -/
def init : QueueSystem := ⟨[], true, false, false, .waitTop, .idle, [], []⟩

/-- `_new_msg_cond.notify_one()`: the loop thread, if blocked in the wait, wakes and goes
to take the mutex again. -/
def notifyOne (s : QueueSystem) : QueueSystem :=
  { s with loopPc := if s.loopPc = .waitBlocked then .waitLock else s.loopPc }

/-- One step of the loop thread, `none` while it is blocked and once it has returned.
After a message the loop runs `process_msg`, which is the engine's, and waits again. -/
def loopStep (s : QueueSystem) : Option QueueSystem :=
  match s.loopPc with
  | .waitTop => some { s with loopPc := if s.needNotify then .waitLock else .testDone }
  | .waitLock =>
    some { s with loopPc := if !s.queue.isEmpty || s.queueDone then .testDone else .waitChecked }
  | .waitChecked => some { s with loopPc := .waitBlocked }
  | .waitBlocked => none
  | .testDone => some { s with loopPc := if s.queueDone then .returned none else .getNext }
  | .getNext =>
    match s.queue with
    | [] => some { s with needNotify := true, loopPc := .waitTop }
    | m :: q =>
      some { s with queue := q, needNotify := false, taken := s.taken ++ [m], loopPc := .returned (some m) }
  | .returned _ => some { s with loopPc := if s.randpaDone then .exited else .waitTop }
  | .exited => none

/-- `push_message(msg)`, under the mutex, so not while the loop thread holds it. -/
def pushMessage (s : QueueSystem) (m : Nat) : Option QueueSystem :=
  if s.loopPc = .waitChecked then none
  else
    let s := { s with queue := s.queue ++ [m], pushed := s.pushed ++ [m] }
    some (if s.needNotify then s.notifyOne else s)

/-- One step of `stop()`: `_done = true`, then the store and the `notify_one()` of
`terminate()`, neither under the mutex, then `join()`, which returns once the loop has. -/
def stopStep (s : QueueSystem) : Option QueueSystem :=
  match s.stopPc with
  | .idle => some { s with randpaDone := true, stopPc := .terminate }
  | .terminate => some { s with queueDone := true, stopPc := .notify }
  | .notify => some { s.notifyOne with stopPc := .join }
  | .join => if s.loopPc = .exited then some { s with stopPc := .joined } else none
  | .joined => none

/-- A step of thread `t`, `none` if it cannot take one. -/
def step (s : QueueSystem) : Thread → Option QueueSystem
  | .loop => s.loopStep
  | .producer m => s.pushMessage m
  | .stop => s.stopStep

/-- The steps of a list of threads, in order. -/
def run (s : QueueSystem) : List Thread → Option QueueSystem
  | [] => some s
  | t :: ts => (s.step t).bind (·.run ts)

end QueueSystem

/-- The states of the queue that the threads reach, in every interleaving. -/
inductive QueueReachable : QueueSystem → Prop
  | init : QueueReachable .init
  | step {s s' : QueueSystem} {t : Thread} : QueueReachable s → s.step t = some s' → QueueReachable s'

theorem QueueReachable.run {s s' : QueueSystem} (h : QueueReachable s) :
    ∀ {ts : List Thread}, s.run ts = some s' → QueueReachable s'
  | [], hr => by cases hr; exact h
  | t :: ts, hr => by
    obtain ⟨s1, h1, h2⟩ := Option.bind_eq_some.1 hr
    exact (h.step h1).run h2

/-! ## The invariant -/

namespace QueueSystem

/-- What holds in every reachable state. -/
structure Inv (s : QueueSystem) : Prop where
  /-- The messages taken, then those in the queue, are the messages pushed, in order. -/
  fifo : s.taken ++ s.queue = s.pushed
  /-- From the test of `_need_notify` to the wake-up, `_need_notify` is set. -/
  waiting : s.loopPc = .waitLock ∨ s.loopPc = .waitChecked ∨ s.loopPc = .waitBlocked →
    s.needNotify = true
  /-- Between a false predicate and the wake-up, the queue is empty. -/
  empty : s.loopPc = .waitChecked ∨ s.loopPc = .waitBlocked → s.queue = []
  stopping : s.stopPc ≠ .idle → s.randpaDone = true
  done : s.queueDone = true → s.randpaDone = true
  /-- A null message comes only from the queue's `_done`. -/
  null : s.loopPc = .returned none → s.queueDone = true

theorem inv_init : Inv init :=
  ⟨rfl, by decide, by decide, by decide, by decide, by decide⟩

/-- A step that only moves the loop thread keeps the invariant when its new place meets
the three parts of the invariant that depend on the place. -/
theorem Inv.setLoopPc {s : QueueSystem} (h : Inv s) {p : LoopPc}
    (hw : p = .waitLock ∨ p = .waitChecked ∨ p = .waitBlocked → s.needNotify = true)
    (he : p = .waitChecked ∨ p = .waitBlocked → s.queue = [])
    (hn : p = .returned none → s.queueDone = true) : Inv { s with loopPc := p } :=
  ⟨h.fifo, hw, he, h.stopping, h.done, hn⟩

theorem Inv.loopStep {s s' : QueueSystem} (h : Inv s) (hs : s.loopStep = some s') : Inv s' := by
  unfold QueueSystem.loopStep at hs
  split at hs <;> rename_i hpc
  · cases hs
    exact h.setLoopPc (by split_ifs with hn <;> simp [hn]) (by split_ifs <;> simp) (by split_ifs <;> simp)
  · cases hs
    refine h.setLoopPc (fun _ => h.waiting (Or.inl hpc)) (fun hc => ?_) (by split_ifs <;> simp)
    split_ifs at hc with hq
    · simp at hc
    · exact (by simpa using hq : s.queue = [] ∧ _).1
  · cases hs
    exact h.setLoopPc (fun _ => h.waiting (Or.inr (Or.inl hpc))) (fun _ => h.empty (Or.inl hpc)) (by simp)
  · cases hs
  · cases hs
    exact h.setLoopPc (by split_ifs <;> simp) (by split_ifs <;> simp) (by split_ifs with hd <;> simp [hd])
  · split at hs <;> cases hs
    · exact ⟨h.fifo, by simp, by simp, h.stopping, h.done, by simp⟩
    · rename_i m q hq
      exact ⟨by rw [List.append_assoc, List.singleton_append, ← hq]; exact h.fifo, by simp, by simp,
        h.stopping, h.done, by simp⟩
  · cases hs
    exact h.setLoopPc (by split_ifs <;> simp) (by split_ifs <;> simp) (by split_ifs <;> simp)
  · cases hs

theorem Inv.pushMessage {s s' : QueueSystem} {m : Nat} (h : Inv s) (hs : s.pushMessage m = some s') :
    Inv s' := by
  unfold QueueSystem.pushMessage at hs
  split_ifs at hs with hc
  cases hs
  have hfifo : s.taken ++ (s.queue ++ [m]) = s.pushed ++ [m] := by rw [← List.append_assoc, h.fifo]
  cases hn : s.needNotify
  · have hw : ¬(s.loopPc = .waitLock ∨ s.loopPc = .waitChecked ∨ s.loopPc = .waitBlocked) :=
      fun hw => by simpa [hn] using h.waiting hw
    simp only [hn, Bool.false_eq_true, if_false]
    exact ⟨hfifo, fun hw' => absurd hw' hw, fun hw' => absurd (Or.inr hw') hw, h.stopping, h.done, h.null⟩
  · simp only [hn, if_true, notifyOne]
    refine ⟨hfifo, fun _ => rfl, fun hw => ?_, h.stopping, h.done, fun hr => ?_⟩
    · split_ifs at hw <;> simp_all
    · split_ifs at hr
      exact h.null hr

/-- `notify_one()` keeps the invariant: it wakes only a loop thread blocked in the wait. -/
theorem Inv.notifyOne {s : QueueSystem} (h : Inv s) : Inv s.notifyOne := by
  unfold QueueSystem.notifyOne
  split_ifs with hb
  · exact ⟨h.fifo, fun _ => h.waiting (Or.inr (Or.inr hb)), by simp, h.stopping, h.done, by simp⟩
  · exact h

theorem Inv.setStopPc {s : QueueSystem} (h : Inv s) (hr : s.randpaDone = true) (p : StopPc) :
    Inv { s with stopPc := p } :=
  ⟨h.fifo, h.waiting, h.empty, fun _ => hr, h.done, h.null⟩

theorem Inv.stopStep {s s' : QueueSystem} (h : Inv s) (hs : s.stopStep = some s') : Inv s' := by
  unfold QueueSystem.stopStep at hs
  split at hs
  · cases hs
    exact ⟨h.fifo, h.waiting, h.empty, fun _ => rfl, fun _ => rfl, h.null⟩
  · cases hs
    have hr := h.stopping (by simp [*])
    exact ⟨h.fifo, h.waiting, h.empty, fun _ => hr, fun _ => hr, fun _ => rfl⟩
  · cases hs
    exact h.notifyOne.setStopPc (h.stopping (by simp [*])) _
  · split_ifs at hs
    cases hs
    exact h.setStopPc (h.stopping (by simp [*])) _
  · cases hs

theorem Inv.step {s s' : QueueSystem} (h : Inv s) : ∀ {t : Thread}, s.step t = some s' → Inv s'
  | .loop, hs => h.loopStep hs
  | .producer _, hs => h.pushMessage hs
  | .stop, hs => h.stopStep hs

end QueueSystem

theorem QueueReachable.inv {s : QueueSystem} (h : QueueReachable s) : s.Inv := by
  induction h with
  | init => exact QueueSystem.inv_init
  | step _ hs ih => exact ih.step hs

/-- The loop thread tests the wait's predicate on the empty queue; `stop()` then stores
both flags and notifies, before the loop thread releases the mutex and blocks. -/
def lostWakeupRun : List Thread := [.loop, .loop, .stop, .stop, .stop, .loop]

theorem init_run_lostWakeupRun :
    QueueSystem.init.run lostWakeupRun = some ⟨[], true, true, true, .waitBlocked, .join, [], []⟩ := by
  decide

/-! ## What every interleaving keeps -/

/-- While the loop thread is blocked in the wait, the queue is empty and `_need_notify` is
set, so the next `push_message` wakes it: no message waits behind a sleeping loop thread. -/
theorem blocked_queue_empty {s : QueueSystem} (h : QueueReachable s) (hb : s.loopPc = .waitBlocked) :
    s.queue = [] ∧ s.needNotify = true :=
  ⟨h.inv.empty (Or.inr hb), h.inv.waiting (Or.inr (Or.inr hb))⟩

/-- The loop thread that tests the wait's predicate and then blocks after `stop()` has run
(the lost wake-up) is blocked on an empty queue, with `_need_notify` set. -/
theorem blocked_queue_empty_lostWakeup :
    ∃ s, QueueSystem.init.run [.loop, .loop, .stop, .stop, .stop, .loop] = some s ∧
      s.loopPc = .waitBlocked ∧ s.queue = [] ∧ s.needNotify = true :=
  ⟨_, init_run_lostWakeupRun, rfl, blocked_queue_empty (QueueReachable.init.run init_run_lostWakeupRun) rfl⟩

/-- After `lostWakeupRun` the loop thread is blocked in the wait on an empty queue, and
`terminate()` has returned: neither the loop thread nor `stop()` can take a step, so
`join()` waits until some producer pushes a message. -/
theorem lost_wakeup_blocks_join :
    ∃ s, QueueReachable s ∧ s.loopPc = .waitBlocked ∧ s.queue = [] ∧ s.stopPc = .join ∧
      s.step .loop = none ∧ s.step .stop = none :=
  ⟨_, QueueReachable.init.run init_run_lostWakeupRun, rfl, rfl, rfl, rfl, rfl⟩

end randpa_finality
