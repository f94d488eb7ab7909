import SchedOS.Kernel.RoundRobin
import SchedOS.Shared.ReadyQueue

set_option autoImplicit false

namespace SchedOS

open Rotation

def Label.action : Label → ReadyQueue.Action Nat
  | .interrupt _ reg =>
      match reg.service with
      | .yield | .clock => .rotate
      | .exit => .leave
      | .unknown => .stop
      | .user1 | .user2 | .user3 | .user4 => .keep
  | .dispatch pid => .take pid
  | .store => .keep

def Machine.queue : Machine → ReadyQueue.State Nat
  | .user k => .running k.current ((behind nprocs k.current).filter k.Runnable)
  | .scheduling k => .choosing ((ring nprocs k.current).filter k.Runnable)
  | .halted _ => .stopped

theorem start_queue (boot : Boot) : (start boot).queue = .running 1 [2, 3, 4] := rfl

theorem interrupt_runnable (reg : Registers) (k : Kernel) (pid : Nat) :
    (interrupt reg k).kernel.Runnable pid ↔
      k.Runnable pid ∧ ¬ (pid = k.current ∧ reg.service = .exit) := by
  unfold Kernel.Runnable
  rw [interrupt_state]
  split_ifs with exits
  · simp [exits]
  · simp [exits]

theorem queue_congr {k k' : Kernel} (pids : List Nat)
    (same : ∀ pid ∈ pids, k'.Runnable pid ↔ k.Runnable pid) :
    pids.filter k'.Runnable = pids.filter k.Runnable :=
  List.filter_congr fun pid member => decide_eq_decide.mpr (same pid member)

theorem interrupt_queue (reg : Registers) {k : Kernel} (table : k.WellFormed)
    (runnable : k.Runnable k.current) :
    ReadyQueue.step (Machine.queue (.user k)) (Label.interrupt k.current reg).action =
      some (interrupt reg k).queue := by
  have bound : k.current < nprocs := table.current.2
  have after (pid : Nat) := interrupt_runnable reg k pid
  have current := interrupt_current reg k
  have others : (behind nprocs k.current).filter (interrupt reg k).kernel.Runnable =
      (behind nprocs k.current).filter k.Runnable := by
    refine queue_congr _ fun pid member => ?_
    have other : pid ≠ k.current := fun same => not_mem_behind bound (same ▸ member)
    simp [after, other]
  have line : (ring nprocs k.current).filter (interrupt reg k).kernel.Runnable =
      (behind nprocs k.current).filter k.Runnable ++
        [k.current].filter (interrupt reg k).kernel.Runnable := by
    rw [ring_eq bound, List.filter_append, others]
  cases kind : reg.service with
  | user1 | user2 | user3 | user4 =>
      rw [interrupt_returns reg k (by simp [kind])]
      simp only [Machine.queue, Label.action, kind, ReadyQueue.step, current, others]
  | yield | clock =>
      have still : (interrupt reg k).kernel.Runnable k.current := by simp [after, kind, runnable]
      rw [interrupt_schedules reg k (by simp [kind])]
      simp only [Machine.queue, Label.action, kind, ReadyQueue.step, current, line]
      simp [still]
  | exit =>
      have gone : ¬ (interrupt reg k).kernel.Runnable k.current := by simp [after, kind]
      rw [interrupt_schedules reg k (by simp [kind])]
      simp only [Machine.queue, Label.action, kind, ReadyQueue.step, current, line]
      simp [gone]
  | unknown => simp only [Machine.queue, Label.action, kind, ReadyQueue.step, interrupt]

theorem step_queue {m m' : Machine} {label : Label} (step : TableStep 0 m label m') :
    ReadyQueue.step m.queue label.action = some m'.queue := by
  obtain ⟨step, good, algorithm⟩ := step
  cases step with
  | interrupt k reg => exact interrupt_queue reg good.1 (good.2 k rfl)
  | @dispatch k k' picked =>
      obtain ⟨pid, next, rfl⟩ := (Kernel.schedules_roundRobin good.1 algorithm).mp picked
      have line : Machine.queue (.scheduling k) = _ :=
        congrArg ReadyQueue.State.choosing (next.ring good.1.current.2)
      rw [line]
      exact ReadyQueue.step_take.mpr ⟨rfl, rfl⟩
  | store => rfl

theorem run_queue {m last : Machine} {trace : List (Label × Machine)}
    (run : Trace.Run (TableStep 0) m trace last) :
    ReadyQueue.run m.queue ((labels trace).map Label.action) = some last.queue := by
  induction run with
  | nil => rfl
  | cons first _ ih =>
      change (ReadyQueue.step _ _).bind _ = _
      rw [step_queue first, Option.bind_some]
      exact ih

theorem taken_actions (trace : List (Label × Machine)) :
    ((labels trace).map Label.action).filterMap ReadyQueue.Action.taken = dispatches trace := by
  have same (label : Label) : label.action.taken = label.dispatched := by
    cases label with
    | interrupt caller reg => simp only [Label.action]; split <;> rfl
    | dispatch | store => rfl
  rw [List.filterMap_map, dispatches]
  exact List.filterMap_congr fun label _ => same label

theorem queue_step {m : Machine} (good : m.WellFormed)
    (algorithm : m.kernel.schedulingAlgorithm = 0)
    {action : ReadyQueue.Action Nat} {next : ReadyQueue.State Nat}
    (stepped : ReadyQueue.step m.queue action = some next) :
    ∃ label m', label.action = action ∧ Step Kernel.Schedules m label m' := by
  cases m with
  | user k =>
      cases action with
      | keep => exact ⟨_, _, rfl, .store k 0 0 k.cells⟩
      | rotate => exact ⟨_, _, rfl, .interrupt k (trap 48 0)⟩
      | leave => exact ⟨_, _, rfl, .interrupt k (trap 49 0)⟩
      | stop => exact ⟨_, _, rfl, .interrupt k (trap 0 0)⟩
      | take pid => cases stepped
  | scheduling k =>
      obtain ⟨first, rest, line, rfl, -⟩ := ReadyQueue.step_choosing stepped
      have inside : first ∈ (ring nprocs k.current).filter k.Runnable :=
        line ▸ List.mem_cons_self
      obtain ⟨member, runnable⟩ := List.mem_filter.mp inside
      have some : k.SomeRunnable :=
        good.1.someRunnable.mpr ⟨first, mem_ring.mp member, of_decide_eq_true runnable⟩
      obtain ⟨k', picked⟩ := (Kernel.schedules_roundRobin_ends good.1 algorithm).mpr some
      obtain ⟨pid, next, rfl⟩ := (Kernel.schedules_roundRobin good.1 algorithm).mp picked
      have chosen := (next.ring good.1.current.2).symm.trans line
      exact ⟨_, _, congrArg _ (List.cons.inj chosen).1, .dispatch picked⟩
  | halted k => cases action <;> cases stepped

/-- Under algorithm 0 every run is a run of a ready queue that starts with process 1 on the
processor and 2, 3, 4 in line; every step the queue can take is one of the machine; and from any
state on, the processes in line get the processor in that order. -/
theorem roundRobin_queue (boot : Boot) (algorithm : boot.schedulingAlgorithm = 0)
    (trace : List (Label × Machine)) (m : Machine) (run : Runs boot trace m) :
    ReadyQueue.run (.running 1 [2, 3, 4]) ((labels trace).map Label.action) = some m.queue ∧
      (∀ action next, ReadyQueue.step m.queue action = some next →
        ∃ label m', label.action = action ∧ Step Kernel.Schedules m label m' ∧ m'.queue = next) ∧
      ∀ after last, Trace.Run (Step Kernel.Schedules) m after last →
        ReadyQueue.Agree (dispatches after) m.queue.line := by
  have tested : boot.schedulingAlgorithm ≠ 1 := by rw [algorithm]; decide
  obtain ⟨good, same⟩ := runs_wellFormed tested run
  rw [algorithm] at same
  refine ⟨?_, fun action next stepped => ?_, fun after last rest => ?_⟩
  · rw [← start_queue boot]
    exact run_queue (tableSteps (by decide) run (start_wellFormed boot) algorithm)
  · obtain ⟨label, m', rfl, step⟩ := queue_step good same stepped
    have matched := step_queue ⟨step, good, same⟩
    exact ⟨label, m', rfl, step, Option.some.inj (matched.symm.trans stepped)⟩
  · have ran := run_queue (tableSteps (by decide) rest good same)
    rw [← taken_actions]
    exact ReadyQueue.takes_in_order ran

theorem roundRobin_queue_exit : ∃ trace m, Runs (bareBoot 0) trace m ∧
    m.queue = .choosing [3, 4, 1] ∧
    ReadyQueue.run (.running 1 [2, 3, 4]) ((labels trace).map Label.action) = some m.queue := by
  let yielded : Kernel := (interrupt (trap 48 0) (bareBoot 0).kernel).kernel
  let left : Kernel := (interrupt (trap 49 0) (yielded.run 2)).kernel
  have run : Runs (bareBoot 0)
      [(.interrupt 1 (trap 48 0), .scheduling yielded), (.dispatch 2, .user (yielded.run 2)),
        (.interrupt 2 (trap 49 0), .scheduling left)] (.scheduling left) :=
    .cons (step_schedules _ (by decide)) <| .cons (step_run 2 rfl) <|
      .cons (step_schedules _ (by decide)) <| .nil _
  exact ⟨_, _, run, rfl, (roundRobin_queue (bareBoot 0) rfl _ _ run).1⟩

end SchedOS
