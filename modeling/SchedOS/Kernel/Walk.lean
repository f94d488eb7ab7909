import SchedOS.Kernel.Table

set_option autoImplicit false

namespace SchedOS

-- The steps may be any part of those of the machine.
theorem walk_spares {sched : Kernel → Kernel → Prop} {step : Machine → Label → Machine → Prop}
    {pid : Nat} {m last : Machine} {trace : List (Label × Machine)}
    (run : Trace.Run step m trace last) (machine : ∀ a l b, step a l b → Step sched a l b)
    (hop : ∀ k l k', step (.scheduling k) l (.user k') → k'.current < nprocs ∧
      Rotation.gap nprocs k.current k'.current ≤ Rotation.gap nprocs k.current pid) :
    Rotation.Spares nprocs pid m.kernel.current (dispatches trace) := by
  induction run with
  | nil => trivial
  | @cons m next last label rest first tail ih =>
      cases label with
      | dispatch chosen =>
          have moved := machine _ _ _ first
          cases moved with
          | dispatch picked =>
              obtain ⟨bound, near⟩ := hop _ _ _ first
              exact ⟨bound, near, ih⟩
      | interrupt caller reg =>
          rw [← step_current (machine _ _ _ first) rfl]
          exact ih
      | store =>
          rw [← step_current (machine _ _ _ first) rfl]
          exact ih

theorem dispatches_all {sched : Kernel → Kernel → Prop} {step : Machine → Label → Machine → Prop}
    {chosen : Nat → Prop} {m last : Machine} {trace : List (Label × Machine)}
    (run : Trace.Run step m trace last) (machine : ∀ a l b, step a l b → Step sched a l b)
    (hop : ∀ k l k', step (.scheduling k) l (.user k') → chosen k'.current) :
    ∀ pid ∈ dispatches trace, chosen pid := by
  induction run with
  | nil => simp
  | @cons m next last label rest first tail ih =>
      rw [dispatches_cons]
      cases label with
      | dispatch pid =>
          have moved := machine _ _ _ first
          cases moved with
          | dispatch picked => exact List.forall_mem_cons.mpr ⟨hop _ _ _ first, ih⟩
      | interrupt | store => exact ih

theorem step_runnable {sched : Kernel → Kernel → Prop} {m m' : Machine} {label : Label} {pid : Nat}
    (picks : ∀ k', m = .scheduling m.kernel → sched m.kernel k' → m.kernel.Picks k')
    (step : Step sched m label m') (after : m'.kernel.Runnable pid) : m.kernel.Runnable pid := by
  cases step with
  | interrupt k reg =>
      unfold Kernel.Runnable at after ⊢
      rw [interrupt_state] at after
      split at after
      · cases after
      · exact after
  | dispatch picked =>
      obtain ⟨chosen, -, -, times, rngs, rfl⟩ := picks _ rfl picked
      exact after
  | store => exact after

theorem step_runnable_iff {sched : Kernel → Kernel → Prop} {m m' : Machine} {label : Label}
    {pid : Nat} (picks : ∀ k', m = .scheduling m.kernel → sched m.kernel k' → m.kernel.Picks k')
    (step : Step sched m label m') (stays : ¬ label.isExit) :
    m'.kernel.Runnable pid ↔ m.kernel.Runnable pid := by
  refine ⟨step_runnable picks step, fun before => ?_⟩
  cases step with
  | interrupt k reg =>
      unfold Kernel.Runnable at before ⊢
      rwa [interrupt_state, if_neg fun both => stays both.2]
  | dispatch picked =>
      obtain ⟨chosen, -, -, times, rngs, rfl⟩ := picks _ rfl picked
      exact before
  | store => exact before

def TableStep (algorithm : Int) (m : Machine) (label : Label) (m' : Machine) : Prop :=
  Step Kernel.Schedules m label m' ∧ m.WellFormed ∧ m.kernel.schedulingAlgorithm = algorithm

theorem TableStep.runnable {algorithm : Int} (tested : algorithm ≠ 1) {m m' : Machine}
    {label : Label} {pid : Nat} (step : TableStep algorithm m label m')
    (after : m'.kernel.Runnable pid) : m.kernel.Runnable pid :=
  step_runnable (fun _ _ => Kernel.schedules_picks step.2.1.1 (step.2.2.symm ▸ tested)) step.1 after

theorem tableSteps {algorithm : Int} (tested : algorithm ≠ 1) {m last : Machine}
    {trace : List (Label × Machine)} (run : Trace.Run (Step Kernel.Schedules) m trace last)
    (table : m.WellFormed) (same : m.kernel.schedulingAlgorithm = algorithm) :
    Trace.Run (TableStep algorithm) m trace last := by
  have kept : ∀ a l b, (a.WellFormed ∧ a.kernel.schedulingAlgorithm = algorithm) →
      Step Kernel.Schedules a l b → b.WellFormed ∧ b.kernel.schedulingAlgorithm = algorithm := by
    rintro a l b ⟨table, same⟩ step
    exact step_kept tested table same step
  exact run.along _ ⟨table, same⟩ (run.always _ ⟨table, same⟩ kept)

def Undisturbed {α : Type} (view : Kernel → α) (m : Machine) (label : Label) (m' : Machine) :
    Prop :=
  Step Kernel.Schedules m label m' ∧ ¬ label.isExit ∧ view m'.kernel = view m.kernel

theorem Undisturbed.runnable {α : Type} {view : Kernel → α} {m m' : Machine} {label : Label}
    (table : m.WellFormed) (tested : m.kernel.schedulingAlgorithm ≠ 1)
    (step : Undisturbed view m label m') (pid : Nat) :
    m'.kernel.Runnable pid ↔ m.kernel.Runnable pid :=
  step_runnable_iff (fun _ _ => Kernel.schedules_picks table.1 tested) step.1 step.2.1

end SchedOS
