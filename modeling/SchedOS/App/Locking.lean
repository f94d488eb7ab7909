import SchedOS.App.Program
import SchedOS.Shared.Reach

set_option autoImplicit false

namespace SchedOS

namespace App

def Thread.Valid (build : Build) (t : Thread) : Prop :=
  match t.pc with
  | .setPriority | .setShare | .getTicket => t.i = 0
  | .print => t.i < build.runcount ∧ build.syncMethod = 2
  | .exit | .stop => t.i = build.runcount
  | _ => t.i < build.runcount ∧ build.syncMethod = 1

def Build.Synchronized (build : Build) : Prop := build.syncMethod = 1 ∨ build.syncMethod = 2

section Thread

variable {build : Build} {app : Macros} {k k' : Kernel} {t t' : Thread} {reg : Registers}

theorem head_cases (sync : build.Synchronized) {i : Nat} (most : i ≤ build.runcount) :
    (build.head i = .acquire ∧ i < build.runcount ∧ build.syncMethod = 1) ∨
    (build.head i = .print ∧ i < build.runcount ∧ build.syncMethod = 2) ∨
    (build.head i = .exit ∧ i = build.runcount) := by
  unfold Build.head
  rcases Nat.lt_or_ge i build.runcount with less | done
  · rcases sync with locks | calls
    · exact .inl ⟨by simp [less, locks], less, locks⟩
    · exact .inr (.inl ⟨by simp [less, calls], less, calls⟩)
  · exact .inr (.inr ⟨if_neg (Nat.not_lt.mpr done), Nat.le_antisymm most done⟩)

theorem enter_valid (sync : build.Synchronized) {i : Nat} (most : i ≤ build.runcount) :
    (t.enter build i).Valid build := by
  rcases head_cases sync most with ⟨head, rest⟩ | ⟨head, rest⟩ | ⟨head, rest⟩ <;>
    simpa [Thread.Valid, Thread.enter, head] using rest

theorem requests_outside (requests : Requests app t.pc reg) : ¬ t.pc.Critical := by
  rcases requests.cases with ⟨here, -⟩ | ⟨here, -⟩ | ⟨here, -⟩ | ⟨here, -⟩ |
    ⟨here, -⟩ | ⟨here, -⟩ <;> rw [here] <;> decide

theorem head_outside (build : Build) (i : Nat) : ¬ (build.head i).Critical := by
  unfold Build.head
  split_ifs <;> decide

theorem resume_outside (build : Build) (requests : Requests app t.pc reg) :
    ¬ (t.resume build).pc.Critical := by
  have outside := requests_outside requests
  cases here : t.pc <;> simp only [here, Thread.resume, Thread.enter] at outside ⊢ <;>
    first | exact head_outside build _ | exact outside | decide

theorem resume_valid (sync : build.Synchronized) (valid : t.Valid build) :
    (t.resume build).Valid build := by
  unfold Thread.Valid at valid
  cases here : t.pc <;> simp only [here] at valid
  case setPriority | setShare | exit => simpa [Thread.resume, here, Thread.Valid] using valid
  case getTicket =>
    simp only [Thread.resume, here]
    exact enter_valid sync (Nat.zero_le _)
  case yield | print =>
    simp only [Thread.resume, here]
    exact enter_valid sync valid.1
  all_goals simpa [Thread.resume, here, Thread.Valid] using valid

theorem access_valid (acts : Access app k t k' t') (valid : t.Valid build) : t'.Valid build := by
  cases acts with
  | acquire here =>
      unfold Thread.Valid at valid ⊢
      split_ifs <;> simpa [here] using valid
  | load here | charFirst here | cursorLast here | cursorFirst here | charLast here
  | release here => simpa [Thread.Valid, here] using valid

end Thread

/-- Who is in the critical section, and what the lock says about it. -/
inductive Locked (s : System) : Prop where
  | free (lock : s.machine.kernel.lock = 0) (outside : ∀ pid, ¬ (s.thread pid).pc.Critical)
  | held (holder : Nat) (bound : 1 ≤ holder ∧ holder < nprocs) (lock : s.machine.kernel.lock = 1)
      (inside : (s.thread holder).pc.Critical)
      (others : ∀ pid, pid ≠ holder → ¬ (s.thread pid).pc.Critical)

structure AppState (build : Build) (boot : Boot) (s : System) : Prop where
  table : s.machine.WellFormed
  algorithm : s.machine.kernel.schedulingAlgorithm = boot.schedulingAlgorithm
  valid : ∀ pid, (s.thread pid).Valid build
  stopped : ∀ pid, 1 ≤ pid → pid < nprocs →
    ((s.thread pid).pc = .stop ↔ ¬ s.machine.kernel.Runnable pid)
  lock : Locked s

def Safe (boot : Boot) (sched : Kernel → Kernel → Prop) : Prop :=
  ∀ k k', k.WellFormed → k.schedulingAlgorithm = boot.schedulingAlgorithm → sched k k' → k.Picks k'

section Step

variable {build : Build} {boot : Boot} {s s' : System} {k k' : Kernel} {thread : Nat → Thread}
  {t : Thread} {reg : Registers}

theorem Locked.holder_of (locked : Locked s) (pid : Nat) (inside : (s.thread pid).pc.Critical) :
    s.machine.kernel.lock = 1 ∧ ∀ other, other ≠ pid → ¬ (s.thread other).pc.Critical := by
  cases locked with
  | free _ outside => exact absurd inside (outside pid)
  | held holder _ lock _ others =>
      by_cases same : pid = holder
      · exact same ▸ ⟨lock, others⟩
      · exact absurd inside (others pid same)

theorem Locked.unlocked (locked : Locked s) (zero : s.machine.kernel.lock = 0) (pid : Nat) :
    ¬ (s.thread pid).pc.Critical := by
  intro inside
  have one := (locked.holder_of pid inside).1
  exact absurd (zero.symm.trans one) (by decide)

theorem Locked.transfer {before m : Machine} (locked : Locked ⟨before, thread⟩)
    (lock : m.kernel.lock = before.kernel.lock) : Locked ⟨m, thread⟩ := by
  cases locked with
  | free zero outside => exact .free (lock.trans zero) outside
  | held holder bound one inside others => exact .held holder bound (lock.trans one) inside others

theorem Locked.outside (locked : Locked ⟨.user k, thread⟩) {m : Machine}
    (lock : m.kernel.lock = k.lock) {pid : Nat} (before : ¬ (thread pid).pc.Critical)
    (after : ¬ t.pc.Critical) : Locked ⟨m, Function.update thread pid t⟩ := by
  have moved (other : Nat) : (Function.update thread pid t other).pc.Critical ↔
      (thread other).pc.Critical := by
    by_cases same : other = pid
    · subst same
      simp [before, after]
    · rw [Function.update_of_ne same]
  cases locked with
  | free zero outside =>
      exact .free (lock.trans zero) fun other => mt (moved other).mp (outside other)
  | held holder bound one inside others =>
      exact .held holder bound (lock.trans one) ((moved holder).mpr inside)
        fun other away => mt (moved other).mp (others other away)

theorem Locked.inside (locked : Locked ⟨.user k, thread⟩)
    (bound : 1 ≤ k.current ∧ k.current < nprocs) (lock : k'.lock = k.lock)
    (before : (thread k.current).pc.Critical) (after : t.pc.Critical) :
    Locked ⟨.user k', Function.update thread k.current t⟩ := by
  obtain ⟨one, others⟩ := locked.holder_of _ before
  refine .held k.current bound (lock.trans one) ?_ fun other away => ?_
  · simpa using after
  · simpa [Function.update_of_ne away] using others other away

theorem Locked.access (locked : Locked ⟨.user k, thread⟩)
    (bound : 1 ≤ k.current ∧ k.current < nprocs)
    (acts : Access (macros k.current) k (thread k.current) k' t) :
    Locked ⟨.user k', Function.update thread k.current t⟩ := by
  cases acts with
  | acquire here =>
      have before : ¬ (thread k.current).pc.Critical := by rw [here]; decide
      by_cases taken : k.lock ≠ 0
      · -- The lock has been 1, and `atomic_swap` leaves it so.
        have one : k.lock = 1 := by
          cases locked with
          | free lock _ => exact absurd lock taken
          | held _ _ lock _ _ => exact lock
        have waits : ¬ (if k.lock ≠ 0 then Pc.acquire else .load).Critical := by
          rw [if_pos taken]; decide
        exact locked.outside (m := .user { k with lock := 1 }) one.symm before waits
      · refine .held k.current bound rfl ?_ fun other away => ?_
        · have enters : (if k.lock ≠ 0 then Pc.acquire else .load).Critical := by
            rw [if_neg taken]; decide
          simpa using enters
        · simpa [Function.update_of_ne away] using locked.unlocked (not_not.mp taken) other
  | load here =>
      exact locked.inside bound rfl (by rw [here]; decide) (show Pc.store.Critical by decide)
  | charFirst here =>
      exact locked.inside bound rfl (by rw [here]; decide) (show Pc.storeCursor.Critical by decide)
  | cursorLast here =>
      exact locked.inside bound rfl (by rw [here]; decide) (show Pc.release.Critical by decide)
  | cursorFirst here =>
      exact locked.inside bound rfl (by rw [here]; decide) (show Pc.storeChar.Critical by decide)
  | charLast here =>
      exact locked.inside bound rfl (by rw [here]; decide) (show Pc.release.Critical by decide)
  | release here =>
      obtain ⟨-, others⟩ := locked.holder_of k.current (by simp only [here]; decide)
      refine .free rfl fun other => ?_
      by_cases same : other = k.current
      · subst same
        simp [Pc.Critical]
      · simpa [Function.update_of_ne same] using others other same

theorem Locked.step {sched : Kernel → Kernel → Prop} (locked : Locked s)
    (table : s.machine.WellFormed)
    (picks : ∀ k k', s.machine = .scheduling k → sched k k' → k.Picks k')
    (step : Step build sched s s') : Locked s' := by
  obtain ⟨_, step⟩ := step
  cases step with
  | access acts => exact locked.access table.1.current acts
  | call requests =>
      exact locked.outside (interrupt_lock _ _) (requests_outside requests)
        (resume_outside build requests)
  | clock tick => exact locked.transfer (interrupt_lock _ _)
  | dispatch picked =>
      obtain ⟨pid, -, -, times, rngs, rfl⟩ := picks _ _ rfl picked
      exact locked.transfer rfl

theorem resume_stop {app : Macros} (requests : Requests app t.pc reg) :
    (t.resume build).pc = .stop ↔ reg.service = .exit := by
  have head (i : Nat) : build.head i ≠ .stop := by
    unfold Build.head
    split_ifs <;> decide
  rcases requests.cases with ⟨here, kind⟩ | ⟨here, kind⟩ | ⟨here, kind⟩ | ⟨here, kind⟩ |
    ⟨here, kind⟩ | ⟨here, kind⟩ <;>
    simp [Thread.resume, Thread.enter, here, head, kind]

theorem access_stop {app : Macros} {t' : Thread} (acts : Access app k t k' t') :
    t'.pc ≠ .stop := by
  cases acts with
  | acquire => split_ifs <;> simp
  | load | charFirst | cursorLast | cursorFirst | charLast | release => simp

theorem AppState.access_stopped (before : AppState build boot ⟨.user k, thread⟩)
    (acts : Access (macros k.current) k (thread k.current) k' t) :
    ∀ pid, 1 ≤ pid → pid < nprocs →
      ((Function.update thread k.current t pid).pc = .stop ↔ ¬ k'.Runnable pid) := by
  intro pid low high
  have same : k'.Runnable pid ↔ k.Runnable pid := by rw [access_store acts]; rfl
  rw [same]
  by_cases here : pid = k.current
  · subst here
    have runnable : k.Runnable k.current := before.table.2 k rfl
    simpa [runnable] using access_stop acts
  · rw [Function.update_of_ne here]
    exact before.stopped pid low high

theorem AppState.call_stopped (before : AppState build boot ⟨.user k, thread⟩)
    (requests : Requests (macros k.current) (thread k.current).pc reg) :
    ∀ pid, 1 ≤ pid → pid < nprocs →
      ((Function.update thread k.current ((thread k.current).resume build) pid).pc = .stop ↔
        ¬ (interrupt reg k).kernel.Runnable pid) := by
  intro pid low high
  unfold Kernel.Runnable
  rw [interrupt_state]
  by_cases here : pid = k.current
  · subst here
    have runnable : k.Runnable k.current := before.table.2 k rfl
    have state : (k.procArray k.current).pState = .runnable := runnable
    rw [Function.update_self, resume_stop requests]
    by_cases exits : reg.service = .exit <;> simp [exits, state]
  · rw [Function.update_of_ne here, if_neg fun both => here both.1]
    exact before.stopped pid low high

theorem AppState.step {sched : Kernel → Kernel → Prop} (safe : Safe boot sched)
    (sync : build.Synchronized) (before : AppState build boot s)
    (step : Step build sched s s') : AppState build boot s' := by
  have picks : ∀ k k', s.machine = .scheduling k → sched k k' → k.Picks k' := by
    intro k k' entered picked
    have table := before.table.1
    have algorithm := before.algorithm
    rw [entered] at table algorithm
    exact safe k k' table algorithm picked
  obtain ⟨label, moved⟩ := step_machine step
  refine ⟨step_wellFormed (fun k' entered => picks _ k' entered) before.table moved, ?_, ?_, ?_,
    before.lock.step before.table picks step⟩
  · rw [← before.algorithm]
    obtain ⟨_, step⟩ := step
    cases step with
    | access acts => rw [access_store acts]; rfl
    | call | clock => exact interrupt_algorithm _ _
    | dispatch picked =>
        obtain ⟨pid, -, -, times, rngs, rfl⟩ := picks _ _ rfl picked
        rfl
  · have valid := before.valid
    obtain ⟨_, step⟩ := step
    cases step with
    | @access k _ thread _ acts =>
        apply (Function.forall_update_iff thread fun _ t => t.Valid build).mpr
        exact ⟨access_valid acts (valid k.current), fun pid _ => valid pid⟩
    | @call k thread reg requests =>
        apply (Function.forall_update_iff thread fun _ t => t.Valid build).mpr
        exact ⟨resume_valid sync (valid k.current), fun pid _ => valid pid⟩
    | clock | dispatch => exact valid
  · obtain ⟨_, step⟩ := step
    cases step with
    | access acts => exact before.access_stopped acts
    | call requests => exact before.call_stopped requests
    | @clock k thread reg tick =>
        intro pid low high
        have kept : reg.service ≠ .exit := by simp [tick_service tick]
        unfold Kernel.Runnable
        rw [interrupt_state, if_neg fun both => kept both.2]
        exact before.stopped pid low high
    | dispatch picked =>
        obtain ⟨pid, -, -, times, rngs, rfl⟩ := picks _ _ rfl picked
        exact before.stopped

theorem init_appState (build : Build) (boot : Boot) : AppState build boot (init boot) := by
  refine ⟨start_wellFormed boot, rfl, fun _ => rfl, fun pid low high => ?_,
    .free rfl fun _ => show ¬ Pc.setPriority.Critical by decide⟩
  have runnable : (start boot).kernel.Runnable pid :=
    congrArg Process.pState (boot.kernel_proc low high)
  exact iff_of_false (show Pc.setPriority ≠ .stop by decide) (not_not.mpr runnable)

theorem reaches_appState {sched : Kernel → Kernel → Prop} (safe : Safe boot sched)
    (sync : build.Synchronized) (reaches : Reaches build sched (init boot) s) :
    AppState build boot s :=
  Reach.invariant reaches (AppState build boot) (init_appState build boot) fun _ _ before step =>
    before.step safe sync step

end Step

section Runs

variable {build : Build} {sched : Kernel → Kernel → Prop} {k : Kernel} {thread : Nat → Thread}

theorem releases_after {k' : Kernel} {t : Thread}
    (acts : Access (macros k.current) k (thread k.current) k' t)
    (rest : ∃ s, Reaches build sched ⟨.user k', Function.update thread k.current t⟩ s ∧
      s.machine.kernel.lock = 0) :
    ∃ s, Reaches build sched ⟨.user k, thread⟩ s ∧ s.machine.kernel.lock = 0 := by
  obtain ⟨s, reaches, free⟩ := rest
  exact ⟨s, .head (.access acts) reaches, free⟩

theorem inside_releases (inside : (thread k.current).pc.Critical) :
    ∃ s, Reaches build sched ⟨.user k, thread⟩ s ∧ s.machine.kernel.lock = 0 := by
  have release (k : Kernel) (thread : Nat → Thread) (here : (thread k.current).pc = .release) :
      ∃ s, Reaches build sched ⟨.user k, thread⟩ s ∧ s.machine.kernel.lock = 0 :=
    ⟨_, .single (.access (.release here)), rfl⟩
  have second (k : Kernel) (thread : Nat → Thread) (here : (thread k.current).pc = .storeCursor) :
      ∃ s, Reaches build sched ⟨.user k, thread⟩ s ∧ s.machine.kernel.lock = 0 :=
    releases_after (.cursorLast here) (release _ _ (by simp))
  have first (k : Kernel) (thread : Nat → Thread) (here : (thread k.current).pc = .store) :
      ∃ s, Reaches build sched ⟨.user k, thread⟩ s ∧ s.machine.kernel.lock = 0 :=
    releases_after (.charFirst here) (second _ _ (by simp))
  cases here : (thread k.current).pc <;> rw [here] at inside
  case release => exact release k thread here
  case storeCursor => exact second k thread here
  case storeChar => exact releases_after (.charLast here) (release _ _ (by simp))
  case store => exact first k thread here
  case load => exact releases_after (.load here) (first _ _ (by simp))
  all_goals exact absurd inside (by decide)

theorem call_returns {p : Nat} {t : Thread} (current : k.current = p) {intno : BitVec 32}
    {eax : Option (BitVec 32)} (call : t.pc.call (macros p) = some (intno, eax))
    (returns : (trap intno (eax.getD 0)).service ∈ [Service.user1, .user2, .user3, .user4]) :
    ∃ k', Step build sched ⟨.user k, Function.update thread p t⟩
        ⟨.user k', Function.update thread p (t.resume build)⟩ ∧
      k'.current = p ∧ k'.lock = k.lock := by
  subst current
  have here : Function.update thread k.current t k.current = t := Function.update_self ..
  have step : Step build sched ⟨.user k, Function.update thread k.current t⟩ _ := .call
    (show Requests _ (Function.update thread k.current t k.current).pc _ from
      here.symm ▸ requests_trap call)
  rw [here, Function.update_idem, interrupt_returns _ _ returns] at step
  exact ⟨_, step, interrupt_current _ _, interrupt_lock _ _⟩

theorem first_acquires (locks : build.syncMethod = 1) (runs : 1 ≤ build.runcount) (boot : Boot) :
    ∃ k, Reaches build sched (init boot)
        ⟨.user k, Function.update (fun _ => .initial) 1 ⟨.load, 0, 0⟩⟩ ∧
      k.current = 1 ∧ k.lock = 1 := by
  let others : Nat → Thread := fun _ => .initial
  have begins : init boot =
      ⟨.user boot.kernel, Function.update others 1 ⟨.setPriority, 0, 0⟩⟩ := by
    rw [show (⟨.setPriority, 0, 0⟩ : Thread) = others 1 from rfl, Function.update_eq_self]
    rfl
  obtain ⟨k1, first, current1, lock1⟩ :=
    @call_returns build sched boot.kernel others 1 ⟨.setPriority, 0, 0⟩ rfl _ _ rfl (by decide)
  obtain ⟨k2, second, current2, lock2⟩ :=
    @call_returns build sched k1 others 1 ⟨.setShare, 0, 0⟩ current1 _ _ rfl (by decide)
  obtain ⟨k3, third, current3, lock3⟩ :=
    @call_returns build sched k2 others 1 ⟨.getTicket, 0, 0⟩ current2 _ _ rfl (by decide)
  have head : build.head 0 = .acquire := by
    simp [Build.head, locks, show 0 < build.runcount from runs]
  have entered : Thread.resume build ⟨.getTicket, 0, 0⟩ = ⟨.acquire, 0, 0⟩ := by
    simp [Thread.resume, Thread.enter, head]
  have zero : k3.lock = 0 := by rw [lock3, lock2, lock1, boot.kernel_lock]
  have here : Function.update others 1 ⟨.acquire, 0, 0⟩ k3.current = ⟨.acquire, 0, 0⟩ := by
    rw [current3, Function.update_self]
  have fourth : Step build sched ⟨.user k3, Function.update others 1 ⟨.acquire, 0, 0⟩⟩ _ :=
    .access (.acquire (by rw [here]))
  rw [here, current3, Function.update_idem, if_neg (not_not.mpr zero)] at fourth
  rw [begins]
  rw [entered] at third
  exact ⟨_, .head first (.head second (.head third (.single fourth))), rfl, rfl⟩

end Runs

end App

end SchedOS
