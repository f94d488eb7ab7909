import SchedOS.Kernel.Interrupt

set_option autoImplicit false

namespace SchedOS

namespace Kernel

/-- Slot 0 is never used, an entry knows its own number, a process runs or has exited, and
tickets are held by processes. -/
structure WellFormed (k : Kernel) : Prop where
  unused : (k.procArray 0).pState = .empty
  pids : ∀ pid, pid < nprocs → (k.procArray pid).pPid = pid
  states : ∀ pid, 1 ≤ pid → pid < nprocs → k.Runnable pid ∨ (k.procArray pid).pState = .zombie
  holders : ∀ ticket, ticket < k.numTickets → 1 ≤ k.tickets ticket ∧ k.tickets ticket < nprocs
  current : 1 ≤ k.current ∧ k.current < nprocs

theorem WellFormed.positive {k : Kernel} (table : k.WellFormed) {pid : Nat}
    (runnable : k.Runnable pid) : 1 ≤ pid := by
  rcases Nat.eq_zero_or_pos pid with rfl | positive
  · simp [Runnable, table.unused] at runnable
  · exact positive

theorem WellFormed.pid {k : Kernel} (table : k.WellFormed) :
    (k.procArray k.current).pPid = k.current :=
  table.pids k.current table.current.2

def SomeRunnable (k : Kernel) : Prop := ∃ pid, 1 ≤ pid ∧ pid ≤ 4 ∧ k.Runnable pid

theorem WellFormed.someRunnable {k : Kernel} (table : k.WellFormed) :
    k.SomeRunnable ↔ ∃ pid, pid < nprocs ∧ k.Runnable pid := by
  constructor
  · rintro ⟨pid, -, high, runnable⟩
    exact ⟨pid, Nat.lt_succ_of_le high, runnable⟩
  · rintro ⟨pid, bound, runnable⟩
    exact ⟨pid, table.positive runnable, Nat.le_of_lt_succ bound, runnable⟩

def retimed (k : Kernel) (times : Nat → Int) (rngs : Rngs) : Kernel :=
  { k with
    procArray := fun pid => { k.procArray pid with pTimePassed := times pid }
    rngs := rngs }

def times (k : Kernel) (pid : Nat) : Int := (k.procArray pid).pTimePassed

theorem setTimePassed_retimed (k : Kernel) (times : Nat → Int) (rngs : Rngs) (pid : Nat)
    (time : Int) : (k.retimed times rngs).setTimePassed pid time =
      k.retimed (Function.update times pid time) rngs := by
  simp only [setTimePassed, setProc, retimed, Kernel.mk.injEq, and_true]
  funext other
  by_cases same : other = pid
  · subst same; simp
  · simp [Function.update_of_ne same]

def Picks (k k' : Kernel) : Prop :=
  ∃ pid, pid < nprocs ∧ k.Runnable pid ∧ ∃ times rngs, k' = (k.retimed times rngs).run pid

theorem WellFormed.picks {k k' : Kernel} (table : k.WellFormed) (picked : k.Picks k') :
    k'.WellFormed ∧ k'.Runnable k'.current := by
  obtain ⟨pid, bound, runnable, times, rngs, rfl⟩ := picked
  refine ⟨⟨table.unused, table.pids, table.states, table.holders, ?_⟩, runnable⟩
  exact ⟨table.positive runnable, bound⟩

/-- The comment of `schedule()` for one call: it ends while a process is runnable, and runs one. -/
structure WorkConserving (k : Kernel) : Prop where
  ends : k.SomeRunnable → ∃ k', k.Schedules k'
  runnable : ∀ k', k.Schedules k' → k.Runnable k'.current

section Picks

variable {k k' : Kernel}

theorem roundRobin_picks {pid : Nat} (left : Loop.Leaves k.roundRobinPass pid k') : k.Picks k' := by
  refine left.post (fun _ => True) k.Picks trivial (fun _ _ _ _ => trivial) ?_
  intro pid final _ pass
  unfold roundRobinPass at pass
  split at pass
  · next runnable =>
      cases pass
      exact ⟨_, Nat.mod_lt _ (by decide), runnable, k.times, k.rngs, rfl⟩
  · cases pass

theorem priority_picks {pid : Nat} (left : Loop.Leaves k.priorityPass (pid, intMax) k') :
    k.Picks k' := by
  refine left.post (fun _ => True) k.Picks trivial (fun _ _ _ _ => trivial) ?_
  rintro ⟨pid, lowest⟩ final - pass
  simp only [priorityPass] at pass
  split at pass
  · next chosen =>
      cases pass
      exact ⟨_, Nat.mod_lt _ (by decide), chosen.2, k.times, k.rngs, rfl⟩
  · cases pass

theorem share_picks {pid : Nat} (bound : pid < nprocs)
    (left : Loop.Leaves sharePass (k, pid) k') : k.Picks k' := by
  -- The scan changes nothing but time counters on its way.
  let scanned := fun s : Kernel × Nat => s.2 < nprocs ∧ ∃ times, s.1 = k.retimed times k.rngs
  refine left.post scanned k.Picks ⟨bound, k.times, rfl⟩ ?_ ?_
  · rintro ⟨_, pid⟩ next ⟨-, times, rfl⟩ pass
    have wrapped : (pid + 1) % nprocs < nprocs := Nat.mod_lt _ (by decide)
    simp only [sharePass, setTimePassed_retimed] at pass
    split at pass
    · split at pass
      · cases pass; exact ⟨wrapped, _, rfl⟩
      · cases pass
    · cases pass; exact ⟨wrapped, times, rfl⟩
  · rintro ⟨_, pid⟩ final ⟨bound, times, rfl⟩ pass
    simp only [sharePass, setTimePassed_retimed] at pass
    split at pass
    · next runnable =>
        split at pass
        · cases pass
        · cases pass; exact ⟨pid, bound, runnable, _, _, rfl⟩
    · cases pass

theorem winnerIndex_bound {r : Rat} (sold : 0 < k.numTickets) :
    (k.winnerIndex r).toNat < k.numTickets := by
  have := Int.tmod_lt_of_pos (truncate (r * 10000)) (show (0 : Int) < k.numTickets by omega)
  unfold winnerIndex
  omega

def winner (k : Kernel) (rngs : Rngs) : Nat := k.tickets (k.winnerIndex rngs.random.1).toNat

theorem winner_bound (table : k.WellFormed) (sold : 0 < k.numTickets) (rngs : Rngs) :
    k.winner rngs < nprocs :=
  (table.holders _ (winnerIndex_bound sold)).2

theorem lottery_again {times : Nat → Int} {rngs : Rngs} (lost : ¬ k.Runnable (k.winner rngs)) :
    lotteryPass (k.retimed times rngs) = .again (k.retimed times rngs.random.2) :=
  if_pos lost

theorem lottery_leave {times : Nat → Int} {rngs : Rngs} (won : k.Runnable (k.winner rngs)) :
    lotteryPass (k.retimed times rngs) =
      .leave ((k.retimed times rngs.random.2).run (k.winner rngs)) :=
  if_neg (not_not.mpr won)

theorem lottery_picks (table : k.WellFormed) (sold : 0 < k.numTickets)
    (left : Loop.Leaves lotteryPass k k') : k.Picks k' := by
  let drawing := fun s : Kernel => ∃ rngs, s = k.retimed k.times rngs
  refine left.post drawing k.Picks ⟨k.rngs, rfl⟩ ?_ ?_
  · rintro _ next ⟨rngs, rfl⟩ pass
    by_cases won : k.Runnable (k.winner rngs)
    · rw [lottery_leave won] at pass; cases pass
    · rw [lottery_again won] at pass; cases pass; exact ⟨_, rfl⟩
  · rintro _ final ⟨rngs, rfl⟩ pass
    by_cases won : k.Runnable (k.winner rngs)
    · rw [lottery_leave won] at pass
      cases pass
      exact ⟨_, winner_bound table sold rngs, won, k.times, _, rfl⟩
    · rw [lottery_again won] at pass; cases pass

theorem schedules_picks (table : k.WellFormed) (algorithm : k.schedulingAlgorithm ≠ 1)
    (ended : k.Schedules k') : k.Picks k' := by
  obtain ⟨fuel, ended⟩ := ended
  simp only [schedule, algorithm, if_false, table.pid] at ended
  split at ended
  · exact roundRobin_picks ⟨fuel, ended⟩
  · split at ended
    · exact priority_picks ⟨fuel, ended⟩
    · split at ended
      · exact share_picks table.current.2 ⟨fuel, ended⟩
      · split at ended
        · split at ended
          · exact roundRobin_picks ⟨fuel, ended⟩
          · next few => exact lottery_picks table (by simp [nprocs] at few; omega) ⟨fuel, ended⟩
        · cases ended

theorem workConserving_iff (table : k.WellFormed) (algorithm : k.schedulingAlgorithm ≠ 1) :
    k.WorkConserving ↔ (k.SomeRunnable → ∃ k', k.Schedules k') := by
  refine ⟨WorkConserving.ends, fun ends => ⟨ends, fun k' picked => ?_⟩⟩
  obtain ⟨pid, -, runnable, _, _, rfl⟩ := schedules_picks table algorithm picked
  exact runnable

end Picks

end Kernel

def Machine.WellFormed (m : Machine) : Prop :=
  m.kernel.WellFormed ∧ ∀ k, m = .user k → k.Runnable k.current

theorem interrupt_wellFormed (reg : Registers) {k : Kernel} (table : k.WellFormed)
    (runnable : k.Runnable k.current) : (interrupt reg k).WellFormed := by
  refine ⟨⟨?_, ?_, ?_, ?_, ?_⟩, ?_⟩
  · rw [interrupt_state, if_neg (by have := table.current.1; omega)]
    exact table.unused
  · intro pid bound
    by_cases same : pid = k.current
    · subst same; rw [interrupt_proc_current, served_pid]; exact table.pids _ bound
    · rw [interrupt_proc_other _ _ same]; exact table.pids pid bound
  · intro pid low high
    unfold Kernel.Runnable
    rw [interrupt_state]
    split
    · exact .inr rfl
    · exact table.states pid low high
  · intro ticket sold
    obtain ⟨number, holder⟩ := interrupt_tickets reg k
    rw [number] at sold
    rw [holder]
    by_cases sells : reg.service = .user4 ∧ k.numTickets < maxTickets
    · rw [if_pos sells] at sold ⊢
      by_cases last : ticket = k.numTickets
      · subst last
        rw [Function.update_self, table.pid]
        exact table.current
      · rw [Function.update_of_ne last]
        exact table.holders ticket (by omega)
    · rw [if_neg sells] at sold ⊢
      exact table.holders ticket sold
  · rw [interrupt_current]
    exact table.current
  · intro k' entered
    have kept := interrupt_user reg k entered
    have current : k'.current = k.current := by
      rw [← interrupt_current reg k, entered]; rfl
    have := interrupt_state reg k k.current
    rw [if_neg (fun both => kept both.2), entered] at this
    unfold Kernel.Runnable
    rw [current]
    exact this.trans runnable

theorem start_wellFormed (boot : Boot) : (start boot).WellFormed := by
  refine ⟨⟨rfl, ?_, ?_, ?_, ⟨Nat.le_refl 1, (by decide : 1 < nprocs)⟩⟩, ?_⟩
  · intro pid bound
    rcases Nat.eq_zero_or_pos pid with rfl | positive
    · rfl
    · exact congrArg Process.pPid (boot.kernel_proc positive bound)
  · intro pid low high
    exact .inl (congrArg Process.pState (boot.kernel_proc low high))
  · intro ticket sold
    exact absurd sold (Nat.not_lt_zero _)
  · rintro k ⟨⟩
    exact congrArg Process.pState (boot.kernel_proc (i := 1) (by decide) (by decide))

theorem step_wellFormed {sched : Kernel → Kernel → Prop} {m m' : Machine} {label : Label}
    (picks : ∀ k', m = .scheduling m.kernel → sched m.kernel k' → m.kernel.Picks k')
    (before : m.WellFormed) (step : Step sched m label m') : m'.WellFormed := by
  cases step with
  | interrupt k reg => exact interrupt_wellFormed reg before.1 (before.2 k rfl)
  | dispatch picked =>
      obtain ⟨table, runnable⟩ := before.1.picks (picks _ rfl picked)
      exact ⟨table, by rintro k ⟨⟩; exact runnable⟩
  | store k cursorpos lock cells =>
      refine ⟨⟨before.1.unused, before.1.pids, before.1.states, before.1.holders,
        before.1.current⟩, ?_⟩
      rintro _ ⟨⟩
      exact before.2 k rfl

theorem ne_strict {algorithm : Int} (tests : algorithm ∈ [0, 2, 3, 4]) : algorithm ≠ 1 := by
  rintro rfl
  exact absurd tests (by decide)

theorem step_kept {algorithm : Int} (tested : algorithm ≠ 1) {m m' : Machine} {label : Label}
    (table : m.WellFormed) (same : m.kernel.schedulingAlgorithm = algorithm)
    (step : Step Kernel.Schedules m label m') :
    m'.WellFormed ∧ m'.kernel.schedulingAlgorithm = algorithm := by
  have picks (k' : Kernel) (picked : m.kernel.Schedules k') : m.kernel.Picks k' :=
    Kernel.schedules_picks table.1 (same ▸ tested) picked
  refine ⟨step_wellFormed (fun k' _ => picks k') table step, ?_⟩
  cases step with
  | interrupt k reg => exact (interrupt_algorithm reg k).trans same
  | dispatch picked =>
      obtain ⟨pid, -, -, times, rngs, rfl⟩ := picks _ picked
      exact same
  | store => exact same

theorem runs_wellFormed {boot : Boot} (algorithm : boot.schedulingAlgorithm ≠ 1)
    {trace : List (Label × Machine)} {last : Machine} (run : Runs boot trace last) :
    last.WellFormed ∧ last.kernel.schedulingAlgorithm = boot.schedulingAlgorithm :=
  run.invariant (fun m => m.WellFormed ∧
    m.kernel.schedulingAlgorithm = boot.schedulingAlgorithm) ⟨start_wellFormed boot, rfl⟩
    fun _ _ _ before step => step_kept algorithm before.1 before.2 step

end SchedOS
