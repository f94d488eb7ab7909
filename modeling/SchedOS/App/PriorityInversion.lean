import SchedOS.App.Locking
import SchedOS.Kernel.Priority
import SchedOS.Shared.Reach

set_option autoImplicit false

namespace SchedOS

namespace App

def priority (pid : Nat) : Int := (macros pid).priority.toInt

-- The thread will still take the lock, or is waiting for it.
def Thread.Needs (build : Build) (t : Thread) : Prop :=
  match t.pc with
  | .setPriority | .setShare | .getTicket | .acquire => True
  | .yield => t.i + 1 < build.runcount
  | _ => False

theorem priority_bounds {pid : Nat} (low : 1 ≤ pid) (high : pid < nprocs) :
    1 ≤ priority pid ∧ priority pid ≤ intMax := by
  simp only [nprocs] at high
  interval_cases pid <;> decide

section Thread

variable {build : Build} {app : Macros} {k k' : Kernel} {t t' : Thread} {reg : Registers}

theorem head_needs (locks : build.syncMethod = 1) (t : Thread) (i : Nat) :
    (t.enter build i).Needs build ↔ i < build.runcount := by
  by_cases less : i < build.runcount
  · simp [Thread.Needs, Thread.enter, Build.head, less, locks]
  · simp [Thread.Needs, Thread.enter, Build.head, less]

theorem resume_needs (locks : build.syncMethod = 1) (runs : 1 ≤ build.runcount)
    (valid : t.Valid build) (requests : Requests app t.pc reg) :
    (t.resume build).Needs build ↔ t.Needs build := by
  have number := requests.number
  unfold Thread.Valid at valid
  cases here : t.pc <;> simp only [here] at valid number
  case setPriority | setShare | exit => simp [Thread.resume, Thread.Needs, here]
  case getTicket =>
    simp only [Thread.resume, here, head_needs locks]
    simp [Thread.Needs, here]
    omega
  case yield =>
    simp only [Thread.resume, here, head_needs locks]
    simp [Thread.Needs, here]
  case print => omega
  all_goals simp [Pc.call] at number

theorem requests_setPriority (build : Build) (requests : Requests app t.pc reg) :
    (reg.service = .user1 ↔ t.pc = .setPriority) ∧
      (t.pc = .setPriority → reg.regEax = app.priority) ∧ (t.resume build).pc ≠ .setPriority := by
  have head (i : Nat) : build.head i ≠ .setPriority := by
    unfold Build.head
    split_ifs <;> decide
  refine ⟨?_, fun here => requests.argument app.priority (by simp [here, Pc.call]), ?_⟩
  · rcases requests.cases with ⟨here, kind⟩ | ⟨here, kind⟩ | ⟨here, kind⟩ | ⟨here, kind⟩ |
      ⟨here, kind⟩ | ⟨here, kind⟩ <;> simp [here, kind]
  · rcases requests.cases with ⟨here, -⟩ | ⟨here, -⟩ | ⟨here, -⟩ | ⟨here, -⟩ |
      ⟨here, -⟩ | ⟨here, -⟩ <;> simp [Thread.resume, Thread.enter, here, head]

theorem access_setPriority (acts : Access app k t k' t') :
    t.pc ≠ .setPriority ∧ t'.pc ≠ .setPriority := by
  cases acts with
  | acquire here => split_ifs <;> simp [here]
  | load here | charFirst here | cursorLast here | cursorFirst here | charLast here
  | release here => simp [here]

end Thread

structure PriorityState (build : Build) (boot : Boot) (s : System) : Prop extends
    AppState build boot s where
  priorities : ∀ pid, 1 ≤ pid → pid < nprocs → s.machine.kernel.priorities pid =
    if (s.thread pid).pc = .setPriority then 1 else priority pid
  alive : ∀ k, s.machine ≠ .halted k

section Runs

variable {build : Build} {boot : Boot} {s s' : System} {k k' : Kernel} {thread : Nat → Thread}
  {t : Thread} {reg : Registers} {h q : Nat}

theorem requests_service {app : Macros} (requests : Requests app t.pc reg) :
    reg.service ∈ [Service.user1, .user2, .user3, .user4] ∨
      reg.service ∈ [Service.yield, .exit, .clock] := by
  rcases requests.cases with ⟨-, kind⟩ | ⟨-, kind⟩ | ⟨-, kind⟩ | ⟨-, kind⟩ |
    ⟨-, kind⟩ | ⟨-, kind⟩ <;> simp [kind]

theorem interrupt_alive
    (known : reg.service ∈ [Service.user1, .user2, .user3, .user4] ∨
      reg.service ∈ [Service.yield, .exit, .clock]) (halt : Kernel) :
    interrupt reg k ≠ .halted halt := by
  rcases known with returns | gives
  · rw [interrupt_returns reg k returns]; exact Machine.noConfusion
  · rw [interrupt_schedules reg k gives]; exact Machine.noConfusion

theorem safe_schedules (algorithm : boot.schedulingAlgorithm = 2) : Safe boot Kernel.Schedules := by
  intro k k' table same
  exact Kernel.schedules_picks table (by rw [same, algorithm]; decide)

theorem PriorityState.step (algorithm : boot.schedulingAlgorithm = 2) (sync : build.Synchronized)
    (before : PriorityState build boot s) (step : Step build Kernel.Schedules s s') :
    PriorityState build boot s' := by
  have safe := safe_schedules algorithm
  refine ⟨before.toAppState.step safe sync step, fun pid low high => ?_, fun halt => ?_⟩
  · have known := before.priorities pid low high
    obtain ⟨_, step⟩ := step
    cases step with
    | @access k k' thread t acts =>
        have same : k'.priorities pid = k.priorities pid := by rw [access_store acts]; rfl
        have kept := access_setPriority acts
        refine same.trans (known.trans ?_)
        by_cases here : pid = k.current
        · subst here
          simp [kept]
        · simp [Function.update_of_ne here]
    | @call k thread reg requests =>
        obtain ⟨sets, value, after⟩ := requests_setPriority build requests
        refine (interrupt_priority reg k pid).trans ?_
        by_cases here : pid = k.current
        · subst here
          simp only [Function.update_self, after, true_and, if_false]
          by_cases first : (thread k.current).pc = .setPriority
          · rw [if_pos (sets.mpr first), value first]; rfl
          · rw [if_neg (mt sets.mp first)]
            exact known.trans (if_neg first)
        · simp only [here, false_and, if_false, Function.update_of_ne here]
          exact known
    | @clock k thread reg tick =>
        refine (interrupt_priority reg k pid).trans ?_
        rw [if_neg (by simp [tick_service tick])]
        exact known
    | dispatch picked =>
        obtain ⟨chosen, -, -, times, rngs, rfl⟩ := safe _ _ before.table.1 before.algorithm picked
        exact known
  · obtain ⟨_, step⟩ := step
    cases step with
    | access | dispatch => exact Machine.noConfusion
    | call requests => exact interrupt_alive (requests_service requests) halt
    | clock tick => exact interrupt_alive (.inr (by simp [tick_service tick])) halt

theorem init_priorityState (build : Build) (boot : Boot) :
    PriorityState build boot (init boot) := by
  refine ⟨init_appState build boot, fun pid low high => ?_, fun halt => Machine.noConfusion⟩
  exact congrArg Process.pPriority (boot.kernel_proc low high)

theorem reaches_priorityState (algorithm : boot.schedulingAlgorithm = 2) (sync : build.Synchronized)
    (reaches : Reaches build Kernel.Schedules (init boot) s) : PriorityState build boot s :=
  Reach.invariant reaches (PriorityState build boot) (init_priorityState build boot)
    fun _ _ before step => before.step algorithm sync step

theorem PriorityState.fits (state : PriorityState build boot s) :
    s.machine.kernel.PrioritiesFit := by
  intro pid high ready
  have low := state.table.1.positive ready
  have most := (priority_bounds low high).2
  rw [state.priorities pid low high]
  split_ifs
  · exact (by decide : (1 : Int) ≤ intMax)
  · exact most

theorem PriorityState.schedules (state : PriorityState build boot ⟨.scheduling k, thread⟩)
    (algorithm : boot.schedulingAlgorithm = 2) : k.Schedules k' ↔
      ∃ pid, Rotation.IsNext nprocs k.MinimalPriority k.current pid ∧ k' = k.run pid :=
  Kernel.schedules_priority state.table.1 (state.algorithm.trans algorithm) state.fits

theorem PriorityState.needs (locks : build.syncMethod = 1) (runs : 1 ≤ build.runcount)
    (state : PriorityState build boot s) (taken : s.machine.kernel.lock = 1)
    (outside : ¬ (s.thread q).pc.Critical) (step : Step build Kernel.Schedules s s') :
    (s'.thread q).Needs build ↔ (s.thread q).Needs build := by
  obtain ⟨_, step⟩ := step
  cases step with
  | @access k k' thread t acts =>
      by_cases here : q = k.current
      · subst here
        cases acts with
        | acquire here =>
            have waits : k.lock ≠ 0 := by rw [show k.lock = 1 from taken]; decide
            simp only [Function.update_self, Thread.Needs, here, if_pos waits]
        | load here | charFirst here | cursorLast here | cursorFirst here | charLast here
        | release here => exact absurd (by simp only [here]; decide) outside
      · simp only [Function.update_of_ne here]
  | @call k thread reg requests =>
      by_cases here : q = k.current
      · subst here
        simp only [Function.update_self]
        exact resume_needs locks runs (state.valid k.current) requests
      · simp only [Function.update_of_ne here]
  | clock | dispatch => exact Iff.rfl

theorem PriorityState.runnable (state : PriorityState build boot s) (low : 1 ≤ q)
    (high : q < nprocs) (needs : (s.thread q).Needs build) : s.machine.kernel.Runnable q := by
  by_contra gone
  have stopped := (state.stopped q low high).mpr gone
  simp [Thread.Needs, stopped] at needs

structure Blocks (build : Build) (s : System) (h q : Nat) : Prop where
  low : 1 ≤ q
  high : q ≤ 4
  smaller : priority q < priority h
  needs : (s.thread q).Needs build

theorem Blocks.ne (blocks : Blocks build s h q) : q ≠ h := by
  rintro rfl
  exact absurd blocks.smaller (lt_irrefl _)

/-- The holder is not running, and some process keeps it from running. -/
structure Inverted (build : Build) (boot : Boot) (h : Nat) (s : System) : Prop where
  state : PriorityState build boot s
  inside : (s.thread h).pc.Critical
  away : ∀ k, s.machine = .user k → k.current ≠ h
  blocked : ∃ q, Blocks build s h q

theorem PriorityState.holder (state : PriorityState build boot s)
    (inside : (s.thread h).pc.Critical) :
    s.machine.kernel.lock = 1 ∧ 1 ≤ h ∧ h < nprocs := by
  cases state.lock with
  | free _ outside => exact absurd inside (outside h)
  | held holder bound lock _ others =>
      by_cases same : h = holder
      · exact same ▸ ⟨lock, bound⟩
      · exact absurd inside (others h same)

theorem PriorityState.holder_runnable (state : PriorityState build boot s)
    (inside : (s.thread h).pc.Critical) : s.machine.kernel.Runnable h := by
  obtain ⟨-, low, high⟩ := state.holder inside
  by_contra gone
  have stopped := (state.stopped h low high).mpr gone
  exact absurd inside (by rw [stopped]; decide)

theorem PriorityState.holder_priority (state : PriorityState build boot s)
    (inside : (s.thread h).pc.Critical) : s.machine.kernel.priorities h = priority h := by
  obtain ⟨-, low, high⟩ := state.holder inside
  have past : (s.thread h).pc ≠ .setPriority := by
    intro here
    rw [here] at inside
    exact absurd inside (by decide)
  exact (state.priorities h low high).trans (if_neg past)

theorem inside_kept (inside : (s.thread h).pc.Critical)
    (away : ∀ k, s.machine = .user k → k.current ≠ h)
    (step : Step build Kernel.Schedules s s') : (s'.thread h).pc.Critical := by
  obtain ⟨_, step⟩ := step
  cases step with
  | access acts =>
      simp only [Function.update_of_ne (away _ rfl).symm]
      exact inside
  | call requests =>
      simp only [Function.update_of_ne (away _ rfl).symm]
      exact inside
  | clock | dispatch => exact inside

theorem Blocks.priorities (state : PriorityState build boot s) (inside : (s.thread h).pc.Critical)
    (blocks : Blocks build s h q) :
    s.machine.kernel.priorities q < s.machine.kernel.priorities h := by
  have qHigh : q < nprocs := Nat.lt_succ_of_le blocks.high
  rw [state.priorities q blocks.low qHigh, state.holder_priority inside]
  have least := (priority_bounds blocks.low qHigh).1
  have smaller := blocks.smaller
  split_ifs <;> omega

theorem Inverted.step (algorithm : boot.schedulingAlgorithm = 2) (locks : build.syncMethod = 1)
    (runs : 1 ≤ build.runcount) (before : Inverted build boot h s)
    (step : Step build Kernel.Schedules s s') : Inverted build boot h s' := by
  obtain ⟨state, inside, away, q, blocks⟩ := before
  have taken := (state.holder inside).1
  have others := (state.lock.holder_of h inside).2
  have after := state.step algorithm (.inl locks) step
  have needs := (state.needs locks runs taken (others q blocks.ne) step).mpr blocks.needs
  refine ⟨after, inside_kept inside away step, ?_,
    q, blocks.low, blocks.high, blocks.smaller, needs⟩
  obtain ⟨_, step⟩ := step
  cases step with
  | @access k k' thread t acts =>
      rintro k1 ⟨⟩
      have same : k'.current = k.current := by rw [access_store acts]
      exact same ▸ away k rfl
  | @call k thread reg requests =>
      intro k1 entered
      have same := interrupt_current reg k
      rw [show interrupt reg k = .user k1 from entered] at same
      exact fun holder => away k rfl (same.symm.trans holder)
  | @clock k thread reg tick =>
      intro k1 entered
      have gives := interrupt_schedules reg k (by simp [tick_service tick])
      cases gives.symm.trans entered
  | @dispatch k k' thread picked =>
      rintro k1 ⟨⟩
      obtain ⟨chosen, next, rfl⟩ := (state.schedules algorithm).mp picked
      rintro rfl
      have least := next.stop.2 q (Nat.lt_succ_of_le blocks.high)
        (state.runnable blocks.low (Nat.lt_succ_of_le blocks.high) blocks.needs)
      exact absurd (blocks.priorities state inside) (not_lt.mpr least)

def Thread.work (build : Build) (t : Thread) : Nat :=
  match t.pc with
  | .setPriority => 3
  | .setShare => 2
  | .getTicket => 1
  | .yield => if t.i + 1 < build.runcount then 1 else 2
  | .exit => 1
  | _ => 0

def totalWork (build : Build) (thread : Nat → Thread) : Nat :=
  ∑ pid ∈ Finset.Ico 1 nprocs, (thread pid).work build

theorem enter_work (locks : build.syncMethod = 1) (t : Thread) (i : Nat) :
    (t.enter build i).work build = if i < build.runcount then 0 else 1 := by
  by_cases less : i < build.runcount
  · simp [Thread.work, Thread.enter, Build.head, less, locks]
  · simp [Thread.work, Thread.enter, Build.head, less]

theorem resume_work (locks : build.syncMethod = 1) (runs : 1 ≤ build.runcount)
    (works : 0 < t.work build) : (t.resume build).work build < t.work build := by
  cases here : t.pc <;> simp [Thread.work, here] at works
  case setPriority | setShare | exit => simp [Thread.resume, Thread.work, here]
  case getTicket =>
    simp only [Thread.resume, here, enter_work locks]
    rw [if_pos (by omega)]
    simp [Thread.work, here]
  case yield =>
    simp only [Thread.resume, here, enter_work locks]
    by_cases more : t.i + 1 < build.runcount <;> simp [Thread.work, here, more]

theorem work_call (works : 0 < t.work build) (app : Macros) :
    ∃ intno eax, t.pc.call app = some (intno, eax) := by
  cases here : t.pc <;> simp [Thread.work, here] at works <;> exact ⟨_, _, rfl⟩

theorem totalWork_update (thread : Nat → Thread) {pid : Nat} (low : 1 ≤ pid) (high : pid < nprocs)
    (less : t.work build < (thread pid).work build) :
    totalWork build (Function.update thread pid t) < totalWork build thread := by
  apply Finset.sum_lt_sum
  · intro other _
    by_cases here : other = pid
    · subst here
      rw [Function.update_self]
      exact less.le
    · rw [Function.update_of_ne here]
  · exact ⟨pid, Finset.mem_Ico.mpr ⟨low, high⟩, by rwa [Function.update_self]⟩

def rank (build : Build) (h : Nat) (s : System) : Nat :=
  match s.machine with
  -- A system call outweighs any distance on the table, which is at most 10.
  | .user k => 11 * totalWork build s.thread +
      if k.current = h ∨ 0 < (s.thread k.current).work build then 0
      else 2 * Rotation.gap nprocs k.current h + 2
  | .scheduling k => 11 * totalWork build s.thread + (2 * Rotation.gap nprocs k.current h + 1)
  | .halted _ => 0

theorem rank_le (build : Build) (h : Nat) (s : System) (bound : s.machine.kernel.current < nprocs) :
    rank build h s ≤ 11 * totalWork build s.thread + 10 := by
  have near := Rotation.gap_lt s.machine.kernel.current h bound
  obtain ⟨machine, thread⟩ := s
  simp only [nprocs] at near
  cases machine with
  | user k =>
      simp only [rank, Machine.kernel, nprocs] at near ⊢
      split_ifs <;> omega
  | scheduling k =>
      simp only [rank, Machine.kernel, nprocs] at near ⊢
      omega
  | halted k => exact Nat.zero_le _

structure Unblocked (build : Build) (boot : Boot) (h : Nat) (s : System) : Prop where
  state : PriorityState build boot s
  inside : (s.thread h).pc.Critical
  free : ∀ q, ¬ Blocks build s h q

theorem Unblocked.step (algorithm : boot.schedulingAlgorithm = 2) (locks : build.syncMethod = 1)
    (runs : 1 ≤ build.runcount) (before : Unblocked build boot h s)
    (away : ∀ k, s.machine = .user k → k.current ≠ h)
    (step : Step build Kernel.Schedules s s') : Unblocked build boot h s' := by
  obtain ⟨state, inside, free⟩ := before
  have taken := (state.holder inside).1
  have others := (state.lock.holder_of h inside).2
  refine ⟨state.step algorithm (.inl locks) step, inside_kept inside away step, fun q blocks => ?_⟩
  have needs := (state.needs locks runs taken (others q blocks.ne) step).mp blocks.needs
  exact free q ⟨blocks.low, blocks.high, blocks.smaller, needs⟩

theorem PriorityState.waits (locks : build.syncMethod = 1) (state : PriorityState build boot s)
    (low : 1 ≤ q) (high : q < nprocs) (ready : s.machine.kernel.Runnable q)
    (outside : ¬ (s.thread q).pc.Critical) (idle : ¬ 0 < (s.thread q).work build) :
    (s.thread q).pc = .acquire := by
  have valid := state.valid q
  have running : (s.thread q).pc ≠ .stop := fun here => (state.stopped q low high).mp here ready
  unfold Thread.Valid at valid
  unfold Thread.work at idle
  cases here : (s.thread q).pc <;> simp only [here] at valid idle outside running
  case acquire => rfl
  case print => omega
  case yield => split_ifs at idle <;> omega
  case stop => exact absurd rfl running
  case load | store | storeCursor | storeChar | release => exact absurd (by decide) outside
  all_goals omega

theorem Unblocked.nearer (locks : build.syncMethod = 1) {c : Nat}
    (before : Unblocked build boot h ⟨.scheduling k, thread⟩)
    (next : Rotation.IsNext nprocs k.MinimalPriority k.current c) (other : c ≠ h)
    (idle : ¬ 0 < (thread c).work build) :
    Rotation.gap nprocs c h < Rotation.gap nprocs k.current h := by
  obtain ⟨state, inside, free⟩ := before
  have high := (state.holder inside).2.2
  have cLow := state.table.1.positive next.stop.1
  have outside := (state.lock.holder_of h inside).2 c other
  have waiting : (thread c).pc = .acquire :=
    state.waits locks cLow next.bound next.stop.1 outside idle
  have larger : priority h ≤ priority c := by
    by_contra smaller
    exact free c ⟨cLow, Nat.le_of_lt_succ next.bound, not_le.mp smaller,
      by simp [Thread.Needs, waiting]⟩
  have atH : k.priorities h = priority h := state.holder_priority inside
  have atC : k.priorities c = priority c :=
    (state.priorities c cLow next.bound).trans (if_neg (by simp [waiting]))
  have minimal : k.MinimalPriority h := by
    refine ⟨state.holder_runnable inside, fun q bound runnable => ?_⟩
    calc k.priorities h
        = priority h := atH
      _ ≤ priority c := larger
      _ = k.priorities c := atC.symm
      _ ≤ k.priorities q := next.stop.2 q bound runnable
  have current : k.current < nprocs := state.table.1.current.2
  have first := next.first h high minimal
  have apart : Rotation.gap nprocs k.current c ≠ Rotation.gap nprocs k.current h := fun same =>
    other (Rotation.gap_inj current next.bound high same)
  have hop := Rotation.gap_hop current next.bound high (Nat.lt_of_le_of_ne first apart)
  omega

theorem Unblocked.progress_user (algorithm : boot.schedulingAlgorithm = 2)
    (locks : build.syncMethod = 1) (runs : 1 ≤ build.runcount)
    (before : Unblocked build boot h ⟨.user k, thread⟩) (here : k.current ≠ h) :
    ∃ s', Step build Kernel.Schedules ⟨.user k, thread⟩ s' ∧ Unblocked build boot h s' ∧
      rank build h s' < rank build h ⟨.user k, thread⟩ := by
  have current : 1 ≤ k.current ∧ k.current < nprocs := before.state.table.1.current
  have away : ∀ k1, Machine.user k = .user k1 → k1.current ≠ h := by
    rintro k1 ⟨⟩
    exact here
  by_cases works : 0 < (thread k.current).work build
  · obtain ⟨intno, eax, call⟩ := work_call works (macros k.current)
    have step : Step build Kernel.Schedules ⟨.user k, thread⟩ _ := .call (requests_trap call)
    refine ⟨_, step, before.step algorithm locks runs away step, ?_⟩
    have less := totalWork_update thread current.1 current.2 (resume_work locks runs works)
    have bound := rank_le build h ⟨interrupt (trap intno (eax.getD 0)) k,
      Function.update thread k.current ((thread k.current).resume build)⟩
      (by rw [interrupt_current]; exact current.2)
    have now : rank build h ⟨.user k, thread⟩ = 11 * totalWork build thread := by
      simp [rank, works]
    simp only at bound
    omega
  · have step : Step build Kernel.Schedules ⟨.user k, thread⟩
        ⟨interrupt (trap 32 0) k, thread⟩ := .clock rfl
    refine ⟨_, step, before.step algorithm locks runs away step, ?_⟩
    rw [interrupt_schedules _ _ (by decide)]
    simp only [rank, here, works, interrupt_current, false_or, if_false]
    omega

theorem Unblocked.progress_scheduling (algorithm : boot.schedulingAlgorithm = 2)
    (locks : build.syncMethod = 1) (runs : 1 ≤ build.runcount)
    (before : Unblocked build boot h ⟨.scheduling k, thread⟩) :
    ∃ s', Step build Kernel.Schedules ⟨.scheduling k, thread⟩ s' ∧ Unblocked build boot h s' ∧
      rank build h s' < rank build h ⟨.scheduling k, thread⟩ := by
  have state := before.state
  obtain ⟨-, low, high⟩ := state.holder before.inside
  have some : k.SomeRunnable :=
    ⟨h, low, Nat.le_of_lt_succ high, state.holder_runnable before.inside⟩
  obtain ⟨k', picked⟩ := (Kernel.schedules_priority_ends state.table.1
    (state.algorithm.trans algorithm) state.fits).mpr some
  have step : Step build Kernel.Schedules ⟨.scheduling k, thread⟩ ⟨.user k', thread⟩ :=
    .dispatch picked
  refine ⟨_, step, before.step algorithm locks runs (fun k1 => Machine.noConfusion) step, ?_⟩
  obtain ⟨c, next, rfl⟩ := (state.schedules algorithm).mp picked
  have chosen : (k.run c).current = c := rfl
  simp only [rank, chosen]
  split_ifs with settled
  · omega
  · obtain ⟨other, idle⟩ := not_or.mp settled
    have near := before.nearer locks next other idle
    omega

theorem Unblocked.progress (algorithm : boot.schedulingAlgorithm = 2)
    (locks : build.syncMethod = 1) (runs : 1 ≤ build.runcount)
    (before : Unblocked build boot h s) : (∃ k, s.machine = .user k ∧ k.current = h) ∨
      ∃ s', Step build Kernel.Schedules s s' ∧ Unblocked build boot h s' ∧
        rank build h s' < rank build h s := by
  obtain ⟨machine, thread⟩ := s
  cases machine with
  | user k =>
      by_cases here : k.current = h
      · exact .inl ⟨k, rfl, here⟩
      · exact .inr (before.progress_user algorithm locks runs here)
  | scheduling k => exact .inr (before.progress_scheduling algorithm locks runs)
  | halted k => exact absurd rfl (before.state.alive k)

theorem Inverted.taken (algorithm : boot.schedulingAlgorithm = 2) (locks : build.syncMethod = 1)
    (runs : 1 ≤ build.runcount) (before : Inverted build boot h s)
    (reaches : Reaches build Kernel.Schedules s s') : s'.machine.kernel.lock ≠ 0 := by
  have after : Inverted build boot h s' :=
    Reach.invariant reaches (Inverted build boot h) before fun _ _ before step =>
      before.step algorithm locks runs step
  rw [(after.state.holder after.inside).1]
  decide

theorem Unblocked.released (algorithm : boot.schedulingAlgorithm = 2) (locks : build.syncMethod = 1)
    (runs : 1 ≤ build.runcount) (before : Unblocked build boot h s) :
    ∃ t, Reaches build Kernel.Schedules s t ∧ t.machine.kernel.lock = 0 := by
  obtain ⟨⟨_, thread⟩, reaches, there, k, rfl, current⟩ :=
    Reach.of_rank (rank build h) (fun _ before => before.progress algorithm locks runs) before
  obtain ⟨t, rest, free⟩ := inside_releases (k := k) (current ▸ there.inside)
  exact ⟨t, reaches.trans rest, free⟩

end Runs

/-- The lock taken can be freed again if and only if its holder is running, or every process that
has yet to take it has at least the holder's `PRIORITY`. -/
theorem lock_released_iff (build : Build) (locks : build.syncMethod = 1)
    (runs : 1 ≤ build.runcount) (boot : Boot) (algorithm : boot.schedulingAlgorithm = 2)
    (s : System) (reaches : Reaches build Kernel.Schedules (init boot) s)
    (taken : s.machine.kernel.lock = 1) : ∃ holder, (s.thread holder).pc.Critical ∧
      ((∃ t, Reaches build Kernel.Schedules s t ∧ t.machine.kernel.lock = 0) ↔
        (∃ k, s.machine = .user k ∧ k.current = holder) ∨
        ∀ q, 1 ≤ q → q ≤ 4 → (s.thread q).Needs build → priority holder ≤ priority q) := by
  have state := reaches_priorityState algorithm (.inl locks) reaches
  cases state.lock with
  | free zero _ => exact absurd (zero.symm.trans taken) (by decide)
  | held holder _ _ inside _ =>
      refine ⟨holder, inside, ?_⟩
      by_cases running : ∃ k, s.machine = .user k ∧ k.current = holder
      · refine iff_of_true ?_ (.inl running)
        obtain ⟨machine, thread⟩ := s
        obtain ⟨k, rfl, rfl⟩ := running
        exact inside_releases inside
      have away : ∀ k, s.machine = .user k → k.current ≠ holder := fun k entered same =>
        running ⟨k, entered, same⟩
      by_cases blocked : ∃ q, Blocks build s holder q
      · have inverted : Inverted build boot holder s := ⟨state, inside, away, blocked⟩
        refine iff_of_false ?_ ?_
        · rintro ⟨t, rest, free⟩
          exact inverted.taken algorithm locks runs rest free
        · rintro (now | larger)
          · exact running now
          · obtain ⟨q, low, high, smaller, needs⟩ := blocked
            exact absurd (larger q low high needs) (not_le.mpr smaller)
      · have unblocked : Unblocked build boot holder s :=
          ⟨state, inside, fun q blocks => blocked ⟨q, blocks⟩⟩
        refine iff_of_true (unblocked.released algorithm locks runs) (.inr ?_)
        intro q low high needs
        exact not_lt.mp fun smaller => blocked ⟨q, low, high, smaller, needs⟩

theorem lock_released_first : ∃ s t, Reaches ⟨1, 320⟩ Kernel.Schedules (init (bareBoot 2)) s ∧
    s.machine.kernel.lock = 1 ∧ Reaches ⟨1, 320⟩ Kernel.Schedules s t ∧
    t.machine.kernel.lock = 0 := by
  obtain ⟨k, reaches, current, taken⟩ :=
    @first_acquires ⟨1, 320⟩ Kernel.Schedules rfl (by decide) (bareBoot 2)
  obtain ⟨holder, inside, released⟩ :=
    lock_released_iff ⟨1, 320⟩ rfl (by decide) (bareBoot 2) rfl _ reaches taken
  have first : holder = 1 := by
    by_contra other
    simp only [Function.update_of_ne other] at inside
    exact absurd inside (show ¬ Pc.setPriority.Critical by decide)
  obtain ⟨t, rest, free⟩ := released.mpr (.inl ⟨k, rfl, current.trans first.symm⟩)
  exact ⟨_, t, reaches, taken, rest, free⟩

theorem lock_released_fails : ¬ ∀ build : Build, build.syncMethod = 1 → 1 ≤ build.runcount →
    ∀ boot : Boot, boot.schedulingAlgorithm = 2 →
      ∀ s, Reaches build Kernel.Schedules (init boot) s → s.machine.kernel.lock = 1 →
        ∃ t, Reaches build Kernel.Schedules s t ∧ t.machine.kernel.lock = 0 := by
  intro released
  obtain ⟨k, reaches, current, taken⟩ :=
    @first_acquires ⟨1, 1⟩ Kernel.Schedules rfl le_rfl (bareBoot 2)
  have reached := reaches.tail (@Step.clock _ _ _ _ (trap 32 0) rfl)
  have state := reaches_priorityState rfl (.inl rfl) reached
  have gives := interrupt_schedules (trap 32 0) k (by decide)
  obtain ⟨t, rest, free⟩ := released ⟨1, 1⟩ rfl le_rfl (bareBoot 2) rfl _ reached
    ((interrupt_lock (trap 32 0) k).trans taken)
  refine Inverted.taken (h := 1) rfl rfl le_rfl ⟨state, show Pc.load.Critical by decide,
    fun k1 entered => ?_, 2, by decide, by decide, by decide, trivial⟩ rest free
  cases gives.symm.trans entered

end App

end SchedOS
