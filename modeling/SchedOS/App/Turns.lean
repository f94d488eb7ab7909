import SchedOS.App.Printing

set_option autoImplicit false

namespace SchedOS

namespace App

def Unclocked (build : Build) (sched : Kernel → Kernel → Prop) (s s' : System) : Prop :=
  ∃ kind, kind ≠ .clock ∧ Move build sched kind s s'

theorem Unclocked.dispatch {build : Build} {sched : Kernel → Kernel → Prop} {k k' : Kernel}
    {thread : Nat → Thread} (picked : sched k k') :
    Unclocked build sched ⟨.scheduling k, thread⟩ ⟨.user k', thread⟩ :=
  ⟨_, by decide, .dispatch picked⟩

def Working (build : Build) (s s' : System) : Prop :=
  Unclocked build Kernel.Schedules s s' ∧ s.machine.kernel.SomeRunnable

def output (algorithm : Int) (n : Nat) : List Nat :=
  if algorithm = 0 then (List.replicate n [1, 2, 3, 4]).flatten
  else List.replicate n 1 ++ List.replicate n 2 ++ List.replicate n 3 ++ List.replicate n 4

section Turns

def had (turn : Nat → Nat) (pid j : Nat) : Nat := Nat.count (fun i => turn i = pid) j

theorem had_succ (turn : Nat → Nat) (pid j : Nat) :
    had turn pid (j + 1) = if turn j = pid then had turn pid j + 1 else had turn pid j := by
  rw [had, Nat.count_succ, ← had]
  split_ifs <;> rfl

def Thread.Rests (build : Build) (t : Thread) (turns : Nat) : Prop :=
  (turns = 0 ∧ t.pc = .setPriority) ∨
    (1 ≤ turns ∧ turns ≤ build.runcount ∧ t.i = turns ∧ t.pc = build.head turns) ∨
    (turns = build.runcount + 1 ∧ t.pc = .stop)

def Thread.Acts (t : Thread) (turns : Nat) : Prop := t.i = turns ∧ t.pc ≠ .stop

variable {build : Build} {t : Thread} {turns : Nat}

theorem Thread.Rests.acts (rests : t.Rests build turns) (valid : t.Valid build)
    (left : turns ≤ build.runcount) : t.Acts turns := by
  rcases rests with ⟨rfl, here⟩ | ⟨-, -, count, here⟩ | ⟨gone, -⟩
  · simp only [Thread.Valid, here] at valid
    exact ⟨valid, by rw [here]; decide⟩
  · refine ⟨count, ?_⟩
    rw [here]
    unfold Build.head
    split_ifs <;> decide
  · omega

theorem Thread.Rests.stopped (rests : t.Rests build turns) :
    t.pc = .stop ↔ ¬ turns ≤ build.runcount := by
  rcases rests with ⟨rfl, here⟩ | ⟨-, most, -, here⟩ | ⟨rfl, here⟩
  · simp [here]
  · have head : build.head turns ≠ .stop := by
      unfold Build.head
      split_ifs <;> decide
    simp [here, head, most]
  · simp [here]

theorem Thread.Rests.outside (rests : t.Rests build turns) : ¬ t.pc.Critical := by
  rcases rests with ⟨-, here⟩ | ⟨-, -, -, here⟩ | ⟨-, here⟩
  · rw [here]; decide
  · rw [here]; exact head_outside build turns
  · rw [here]; decide

theorem Thread.Rests.printed (rests : t.Rests build turns) (valid : t.Valid build) :
    t.printed = min turns build.runcount := by
  rcases rests with ⟨rfl, here⟩ | ⟨-, most, count, here⟩ | ⟨rfl, here⟩
  · simp only [Thread.Valid, here] at valid
    simp [Thread.printed, here, valid]
  · have shown : t.printed = t.i := by
      unfold Thread.printed
      rw [here]
      unfold Build.head
      split_ifs <;> rfl
    omega
  · simp only [Thread.Valid, here] at valid
    simp [Thread.printed, here, valid]

theorem Thread.Acts.printed (acts : t.Acts turns) : turns ≤ t.printed ∧ t.printed ≤ turns + 1 := by
  obtain ⟨count, -⟩ := acts
  unfold Thread.printed
  cases t.pc <;> simp only <;> omega

end Turns

/-- In the turn with number `j` its process runs, or has just given the processor up, and the
others rest after the turns they have had. -/
def InTurn (build : Build) (turn : Nat → Nat) (j : Nat) (s : System) : Prop :=
  match s.machine with
  | .user k => k.current = turn j ∧ (s.thread (turn j)).Acts (had turn (turn j) j) ∧
      ∀ pid, 1 ≤ pid → pid < nprocs → pid ≠ turn j → (s.thread pid).Rests build (had turn pid j)
  | .scheduling k => k.current = turn j ∧
      ∀ pid, 1 ≤ pid → pid < nprocs → (s.thread pid).Rests build (had turn pid (j + 1))
  | .halted _ => False

/-- An order of the turns that the scheduling algorithm keeps to, with the output it makes. -/
structure Order (build : Build) (algorithm : Int) (turn : Nat → Nat) : Prop where
  first : turn 0 = 1
  next : ∀ (k : Kernel) (j : Nat), k.WellFormed → k.schedulingAlgorithm = algorithm →
    k.current = turn j → k.SomeRunnable →
    (∀ pid, 1 ≤ pid → pid < nprocs → (k.Runnable pid ↔ had turn pid (j + 1) ≤ build.runcount)) →
    (1 ≤ turn (j + 1) ∧ turn (j + 1) < nprocs ∧ k.Runnable (turn (j + 1))) ∧
      ∀ k', k.Schedules k' ↔ k' = k.run (turn (j + 1))
  place : ∀ j, 1 ≤ turn j → turn j < nprocs → had turn (turn j) j < build.runcount →
    (output algorithm build.runcount)[
      ∑ pid ∈ Finset.Ico 1 nprocs, min (had turn pid j) build.runcount]? = some (turn j)

section Step

variable {build : Build} {boot : Boot} {turn : Nat → Nat} {j : Nat} {s s' : System} {k k' : Kernel}
  {thread : Nat → Thread} {t : Thread} {reg : Registers}

theorem access_counter {app : Macros} {t' : Thread} (acts : Access app k t k' t') : t'.i = t.i := by
  cases acts <;> rfl

theorem InTurn.access (inTurn : InTurn build turn j ⟨.user k, thread⟩)
    (acts : Access (macros k.current) k (thread k.current) k' t) :
    InTurn build turn j ⟨.user k', Function.update thread k.current t⟩ := by
  obtain ⟨current, running, resting⟩ := inTurn
  have same : k'.current = k.current := by rw [access_store acts]
  rw [current] at acts
  refine ⟨same.trans current, ?_, fun pid low high other => ?_⟩
  · simp only [current, Function.update_self]
    exact ⟨(access_counter acts).trans running.1, access_stop acts⟩
  · simp only [current, Function.update_of_ne other]
    exact resting pid low high other

theorem resume_turn {app : Macros} {turns : Nat} (locks : build.syncMethod = 1)
    (valid : t.Valid build) (requests : Requests app t.pc reg) (running : t.Acts turns) :
    (reg.service ∈ [Service.user1, .user2, .user3, .user4] ∧ (t.resume build).Acts turns) ∨
      (reg.service ∈ [Service.yield, .exit, .clock] ∧
        (t.resume build).Rests build (turns + 1)) := by
  obtain ⟨rfl, -⟩ := running
  have head (i : Nat) : build.head i ≠ .stop := by
    unfold Build.head
    split_ifs <;> decide
  unfold Thread.Valid at valid
  rcases requests.cases with ⟨here, kind⟩ | ⟨here, kind⟩ | ⟨here, kind⟩ | ⟨here, kind⟩ |
    ⟨here, kind⟩ | ⟨here, kind⟩ <;> simp only [here] at valid <;> rw [kind]
  · exact .inl ⟨by decide, by simp [Thread.Acts, Thread.resume, here]⟩
  · exact .inl ⟨by decide, by simp [Thread.Acts, Thread.resume, here]⟩
  · refine .inl ⟨by decide, ?_⟩
    simp [Thread.Acts, Thread.resume, Thread.enter, here, head, valid]
  · refine .inr ⟨by decide, .inr (.inl ⟨Nat.succ_pos _, valid.1, ?_⟩)⟩
    simp [Thread.resume, Thread.enter, here]
  · exact absurd (locks.symm.trans valid.2) (by decide)
  · exact .inr ⟨by decide, .inr (.inr ⟨by rw [valid], by simp [Thread.resume, here]⟩)⟩

theorem InTurn.call (locks : build.syncMethod = 1) (state : AppState build boot ⟨.user k, thread⟩)
    (inTurn : InTurn build turn j ⟨.user k, thread⟩)
    (requests : Requests (macros k.current) (thread k.current).pc reg) :
    InTurn build turn j ⟨interrupt reg k,
      Function.update thread k.current ((thread k.current).resume build)⟩ := by
  obtain ⟨current, running, resting⟩ := inTurn
  rw [current] at requests ⊢
  rcases resume_turn locks (state.valid _) requests running with ⟨returns, acts⟩ | ⟨gives, rests⟩
  · rw [interrupt_returns reg k returns]
    refine ⟨(interrupt_current reg k).trans current, ?_, fun pid low high other => ?_⟩
    · simpa only [Function.update_self] using acts
    · simpa only [Function.update_of_ne other] using resting pid low high other
  · rw [interrupt_schedules reg k gives]
    refine ⟨(interrupt_current reg k).trans current, fun pid low high => ?_⟩
    by_cases same : pid = turn j
    · subst same
      simpa only [had_succ, if_true, Function.update_self] using rests
    · simpa only [had_succ, if_neg (Ne.symm same), Function.update_of_ne same] using
        resting pid low high same

theorem InTurn.runnable (state : AppState build boot ⟨.scheduling k, thread⟩)
    (inTurn : InTurn build turn j ⟨.scheduling k, thread⟩) :
    ∀ pid, 1 ≤ pid → pid < nprocs → (k.Runnable pid ↔ had turn pid (j + 1) ≤ build.runcount) := by
  intro pid low high
  have stops := (inTurn.2 pid low high).stopped.symm.trans (state.stopped pid low high)
  exact (not_iff_not.mp stops).symm

theorem InTurn.next (order : Order build boot.schedulingAlgorithm turn)
    (state : AppState build boot ⟨.scheduling k, thread⟩)
    (inTurn : InTurn build turn j ⟨.scheduling k, thread⟩) (left : k.SomeRunnable) :
    (1 ≤ turn (j + 1) ∧ turn (j + 1) < nprocs ∧ k.Runnable (turn (j + 1))) ∧
      ∀ k', k.Schedules k' ↔ k' = k.run (turn (j + 1)) :=
  order.next k j state.table.1 state.algorithm inTurn.1 left (inTurn.runnable state)

theorem InTurn.dispatch (order : Order build boot.schedulingAlgorithm turn)
    (state : AppState build boot ⟨.scheduling k, thread⟩)
    (inTurn : InTurn build turn j ⟨.scheduling k, thread⟩) (left : k.SomeRunnable)
    (picked : k.Schedules k') :
    k.Picks k' ∧ InTurn build turn (j + 1) ⟨.user k', thread⟩ := by
  obtain ⟨⟨low, high, runnable⟩, next⟩ := inTurn.next order state left
  obtain rfl := (next k').mp picked
  refine ⟨⟨_, high, runnable, k.times, k.rngs, rfl⟩, rfl, ?_, fun pid pidLow pidHigh _ =>
    inTurn.2 pid pidLow pidHigh⟩
  exact (inTurn.2 _ low high).acts (state.valid _) ((inTurn.runnable state _ low high).mp runnable)

theorem working_step (order : Order build boot.schedulingAlgorithm turn)
    (state : AppState build boot s) (inTurn : InTurn build turn j s) (step : Working build s s') :
    Step build Kernel.Picks s s' := by
  obtain ⟨⟨_, unclocked, step⟩, left⟩ := step
  cases step with
  | access acts => exact .access acts
  | call requests => exact .call requests
  | clock => exact absurd rfl unclocked
  | dispatch picked => exact .dispatch (inTurn.dispatch order state left picked).1

theorem prefix_append {log out : List Nat} {pid : Nat} (shown : log <+: out)
    (next : out[log.length]? = some pid) : log ++ [pid] <+: out := by
  obtain ⟨rest, rfl⟩ := shown
  rw [List.getElem?_append_right le_rfl, Nat.sub_self] at next
  cases rest with
  | nil => cases next
  | cons head rest =>
      obtain rfl : head = pid := Option.some.inj next
      exact ⟨rest, by simp⟩

theorem InTurn.printed_most (inTurn : InTurn build turn j s)
    (valid : ∀ pid, (s.thread pid).Valid build) (bound : 1 ≤ turn j ∧ turn j < nprocs) :
    (s.thread (turn j)).printed ≤ had turn (turn j) j + 1 := by
  obtain ⟨m, thread⟩ := s
  cases m with
  | user k => exact inTurn.2.1.printed.2
  | scheduling k =>
      have rests := inTurn.2 _ bound.1 bound.2
      rw [had_succ, if_pos rfl] at rests
      rw [rests.printed (valid _)]
      exact Nat.min_le_left _ _
  | halted k => exact inTurn.elim

theorem InTurn.length (state : AppState build boot ⟨.user k, thread⟩)
    (inTurn : InTurn build turn j ⟨.user k, thread⟩) {log : List Nat}
    (printed : Printed ⟨.user k, thread⟩ log)
    (count : (thread (turn j)).printed = had turn (turn j) j)
    (left : had turn (turn j) j < build.runcount) :
    log.length = ∑ pid ∈ Finset.Ico 1 nprocs, min (had turn pid j) build.runcount := by
  rw [printed.length_sum]
  refine Finset.sum_congr rfl fun pid member => ?_
  obtain ⟨low, high⟩ := Finset.mem_Ico.mp member
  by_cases same : pid = turn j
  · subst same
    exact count.trans (Nat.min_eq_left left.le).symm
  · exact (inTurn.2.2 pid low high same).printed (state.valid pid)

theorem InTurn.shows (state : AppState build boot ⟨.user k, thread⟩)
    (inTurn : InTurn build turn j ⟨.user k, thread⟩) {log : List Nat}
    (printed : Printed ⟨.user k, thread⟩ log) (stateAfter : AppState build boot s')
    (turnAfter : InTurn build turn j s') (printedAfter : Printed s' (log ++ [k.current])) :
    had turn (turn j) j < build.runcount ∧
      log.length = ∑ pid ∈ Finset.Ico 1 nprocs, min (had turn pid j) build.runcount := by
  have current : k.current = turn j := inTurn.1
  have bound : 1 ≤ turn j ∧ turn j < nprocs := current ▸ state.table.1.current
  have before := printed.counts (turn j)
  have more := printedAfter.counts (turn j)
  rw [current, List.count_append, List.count_singleton_self, before] at more
  have least : had turn (turn j) j ≤ (thread (turn j)).printed := inTurn.2.1.printed.1
  have most := turnAfter.printed_most stateAfter.valid bound
  have limit := printed_le (stateAfter.valid (turn j))
  have count : (thread (turn j)).printed = had turn (turn j) j := by
    simp only at more
    omega
  have left : had turn (turn j) j < build.runcount := by
    simp only at more
    omega
  exact ⟨left, inTurn.length state printed count left⟩

theorem InTurn.extends (order : Order build boot.schedulingAlgorithm turn)
    (state : AppState build boot ⟨.user k, thread⟩)
    (inTurn : InTurn build turn j ⟨.user k, thread⟩) {log after : List Nat}
    (printed : Printed ⟨.user k, thread⟩ log)
    (shown : log <+: output boot.schedulingAlgorithm build.runcount)
    (stateAfter : AppState build boot s') (turnAfter : InTurn build turn j s')
    (printedAfter : Printed s' after) (extended : Extends k.current log after) :
    after <+: output boot.schedulingAlgorithm build.runcount := by
  rcases extended with rfl | rfl
  · exact shown
  have current : k.current = turn j := inTurn.1
  have bound : 1 ≤ turn j ∧ turn j < nprocs := current ▸ state.table.1.current
  obtain ⟨left, length⟩ := inTurn.shows state printed stateAfter turnAfter printedAfter
  apply prefix_append shown
  rw [length, current]
  exact order.place j bound.1 bound.2 left

structure OrderState (build : Build) (boot : Boot) (turn : Nat → Nat) (s : System) : Prop where
  state : AppState build boot s
  turns : ∃ j, InTurn build turn j s
  shown : ∃ log, Printed s log ∧ log <+: output boot.schedulingAlgorithm build.runcount

theorem OrderState.step (locks : build.syncMethod = 1) (room : 4 * build.runcount ≤ 2000)
    (order : Order build boot.schedulingAlgorithm turn) (before : OrderState build boot turn s)
    (step : Working build s s') : OrderState build boot turn s' := by
  obtain ⟨state, ⟨j, inTurn⟩, log, printed, shown⟩ := before
  have picking := working_step order state inTurn step
  have stateAfter := state.step (safe_picks boot) (.inl locks) picking
  obtain ⟨after, extended, printedAfter⟩ := printed.step (safe_picks boot) room state picking
  obtain ⟨⟨_, unclocked, step⟩, left⟩ := step
  cases step with
  | clock => exact absurd rfl unclocked
  | access acts =>
      have turnAfter := inTurn.access acts
      exact ⟨stateAfter, ⟨j, turnAfter⟩, after, printedAfter,
        inTurn.extends order state printed shown stateAfter turnAfter printedAfter extended⟩
  | call requests =>
      have turnAfter := inTurn.call locks state requests
      exact ⟨stateAfter, ⟨j, turnAfter⟩, after, printedAfter,
        inTurn.extends order state printed shown stateAfter turnAfter printedAfter extended⟩
  | dispatch picked =>
      obtain ⟨⟨pid, -, -, times, rngs, rfl⟩, next⟩ := inTurn.dispatch order state left picked
      exact ⟨stateAfter, ⟨j + 1, next⟩, log, printed.transfer rfl rfl, shown⟩

theorem init_orderState (order : Order build boot.schedulingAlgorithm turn) :
    OrderState build boot turn (init boot) := by
  refine ⟨init_appState build boot, ⟨0, order.first.symm, ⟨(Nat.count_zero _).symm, ?_⟩,
    fun pid _ _ _ => .inl ⟨Nat.count_zero _, rfl⟩⟩, [], init_printed boot, List.nil_prefix⟩
  exact show Pc.setPriority ≠ .stop by decide

def System.toGo (build : Build) (s : System) : Nat :=
  2 * s.left build +
    match s.machine with
    | .scheduling _ => 1
    | _ => 0

theorem InTurn.free (state : AppState build boot ⟨.user k, thread⟩)
    (inTurn : InTurn build turn j ⟨.user k, thread⟩) (outside : ¬ (thread k.current).pc.Critical) :
    k.lock = 0 := by
  cases state.lock with
  | free zero _ => exact zero
  | held holder bound _ inside _ =>
      by_cases same : holder = k.current
      · exact absurd (same ▸ inside) outside
      · have rests := inTurn.2.2 holder bound.1 bound.2 (inTurn.1 ▸ same)
        exact absurd inside rests.outside

theorem InTurn.less {sched : Kernel → Kernel → Prop} (locks : build.syncMethod = 1)
    (state : AppState build boot s) (inTurn : InTurn build turn j s)
    (step : Unclocked build sched s s') : s'.toGo build < s.toGo build := by
  obtain ⟨_, unclocked, step⟩ := step
  cases step with
  | clock => exact absurd rfl unclocked
  | @access k k' thread t acts =>
      have free (here : (thread k.current).pc = .acquire) : k.lock = 0 :=
        inTurn.free state (by rw [here]; decide)
      rcases access_left state.lock.binary acts with ⟨⟨here, taken⟩, -, -⟩ | less
      · exact absurd (free here) taken
      · have fewer : System.left build ⟨.user k', Function.update thread k.current t⟩ <
            System.left build ⟨.user k, thread⟩ := left_update state.table.1.current less _ _
        simp only [System.toGo]
        omega
  | @call k thread reg requests =>
      have less := resume_left (.inl locks) (state.valid k.current) requests
      have fewer : System.left build ⟨interrupt reg k, Function.update thread k.current
            ((thread k.current).resume build)⟩ < System.left build ⟨.user k, thread⟩ :=
        left_update state.table.1.current less _ _
      simp only [System.toGo]
      split <;> omega
  | dispatch picked =>
      simp only [System.toGo, System.left]
      omega

theorem working_less (locks : build.syncMethod = 1) (before : OrderState build boot turn s)
    (step : Working build s s') : s'.toGo build < s.toGo build := by
  obtain ⟨state, ⟨j, inTurn⟩, -⟩ := before
  exact inTurn.less locks state step.1

theorem AppState.progress {sched : Kernel → Kernel → Prop}
    (state : AppState build boot ⟨.user k, thread⟩) :
    ∃ s', Unclocked build sched ⟨.user k, thread⟩ s' := by
  have called {intno : BitVec 32} {eax : Option (BitVec 32)}
      (call : (thread k.current).pc.call (macros k.current) = some (intno, eax)) :
      ∃ s', Unclocked build sched ⟨.user k, thread⟩ s' :=
    ⟨_, _, by decide, .call (requests_trap call)⟩
  have running : (thread k.current).pc ≠ .stop := by
    have bound := state.table.1.current
    have runnable : k.Runnable k.current := state.table.2 k rfl
    exact fun stopped => (state.stopped k.current bound.1 bound.2).mp stopped runnable
  have valid := state.valid k.current
  simp only [Thread.Valid] at valid
  cases here : (thread k.current).pc
  case acquire => exact ⟨_, _, by decide, .access (.acquire here)⟩
  case load => exact ⟨_, _, by decide, .access (.load here)⟩
  case store => exact ⟨_, _, by decide, .access (.charFirst here)⟩
  case storeCursor => exact ⟨_, _, by decide, .access (.cursorLast here)⟩
  case storeChar => exact ⟨_, _, by decide, .access (.charLast here)⟩
  case release => exact ⟨_, _, by decide, .access (.release here)⟩
  case stop => exact absurd here running
  all_goals exact called (by rw [here]; rfl)

theorem working_progress (order : Order build boot.schedulingAlgorithm turn)
    (before : OrderState build boot turn s) (left : s.machine.kernel.SomeRunnable) :
    ∃ s', Working build s s' := by
  obtain ⟨state, ⟨j, inTurn⟩, -⟩ := before
  obtain ⟨m, thread⟩ := s
  cases m with
  | user k =>
      obtain ⟨s', step⟩ := state.progress
      exact ⟨s', step, left⟩
  | scheduling k =>
      obtain ⟨-, next⟩ := inTurn.next order state left
      exact ⟨_, .dispatch ((next _).mpr rfl), left⟩
  | halted k => exact inTurn.elim

end Step

end App

end SchedOS
