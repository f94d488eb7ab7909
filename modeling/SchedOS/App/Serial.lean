import SchedOS.App.Order
import SchedOS.App.PriorityInversion
import SchedOS.Kernel.Share
import SchedOS.Kernel.Lottery

set_option autoImplicit false

namespace SchedOS

structure Queued (boot : Boot) (p : Nat) (k : Kernel) : Prop where
  table : k.WellFormed
  algorithm : k.schedulingAlgorithm = boot.schedulingAlgorithm
  current : k.current = p
  gone : ∀ q, 1 ≤ q → q ≤ p → ¬ k.Runnable q
  fresh : ∀ q, p < q → q < nprocs → k.procArray q = boot.kernel.procArray q
  sold : k.numTickets ≤ p

section Queued

open Rotation

variable {boot : Boot} {p : Nat} {k k' : Kernel}

theorem Queued.ready (queued : Queued boot p k) {q : Nat} (later : p < q) (high : q < nprocs) :
    k.Runnable q ∧ k.priorities q = 1 ∧ k.shares q = 1 ∧ k.times q = 0 := by
  have low := queued.table.current.1
  rw [queued.current] at low
  simp only [Kernel.Runnable, Kernel.priorities, Kernel.shares, Kernel.times,
    queued.fresh q later high, boot.kernel_proc (Nat.le_of_lt (low.trans_lt later)) high, and_self]

theorem Queued.later (queued : Queued boot p k) {q : Nat} (ready : k.Runnable q) : p < q := by
  by_contra before
  exact queued.gone q (queued.table.positive ready) (not_lt.mp before) ready

theorem Queued.adjacent (queued : Queued boot p k) (more : p < 4) (wanted : Nat → Prop)
    (found : wanted (p + 1)) : IsNext nprocs wanted k.current (p + 1) := by
  have next : (k.current + 1) % nprocs = p + 1 := by
    rw [queued.current]
    exact Nat.mod_eq_of_lt (by simp only [nprocs]; omega)
  rw [← next] at found ⊢
  exact IsNext.here queued.table.current.2 found

def NextInTable (p : Nat) (k k' : Kernel) : Prop :=
  ∃ times, k' = (k.retimed times k.rngs).run (p + 1) ∧ ∀ q, q ≠ p + 1 → times q = k.times q

theorem nextInTable_run (k : Kernel) (p : Nat) : NextInTable p k (k.run (p + 1)) :=
  ⟨k.times, rfl, fun _ _ => rfl⟩

theorem Queued.picks (queued : Queued boot p k) (more : p < 4) (next : NextInTable p k k') :
    k.Picks k' := by
  obtain ⟨times, rfl, -⟩ := next
  have high : p + 1 < nprocs := Nat.succ_lt_succ more
  exact ⟨p + 1, high, (queued.ready (Nat.lt_succ_self p) high).1, times, k.rngs, rfl⟩

theorem Queued.next_scan (queued : Queued boot p k) (more : p < 4) (wanted : Nat → Prop)
    (found : wanted (p + 1)) (schedules : ∀ k', k.Schedules k' ↔
      ∃ pid, IsNext nprocs wanted k.current pid ∧ k' = k.run pid) :
    (∃ k', k.Schedules k') ∧ ∀ k', k.Schedules k' → NextInTable p k k' := by
  have next := queued.adjacent more wanted found
  refine ⟨⟨_, (schedules _).mpr ⟨_, next, rfl⟩⟩, fun k' picked => ?_⟩
  obtain ⟨pid, other, rfl⟩ := (schedules k').mp picked
  rw [other.unique queued.table.current.2 next]
  exact nextInTable_run k p

theorem Queued.next_share (queued : Queued boot p k) (more : p < 4)
    (algorithm : k.schedulingAlgorithm = 3) :
    (∃ k', k.Schedules k') ∧ ∀ k', k.Schedules k' → NextInTable p k k' := by
  have high : p + 1 < nprocs := Nat.succ_lt_succ more
  obtain ⟨ready, -, share, time⟩ := queued.ready (Nat.lt_succ_self p) high
  have gone : ¬ k.Runnable p := queued.gone p (queued.current ▸ queued.table.current.1) le_rfl
  have skips : Kernel.sharePass (k, p) = .again (k, p + 1) := by
    have pass := @Kernel.share_skip k k.times k.rngs p gone
    rwa [Nat.mod_eq_of_lt high] at pass
  have runs : Kernel.sharePass (k, p + 1) = .leave _ :=
    @Kernel.share_runs k k.times k.rngs (p + 1) ready (by rw [share, time]; decide)
  have leaves := Loop.Leaves.again skips ⟨1, Loop.run_leave runs 0⟩
  simp only [Kernel.schedules_share queued.table algorithm, queued.current]
  refine ⟨⟨_, leaves⟩, fun k' ended => ?_⟩
  rw [ended.unique leaves]
  exact ⟨_, rfl, fun q other => Function.update_of_ne other _ _⟩

theorem Queued.next (queued : Queued boot p k) (more : p < 4)
    (known : boot.schedulingAlgorithm ∈ [0, 1, 2, 3, 4]) :
    (∃ k', k.Schedules k') ∧ ∀ k', k.Schedules k' → NextInTable p k k' := by
  have table := queued.table
  have high : p + 1 < nprocs := Nat.succ_lt_succ more
  obtain ⟨ready, priority, -, -⟩ := queued.ready (Nat.lt_succ_self p) high
  rw [← queued.algorithm] at known
  simp only [List.mem_cons, List.not_mem_nil, or_false] at known
  rcases known with zero | one | two | three | four
  · exact queued.next_scan more k.Runnable ready fun k' => Kernel.schedules_roundRobin table zero
  · have gone : ¬ k.Runnable p := queued.gone p (queued.current ▸ table.current.1) le_rfl
    have next : k.nextStrict (k.procArray k.current).pPid = p + 1 := by
      rw [table.pid, queued.current]
      exact if_pos gone
    simp only [Kernel.schedules_strict one, next]
    exact ⟨⟨_, rfl⟩, fun k' same => same ▸ nextInTable_run k p⟩
  · have level {q : Nat} (bound : q < nprocs) (runs : k.Runnable q) : k.priorities q = 1 :=
      (queued.ready (queued.later runs) bound).2.1
    have fit : k.PrioritiesFit := fun q bound runs => by rw [level bound runs]; decide
    refine queued.next_scan more k.MinimalPriority ⟨ready, fun q bound runs => ?_⟩
      fun k' => Kernel.schedules_priority table two fit
    rw [level bound runs, priority]
  · exact queued.next_share more three
  · have few : k.numTickets < 4 := queued.sold.trans_lt more
    refine queued.next_scan more k.Runnable ready fun k' => ?_
    rw [Kernel.schedules_unsold table four few]
    exact Kernel.roundRobin_leaves table

end Queued

namespace App

def Thread.unsold (t : Thread) : Nat :=
  match t.pc with
  | .setPriority | .setShare | .getTicket => 1
  | _ => 0

section Thread

variable {build : Build} {app : Macros} {t : Thread} {reg : Registers}

theorem enter_unsold (i : Nat) : (t.enter build i).unsold = 0 := by
  unfold Thread.enter Build.head
  split_ifs <;> rfl

theorem resume_unsold (build : Build) (requests : Requests app t.pc reg) :
    (if reg.service = .user4 then 1 else 0) + (t.resume build).unsold = t.unsold := by
  rcases requests.cases with ⟨here, kind⟩ | ⟨here, kind⟩ | ⟨here, kind⟩ | ⟨here, kind⟩ |
    ⟨here, kind⟩ | ⟨here, kind⟩ <;>
    simp [Thread.resume, here, kind, enter_unsold] <;> simp [Thread.unsold, here]

theorem no_access {k k' : Kernel} {t' : Thread} (calls : build.syncMethod = 2)
    (valid : t.Valid build) : ¬ Access app k t k' t' := by
  intro acts
  unfold Thread.Valid at valid
  cases acts with
  | acquire here | load here | charFirst here | cursorLast here | cursorFirst here | charLast here
  | release here =>
      simp only [here] at valid
      exact absurd (calls.symm.trans valid.2) (by decide)

end Thread

-- More than what is left of the turn of process `p` and of those after it, with a call of
-- `schedule()` before each.
def callsLeft (build : Build) (p : Nat) (s : System) : Nat :=
  (4 - p) * (8 * build.runcount + 11) + (s.thread p).left build

def Present (m : Machine) (pc : Pc) : Prop :=
  match m with
  | .user _ => pc ≠ .stop
  | .scheduling _ => pc = .stop
  | .halted _ => False

/-- The turn of process `p`: those before it have exited, and those behind have not run. -/
structure Serial (build : Build) (boot : Boot) (p : Nat) (s : System) : Prop where
  state : AppState build boot s
  bound : 1 ≤ p ∧ p ≤ 4
  current : s.machine.kernel.current = p
  ran : ∀ q, 1 ≤ q → q < p → (s.thread q).pc = .stop
  present : Present s.machine (s.thread p).pc
  fresh : ∀ q, p < q → q < nprocs →
    s.thread q = .initial ∧ s.machine.kernel.procArray q = boot.kernel.procArray q
  sold : s.machine.kernel.numTickets + (s.thread p).unsold ≤ p
  shown : ∃ log, Printed s log ∧ log <+: output 1 build.runcount

section Serial

variable {build : Build} {boot : Boot} {p : Nat} {s s' : System} {k k' : Kernel}
  {thread : Nat → Thread} {reg : Registers}

theorem Serial.log_length (serial : Serial build boot p s) {log : List Nat}
    (printed : Printed s log) :
    log.length = (p - 1) * build.runcount + (s.thread p).printed := by
  have ran (q : Nat) (low : 1 ≤ q) (less : q < p) : (s.thread q).printed = build.runcount := by
    have stopped := serial.ran q low less
    have valid := serial.state.valid q
    simp only [Thread.Valid, stopped] at valid
    simp only [Thread.printed, stopped, valid]
  have fresh (q : Nat) (later : p < q) (high : q < nprocs) : (s.thread q).printed = 0 := by
    rw [(serial.fresh q later high).1]
    rfl
  obtain ⟨low, high⟩ := serial.bound
  rw [printed.length_sum, sum_processes]
  interval_cases p
  · rw [fresh 2, fresh 3, fresh 4] <;> first | decide | omega
  · rw [ran 1, fresh 3, fresh 4] <;> first | decide | omega
  · rw [ran 1, ran 2, fresh 4] <;> first | decide | omega
  · rw [ran 1, ran 2, ran 3] <;> first | decide | omega

theorem Serial.extends (serial : Serial build boot p s) {log after : List Nat}
    (printed : Printed s log) (shown : log <+: output 1 build.runcount)
    (stateAfter : AppState build boot s') (printedAfter : Printed s' after)
    (extended : Extends p log after) : after <+: output 1 build.runcount := by
  rcases extended with rfl | rfl
  · exact shown
  have before := printed.counts p
  have more := printedAfter.counts p
  rw [List.count_append, List.count_singleton_self, before] at more
  have limit := printed_le (stateAfter.valid p)
  obtain ⟨low, high⟩ := serial.bound
  obtain ⟨i, rfl⟩ : ∃ i, p = i + 1 := ⟨p - 1, by omega⟩
  apply prefix_append shown
  rw [serial.log_length printed, Nat.add_sub_cancel]
  exact output_strict (by omega) (by omega)

theorem Serial.call (calls : build.syncMethod = 2) (room : 4 * build.runcount ≤ 2000)
    (serial : Serial build boot p ⟨.user k, thread⟩)
    (requests : Requests (macros k.current) (thread k.current).pc reg)
    (stateAfter : AppState build boot ⟨interrupt reg k,
      Function.update thread k.current ((thread k.current).resume build)⟩) :
    Serial build boot p ⟨interrupt reg k,
      Function.update thread k.current ((thread k.current).resume build)⟩ := by
  obtain ⟨log, printed, shown⟩ := serial.shown
  obtain ⟨after, extended, printedAfter⟩ := printed.call room serial.state requests
  have current : k.current = p := serial.current
  have sold := serial.sold
  have ends := resume_ends calls (serial.state.valid k.current) requests
  have unsold := (resume_unsold build requests).le
  rw [current] at requests stateAfter printedAfter extended ends unsold ⊢
  refine ⟨stateAfter, serial.bound, (interrupt_current reg k).trans current, fun q low less => ?_,
    ?_, fun q later high => ?_, ?_, after, printedAfter,
    serial.extends printed shown stateAfter printedAfter extended⟩
  · simp only [Function.update_of_ne (Nat.ne_of_lt less)]
    exact serial.ran q low less
  · simp only [Function.update_self]
    rcases ends with ⟨returns, running⟩ | ⟨exits, stopped⟩
    · rw [interrupt_returns reg k returns]
      exact running
    · rw [interrupt_schedules reg k (by simp [exits])]
      exact stopped
  · have other : q ≠ p := Nat.ne_of_gt later
    simp only [Function.update_of_ne other, interrupt_proc_other reg k (current ▸ other)]
    exact serial.fresh q later high
  · have number := (interrupt_tickets reg k).1
    have one : (interrupt reg k).kernel.numTickets ≤
        k.numTickets + if reg.service = .user4 then 1 else 0 := by
      rw [number]
      split_ifs with sells returns
      · exact le_rfl
      · exact absurd sells.1 returns
      · exact Nat.le_succ _
      · exact le_rfl
    simp only [Function.update_self, Machine.kernel] at sold unsold one ⊢
    omega

theorem Serial.queued (serial : Serial build boot p ⟨.scheduling k, thread⟩) : Queued boot p k := by
  have stopped (q : Nat) (low : 1 ≤ q) (most : q ≤ p) : (thread q).pc = .stop := by
    rcases Nat.lt_or_eq_of_le most with less | rfl
    · exact serial.ran q low less
    · exact serial.present
  have high : p < nprocs := Nat.lt_succ_of_le serial.bound.2
  refine ⟨serial.state.table.1, serial.state.algorithm, serial.current, fun q low most => ?_,
    fun q later bound => (serial.fresh q later bound).2, ?_⟩
  · exact (serial.state.stopped q low (most.trans_lt high)).mp (stopped q low most)
  · have sold := serial.sold
    simp only [Machine.kernel] at sold
    omega

theorem Serial.more (serial : Serial build boot p ⟨.scheduling k, thread⟩)
    (left : k.SomeRunnable) : p < 4 := by
  obtain ⟨q, -, high, ready⟩ := left
  exact (serial.queued.later ready).trans_le high

theorem Serial.dispatch (serial : Serial build boot p ⟨.scheduling k, thread⟩) (more : p < 4)
    (next : NextInTable p k k') (stateAfter : AppState build boot ⟨.user k', thread⟩) :
    Serial build boot (p + 1) ⟨.user k', thread⟩ := by
  obtain ⟨log, printed, shown⟩ := serial.shown
  obtain ⟨times, rfl, same⟩ := next
  have begins : thread (p + 1) = .initial :=
    (serial.fresh (p + 1) (Nat.lt_succ_self p) (Nat.succ_lt_succ more)).1
  refine ⟨stateAfter, ⟨Nat.succ_pos p, more⟩, rfl, fun q low less => ?_, ?_, fun q later high => ?_,
    ?_, log, printed.transfer rfl rfl, shown⟩
  · rcases Nat.lt_or_eq_of_le (Nat.le_of_lt_succ less) with before | rfl
    · exact serial.ran q low before
    · exact serial.present
  · change (thread (p + 1)).pc ≠ .stop
    rw [begins]
    decide
  · obtain ⟨start, table⟩ := serial.fresh q (by omega) high
    refine ⟨start, ?_⟩
    rw [← table]
    change { k.procArray q with pTimePassed := times q } = k.procArray q
    rw [same q (Nat.ne_of_gt later)]
    rfl
  · have sold := serial.queued.sold
    change k.numTickets + (thread (p + 1)).unsold ≤ p + 1
    rw [begins]
    exact Nat.add_le_add_right sold 1

theorem serial_safe (serial : Serial build boot p s)
    (known : boot.schedulingAlgorithm ∈ [0, 1, 2, 3, 4]) (step : Working build s s') :
    Step build Kernel.Picks s s' := by
  obtain ⟨⟨_, unclocked, step⟩, left⟩ := step
  cases step with
  | access acts => exact .access acts
  | call requests => exact .call requests
  | clock => exact absurd rfl unclocked
  | dispatch picked =>
      have more := serial.more left
      exact .dispatch (serial.queued.picks more ((serial.queued.next more known).2 _ picked))

theorem Serial.step (calls : build.syncMethod = 2) (room : 4 * build.runcount ≤ 2000)
    (known : boot.schedulingAlgorithm ∈ [0, 1, 2, 3, 4]) (serial : Serial build boot p s)
    (step : Working build s s') :
    ∃ q, Serial build boot q s' ∧ callsLeft build q s' < callsLeft build p s := by
  have stateAfter := serial.state.step (safe_picks boot) (.inr calls)
    (serial_safe serial known step)
  obtain ⟨⟨_, unclocked, step⟩, left⟩ := step
  cases step with
  | clock => exact absurd rfl unclocked
  | access acts => exact absurd acts (no_access calls (serial.state.valid _))
  | @call k thread reg requests =>
      have less := resume_left (.inr calls) (serial.state.valid k.current) requests
      refine ⟨p, serial.call calls room requests stateAfter, ?_⟩
      rw [show k.current = p from serial.current] at less ⊢
      simp only [callsLeft, Function.update_self]
      exact Nat.add_lt_add_left less _
  | @dispatch k k' thread picked =>
      have more := serial.more left
      have next := (serial.queued.next more known).2 k' picked
      have begins := (serial.fresh (p + 1) (Nat.lt_succ_self p) (Nat.succ_lt_succ more)).1
      refine ⟨p + 1, serial.dispatch more next stateAfter, ?_⟩
      obtain ⟨rest, rest_eq⟩ : ∃ rest, 4 - p = rest + 1 := ⟨3 - p, by omega⟩
      have fewer : 4 - (p + 1) = rest := by omega
      have first : (thread (p + 1)).left build = 8 * build.runcount + 10 := by
        rw [show thread (p + 1) = .initial from begins]
        rfl
      simp only [callsLeft, first, rest_eq, fewer, Nat.succ_mul]
      omega

theorem Serial.progress (known : boot.schedulingAlgorithm ∈ [0, 1, 2, 3, 4])
    (serial : Serial build boot p s) (left : s.machine.kernel.SomeRunnable) :
    ∃ s', Working build s s' := by
  obtain ⟨m, thread⟩ := s
  cases m with
  | user k =>
      obtain ⟨s', step⟩ := serial.state.progress
      exact ⟨s', step, left⟩
  | scheduling k =>
      obtain ⟨k', picked⟩ := (serial.queued.next (serial.more left) known).1
      exact ⟨_, .dispatch picked, left⟩
  | halted k => exact serial.present.elim

theorem init_serial (build : Build) (boot : Boot) : Serial build boot 1 (init boot) :=
  ⟨init_appState build boot, ⟨le_rfl, by decide⟩, rfl, fun q low less => by omega,
    show Pc.setPriority ≠ .stop by decide, fun _ _ _ => ⟨rfl, rfl⟩, le_rfl, [], init_printed boot,
    List.nil_prefix⟩

theorem Serial.finished (serial : Serial build boot p s)
    (done : ¬ s.machine.kernel.SomeRunnable) :
    Printed s (output 1 build.runcount) ∧
      s.machine.kernel.cursorpos = cell (4 * build.runcount) := by
  obtain ⟨log, printed, shown⟩ := serial.shown
  obtain ⟨outside, all⟩ := serial.state.finished fun pid low high ready =>
    done ⟨pid, low, Nat.le_of_lt_succ high, ready⟩
  have length := printed.length_eq all
  have whole : log = output 1 build.runcount :=
    shown.eq_of_length (by rw [length, output_length])
  rw [← length]
  exact ⟨whole ▸ printed, printed.between outside⟩

theorem serial_finishes (calls : build.syncMethod = 2) (room : 4 * build.runcount ≤ 2000)
    (known : boot.schedulingAlgorithm ∈ [0, 1, 2, 3, 4]) :
    ∃ s, Relation.ReflTransGen (Working build) (init boot) s ∧
      ¬ s.machine.kernel.SomeRunnable := by
  -- The turn is part of the state, so that the rank can depend on it.
  have last := @Reach.of_rank System (Working build) (fun s => ∃ p, Serial build boot p s)
    (fun s => ¬ s.machine.kernel.SomeRunnable)
    (fun s => callsLeft build s.machine.kernel.current s) ?_ (init boot) ⟨1, init_serial build boot⟩
  · obtain ⟨s, reaches, -, done⟩ := last
    exact ⟨s, reaches, done⟩
  · rintro s ⟨p, serial⟩
    by_cases left : s.machine.kernel.SomeRunnable
    · obtain ⟨s', step⟩ := serial.progress known left
      obtain ⟨q, after, less⟩ := serial.step calls room known step
      exact .inr ⟨s', step, ⟨q, after⟩, by rw [after.current, serial.current]; exact less⟩
    · exact .inl left

end Serial

/-- With method 2 and the clock off all five algorithms run one application after the other: every
run comes to an end, and its output is that of each in full, in the order of their numbers. -/
theorem serial_order (build : Build) (calls : build.syncMethod = 2)
    (room : 4 * build.runcount ≤ 2000) (boot : Boot)
    (known : boot.schedulingAlgorithm ∈ [0, 1, 2, 3, 4]) :
    (∀ s, Relation.ReflTransGen (Working build) (init boot) s →
      (∃ log, Printed s log ∧ log <+: output 1 build.runcount) ∧
      (s.machine.kernel.SomeRunnable → ∃ s', Working build s s') ∧
      (¬ s.machine.kernel.SomeRunnable →
        s.machine.kernel.cursorpos = cell (4 * build.runcount) ∧
        ((List.range (4 * build.runcount)).map fun j => s.machine.kernel.cells (cell j)) =
          (output 1 build.runcount).map char)) ∧
    ¬ ∃ run : Nat → System, run 0 = init boot ∧ ∀ i, Working build (run i) (run (i + 1)) := by
  constructor
  · intro s reaches
    obtain ⟨p, serial⟩ := Reach.invariant reaches (fun s => ∃ p, Serial build boot p s)
      ⟨1, init_serial build boot⟩ fun a b before step => by
        obtain ⟨p, serial⟩ := before
        obtain ⟨q, after, -⟩ := serial.step calls room known step
        exact ⟨q, after⟩
    refine ⟨serial.shown, serial.progress known, fun done => ?_⟩
    obtain ⟨printed, cursor⟩ := serial.finished done
    have cells := printed.cells
    rw [output_length] at cells
    exact ⟨cursor, cells⟩
  · rintro ⟨run, first, steps⟩
    have here (i : Nat) : ∃ p, Serial build boot p (run i) ∧
        callsLeft build p (run i) + i ≤ callsLeft build 1 (run 0) := by
      induction i with
      | zero => exact ⟨1, first ▸ init_serial build boot, le_rfl⟩
      | succ i ih =>
          obtain ⟨p, serial, most⟩ := ih
          obtain ⟨q, after, less⟩ := serial.step calls room known (steps i)
          exact ⟨q, after, by omega⟩
    obtain ⟨p, -, most⟩ := here (callsLeft build 1 (run 0) + 1)
    omega

theorem serial_order_share : ∃ s,
    Relation.ReflTransGen (Working ⟨2, 320⟩) (init (bareBoot 3)) s ∧
      s.machine.kernel.cursorpos = cell 1280 ∧
      ((List.range 1280).map fun j => s.machine.kernel.cells (cell j)) =
        (output 1 320).map char := by
  obtain ⟨s, reaches, done⟩ := @serial_finishes ⟨2, 320⟩ (bareBoot 3) rfl (by decide) (by decide)
  obtain ⟨cursor, cells⟩ := ((serial_order ⟨2, 320⟩ rfl (by decide) (bareBoot 3) (by decide)).1 s
    reaches).2.2 done
  exact ⟨s, reaches, cursor, cells⟩

end App

end SchedOS
