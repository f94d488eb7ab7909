import SchedOS.App.Dispatches
import SchedOS.App.FairSchedulers
import SchedOS.Shared.Rounds

set_option autoImplicit false

namespace SchedOS

namespace Kernel

open Rotation

variable {k k' : Kernel}

theorem share_keeps (table : k.WellFormed) (algorithm : k.schedulingAlgorithm = 3)
    (runnable : k.Runnable k.current) (left : k.times k.current < k.shares k.current) :
    k.Schedules k' ↔
      k' = (k.retimed (Function.update k.times k.current (k.times k.current + 1)) k.rngs).run
        k.current := by
  rw [schedules_share table algorithm]
  exact Loop.leaves_leave (@share_runs k k.times k.rngs k.current runnable left)

def passedTimes (k : Kernel) : Nat → Int :=
  if k.Runnable k.current then Function.update k.times k.current 0 else k.times

theorem passedTimes_zero (counted : k.Counted) {pid : Nat} (bound : pid < nprocs)
    (runnable : k.Runnable pid) : k.passedTimes pid = 0 := by
  have zero (other : pid ≠ k.current) : k.times pid = 0 := (counted pid bound runnable).2 other
  unfold passedTimes
  split_ifs with ready
  · by_cases same : pid = k.current
    · rw [same, Function.update_self]
    · rw [Function.update_of_ne same]
      exact zero same
  · exact zero fun same => ready (same ▸ runnable)

theorem share_leaves_current
    (spent : ¬ (k.Runnable k.current ∧ k.times k.current < k.shares k.current)) :
    sharePass (k, k.current) =
      .again (k.retimed k.passedTimes k.rngs, (k.current + 1) % nprocs) := by
  unfold passedTimes
  split_ifs with ready
  · exact @share_spent k k.times k.rngs k.current ready
      (not_lt.mp fun less => spent ⟨ready, less⟩)
  · exact @share_skip k k.times k.rngs k.current ready

theorem share_passes (table : k.WellFormed) (counted : k.Counted)
    (algorithm : k.schedulingAlgorithm = 3)
    (shares : ∀ pid, pid < nprocs → k.Runnable pid → 1 ≤ k.shares pid)
    (spent : ¬ (k.Runnable k.current ∧ k.times k.current < k.shares k.current)) :
    k.Schedules k' ↔ ∃ pid, IsNext nprocs k.Runnable k.current pid ∧
      k' = (k.retimed (Function.update k.passedTimes pid 1) k.rngs).run pid := by
  let stop (pid : Nat) : Kernel :=
    (k.retimed (Function.update k.passedTimes pid 1) k.rngs).run pid
  have same (fuel : Nat) : Loop.run sharePass fuel
      (k.retimed k.passedTimes k.rngs, (k.current + 1) % nprocs) =
      Loop.run (scan nprocs k.Runnable stop) fuel k.current := by
    apply Loop.run_congr
      (fun s c => s = (k.retimed k.passedTimes k.rngs, (c + 1) % nprocs)) ?_ rfl
    rintro _ c rfl
    have inside : (c + 1) % nprocs < nprocs := Nat.mod_lt _ (by decide)
    by_cases found : k.Runnable ((c + 1) % nprocs)
    · have zero := passedTimes_zero counted inside found
      have share := shares _ inside found
      refine .inr ⟨stop ((c + 1) % nprocs), ?_, scan_found found⟩
      rw [share_runs found (by omega), zero]
      rfl
    · exact .inl ⟨_, _, share_skip found, scan_skip found, rfl⟩
  rw [schedules_share table algorithm, Loop.leaves_again (share_leaves_current spent)]
  simp only [Loop.Leaves, same]
  exact scan_leaves_iff table.current.2

end Kernel

namespace App

open Rounds

def slots (pid : Nat) : Nat := if pid = 0 then 0 else (macros pid).share.toNat

-- The order of the turns, were no process ever to exit.
def shareTurns (n : Nat) : List Nat := 1 :: (List.replicate n (Rounds.round slots nprocs)).flatten

def shareOutput (n : Nat) : List Nat :=
  firsts n (1 :: (List.replicate n [1, 2, 2, 3, 3, 3, 4, 4, 4, 4]).flatten)

theorem slots_pid {pid : Nat} (high : pid < nprocs) : slots pid = pid := by
  simp only [nprocs] at high
  interval_cases pid <;> rfl

theorem slots_share {pid : Nat} (low : 1 ≤ pid) (high : pid < nprocs) :
    (macros pid).share.toInt = slots pid := by
  simp only [nprocs] at high
  interval_cases pid <;> rfl

theorem shareTurns_round (n : Nat) :
    shareTurns n = 1 :: (List.replicate n [1, 2, 2, 3, 3, 3, 4, 4, 4, 4]).flatten := rfl

theorem shareTurns_count {n pid : Nat} (runs : 1 ≤ n) (low : 1 ≤ pid) (high : pid < nprocs) :
    n + 1 ≤ (shareTurns n).count pid := by
  have turns : (shareTurns n).count pid = n * pid + if 1 = pid then 1 else 0 := by
    rw [shareTurns, List.count_cons, rounds_count high, slots_pid high]
    simp
  rw [turns]
  split_ifs with one
  · rw [← one, Nat.mul_one]
  · have := Nat.mul_le_mul_left n (show 2 ≤ pid by omega)
    omega

theorem firsts_firsts {n m : Nat} (le : n ≤ m) (turns : List Nat) :
    firsts n (firsts m turns) = firsts n turns := by
  induction turns using List.reverseRecOn with
  | nil => rfl
  | append_singleton turns last ih =>
      rw [firsts_concat, @firsts_concat n turns last]
      split_ifs with room shown shown
      · rw [firsts_concat, ih, if_pos shown]
      · rw [firsts_concat, ih, if_neg shown]
      · rw [firsts_count] at room shown
        omega
      · exact ih

theorem shareOutput_length {n : Nat} (runs : 1 ≤ n) : (shareOutput n).length = 4 * n := by
  have authors : ∀ pid ∈ shareTurns n, 1 ≤ pid ∧ pid < nprocs := by
    intro pid member
    rcases List.mem_cons.mp member with rfl | later
    · decide
    · obtain ⟨round, repeated, inside⟩ := List.mem_flatten.mp later
      rw [List.eq_of_mem_replicate repeated] at inside
      obtain ⟨-, high, some⟩ := mem_blocks.mp inside
      have bound : pid < nprocs := by simpa using high
      rw [slots_pid bound] at some
      exact ⟨some, bound⟩
  have each (pid : Nat) (member : pid ∈ Finset.Ico 1 nprocs) :
      min ((shareTurns n).count pid) n = n := by
    obtain ⟨low, high⟩ := Finset.mem_Ico.mp member
    have := shareTurns_count runs low high
    omega
  rw [shareOutput, ← shareTurns_round, firsts_length authors, Finset.sum_congr rfl each]
  simp [nprocs]

section Shares

variable {build : Build} {boot : Boot} {s s' : System} {k k' : Kernel} {thread : Nat → Thread}
  {t t' : Thread} {reg : Registers} {app : Macros}

def Pc.Shareless (pc : Pc) : Prop := pc ∈ [Pc.setPriority, .setShare]

instance : DecidablePred Pc.Shareless := fun _ => inferInstanceAs (Decidable (_ ∈ _))

theorem head_shareless (build : Build) (i : Nat) : ¬ (build.head i).Shareless := by
  unfold Build.head
  split_ifs <;> decide

theorem access_shareless (acts : Access app k t k' t') :
    ¬ t.pc.Shareless ∧ ¬ t'.pc.Shareless := by
  cases acts with
  | acquire here => split_ifs <;> simp [Pc.Shareless, here]
  | load here | charFirst here | cursorLast here | cursorFirst here | charLast here
  | release here => simp [Pc.Shareless, here]

theorem requests_shareless (build : Build) (requests : Requests app t.pc reg) :
    (reg.service = .user2 → ¬ (t.resume build).pc.Shareless) ∧
      (reg.service ≠ .user2 → ((t.resume build).pc.Shareless ↔ t.pc.Shareless)) := by
  have head := head_shareless build
  rcases requests.cases with ⟨here, kind⟩ | ⟨here, kind⟩ | ⟨here, kind⟩ | ⟨here, kind⟩ |
    ⟨here, kind⟩ | ⟨here, kind⟩ <;>
    simp [Thread.resume, Thread.enter, here, kind, head] <;> decide

structure Shares (s : System) : Prop where
  state : ShareState s.machine
  shares : ∀ pid, 1 ≤ pid → pid < nprocs → s.machine.kernel.shares pid =
    if (s.thread pid).pc.Shareless then 1 else (slots pid : Int)

theorem Shares.step (algorithm : boot.schedulingAlgorithm = 3) (state : AppState build boot s)
    (before : Shares s) (step : Step build Kernel.Schedules s s') : Shares s' := by
  obtain ⟨label, moved⟩ := step_machine step
  refine ⟨before.state.step moved, fun pid low high => ?_⟩
  have known := before.shares pid low high
  obtain ⟨_, step⟩ := step
  cases step with
  | @access k k' thread t acts =>
      have same : k'.shares pid = k.shares pid := by rw [access_store acts]; rfl
      have kept := access_shareless acts
      refine same.trans (known.trans ?_)
      by_cases here : pid = k.current
      · subst here
        simp [kept]
      · simp [Function.update_of_ne here]
  | @call k thread reg requests =>
      obtain ⟨sets, keeps⟩ := requests_shareless build requests
      refine (interrupt_share reg k pid).trans ?_
      by_cases here : pid = k.current
      · subst here
        simp only [Function.update_self, true_and]
        by_cases kind : reg.service = .user2
        · rw [if_pos kind, if_neg (sets kind), requests_setShare requests kind,
            slots_share low high]
        · rw [if_neg kind, if_congr (keeps kind) rfl rfl]
          exact known
      · simp only [here, false_and, if_false, Function.update_of_ne here]
        exact known
  | @clock k thread reg tick =>
      refine (interrupt_share reg k pid).trans ?_
      rw [if_neg (by simp [tick_service tick])]
      exact known
  | dispatch picked =>
      obtain ⟨chosen, -, -, times, rngs, rfl⟩ := safe_tested (by rw [algorithm]; decide) _ _
        state.table.1 state.algorithm picked
      exact known

theorem init_shares (algorithm : boot.schedulingAlgorithm = 3) : Shares (init boot) := by
  refine ⟨start_shareState algorithm, fun pid low high => ?_⟩
  exact congrArg Process.pShare (boot.kernel_proc low high)

theorem Shares.positive (shares : Shares s) {pid : Nat} (low : 1 ≤ pid) (high : pid < nprocs) :
    1 ≤ s.machine.kernel.shares pid := by
  rw [shares.shares pid low high, slots_pid high]
  split_ifs <;> omega

theorem Thread.Rests.shareless {turns : Nat} (rests : t.Rests build turns) :
    t.pc.Shareless ↔ turns = 0 := by
  rcases rests with ⟨none, here⟩ | ⟨some, -, -, here⟩ | ⟨all, here⟩
  · rw [here]
    exact iff_of_true (by decide) none
  · rw [here]
    exact iff_of_false (head_shareless build turns) (by omega)
  · rw [here]
    exact iff_of_false (by decide) (by omega)

end Shares

section Standing

variable {build : Build} {boot : Boot} {turns : List Nat} {s s' : System} {k k' : Kernel}
  {thread : Nat → Thread} {n : Nat}

/-- The turns so far are the order up to here, without those of processes that had exited; of the
block of the current process `taken` turns are over. -/
structure Standing (n : Nat) (turns : List Nat) (k : Kernel) (passed : List Nat)
    (taken rounds : Nat) : Prop where
  order : shareTurns n = passed ++ List.replicate (slots k.current - taken) k.current ++
    ahead slots nprocs k.current rounds
  turns : turns = firsts (n + 1) passed
  most : taken ≤ slots k.current
  counter : k.Runnable k.current → k.times k.current = taken

def Exits (n : Nat) (turns : List Nat) (k : Kernel) : Prop :=
  ∀ pid, 1 ≤ pid → pid < nprocs → (k.Runnable pid ↔ turns.count pid ≤ n)

variable {passed : List Nat} {taken rounds : Nat}

theorem Standing.runnable (standing : Standing n turns k passed taken rounds)
    (exits : Exits n turns k) {pid : Nat} (low : 1 ≤ pid) (high : pid < nprocs) :
    k.Runnable pid ↔ passed.count pid ≤ n := by
  rw [exits pid low high, standing.turns, firsts_count]
  omega

theorem Standing.kept (standing : Standing n turns k passed taken rounds)
    (current : k'.current = k.current) (times : k'.times k.current = k.times k.current)
    (ready : k'.Runnable k.current → k.Runnable k.current) :
    Standing n turns k' passed taken rounds := by
  obtain ⟨order, same, most, counter⟩ := standing
  refine ⟨?_, same, ?_, ?_⟩
  · rw [current]
    exact order
  · rw [current]
    exact most
  · rw [current]
    exact fun runs => times.trans (counter (ready runs))

theorem firsts_next {passed left : List Nat} {pid : Nat}
    (gone : ∀ q ∈ left, n + 1 ≤ passed.count q) (some : passed.count pid ≤ n) :
    firsts (n + 1) (passed ++ left ++ [pid]) = firsts (n + 1) passed ++ [pid] := by
  have away : left.count pid = 0 := List.count_eq_zero_of_not_mem fun member => by
    have := gone pid member
    omega
  rw [firsts_shows (by rw [List.count_append, away]; omega), firsts_dropped gone]

theorem Standing.keeps (standing : Standing n turns k passed taken rounds)
    (exits : Exits n turns k) (low : 1 ≤ k.current) (high : k.current < nprocs)
    (runnable : k.Runnable k.current) (left : taken < slots k.current)
    {times : Nat → Int} (next : times k.current = taken + 1) (rngs : Rngs) :
    Standing n (turns ++ [k.current]) ((k.retimed times rngs).run k.current)
      (passed ++ [k.current]) (taken + 1) rounds := by
  have few := (standing.runnable exits low high).mp runnable
  obtain ⟨order, same, -, -⟩ := standing
  refine ⟨?_, ?_, left, fun _ => next⟩
  · change shareTurns n = passed ++ [k.current] ++
      List.replicate (slots k.current - (taken + 1)) k.current ++ _
    have first : slots k.current - taken = slots k.current - (taken + 1) + 1 := by omega
    rw [order, first, List.replicate_succ]
    simp only [List.append_assoc, List.cons_append]
    rfl
  · rw [same]
    exact (firsts_shows (by omega)).symm

theorem Standing.passes (runs : 1 ≤ n) (standing : Standing n turns k passed taken rounds)
    (table : k.WellFormed) (exits : Exits n turns k)
    (spent : ¬ (k.Runnable k.current ∧ taken < slots k.current))
    {pid : Nat} (next : Rotation.IsNext nprocs k.Runnable k.current pid)
    {times : Nat → Int} (first : times pid = 1) (rngs : Rngs) :
    ∃ before after,
      Standing n (turns ++ [pid]) ((k.retimed times rngs).run pid) before 1 after := by
  obtain ⟨low, high⟩ := table.current
  have pidLow := table.positive next.stop
  have few := (standing.runnable exits pidLow next.bound).mp next.stop
  have gone {q : Nat} (qLow : 1 ≤ q) (qHigh : q < nprocs) (exited : ¬ k.Runnable q) :
      n + 1 ≤ passed.count q := by
    have := mt (standing.runnable exits qLow qHigh).mpr exited
    omega
  obtain ⟨order, same, most, counter⟩ := standing
  -- Nothing of the current block is left for a process that goes on.
  have block : ∀ q ∈ List.replicate (slots k.current - taken) k.current,
      n + 1 ≤ passed.count q := by
    intro q member
    obtain ⟨some, rfl⟩ := List.mem_replicate.mp member
    exact gone low high fun ready => spent ⟨ready, by omega⟩
  obtain ⟨skipped, exited, split⟩ := next_block (w := slots) high next
  have left : ∀ q ∈ List.replicate (slots k.current - taken) k.current ++ skipped,
      n + 1 ≤ passed.count q := by
    intro q member
    rcases List.mem_append.mp member with here | later
    · exact block q here
    · obtain ⟨stopped, inside, some⟩ := exited q later
      have positive : q ≠ 0 := by rintro rfl; simp [slots] at some
      exact gone (by omega) inside stopped
  obtain ⟨after, rest⟩ : ∃ after, ahead slots nprocs k.current rounds =
      skipped ++ Rounds.block slots pid ++ ahead slots nprocs pid after := by
    rcases split with ⟨-, whole⟩ | ⟨around, whole⟩
    · exact ⟨rounds, whole rounds⟩
    · cases rounds with
      | succ rounds => exact ⟨rounds, whole rounds⟩
      | zero =>
          -- After the last round every process has had its turns and exited.
          exfalso
          have total := shareTurns_count runs pidLow next.bound
          have none : (List.replicate (slots k.current - taken) k.current).count pid = 0 := by
            refine List.count_eq_zero_of_not_mem fun member => ?_
            have := block pid member
            omega
          rw [order, List.count_append, List.count_append, ahead_count next.bound high, none,
            if_neg (by omega)] at total
          omega
  refine ⟨passed ++ (List.replicate (slots k.current - taken) k.current ++ skipped) ++ [pid], after,
    ?_, ?_, ?_, fun _ => first⟩
  · change shareTurns n = _ ++ List.replicate (slots pid - 1) pid ++ ahead slots nprocs pid after
    have one : List.replicate (slots pid) pid = pid :: List.replicate (slots pid - 1) pid := by
      rw [← List.replicate_succ, Nat.sub_add_cancel (by rw [slots_pid next.bound]; exact pidLow)]
    rw [order, rest, Rounds.block, one]
    simp only [List.append_assoc, List.cons_append, List.nil_append]
  · rw [same]
    exact (firsts_next left few).symm
  · change 1 ≤ slots pid
    rw [slots_pid next.bound]
    exact pidLow

end Standing

section Run

variable {build : Build} {boot : Boot} {turns : List Nat} {s s' : System} {k k' : Kernel}
  {thread : Nat → Thread}

theorem TurnState.exits (here : TurnState build boot turns ⟨.scheduling k, thread⟩) :
    Exits build.runcount turns k := fun _ low high => (here.runnable low high).2

theorem TurnState.asked (here : TurnState build boot turns ⟨.scheduling k, thread⟩)
    (shares : Shares ⟨.scheduling k, thread⟩) : k.shares k.current = slots k.current := by
  obtain ⟨low, high⟩ := here.state.table.1.current
  obtain ⟨rests, -⟩ := here.runnable low high
  obtain ⟨earlier, last, rfl, inTurn⟩ := here.inTurn
  have current : k.current = last := inTurn.1.trans (nth_concat earlier last)
  have some : (earlier ++ [last]).count k.current ≠ 0 := by
    rw [current, List.count_append, List.count_singleton_self]
    exact Nat.succ_ne_zero _
  exact (shares.shares _ low high).trans (if_neg (mt rests.shareless.mp some))

theorem Standing.dispatch {passed : List Nat} {taken rounds : Nat} (runs : 1 ≤ build.runcount)
    (algorithm : boot.schedulingAlgorithm = 3)
    (standing : Standing build.runcount turns k passed taken rounds)
    (here : TurnState build boot turns ⟨.scheduling k, thread⟩)
    (shares : Shares ⟨.scheduling k, thread⟩) (picked : k.Schedules k') :
    ∃ passed taken rounds,
      Standing build.runcount (turns ++ [k'.current]) k' passed taken rounds := by
  have table : k.WellFormed := here.state.table.1
  have same : k.schedulingAlgorithm = 3 := here.state.algorithm.trans algorithm
  have asked := here.asked shares
  by_cases goes : k.Runnable k.current ∧ k.times k.current < k.shares k.current
  · obtain ⟨runnable, left⟩ := goes
    have counter := standing.counter runnable
    rw [Kernel.share_keeps table same runnable left] at picked
    subst picked
    refine ⟨_, _, _, standing.keeps here.exits table.current.1 table.current.2 runnable ?_ ?_ _⟩
    · omega
    · rw [Function.update_self, counter]
  · have spent : ¬ (k.Runnable k.current ∧ taken < slots k.current) := by
      rintro ⟨runnable, left⟩
      have counter := standing.counter runnable
      exact goes ⟨runnable, by omega⟩
    obtain ⟨pid, next, rfl⟩ := (Kernel.share_passes table shares.state.counted same
      (fun pid bound ready => shares.positive (table.positive ready) bound) goes).mp picked
    obtain ⟨before, after, later⟩ := standing.passes runs table here.exits spent next
      (Function.update_self ..) k.rngs
    exact ⟨before, 1, after, later⟩

theorem Plays.shares (algorithm : boot.schedulingAlgorithm = 3) (sync : build.Synchronized)
    (plays : Plays build Kernel.Schedules boot turns s) : AppState build boot s ∧ Shares s := by
  have safe : Safe boot Kernel.Schedules := safe_tested (by rw [algorithm]; decide)
  induction plays with
  | start => exact ⟨init_appState build boot, init_shares algorithm⟩
  | step _ next ih => exact ⟨ih.1.step safe sync next.toStep, ih.2.step algorithm ih.1 next.toStep⟩

theorem Plays.standing (algorithm : boot.schedulingAlgorithm = 3) (locks : build.syncMethod = 1)
    (runs : 1 ≤ build.runcount) (room : 4 * build.runcount ≤ 2000)
    (plays : Plays build Kernel.Schedules boot turns s) :
    ∃ passed taken rounds,
      Standing build.runcount turns s.machine.kernel passed taken rounds := by
  have safe : Safe boot Kernel.Schedules := safe_tested (by rw [algorithm]; decide)
  induction plays with
  | start =>
      refine ⟨[1], 0, build.runcount - 1, ?_, ?_, Nat.zero_le _, fun _ => rfl⟩
      · obtain ⟨n, some⟩ : ∃ n, build.runcount = n + 1 := ⟨build.runcount - 1, by omega⟩
        rw [some]
        rfl
      · exact (@firsts_shows _ [] 1 (Nat.succ_pos _)).symm
  | @step turns s s' before next ih =>
      obtain ⟨passed, taken, rounds, standing⟩ := ih
      obtain ⟨_, unclocked, next⟩ := next
      cases next with
      | clock => exact absurd rfl unclocked
      | @access k k' thread t acts =>
          rw [dispatched, List.append_nil]
          refine ⟨passed, taken, rounds, standing.kept ?_ ?_ ?_⟩ <;> rw [access_store acts]
          · rfl
          · rfl
          · exact id
      | @call k thread reg requests =>
          rw [dispatched, List.append_nil]
          refine ⟨passed, taken, rounds, standing.kept (interrupt_current reg k) ?_ ?_⟩
          · exact congrFun (interrupt_times reg k) _
          · have moved : SchedOS.Step Kernel.Schedules (.user k) (.interrupt k.current reg)
              (interrupt reg k) := .interrupt k reg
            exact step_runnable (by rintro k' ⟨⟩) moved
      | @dispatch k k' thread picked =>
          have here := before.turnState locks room safe
          have shares := (before.shares algorithm (.inl locks)).2
          exact standing.dispatch runs algorithm here shares picked

end Run

theorem share_order (build : Build) (locks : build.syncMethod = 1) (runs : 1 ≤ build.runcount)
    (room : 4 * build.runcount ≤ 2000) (boot : Boot) (algorithm : boot.schedulingAlgorithm = 3) :
    (∀ turns s, Plays build Kernel.Schedules boot turns s →
      (∃ log, Printed s log ∧ log <+: shareOutput build.runcount) ∧
      (s.machine.kernel.SomeRunnable → ∃ s', Unclocked build Kernel.Schedules s s') ∧
      (¬ s.machine.kernel.SomeRunnable →
        s.machine.kernel.cursorpos = cell (4 * build.runcount) ∧
        ((List.range (4 * build.runcount)).map fun j => s.machine.kernel.cells (cell j)) =
          (shareOutput build.runcount).map char)) ∧
    ¬ ∃ run : Nat → System, run 0 = init boot ∧
      ∀ i, Unclocked build Kernel.Schedules (run i) (run (i + 1)) := by
  have safe : Safe boot Kernel.Schedules := safe_tested (by rw [algorithm]; decide)
  refine ⟨fun turns s plays => ?_, no_endless_run locks room safe⟩
  have here := plays.turnState locks room safe
  obtain ⟨-, shares⟩ := plays.shares algorithm (.inl locks)
  obtain ⟨passed, taken, rounds, standing⟩ := plays.standing algorithm locks runs room
  have begins : firsts build.runcount turns <+: shareOutput build.runcount := by
    rw [standing.turns, firsts_firsts (Nat.le_succ _)]
    have earlier : passed <+: shareTurns build.runcount := by
      rw [standing.order, List.append_assoc]
      exact List.prefix_append _ _
    exact firsts_mono earlier
  refine ⟨?_, fun left => ?_, fun done => ?_⟩
  · obtain ⟨log, printed, shown⟩ := here.shown
    exact ⟨log, printed, shown.trans begins⟩
  · obtain ⟨earlier, last, -, inTurn⟩ := here.inTurn
    obtain ⟨m, thread⟩ := s
    cases m with
    | user k => exact here.state.progress
    | scheduling k =>
        obtain ⟨pid, low, high, ready⟩ := left
        obtain ⟨k', picked⟩ := (Kernel.schedules_share_ends shares.state.counted
          here.state.table.1 (here.state.algorithm.trans algorithm)).mpr
            ⟨pid, low, high, ready, shares.positive low (Nat.lt_succ_of_le high)⟩
        exact ⟨_, .dispatch picked⟩
    | halted k => exact inTurn.elim
  · obtain ⟨printed, length, cursor, -⟩ := here.finished done
    have same := begins.eq_of_length (length.trans (shareOutput_length runs).symm)
    have cells := printed.cells
    rw [length, same] at cells
    exact ⟨cursor, cells⟩

theorem share_order_source : ∃ turns s,
    Plays ⟨1, 320⟩ Kernel.Schedules (bareBoot 3) turns s ∧
      s.machine.kernel.cursorpos = cell 1280 ∧
      ((List.range 1280).map fun j => s.machine.kernel.cells (cell j)) =
        (shareOutput 320).map char := by
  have algorithm : (bareBoot 3).schedulingAlgorithm = 3 := rfl
  have safe : Safe (bareBoot 3) Kernel.Schedules := safe_tested (by rw [algorithm]; decide)
  obtain ⟨turns, s, plays, done⟩ := @plays_finish ⟨1, 320⟩ (bareBoot 3) Kernel.Schedules rfl
    (by decide) safe fun turns k thread plays left => by
      obtain ⟨state, shares⟩ := plays.shares algorithm (.inl rfl)
      obtain ⟨pid, low, high, ready⟩ := left
      exact (Kernel.schedules_share_ends shares.state.counted state.table.1
        (state.algorithm.trans algorithm)).mpr
          ⟨pid, low, high, ready, shares.positive low (Nat.lt_succ_of_le high)⟩
  obtain ⟨cursor, cells⟩ := ((share_order ⟨1, 320⟩ rfl (by decide) (by decide) (bareBoot 3)
    algorithm).1 turns s plays).2.2 done
  exact ⟨turns, s, plays, cursor, cells⟩

end App

end SchedOS
