import SchedOS.App.Preemption
import SchedOS.App.Serial

set_option autoImplicit false

namespace SchedOS

namespace App

open Rotation

variable {build : Build} {boot : Boot} {s s' : System} {k k' : Kernel} {thread : Nat → Thread}
  {t t' : Thread} {reg : Registers} {h : Nat}

theorem safe_tested (tested : boot.schedulingAlgorithm ≠ 1) : Safe boot Kernel.Schedules := by
  intro k k' table same
  exact Kernel.schedules_picks table (by rwa [same])

theorem nearer_scan {pid : Nat} (table : k.WellFormed)
    (next : IsNext nprocs k.Runnable k.current pid) (high : h < nprocs) (runnable : k.Runnable h)
    (other : pid ≠ h) : gap nprocs pid h < gap nprocs k.current h := by
  have current : k.current < nprocs := table.current.2
  have first := next.first h high runnable
  have apart : gap nprocs k.current pid ≠ gap nprocs k.current h := fun same =>
    other (gap_inj current next.bound high same)
  have hop := gap_hop current next.bound high (Nat.lt_of_le_of_ne first apart)
  omega

theorem fair_roundRobin (algorithm : boot.schedulingAlgorithm = 0) :
    Fair build boot (fun _ => True) fun k h => gap nprocs k.current h where
  safe := safe_tested (by rw [algorithm]; decide)
  initial := trivial
  step := fun _ _ _ => trivial
  ends := fun state _ left =>
    (Kernel.schedules_roundRobin_ends state.table.1 (state.algorithm.trans algorithm)).mpr left
  nearer := by
    intro k k' thread h state _ picked low high runnable other
    obtain ⟨pid, next, rfl⟩ := (Kernel.schedules_roundRobin state.table.1
      (state.algorithm.trans algorithm)).mp picked
    exact nearer_scan state.table.1 next high runnable other
  still := fun k reg h _ => by rw [interrupt_current]

section Share

open Wheel

structure Sharing (s : System) : Prop where
  state : ShareState s.machine
  shares : ∀ pid, 1 ≤ pid → pid < nprocs → 1 ≤ s.machine.kernel.shares pid

theorem requests_setShare {app : Macros} (requests : Requests app t.pc reg)
    (sets : reg.service = .user2) : reg.regEax = app.share := by
  rcases requests.cases with ⟨-, kind⟩ | ⟨here, -⟩ | ⟨-, kind⟩ | ⟨-, kind⟩ | ⟨-, kind⟩ |
    ⟨-, kind⟩
  case inr.inl => exact requests.argument app.share (by simp [here, Pc.call])
  all_goals exact absurd (kind.symm.trans sets) (by decide)

theorem share_positive (pid : Nat) : 1 ≤ (macros pid).share.toInt := by
  unfold macros
  split <;> decide

theorem Sharing.step (algorithm : boot.schedulingAlgorithm = 3) (state : AppState build boot s)
    (sharing : Sharing s) (step : Step build Kernel.Schedules s s') : Sharing s' := by
  obtain ⟨label, moved⟩ := step_machine step
  refine ⟨sharing.state.step moved, fun pid low high => ?_⟩
  have before := sharing.shares pid low high
  obtain ⟨_, step⟩ := step
  cases step with
  | @access k k' thread t acts =>
      have same : k'.shares pid = k.shares pid := by rw [access_store acts]; rfl
      exact le_of_le_of_eq before same.symm
  | @call k thread reg requests =>
      refine le_of_le_of_eq ?_ (interrupt_share reg k pid).symm
      split_ifs with sets
      · rw [requests_setShare requests sets.2]
        exact share_positive _
      · exact before
  | @clock k thread reg tick =>
      refine le_of_le_of_eq before ((interrupt_share reg k pid).trans ?_).symm
      rw [if_neg (by simp [tick_service tick])]
      rfl
  | dispatch picked =>
      obtain ⟨chosen, -, -, times, rngs, rfl⟩ := safe_tested (by rw [algorithm]; decide) _ _
        state.table.1 state.algorithm picked
      exact before

theorem init_sharing (algorithm : boot.schedulingAlgorithm = 3) : Sharing (init boot) := by
  refine ⟨start_shareState algorithm, fun pid low high => ?_⟩
  exact (congrArg Process.pShare (boot.kernel_proc low high)).symm.le

noncomputable def slotsAway (k : Kernel) (h : Nat) : Nat :=
  Reach.firstTime fun turns => Owns k.weight ((k.slot + turns) % k.totalShare) h

theorem slot_comes (high : h < nprocs) (weighs : 1 ≤ k.weight h) :
    ∃ turns, Owns k.weight ((k.slot + turns) % k.totalShare) h := by
  have own : Owns k.weight (mark k.weight h) h := by
    rw [Owns, mark_succ]
    omega
  have inside : mark k.weight h < k.totalShare := own.2.trans_le (mark_mono _ high)
  refine ⟨mark k.weight h + (k.totalShare - k.slot % k.totalShare), ?_⟩
  have most := (Nat.mod_lt k.slot (Nat.zero_lt_of_lt inside)).le
  have whole : k.slot + (mark k.weight h + (k.totalShare - k.slot % k.totalShare)) =
      mark k.weight h + k.totalShare * (k.slot / k.totalShare + 1) := by
    have parts := Nat.div_add_mod k.slot k.totalShare
    rw [Nat.mul_succ]
    omega
  rw [whole, Nat.add_mul_mod_self_left, Nat.mod_eq_of_lt inside]
  exact own

theorem nearer_share (turned : k.Turned k') (same : k'.weight = k.weight) (high : h < nprocs)
    (weighs : 1 ≤ k.weight h) (other : k'.current ≠ h) : slotsAway k' h < slotsAway k h := by
  have total : k'.totalShare = k.totalShare := by rw [Kernel.totalShare, same, Kernel.totalShare]
  have later : slotsAway k' h = Reach.firstTime fun turns =>
      Owns k.weight ((k.slot + (turns + (0 + 1))) % k.totalShare) h := by
    unfold slotsAway
    congr 1
    funext turns
    have moved := turned.slot.add_right turns
    rw [same, total, show k.slot + (turns + (0 + 1)) = k.slot + 1 + turns by omega]
    rw [show (k'.slot + turns) % k.totalShare = (k.slot + 1 + turns) % k.totalShare from moved]
  rw [later]
  apply Reach.firstTime_later (slot_comes high weighs)
  intro turns now own
  obtain rfl := Nat.le_zero.mp now
  exact other (turned.owner.unique own)

theorem weight_one (sharing : Sharing s) (low : 1 ≤ h) (high : h < nprocs)
    (runnable : s.machine.kernel.Runnable h) : 1 ≤ s.machine.kernel.weight h := by
  have share := sharing.shares h low high
  rw [Kernel.weight, if_pos runnable]
  omega

theorem fair_share (algorithm : boot.schedulingAlgorithm = 3) :
    Fair build boot Sharing slotsAway where
  safe := safe_tested (by rw [algorithm]; decide)
  initial := init_sharing algorithm
  step := fun state sharing step => sharing.step algorithm state step
  ends := by
    intro k thread state sharing left
    obtain ⟨pid, low, high, runnable⟩ := left
    have share := sharing.shares pid low (Nat.lt_succ_of_le high)
    exact (Kernel.schedules_share_ends sharing.state.counted state.table.1
      (state.algorithm.trans algorithm)).mpr ⟨pid, low, high, runnable, share⟩
  nearer := by
    intro k k' thread h state sharing picked low high runnable other
    have turned := Kernel.share_turned state.table.1 sharing.state.counted
      ((Kernel.schedules_share state.table.1 (state.algorithm.trans algorithm)).mp picked)
    have same : k'.weight = k.weight := by
      obtain ⟨pid, -, -, times, rngs, rfl⟩ := safe_tested (by rw [algorithm]; decide) k k'
        state.table.1 state.algorithm picked
      rfl
    exact nearer_share turned same high (weight_one sharing low high runnable) other
  still := by
    intro k reg h tick
    have kind : reg.service = .clock := tick_service tick
    have weight : (interrupt reg k).kernel.weight = k.weight := by
      funext pid
      have share : (interrupt reg k).kernel.shares pid = k.shares pid := by
        refine (interrupt_share reg k pid).trans ?_
        rw [if_neg (by simp [kind])]
        rfl
      simp only [Kernel.weight, share, (clock_kept tick k).2.2 pid]
    have slot : (interrupt reg k).kernel.slot = k.slot := by
      simp only [Kernel.slot, Kernel.slotAt, weight, interrupt_current, interrupt_times]
    simp only [slotsAway, weight, slot, Kernel.totalShare]

end Share

section Lottery

structure Sold (s : System) : Prop where
  state : LotteryState s.machine
  total : s.machine.kernel.numTickets + ∑ pid ∈ Finset.Ico 1 nprocs, (s.thread pid).unsold = 4
  holds : ∀ pid, 1 ≤ pid → pid < nprocs → (s.thread pid).unsold = 0 →
    ∃ ticket, ticket < s.machine.kernel.numTickets ∧ s.machine.kernel.tickets ticket = pid

theorem access_unsold {app : Macros} (acts : Access app k t k' t') :
    t.unsold = 0 ∧ t'.unsold = 0 := by
  cases acts with
  | acquire here => split_ifs <;> simp [Thread.unsold, here]
  | load here | charFirst here | cursorLast here | cursorFirst here | charLast here
  | release here => simp [Thread.unsold, here]

theorem Sold.call {m : Machine} (state : AppState build boot ⟨.user k, thread⟩)
    (sold : Sold ⟨.user k, thread⟩)
    (requests : Requests (macros k.current) (thread k.current).pc reg)
    (moved : LotteryState m) (enters : interrupt reg k = m) :
    Sold ⟨m, Function.update thread k.current ((thread k.current).resume build)⟩ := by
  subst enters
  have bound : 1 ≤ k.current ∧ k.current < nprocs := state.table.1.current
  have holds : (k.procArray k.current).pPid = k.current := state.table.1.pid
  obtain ⟨number, holder⟩ := interrupt_tickets reg k
  have unsold := resume_unsold build requests
  have sum := sum_update Thread.unsold thread ((thread k.current).resume build) bound
  have total : k.numTickets + ∑ pid ∈ Finset.Ico 1 nprocs, (thread pid).unsold = 4 := sold.total
  have room : k.numTickets < maxTickets := by
    simp only [maxTickets]
    omega
  simp only [room, and_true] at number holder
  refine ⟨moved, ?_, fun pid low high has => ?_⟩
  · simp only [number]
    split_ifs at unsold ⊢ <;> omega
  · simp only [number, holder]
    by_cases here : pid = k.current
    · subst here
      simp only [Function.update_self] at has
      by_cases sells : reg.service = .user4
      · rw [if_pos sells, if_pos sells]
        exact ⟨k.numTickets, Nat.lt_succ_self _, by rw [Function.update_self, holds]⟩
      · rw [if_neg sells] at unsold
        rw [if_neg sells, if_neg sells]
        exact sold.holds k.current low high (by simp only; omega)
    · simp only [Function.update_of_ne here] at has
      obtain ⟨ticket, less, holds⟩ := sold.holds pid low high has
      have before : ticket < k.numTickets := less
      refine ⟨ticket, ?_, ?_⟩
      · split_ifs <;> omega
      · split_ifs
        · rw [Function.update_of_ne (by omega)]
          exact holds
        · exact holds

theorem Sold.step (algorithm : boot.schedulingAlgorithm = 4) (state : AppState build boot s)
    (sold : Sold s) (step : Step build Kernel.Schedules s s') : Sold s' := by
  obtain ⟨label, moved⟩ := step_machine step
  have lottery := sold.state.step moved
  obtain ⟨_, step⟩ := step
  cases step with
  | @access k k' thread t acts =>
      obtain ⟨before, after⟩ := access_unsold acts
      have sum := sum_update Thread.unsold thread t state.table.1.current
      have tickets : k'.numTickets = k.numTickets ∧ k'.tickets = k.tickets := by
        rw [access_store acts]
        exact ⟨rfl, rfl⟩
      have total : k.numTickets + ∑ pid ∈ Finset.Ico 1 nprocs, (thread pid).unsold = 4 := sold.total
      refine ⟨lottery, ?_, fun pid low high has => ?_⟩
      · simp only [Machine.kernel, tickets.1] at sum ⊢
        omega
      · have had : (thread pid).unsold = 0 := by
          by_cases here : pid = k.current
          · subst here
            exact before
          · simpa only [Function.update_of_ne here] using has
        simp only [Machine.kernel, tickets]
        exact sold.holds pid low high had
  | call requests => exact sold.call state requests lottery rfl
  | @clock k thread reg tick =>
      obtain ⟨number, holder⟩ := interrupt_tickets reg k
      rw [if_neg (by simp [tick_service tick])] at number holder
      refine ⟨lottery, ?_, fun pid low high has => ?_⟩
      · simp only [number]
        exact sold.total
      · simp only [number, holder]
        exact sold.holds pid low high has
  | dispatch picked =>
      obtain ⟨chosen, -, -, times, rngs, rfl⟩ := safe_tested (by rw [algorithm]; decide) _ _
        state.table.1 state.algorithm picked
      exact ⟨lottery, sold.total, sold.holds⟩

theorem init_sold (algorithm : boot.schedulingAlgorithm = 4) : Sold (init boot) :=
  ⟨start_lotteryState algorithm, rfl, fun _ _ _ has =>
    absurd has (show ¬ Thread.initial.unsold = 0 by decide)⟩

theorem Sold.holder (sold : Sold s) (enough : 4 ≤ s.machine.kernel.numTickets) (low : 1 ≤ h)
    (high : h < nprocs) :
    ∃ ticket, ticket < s.machine.kernel.numTickets ∧ s.machine.kernel.tickets ticket = h := by
  have total := sold.total
  have none : ∑ pid ∈ Finset.Ico 1 nprocs, (s.thread pid).unsold = 0 := by omega
  exact sold.holds h low high
    (Finset.sum_eq_zero_iff.mp none h (Finset.mem_Ico.mpr ⟨low, high⟩))

noncomputable def drawsAway (k : Kernel) (h : Nat) : Nat :=
  Reach.firstTime fun draws => k.winner (k.rngs.after draws) = h

theorem lottery_first (ended : Loop.Leaves Kernel.lotteryPass k k') :
    ∃ draws, (∀ d, d < draws → ¬ k.Runnable (k.winner (k.rngs.after d))) ∧
      k' = (k.retimed k.times (k.rngs.after (draws + 1))).run (k.winner (k.rngs.after draws)) := by
  let drawing := fun s : Kernel => ∃ draws, s = k.retimed k.times (k.rngs.after draws) ∧
    ∀ d, d < draws → ¬ k.Runnable (k.winner (k.rngs.after d))
  let drawn := fun final : Kernel => ∃ draws,
    (∀ d, d < draws → ¬ k.Runnable (k.winner (k.rngs.after d))) ∧
      final = (k.retimed k.times (k.rngs.after (draws + 1))).run (k.winner (k.rngs.after draws))
  refine ended.post drawing drawn ⟨0, rfl, fun d none => absurd none (Nat.not_lt_zero d)⟩ ?_ ?_
  · rintro _ next ⟨draws, rfl, lost⟩ pass
    by_cases won : k.Runnable (k.winner (k.rngs.after draws))
    · rw [Kernel.lottery_leave won] at pass
      cases pass
    · rw [Kernel.lottery_again won, ← Rngs.after_succ] at pass
      cases pass
      refine ⟨draws + 1, rfl, fun d less => ?_⟩
      rcases Nat.lt_succ_iff_lt_or_eq.mp less with earlier | rfl
      · exact lost d earlier
      · exact won
  · rintro _ final ⟨draws, rfl, lost⟩ pass
    by_cases won : k.Runnable (k.winner (k.rngs.after draws))
    · rw [Kernel.lottery_leave won, ← Rngs.after_succ] at pass
      cases pass
      exact ⟨draws, lost, rfl⟩
    · rw [Kernel.lottery_again won] at pass
      cases pass

theorem nearer_lottery (comes : ∃ draws, k.winner (k.rngs.after draws) = h)
    (runnable : k.Runnable h) (ended : Loop.Leaves Kernel.lotteryPass k k')
    (other : k'.current ≠ h) : drawsAway k' h < drawsAway k h := by
  obtain ⟨draws, lost, rfl⟩ := lottery_first ended
  have later (d : Nat) : (k.rngs.after (draws + 1)).after d = k.rngs.after (d + (draws + 1)) :=
    (Function.iterate_add_apply _ _ _ _).symm
  have same : drawsAway ((k.retimed k.times (k.rngs.after (draws + 1))).run
      (k.winner (k.rngs.after draws))) h =
        Reach.firstTime fun d => k.winner (k.rngs.after (d + (draws + 1))) = h := by
    unfold drawsAway
    congr 1
    funext d
    rw [← later]
    rfl
  rw [same]
  apply Reach.firstTime_later comes
  intro d now won
  rcases Nat.lt_or_eq_of_le now with earlier | rfl
  · rw [← won] at runnable
    exact lost d earlier runnable
  · exact other won

theorem fair_lottery (algorithm : boot.schedulingAlgorithm = 4) :
    Fair build boot Sold fun k h =>
      if k.numTickets < 4 then gap nprocs k.current h else drawsAway k h where
  safe := safe_tested (by rw [algorithm]; decide)
  initial := init_sold algorithm
  step := fun state sold step => sold.step algorithm state step
  ends := by
    intro k thread state sold left
    apply (Kernel.schedules_lottery_ends state.table.1 (state.algorithm.trans algorithm)
      sold.state.seed sold.state.room).mpr
    rcases Nat.lt_or_ge k.numTickets 4 with few | enough
    · exact .inl ⟨few, left⟩
    · obtain ⟨pid, low, high, runnable⟩ := left
      obtain ⟨ticket, bound, holds⟩ := sold.holder enough low (Nat.lt_succ_of_le high)
      exact .inr ⟨enough, ticket, bound, holds.symm ▸ runnable⟩
  nearer := by
    intro k k' thread h state sold picked low high runnable other
    have lottery : k.schedulingAlgorithm = 4 := state.algorithm.trans algorithm
    have tickets : k'.numTickets = k.numTickets := by
      obtain ⟨pid, -, -, times, rngs, rfl⟩ := safe_tested (by rw [algorithm]; decide) k k'
        state.table.1 state.algorithm picked
      rfl
    rw [tickets]
    rcases Nat.lt_or_ge k.numTickets 4 with few | enough
    · rw [if_pos few, if_pos few]
      obtain ⟨pid, next, rfl⟩ := (Kernel.roundRobin_leaves state.table.1).mp
        ((Kernel.schedules_unsold state.table.1 lottery few).mp picked)
      exact nearer_scan state.table.1 next high runnable other
    · rw [if_neg (Nat.not_lt.mpr enough), if_neg (Nat.not_lt.mpr enough)]
      obtain ⟨ticket, bound, holds⟩ := sold.holder enough low high
      obtain ⟨draws, -, drawn⟩ := Kernel.ticket_drawn sold.state.seed sold.state.room bound
      exact nearer_lottery ⟨draws, drawn.trans holds⟩ runnable
        ((Kernel.schedules_lottery lottery enough).mp picked) other
  still := by
    intro k reg h tick
    obtain ⟨number, holder⟩ := interrupt_tickets reg k
    rw [if_neg (by simp [tick_service tick])] at number holder
    simp only [drawsAway, Kernel.winner, Kernel.winnerIndex, number, holder, interrupt_rngs,
      interrupt_current]

end Lottery

/-- The applications under a fair scheduler, with the clock on: no run goes on for ever, and a run
that cannot go on has shown all of the output. -/
theorem preemption_ends (build : Build) (sync : build.syncMethod = 1 ∨ build.syncMethod = 2)
    (room : 4 * build.runcount ≤ 2000) (boot : Boot) (fair : boot.schedulingAlgorithm ∈ [0, 3, 4]) :
    (∀ run : Nat → System × Bool, run 0 = (init boot, false) →
      (∀ i, Sliced build Kernel.Schedules (run i) (run (i + 1))) →
        ¬ ∀ i, ∃ j, i ≤ j ∧ ∃ k, (run j).1.machine = .scheduling k) ∧
    ∀ a, Relation.ReflTransGen (Sliced build Kernel.Schedules) (init boot, false) a →
      (∃ b, Sliced build Kernel.Schedules a b) ∨ Finished build a.1 := by
  have known : ∃ keeps delay, Fair build boot keeps delay := by
    simp only [List.mem_cons, List.not_mem_nil, or_false] at fair
    rcases fair with zero | three | four
    · exact ⟨_, _, fair_roundRobin zero⟩
    · exact ⟨_, _, fair_share three⟩
    · exact ⟨_, _, fair_lottery four⟩
  obtain ⟨keeps, delay, fair⟩ := known
  exact ⟨fun run first steps => fair.ends_run sync first steps,
    fun a reaches => fair.ends_finished sync room reaches⟩

theorem preemption_ends_share :
    (∀ run : Nat → System × Bool, run 0 = (init (bareBoot 3), false) →
      (∀ i, Sliced ⟨1, 320⟩ Kernel.Schedules (run i) (run (i + 1))) →
        ¬ ∀ i, ∃ j, i ≤ j ∧ ∃ k, (run j).1.machine = .scheduling k) ∧
    ∀ a, Relation.ReflTransGen (Sliced ⟨1, 320⟩ Kernel.Schedules) (init (bareBoot 3), false) a →
      (∃ b, Sliced ⟨1, 320⟩ Kernel.Schedules a b) ∨ Finished ⟨1, 320⟩ a.1 :=
  preemption_ends ⟨1, 320⟩ (.inl rfl) (by decide) (bareBoot 3) (by decide)

end App

end SchedOS
