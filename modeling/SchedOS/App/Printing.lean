import SchedOS.App.Locking

set_option autoImplicit false

namespace SchedOS

namespace App

def Thread.printed (t : Thread) : Nat :=
  match t.pc with
  | .release | .yield => t.i + 1
  | _ => t.i

-- The half-done `*cursorpos++ = PRINTCHAR` of the thread in the critical section, with so many
-- cells of the screen written.
def Holding (k : Kernel) (t : Thread) (pid written : Nat) : Prop :=
  match t.pc with
  | .load | .release => k.cursorpos = cell written
  | .store => k.cursorpos = cell written ∧ t.cursor = cell written
  | .storeCursor => k.cursorpos = cell written ∧ t.cursor = cell written ∧
      k.cells (cell written) = char pid
  | .storeChar => k.cursorpos = cell (written + 1) ∧ t.cursor = cell written
  | _ => True

structure Printed (s : System) (log : List Nat) : Prop where
  authors : ∀ pid ∈ log, 1 ≤ pid ∧ pid < nprocs
  counts : ∀ pid, log.count pid = (s.thread pid).printed
  written : ∀ j pid, log[j]? = some pid → s.machine.kernel.cells (cell j) = char pid
  holding : ∀ pid, (s.thread pid).pc.Critical →
    Holding s.machine.kernel (s.thread pid) pid log.length
  between : (∀ pid, ¬ (s.thread pid).pc.Critical) →
    s.machine.kernel.cursorpos = cell log.length

def Extends (pid : Nat) (log after : List Nat) : Prop := after = log ∨ after = log ++ [pid]

section Printed

variable {build : Build} {boot : Boot} {sched : Kernel → Kernel → Prop} {s s' : System}
  {k k' : Kernel} {m : Machine} {thread : Nat → Thread} {t : Thread} {reg : Registers}
  {log : List Nat} {pid : Nat}

theorem printed_le (valid : t.Valid build) : t.printed ≤ build.runcount := by
  unfold Thread.Valid at valid
  unfold Thread.printed
  cases here : t.pc <;> simp only [here] at valid ⊢ <;> omega

theorem Printed.length_sum (printed : Printed s log) :
    log.length = ∑ pid ∈ Finset.Ico 1 nprocs, (s.thread pid).printed := by
  have inside : ∀ pid ∈ (log : Multiset Nat), pid ∈ Finset.Ico 1 nprocs := fun pid member =>
    Finset.mem_Ico.mpr (printed.authors pid member)
  calc log.length
      = ∑ pid ∈ Finset.Ico 1 nprocs, log.count pid := by
        simpa using (Multiset.sum_count_eq_card inside).symm
    _ = ∑ pid ∈ Finset.Ico 1 nprocs, (s.thread pid).printed :=
        Finset.sum_congr rfl fun pid _ => printed.counts pid

theorem Printed.length_le (printed : Printed s log)
    (valid : ∀ pid, (s.thread pid).Valid build) : log.length ≤ 4 * build.runcount := by
  rw [printed.length_sum]
  have bound := Finset.sum_le_card_nsmul (Finset.Ico 1 nprocs) (fun pid => (s.thread pid).printed)
    build.runcount fun pid _ => printed_le (valid pid)
  simpa [nprocs] using bound

theorem Printed.counts_append (printed : Printed ⟨m, thread⟩ log)
    (more : t.printed = (thread pid).printed + 1) (other : Nat) :
    (log ++ [pid]).count other = (Function.update thread pid t other).printed := by
  have before : log.count other = (thread other).printed := printed.counts other
  by_cases same : other = pid
  · subst same
    rw [Function.update_self, more, List.count_append, List.count_singleton_self, before]
  · rw [Function.update_of_ne same, List.count_append, before,
      List.count_eq_zero_of_not_mem (by simpa using same), Nat.add_zero]

theorem Printed.counts_same (printed : Printed ⟨m, thread⟩ log)
    (same : t.printed = (thread pid).printed) (other : Nat) :
    log.count other = (Function.update thread pid t other).printed := by
  rw [printed.counts]
  by_cases here : other = pid
  · subst here
    rw [Function.update_self, same]
  · rw [Function.update_of_ne here]

theorem Printed.alone {after : List Nat}
    (others : ∀ other, other ≠ pid → ¬ (thread other).pc.Critical)
    (authors : ∀ pid ∈ after, 1 ≤ pid ∧ pid < nprocs)
    (counts : ∀ other, after.count other = (Function.update thread pid t other).printed)
    (written : ∀ j pid, after[j]? = some pid → m.kernel.cells (cell j) = char pid)
    (holding : t.pc.Critical → Holding m.kernel t pid after.length)
    (between : ¬ t.pc.Critical → m.kernel.cursorpos = cell after.length) :
    Printed ⟨m, Function.update thread pid t⟩ after := by
  refine ⟨authors, counts, written, fun other inside => ?_, fun outside => ?_⟩
  · by_cases same : other = pid
    · subst same
      simp only [Function.update_self] at inside ⊢
      exact holding inside
    · simp only [Function.update_of_ne same] at inside
      exact absurd inside (others other same)
  · have here := outside pid
    simp only [Function.update_self] at here
    exact between here

theorem Printed.transfer {before : Machine} (printed : Printed ⟨before, thread⟩ log)
    (cursor : m.kernel.cursorpos = before.kernel.cursorpos)
    (cells : m.kernel.cells = before.kernel.cells) : Printed ⟨m, thread⟩ log := by
  refine ⟨printed.authors, printed.counts, ?_, fun pid inside => ?_, fun outside => ?_⟩
  · simp only [cells]
    exact printed.written
  · have holds := printed.holding pid inside
    unfold Holding at holds ⊢
    simp only [cursor, cells]
    exact holds
  · exact cursor.trans (printed.between outside)

theorem Printed.outside (printed : Printed ⟨m, thread⟩ log)
    (before : ¬ (thread pid).pc.Critical) (after : ¬ t.pc.Critical)
    (same : t.printed = (thread pid).printed) :
    Printed ⟨m, Function.update thread pid t⟩ log := by
  refine ⟨printed.authors, printed.counts_same same, printed.written, fun other inside => ?_,
    fun outside => printed.between fun other => ?_⟩
  · by_cases here : other = pid
    · subst here
      simp only [Function.update_self] at inside
      exact absurd inside after
    · simp only [Function.update_of_ne here] at inside ⊢
      exact printed.holding other inside
  · by_cases here : other = pid
    · exact here ▸ before
    · simpa only [Function.update_of_ne here] using outside other

theorem Printed.written_next (printed : Printed ⟨.user k, thread⟩ log) (room : log.length ≤ 2000)
    (value : BitVec 16) : ∀ j other, log[j]? = some other →
      Function.update k.cells (cell log.length) value (cell j) = char other := by
  intro j other entry
  have less : j < log.length := (List.getElem?_eq_some_iff.mp entry).1
  rw [Function.update_of_ne (cell_ne less room)]
  exact printed.written j other entry

theorem written_append {cells : BitVec 32 → BitVec 16}
    (before : ∀ j other, log[j]? = some other → cells (cell j) = char other)
    (last : cells (cell log.length) = char pid) :
    ∀ j other, (log ++ [pid])[j]? = some other → cells (cell j) = char other := by
  intro j other entry
  rcases Nat.lt_trichotomy j log.length with less | rfl | more
  · rw [List.getElem?_append_left less] at entry
    exact before j other entry
  · rw [List.getElem?_concat_length] at entry
    exact Option.some.inj entry ▸ last
  · simp [List.getElem?_append_right more.le, Nat.sub_ne_zero_of_lt more] at entry

theorem Printed.authors_append (printed : Printed s log) (bound : 1 ≤ pid ∧ pid < nprocs) :
    ∀ other ∈ log ++ [pid], 1 ≤ other ∧ other < nprocs := by
  intro other member
  rcases List.mem_append.mp member with before | last
  · exact printed.authors other before
  · exact List.mem_singleton.mp last ▸ bound

theorem Printed.access (room : 4 * build.runcount ≤ 2000)
    (state : AppState build boot ⟨.user k, thread⟩) (printed : Printed ⟨.user k, thread⟩ log)
    (acts : Access (macros k.current) k (thread k.current) k' t) :
    ∃ after, Extends k.current log after ∧
      Printed ⟨.user k', Function.update thread k.current t⟩ after := by
  have space := (printed.length_le state.valid).trans room
  have logged := printed.authors_append state.table.1.current
  have others {pc : Pc} (here : (thread k.current).pc = pc) (inside : pc.Critical) :
      ∀ other, other ≠ k.current → ¬ (thread other).pc.Critical :=
    (state.lock.holder_of k.current (here ▸ inside)).2
  cases acts with
  | acquire here =>
      have outside : ¬ (thread k.current).pc.Critical := by rw [here]; decide
      have same : Thread.printed { thread k.current with
          pc := if k.lock ≠ 0 then .acquire else .load } = (thread k.current).printed := by
        split_ifs <;> simp [Thread.printed, here]
      by_cases taken : k.lock ≠ 0
      · -- The waiting thread stays outside and prints nothing.
        have waits : ¬ (if k.lock ≠ 0 then Pc.acquire else .load).Critical := by
          rw [if_pos taken]; decide
        exact ⟨log, .inl rfl, (printed.outside outside waits same).transfer rfl rfl⟩
      · have free : ∀ pid, ¬ (thread pid).pc.Critical := state.lock.unlocked (not_not.mp taken)
        refine ⟨log, .inl rfl, .alone (fun other _ => free other) printed.authors
          (printed.counts_same same) printed.written (fun _ => ?_) fun _ => printed.between free⟩
        simp only [if_neg taken]
        exact printed.between free
  | load here =>
      have holds := printed.holding k.current (by simp only [here]; decide)
      simp only [Holding, here] at holds
      exact ⟨log, .inl rfl, .alone (others here (by decide)) printed.authors
        (printed.counts_same (by simp [Thread.printed, here])) printed.written
        (fun _ => ⟨holds, holds⟩) fun outside => absurd (show Pc.store.Critical by decide) outside⟩
  | charFirst here =>
      have holds := printed.holding k.current (by simp only [here]; decide)
      simp only [Holding, here] at holds
      obtain ⟨cursor, loaded⟩ := holds
      rw [loaded]
      exact ⟨log, .inl rfl, .alone (others here (by decide)) printed.authors
        (printed.counts_same (by simp [Thread.printed, here])) (printed.written_next space _)
        (fun _ => ⟨cursor, rfl, Function.update_self ..⟩)
        fun outside => absurd (show Pc.storeCursor.Critical by decide) outside⟩
  | cursorLast here =>
      -- The second of the two stores completes the cell, and the log grows.
      have holds := printed.holding k.current (by simp only [here]; decide)
      simp only [Holding, here] at holds
      obtain ⟨cursor, loaded, shown⟩ := holds
      rw [loaded, cell_succ]
      refine ⟨log ++ [k.current], .inr rfl, .alone (others here (by decide)) logged
        (printed.counts_append (by simp [Thread.printed, here]))
        (written_append printed.written shown)
        (fun _ => ?_) fun outside => absurd (show Pc.release.Critical by decide) outside⟩
      rw [List.length_append]
      rfl
  | cursorFirst here =>
      have holds := printed.holding k.current (by simp only [here]; decide)
      simp only [Holding, here] at holds
      obtain ⟨cursor, loaded⟩ := holds
      rw [loaded, cell_succ]
      exact ⟨log, .inl rfl, .alone (others here (by decide)) printed.authors
        (printed.counts_same (by simp [Thread.printed, here])) printed.written
        (fun _ => ⟨rfl, rfl⟩)
        fun outside => absurd (show Pc.storeChar.Critical by decide) outside⟩
  | charLast here =>
      have holds := printed.holding k.current (by simp only [here]; decide)
      simp only [Holding, here] at holds
      obtain ⟨cursor, loaded⟩ := holds
      rw [loaded]
      refine ⟨log ++ [k.current], .inr rfl, .alone (others here (by decide)) logged
        (printed.counts_append (by simp [Thread.printed, here]))
        (written_append (printed.written_next space _) (Function.update_self ..))
        (fun _ => ?_) fun outside => absurd (show Pc.release.Critical by decide) outside⟩
      rw [List.length_append]
      exact cursor
  | release here =>
      have holds := printed.holding k.current (by simp only [here]; decide)
      simp only [Holding, here] at holds
      exact ⟨log, .inl rfl, .alone (others here (by decide)) printed.authors
        (printed.counts_same (by simp [Thread.printed, here])) printed.written
        (fun inside => absurd inside (show ¬ Pc.yield.Critical by decide)) fun _ => holds⟩

theorem enter_printed (i : Nat) : (t.enter build i).printed = i := by
  unfold Thread.enter Build.head
  split_ifs <;> rfl

theorem resume_printed {app : Macros} (valid : t.Valid build)
    (requests : Requests app t.pc reg) : (t.resume build).printed =
      if t.pc = .print then t.printed + 1 else t.printed := by
  have number := requests.number
  unfold Thread.Valid at valid
  cases here : t.pc <;> simp only [here] at valid number
  case setPriority | setShare | exit => simp [Thread.resume, Thread.printed, here]
  case getTicket =>
    simp only [Thread.resume, here, enter_printed]
    simp [Thread.printed, here, valid]
  case yield | print =>
    simp only [Thread.resume, here, enter_printed]
    simp [Thread.printed, here]
  all_goals simp [Pc.call] at number

theorem requests_print {app : Macros} (requests : Requests app t.pc reg) :
    (reg.service = .user3 ↔ t.pc = .print) ∧ (t.pc = .print → reg.regEax = app.printchar) := by
  refine ⟨?_, fun here => requests.argument app.printchar (by simp [here, Pc.call])⟩
  rcases requests.cases with ⟨here, kind⟩ | ⟨here, kind⟩ | ⟨here, kind⟩ | ⟨here, kind⟩ |
    ⟨here, kind⟩ | ⟨here, kind⟩ <;> simp [here, kind]

theorem AppState.no_lock (state : AppState build boot s) (prints : (s.thread pid).pc = .print)
    (other : Nat) : ¬ (s.thread other).pc.Critical := by
  have calls := state.valid pid
  have locks := state.valid other
  simp only [Thread.Valid, prints] at calls
  unfold Thread.Valid at locks
  intro inside
  cases here : (s.thread other).pc <;> simp only [here] at inside locks
  case load | store | storeCursor | storeChar | release => omega
  all_goals exact absurd inside (by decide)

theorem Printed.call (room : 4 * build.runcount ≤ 2000)
    (state : AppState build boot ⟨.user k, thread⟩) (printed : Printed ⟨.user k, thread⟩ log)
    (requests : Requests (macros k.current) (thread k.current).pc reg) :
    ∃ after, Extends k.current log after ∧ Printed ⟨interrupt reg k,
      Function.update thread k.current ((thread k.current).resume build)⟩ after := by
  obtain ⟨prints, argument⟩ := requests_print requests
  obtain ⟨cursor, cells⟩ := interrupt_screen reg k
  have more := resume_printed (state.valid k.current) requests
  have after := resume_outside build requests
  by_cases here : (thread k.current).pc = .print
  · have free : ∀ pid, ¬ (thread pid).pc.Critical := state.no_lock here
    have shown : k.cursorpos = cell log.length := printed.between free
    have logged := printed.authors_append state.table.1.current
    rw [if_pos here] at more
    rw [if_pos (prints.mpr here), shown] at cursor cells
    rw [argument here] at cells
    have space := (printed.length_le state.valid).trans room
    refine ⟨log ++ [k.current], .inr rfl, .alone (fun other _ => free other) logged
      (printed.counts_append more) ?_ (fun inside => absurd inside after) fun _ => ?_⟩
    · rw [cells]
      exact written_append (printed.written_next space _) (Function.update_self ..)
    · rw [cursor, cell_succ, List.length_append]
      rfl
  · rw [if_neg here] at more
    rw [if_neg (mt prints.mp here)] at cursor cells
    have shown := printed.outside (requests_outside requests) after more
    exact ⟨log, .inl rfl, shown.transfer cursor cells⟩

theorem Printed.step (safe : Safe boot sched) (room : 4 * build.runcount ≤ 2000)
    (state : AppState build boot s) (printed : Printed s log) (step : Step build sched s s') :
    ∃ after, Extends s.machine.kernel.current log after ∧ Printed s' after := by
  obtain ⟨_, step⟩ := step
  cases step with
  | access acts => exact printed.access room state acts
  | call requests => exact printed.call room state requests
  | @clock k thread reg tick =>
      obtain ⟨cursor, cells⟩ := interrupt_screen reg k
      have kept : reg.service ≠ .user3 := by simp [tick_service tick]
      rw [if_neg kept] at cursor cells
      exact ⟨log, .inl rfl, printed.transfer cursor cells⟩
  | dispatch picked =>
      obtain ⟨pid, -, -, times, rngs, rfl⟩ := safe _ _ state.table.1 state.algorithm picked
      exact ⟨log, .inl rfl, printed.transfer rfl rfl⟩

theorem init_printed (boot : Boot) : Printed (init boot) [] := by
  refine ⟨by simp, fun _ => rfl, by simp, fun pid inside => ?_, fun _ => ?_⟩
  · exact absurd inside (show ¬ Pc.setPriority.Critical by decide)
  · exact boot.kernel_cursorpos

theorem reaches_printed (safe : Safe boot sched) (sync : build.Synchronized)
    (room : 4 * build.runcount ≤ 2000) (reaches : Reaches build sched (init boot) s) :
    ∃ log, Printed s log := by
  have both := Reach.invariant reaches (fun s => AppState build boot s ∧ ∃ log, Printed s log)
    ⟨init_appState build boot, [], init_printed boot⟩ fun a b before step => by
      obtain ⟨state, log, printed⟩ := before
      obtain ⟨after, -, next⟩ := printed.step safe room state step
      exact ⟨state.step safe sync step, after, next⟩
  exact both.2

theorem Printed.cells (printed : Printed s log) :
    (List.range log.length).map (fun j => s.machine.kernel.cells (cell j)) = log.map char := by
  apply List.ext_getElem?
  intro j
  cases entry : log[j]? with
  | none =>
      have beyond : log.length ≤ j := List.getElem?_eq_none_iff.mp entry
      simp [beyond]
  | some pid =>
      obtain ⟨less, same⟩ := List.getElem?_eq_some_iff.mp entry
      simp [less, same, printed.written j pid entry]

theorem char_inj {p q : Nat} (pBound : 1 ≤ p ∧ p < nprocs) (qBound : 1 ≤ q ∧ q < nprocs)
    (same : char p = char q) : p = q := by
  obtain ⟨pLow, pHigh⟩ := pBound
  obtain ⟨qLow, qHigh⟩ := qBound
  simp only [nprocs] at pHigh qHigh
  interval_cases p <;> interval_cases q <;> first | rfl | exact absurd same (by decide)

theorem Printed.count_char (printed : Printed s log) (bound : 1 ≤ pid ∧ pid < nprocs) :
    (log.map char).count (char pid) = log.count pid := by
  rw [List.count_eq_countP, List.count_eq_countP, List.countP_map]
  apply List.countP_congr
  intro other member
  simp only [Function.comp_apply, beq_iff_eq]
  exact ⟨char_inj (printed.authors other member) bound, congrArg char⟩

theorem AppState.finished (state : AppState build boot s)
    (exited : ∀ pid, 1 ≤ pid → pid < nprocs → ¬ s.machine.kernel.Runnable pid) :
    (∀ pid, ¬ (s.thread pid).pc.Critical) ∧
      ∀ pid, 1 ≤ pid → pid < nprocs → (s.thread pid).printed = build.runcount := by
  have stopped (pid : Nat) (low : 1 ≤ pid) (high : pid < nprocs) : (s.thread pid).pc = .stop :=
    (state.stopped pid low high).mpr (exited pid low high)
  constructor
  · cases state.lock with
    | free _ outside => exact outside
    | held holder bound _ inside _ =>
        rw [stopped holder bound.1 bound.2] at inside
        exact absurd inside (by decide)
  · intro pid low high
    have valid := state.valid pid
    simp only [Thread.Valid, stopped pid low high] at valid
    simp only [Thread.printed, stopped pid low high, valid]

theorem Printed.length_eq (printed : Printed s log)
    (all : ∀ pid, 1 ≤ pid → pid < nprocs → (s.thread pid).printed = build.runcount) :
    log.length = 4 * build.runcount := by
  have each : ∀ pid ∈ Finset.Ico 1 nprocs, (s.thread pid).printed = build.runcount := by
    intro pid member
    obtain ⟨low, high⟩ := Finset.mem_Ico.mp member
    exact all pid low high
  rw [printed.length_sum, Finset.sum_congr rfl each]
  simp [nprocs]

end Printed

theorem safe_picks (boot : Boot) : Safe boot Kernel.Picks := fun _ _ _ _ picked => picked

theorem locked_printing (build : Build) (sync : build.syncMethod = 1 ∨ build.syncMethod = 2)
    (room : 4 * build.runcount ≤ 2000) (boot : Boot) (s : System)
    (reaches : Reaches build Kernel.Picks (init boot) s) :
    (build.syncMethod = 1 →
      (∀ p q, (s.thread p).pc.Critical → (s.thread q).pc.Critical → p = q) ∧
      (s.machine.kernel.lock = 1 ↔ ∃ p, 1 ≤ p ∧ p ≤ 4 ∧ (s.thread p).pc.Critical)) ∧
    ((∀ p, 1 ≤ p → p ≤ 4 → (s.machine.kernel.procArray p).pState = .zombie) →
      s.machine.kernel.cursorpos = cell (4 * build.runcount) ∧
      ∀ p, 1 ≤ p → p ≤ 4 →
        ((List.range (4 * build.runcount)).map fun j =>
          s.machine.kernel.cells (cell j)).count (char p) = build.runcount) := by
  have state := reaches_appState (safe_picks boot) sync reaches
  refine ⟨fun _ => ⟨fun p q pInside qInside => ?_, ?_⟩, fun exited => ?_⟩
  · by_contra other
    exact (state.lock.holder_of p pInside).2 q (Ne.symm other) qInside
  · constructor
    · intro one
      cases state.lock with
      | free zero _ => exact absurd (zero.symm.trans one) (by decide)
      | held holder bound _ inside _ => exact ⟨holder, bound.1, Nat.le_of_lt_succ bound.2, inside⟩
    · rintro ⟨p, -, -, inside⟩
      exact (state.lock.holder_of p inside).1
  · obtain ⟨log, printed⟩ := reaches_printed (safe_picks boot) sync room reaches
    obtain ⟨outside, all⟩ := state.finished fun pid low high runnable => by
      have zombie := exited pid low (Nat.le_of_lt_succ high)
      exact absurd (runnable.symm.trans zombie) (by decide)
    have length := printed.length_eq all
    refine ⟨length ▸ printed.between outside, fun p low high => ?_⟩
    have bound : 1 ≤ p ∧ p < nprocs := ⟨low, Nat.lt_succ_of_le high⟩
    rw [← length, printed.cells, printed.count_char bound, printed.counts, all p low bound.2]

def Thread.Waits (k : Kernel) (t : Thread) : Prop := t.pc = .acquire ∧ k.lock ≠ 0

instance (k : Kernel) (t : Thread) : Decidable (t.Waits k) := inferInstanceAs (Decidable (_ ∧ _))

-- More than the steps that a thread has left, those not counted that find the lock taken.
def Thread.left (build : Build) (t : Thread) : Nat :=
  match t.pc with
  | .setPriority => 8 * build.runcount + 10
  | .setShare => 8 * build.runcount + 9
  | .getTicket => 8 * build.runcount + 8
  | .acquire | .print => 8 * (build.runcount - t.i) + 7
  | .load => 8 * (build.runcount - t.i) + 6
  | .store => 8 * (build.runcount - t.i) + 5
  | .storeCursor | .storeChar => 8 * (build.runcount - t.i) + 4
  | .release => 8 * (build.runcount - t.i) + 3
  | .yield => 8 * (build.runcount - t.i) + 2
  | .exit => 1
  | .stop => 0

def System.left (build : Build) (s : System) : Nat :=
  ∑ pid ∈ Finset.Ico 1 nprocs, (s.thread pid).left build

section Left

variable {build : Build} {app : Macros} {k k' : Kernel} {thread : Nat → Thread} {t t' : Thread}
  {reg : Registers}

theorem enter_left (sync : build.Synchronized) {i : Nat} (most : i ≤ build.runcount) :
    (t.enter build i).left build ≤ 8 * (build.runcount - i) + 7 := by
  rcases head_cases sync most with ⟨head, -, -⟩ | ⟨head, -, -⟩ | ⟨head, -⟩ <;>
    simp [Thread.left, Thread.enter, head]

theorem resume_left (sync : build.Synchronized) (valid : t.Valid build)
    (requests : Requests app t.pc reg) : (t.resume build).left build < t.left build := by
  unfold Thread.Valid at valid
  rcases requests.cases with ⟨here, -⟩ | ⟨here, -⟩ | ⟨here, -⟩ | ⟨here, -⟩ | ⟨here, -⟩ |
    ⟨here, -⟩ <;> simp only [here] at valid
  · simp [Thread.resume, Thread.left, here]
  · simp [Thread.resume, Thread.left, here]
  · have entered := enter_left (t := t) sync (Nat.zero_le build.runcount)
    have now : t.left build = 8 * build.runcount + 8 := by simp [Thread.left, here]
    simp only [Thread.resume, here]
    omega
  · have entered := enter_left (t := t) sync (show t.i + 1 ≤ build.runcount from valid.1)
    have now : t.left build = 8 * (build.runcount - t.i) + 2 := by simp [Thread.left, here]
    simp only [Thread.resume, here]
    omega
  · have entered := enter_left (t := t) sync (show t.i + 1 ≤ build.runcount from valid.1)
    have now : t.left build = 8 * (build.runcount - t.i) + 7 := by simp [Thread.left, here]
    simp only [Thread.resume, here]
    omega
  · simp [Thread.resume, Thread.left, here]

-- An access that does not bring the thread forward finds the lock taken, and changes nothing.
theorem access_left (binary : k.lock = 0 ∨ k.lock = 1) (acts : Access app k t k' t') :
    (t.Waits k ∧ k' = k ∧ t' = t) ∨ t'.left build < t.left build := by
  cases acts with
  | acquire here =>
      by_cases taken : k.lock ≠ 0
      · have one : k.lock = 1 := binary.resolve_left taken
        left
        refine ⟨⟨here, taken⟩, ?_, ?_⟩
        · rw [← one]
        · rw [if_pos taken, ← here]
      · right
        simp only [if_neg taken, Thread.left, here]
        omega
  | load here | charFirst here | cursorLast here | cursorFirst here | charLast here
  | release here =>
      right
      simp only [Thread.left, here]
      omega

theorem sum_update (f : Thread → Nat) (thread : Nat → Thread) (t : Thread)
    (bound : 1 ≤ k.current ∧ k.current < nprocs) :
    ∑ pid ∈ Finset.Ico 1 nprocs, f (Function.update thread k.current t pid) +
        f (thread k.current) =
      ∑ pid ∈ Finset.Ico 1 nprocs, f (thread pid) + f t := by
  have member : k.current ∈ Finset.Ico 1 nprocs := Finset.mem_Ico.mpr bound
  have others : ∀ pid ∈ Finset.Ico 1 nprocs \ {k.current},
      f (Function.update thread k.current t pid) = f (thread pid) := by
    intro pid inside
    rw [Finset.mem_sdiff, Finset.mem_singleton] at inside
    rw [Function.update_of_ne inside.2]
  rw [Finset.sum_eq_add_sum_sdiff_singleton_of_mem member,
    Finset.sum_eq_add_sum_sdiff_singleton_of_mem member (fun pid => f (thread pid)),
    Finset.sum_congr rfl others, Function.update_self]
  omega

theorem left_update (bound : 1 ≤ k.current ∧ k.current < nprocs)
    (less : t.left build < (thread k.current).left build) (m m' : Machine) :
    System.left build ⟨m', Function.update thread k.current t⟩ < System.left build ⟨m, thread⟩ := by
  have sum := sum_update (Thread.left build) thread t bound
  simp only [System.left]
  omega

theorem Locked.binary {s : System} (locked : Locked s) :
    s.machine.kernel.lock = 0 ∨ s.machine.kernel.lock = 1 := by
  cases locked with
  | free zero _ => exact .inl zero
  | held _ _ one _ _ => exact .inr one

end Left

section Alone

variable {build : Build} {k : Kernel} {thread : Nat → Thread} {p : Nat}

theorem next_call (calls : build.syncMethod = 2) (app : Macros) {t : Thread}
    (valid : t.Valid build) (running : t.pc ≠ .stop) :
    ∃ intno eax, t.pc.call app = some (intno, eax) := by
  cases here : t.pc <;> simp only [Thread.Valid, here] at valid
  case stop => exact absurd here running
  case exit | setPriority | setShare | getTicket | print => exact ⟨_, _, rfl⟩
  all_goals omega

theorem resume_ends (calls : build.syncMethod = 2) {app : Macros} {t : Thread} {reg : Registers}
    (valid : t.Valid build) (requests : Requests app t.pc reg) :
    (reg.service ∈ [Service.user1, .user2, .user3, .user4] ∧ (t.resume build).pc ≠ .stop) ∨
      (reg.service = .exit ∧ (t.resume build).pc = .stop) := by
  have head (i : Nat) : build.head i ≠ .stop := by
    unfold Build.head
    split_ifs <;> simp
  unfold Thread.Valid at valid
  rcases requests.cases with ⟨here, kind⟩ | ⟨here, kind⟩ | ⟨here, kind⟩ | ⟨here, kind⟩ |
    ⟨here, kind⟩ | ⟨here, kind⟩ <;> simp only [here] at valid
  · simp [Thread.resume, here, kind]
  · simp [Thread.resume, here, kind]
  · simp [Thread.resume, Thread.enter, here, kind, head]
  · exact absurd (calls.symm.trans valid.2) (by decide)
  · simp [Thread.resume, Thread.enter, here, kind, head]
  · simp [Thread.resume, here, kind]

theorem alone_exits (calls : build.syncMethod = 2) (left : Nat) (k : Kernel)
    (thread : Nat → Thread) (most : (thread k.current).left build ≤ left)
    (running : (thread k.current).pc ≠ .stop) (valid : (thread k.current).Valid build) :
    ∃ k' t, Reaches build Kernel.Picks ⟨.user k, thread⟩
        ⟨.scheduling k', Function.update thread k.current t⟩ ∧
      ∀ q, (k'.procArray q).pState =
        if q = k.current then .zombie else (k.procArray q).pState := by
  induction left generalizing k thread with
  | zero =>
      obtain ⟨intno, eax, call⟩ := next_call calls (macros k.current) valid running
      have less := resume_left (.inr calls) valid (requests_trap call)
      omega
  | succ left ih =>
      obtain ⟨intno, eax, call⟩ := next_call calls (macros k.current) valid running
      have requests := requests_trap call
      generalize trap intno (eax.getD 0) = reg at requests
      have less := resume_left (.inr calls) valid requests
      have step : Step build Kernel.Picks ⟨.user k, thread⟩ _ := .call requests
      rcases resume_ends calls valid requests with ⟨returns, more⟩ | ⟨exits, -⟩
      · rw [interrupt_returns reg k returns] at step
        have kept : reg.service ≠ .exit := by
          intro exits
          simp [exits] at returns
        obtain ⟨k', t, reaches, states⟩ := ih (interrupt reg k).kernel
          (Function.update thread k.current ((thread k.current).resume build))
          (by rw [interrupt_current, Function.update_self]; omega)
          (by rw [interrupt_current, Function.update_self]; exact more)
          (by rw [interrupt_current, Function.update_self]; exact resume_valid (.inr calls) valid)
        rw [interrupt_current, Function.update_idem] at reaches
        refine ⟨k', t, .head step reaches, fun q => ?_⟩
        rw [states q, interrupt_current, interrupt_state]
        simp [kept]
      · rw [interrupt_schedules reg k (by simp [exits])] at step
        refine ⟨_, _, .single step, fun q => ?_⟩
        rw [interrupt_state]
        simp [exits]

theorem exits_in_turn (calls : build.syncMethod = 2) (boot : Boot) (p : Nat) (low : 1 ≤ p)
    (high : p ≤ 4) : ∃ k thread, Reaches build Kernel.Picks (init boot) ⟨.scheduling k, thread⟩ ∧
      (∀ q, 1 ≤ q → q ≤ 4 →
        (k.procArray q).pState = if q ≤ p then .zombie else .runnable) ∧
      ∀ q, p < q → thread q = .initial := by
  have fresh : Thread.initial.pc ≠ .stop := by decide
  induction p, low using Nat.le_induction with
  | base =>
      obtain ⟨k, t, reaches, states⟩ :=
        alone_exits calls _ boot.kernel (fun _ => .initial) le_rfl fresh rfl
      refine ⟨k, _, reaches, fun q qLow qHigh => ?_, fun q more => Function.update_of_ne ?_ _ _⟩
      · rw [states q, boot.kernel_current, boot.kernel_proc qLow (Nat.lt_succ_of_le qHigh)]
        exact if_congr (by omega) rfl rfl
      · exact Nat.ne_of_gt more
  | succ p low ih =>
      obtain ⟨k, thread, reaches, states, others⟩ := ih (by omega)
      have ready : k.Runnable (p + 1) := (states (p + 1) (by omega) high).trans (if_neg (by omega))
      have picked : k.Picks (k.run (p + 1)) :=
        ⟨p + 1, Nat.lt_succ_of_le high, ready, k.times, k.rngs, rfl⟩
      have start : thread (p + 1) = .initial := others (p + 1) (Nat.lt_succ_self p)
      obtain ⟨k', t, exits, after⟩ := alone_exits calls _ (k.run (p + 1)) thread le_rfl
        (start ▸ fresh) (start ▸ rfl)
      refine ⟨k', _, (reaches.tail (.dispatch picked)).trans exits, fun q qLow qHigh => ?_,
        fun q more => ?_⟩
      · rw [after q]
        have before : ((k.run (p + 1)).procArray q).pState = _ := states q qLow qHigh
        have chosen : (k.run (p + 1)).current = p + 1 := rfl
        rw [before, chosen]
        by_cases last : q = p + 1
        · rw [if_pos last, if_pos (by omega)]
        · rw [if_neg last]
          exact if_congr (by omega) rfl rfl
      · exact (Function.update_of_ne (Nat.ne_of_gt more) _ _).trans (others q (by omega))

end Alone

theorem locked_printing_in_turn :
    (∃ s, Reaches ⟨2, 320⟩ Kernel.Picks (init (bareBoot 0)) s ∧
      s.machine.kernel.cursorpos = cell 1280 ∧
      ((List.range 1280).map fun j => s.machine.kernel.cells (cell j)).count (char 3) = 320) ∧
    ∃ s, Reaches ⟨1, 320⟩ Kernel.Picks (init (bareBoot 0)) s ∧
      ∃ p, 1 ≤ p ∧ p ≤ 4 ∧ (s.thread p).pc.Critical := by
  constructor
  · obtain ⟨k, thread, reaches, states, -⟩ :=
      @exits_in_turn ⟨2, 320⟩ rfl (bareBoot 0) 4 (by decide) (by decide)
    obtain ⟨cursor, cells⟩ :=
      (locked_printing ⟨2, 320⟩ (.inr rfl) (by decide) (bareBoot 0) _ reaches).2
        fun p low high => (states p low high).trans (if_pos high)
    exact ⟨_, reaches, cursor, cells 3 (by decide) (by decide)⟩
  · obtain ⟨k, reaches, -, taken⟩ :=
      @first_acquires ⟨1, 320⟩ Kernel.Picks rfl (by decide) (bareBoot 0)
    obtain ⟨-, lock⟩ :=
      (locked_printing ⟨1, 320⟩ (.inl rfl) (by decide) (bareBoot 0) _ reaches).1 rfl
    exact ⟨_, reaches, lock.mp taken⟩

end App

end SchedOS
