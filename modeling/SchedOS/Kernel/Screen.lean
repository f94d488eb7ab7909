import SchedOS.Console.Safety
import SchedOS.Kernel.Interrupt

set_option autoImplicit false

namespace SchedOS

def unknownAlgorithmFormat : CString :=
  ⟨"\nUnknown scheduling algorithm %d\n".toList.map chr, by decide⟩

def Kernel.report (fuel : Nat) (k : Kernel) : Option Console :=
  consoleVprintf fuel k.cursorpos k.cells 0x100 unknownAlgorithmFormat fun _ =>
    ⟨BitVec.ofInt 32 k.schedulingAlgorithm, emptyString⟩

inductive ScreenLabel where
  | step (label : Label)
  | report (stores : List (BitVec 32 × BitVec 16))

/-- The steps of the machine where user code leaves `cursorpos` alone, and the report of an unknown
scheduling algorithm, after which the kernel spins. -/
inductive ScreenStep : Machine → ScreenLabel → Machine → Prop where
  | step {m m' : Machine} {label : Label} (taken : Step Kernel.Schedules m label m')
      (kept : label = .store → m'.kernel.cursorpos = m.kernel.cursorpos) :
      ScreenStep m (.step label) m'
  | report {k : Kernel} {fuel : Nat} {final : Console}
      (unknown : k.schedulingAlgorithm ∉ [0, 1, 2, 3, 4]) (printed : k.report fuel = some final) :
      ScreenStep (.scheduling k) (.report final.stores)
        (.halted { k with cursorpos := final.cursor, cells := final.cells })

abbrev ScreenRuns (boot : Boot) (trace : List (ScreenLabel × Machine)) (last : Machine) : Prop :=
  Trace.Run ScreenStep (start boot) trace last

def Label.prints : Label → Prop
  | .interrupt _ reg => reg.service = .user3
  | _ => False

instance : DecidablePred Label.prints := fun label =>
  match label with
  | .interrupt _ reg => inferInstanceAs (Decidable (reg.service = .user3))
  | .dispatch _ | .store => instDecidableFalse

def ScreenLabel.prints : ScreenLabel → Bool
  | .step label => decide label.prints
  | .report _ => false

def printCalls (trace : List (ScreenLabel × Machine)) : Nat :=
  trace.countP fun x => x.1.prints

def ScreenLabel.writes (m : Machine) : ScreenLabel → List (BitVec 32)
  | .step label => if label.prints then [m.kernel.cursorpos] else []
  | .report stores => stores.map Prod.fst

def kernelWrites (m : Machine) : List (ScreenLabel × Machine) → List (BitVec 32)
  | [] => []
  | (label, next) :: rest => label.writes m ++ kernelWrites next rest

structure OnConsole (m : Machine) (trace : List (ScreenLabel × Machine)) : Prop where
  writes : ∀ a ∈ kernelWrites m trace, consoleBegin ≤ a ∧ a < consoleEnd
  cursor : ∀ x ∈ m :: trace.map Prod.snd,
    consoleBegin ≤ x.kernel.cursorpos ∧ x.kernel.cursorpos ≤ consoleEnd

theorem cell_inside {i : Nat} (bound : i < 2000) : consoleBegin ≤ cell i ∧ cell i < consoleEnd := by
  unfold consoleEnd cell consoleBegin
  constructor <;> bv_omega

theorem cell_within {i : Nat} (bound : i ≤ 2000) :
    consoleBegin ≤ cell i ∧ cell i ≤ consoleEnd := by
  unfold consoleEnd cell consoleBegin
  constructor <;> bv_omega

theorem schedules_cursorpos {k k' : Kernel} (ended : k.Schedules k') :
    k'.cursorpos = k.cursorpos := by
  obtain ⟨fuel, ended⟩ := ended
  have fixed {σ : Type} {body : σ → Loop.Pass σ Kernel} {s : σ} (left : Loop.Leaves body s k')
      (leave : ∀ s final, body s = .leave final → final.cursorpos = k.cursorpos) :
      k'.cursorpos = k.cursorpos :=
    left.post (fun _ => True) (fun k' => k'.cursorpos = k.cursorpos) trivial
      (fun _ _ _ _ => trivial) fun s final _ pass => leave s final pass
  have roundRobin (pid : Nat) (final : Kernel) (pass : k.roundRobinPass pid = .leave final) :
      final.cursorpos = k.cursorpos := by
    unfold Kernel.roundRobinPass at pass
    split at pass <;> cases pass
    rfl
  have strict (pid : Nat) (final : Kernel) (pass : k.strictPass pid = .leave final) :
      final.cursorpos = k.cursorpos := by
    unfold Kernel.strictPass at pass
    cases pass
    rfl
  have priority (s : Nat × Int) (final : Kernel) (pass : k.priorityPass s = .leave final) :
      final.cursorpos = k.cursorpos := by
    simp only [Kernel.priorityPass] at pass
    split at pass <;> cases pass
    rfl
  have share {pid : Nat} (left : Loop.Leaves Kernel.sharePass (k, pid) k') :
      k'.cursorpos = k.cursorpos := by
    refine left.post (fun s => s.1.cursorpos = k.cursorpos) (fun k' => k'.cursorpos = k.cursorpos)
      rfl (fun s next same pass => ?_) fun s final same pass => ?_
    all_goals
      simp only [Kernel.sharePass] at pass
      split at pass
      · split at pass <;> cases pass
        exact same
      · cases pass <;> exact same
  have lottery (left : Loop.Leaves Kernel.lotteryPass k k') : k'.cursorpos = k.cursorpos := by
    refine left.post (fun s => s.cursorpos = k.cursorpos) (fun k' => k'.cursorpos = k.cursorpos)
      rfl (fun s next same pass => ?_) fun s final same pass => ?_
    all_goals
      unfold Kernel.lotteryPass Kernel.getWinner at pass
      simp only at pass
      split at pass <;> cases pass
      exact same
  simp only [Kernel.schedule] at ended
  split at ended
  · exact fixed ⟨fuel, ended⟩ roundRobin
  split at ended
  · exact fixed ⟨fuel, ended⟩ strict
  split at ended
  · exact fixed ⟨fuel, ended⟩ priority
  split at ended
  · exact share ⟨fuel, ended⟩
  split at ended
  · split at ended
    · exact fixed ⟨fuel, ended⟩ roundRobin
    · exact lottery ⟨fuel, ended⟩
  · cases ended

section Steps

variable {m m' : Machine} {label : ScreenLabel}

theorem screenStep_cursor {label : Label} (taken : Step Kernel.Schedules m label m')
    (kept : label = .store → m'.kernel.cursorpos = m.kernel.cursorpos) :
    m'.kernel.cursorpos = if label.prints then m.kernel.cursorpos + 2 else m.kernel.cursorpos := by
  cases taken with
  | interrupt k reg => exact (interrupt_screen reg k).1
  | dispatch picked => exact schedules_cursorpos picked
  | store k cursorpos lock cells => exact kept rfl

theorem report_inside {k : Kernel} {j : Nat} (bound : j ≤ 2000) (cursor : k.cursorpos = cell j)
    {fuel : Nat} {final : Console} (printed : k.report fuel = some final) :
    (∀ x ∈ final.stores, ∃ i, i < 2000 ∧ x.1 = cell i) ∧ ∃ o, o ≤ 2000 ∧ final.cursor = cell o := by
  rw [Kernel.report, cursor] at printed
  obtain ⟨o, shown⟩ := vprintf_follows _ _ _ _ bound printed
  exact ⟨shown.inside, o, shown.bound, shown.cursor⟩

theorem onConsole_cons {trace : List (ScreenLabel × Machine)} :
    OnConsole m ((label, m') :: trace) ↔
      (∀ a ∈ label.writes m, consoleBegin ≤ a ∧ a < consoleEnd) ∧
        (consoleBegin ≤ m.kernel.cursorpos ∧ m.kernel.cursorpos ≤ consoleEnd) ∧
          OnConsole m' trace := by
  constructor
  · rintro ⟨writes, cursor⟩
    simp only [kernelWrites, List.forall_mem_append] at writes
    simp only [List.map_cons, List.forall_mem_cons] at cursor
    exact ⟨writes.1, cursor.1, writes.2, List.forall_mem_cons.mpr cursor.2⟩
  · rintro ⟨here, first, rest⟩
    refine ⟨?_, ?_⟩
    · simp only [kernelWrites, List.forall_mem_append]
      exact ⟨here, rest.writes⟩
    · exact List.forall_mem_cons.mpr ⟨first, rest.cursor⟩

end Steps

theorem onConsole_iff {m last : Machine} {trace : List (ScreenLabel × Machine)}
    (run : Trace.Run ScreenStep m trace last) {j : Nat} (bound : j ≤ 2000)
    (cursor : m.kernel.cursorpos = cell j) :
    OnConsole m trace ↔ j + printCalls trace ≤ 2000 := by
  have here : consoleBegin ≤ m.kernel.cursorpos ∧ m.kernel.cursorpos ≤ consoleEnd :=
    cursor ▸ cell_within bound
  induction run generalizing j with
  | nil m =>
      refine ⟨fun _ => bound, fun _ => ⟨fun a member => ?_, ?_⟩⟩
      · cases member
      · simpa using here
  | @cons m next last label rest first tail ih =>
      rw [onConsole_cons]
      cases first with
      | @step _ _ label taken kept =>
          have moved := screenStep_cursor taken kept
          by_cases prints : label.prints
          · have counted : printCalls ((.step label, next) :: rest) = printCalls rest + 1 := by
              simp [printCalls, ScreenLabel.prints, prints]
            have written : ScreenLabel.writes m (.step label) = [cell j] := by
              simp [ScreenLabel.writes, prints, cursor]
            rw [if_pos prints, cursor, cell_succ] at moved
            rw [counted, written]
            by_cases full : j = 2000
            · -- The cell behind the last one.
              refine ⟨fun ⟨inside, _⟩ => ?_, fun few => by omega⟩
              have less := (inside (cell j) List.mem_cons_self).2
              rw [full] at less
              exact absurd less (by decide)
            · have later := ih (show j + 1 ≤ 2000 by omega) moved
                (moved ▸ cell_within (by omega))
              refine ⟨fun ⟨_, _, inside⟩ => ?_, fun few => ⟨?_, here, later.mpr (by omega)⟩⟩
              · have := later.mp inside
                omega
              · simpa using cell_inside (show j < 2000 by omega)
          · have counted : printCalls ((.step label, next) :: rest) = printCalls rest := by
              simp [printCalls, ScreenLabel.prints, prints]
            have written : ScreenLabel.writes m (.step label) = [] := by
              simp [ScreenLabel.writes, prints]
            rw [if_neg prints, cursor] at moved
            have later := ih bound moved (moved ▸ cell_within bound)
            rw [counted, written]
            exact ⟨fun ⟨_, _, inside⟩ => later.mp inside,
              fun few => ⟨by simp, here, later.mpr few⟩⟩
      | @report k fuel final unknown printed =>
          obtain ⟨stored, o, least, ended⟩ := report_inside bound cursor printed
          -- The kernel spins from here on.
          cases tail with
          | cons second _ => cases second with | step taken _ => cases taken
          | nil =>
              have alone : printCalls [(ScreenLabel.report final.stores,
                Machine.halted { k with cursorpos := final.cursor, cells := final.cells })] = 0 :=
                  rfl
              rw [alone]
              refine ⟨fun _ => bound, fun _ => ⟨fun a member => ?_, here, fun a member => ?_, ?_⟩⟩
              · obtain ⟨x, inside, rfl⟩ := List.mem_map.mp member
                obtain ⟨i, less, same⟩ := stored x inside
                exact same ▸ cell_inside less
              · cases member
              · have last := cell_within least
                rw [← ended] at last
                exact List.forall_mem_singleton.mpr last

theorem kernel_onConsole_iff {boot : Boot} {trace : List (ScreenLabel × Machine)} {last : Machine}
    (run : ScreenRuns boot trace last) :
    OnConsole (start boot) trace ↔ printCalls trace ≤ 2000 := by
  have whole := onConsole_iff run (Nat.zero_le 2000) boot.kernel_cursorpos
  rwa [Nat.zero_add] at whole

section Printing

def printed (reg : Registers) (boot : Boot) (n : Nat) : Machine :=
  .user ((fun k => (interrupt reg k).kernel)^[n] boot.kernel)

theorem printing_runs {reg : Registers} (prints : reg.service = .user3) (boot : Boot) (n : Nat) :
    ∃ trace, ScreenRuns boot trace (printed reg boot n) ∧ printCalls trace = n := by
  induction n with
  | zero => exact ⟨[], .nil _, rfl⟩
  | succ n ih =>
      obtain ⟨trace, run, count⟩ := ih
      have step : Step Kernel.Schedules (printed reg boot n) _ _ :=
        @step_returns _ reg ((fun k => (interrupt reg k).kernel)^[n] boot.kernel) (by simp [prints])
      have next : printed reg boot (n + 1) =
          .user (interrupt reg ((fun k => (interrupt reg k).kernel)^[n] boot.kernel)).kernel := by
        rw [printed, Function.iterate_succ_apply']
      rw [← next] at step
      refine ⟨trace ++ [(_, printed reg boot (n + 1))], run.snoc (.step step nofun), ?_⟩
      rw [printCalls, List.countP_append, ← printCalls, count]
      simp [ScreenLabel.prints, Label.prints, prints]

theorem kernel_leaves_console : ∃ trace last, ScreenRuns (bareBoot 0) trace last ∧
    ¬ OnConsole (start (bareBoot 0)) trace := by
  obtain ⟨trace, run, count⟩ :=
    printing_runs (show (trap 52 0x758).service = .user3 by decide) (bareBoot 0) 2001
  have whole := onConsole_iff run (Nat.zero_le 2000) (bareBoot 0).kernel_cursorpos
  refine ⟨trace, _, run, fun inside => ?_⟩
  have few := whole.mp inside
  omega

theorem kernel_onConsole_full : ∃ trace last, ScreenRuns (bareBoot 0) trace last ∧
    printCalls trace = 2000 ∧ OnConsole (start (bareBoot 0)) trace := by
  obtain ⟨trace, run, count⟩ :=
    printing_runs (show (trap 52 0x758).service = .user3 by decide) (bareBoot 0) 2000
  exact ⟨trace, _, run, count, (kernel_onConsole_iff run).mpr count.le⟩

end Printing

end SchedOS
