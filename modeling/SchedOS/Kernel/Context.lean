import SchedOS.Kernel.Table
import SchedOS.Shared.X86

set_option autoImplicit false

namespace SchedOS

open X86

def kernelStackTop : BitVec 32 := 0x180000
def segselKernCode : BitVec 16 := 0x8
def segselKernData : BitVec 16 := 0x10

-- `_generic_int_handler`, up to the call of `interrupt`.
def genericIntHandler : List Instr :=
  [.pushlSeg .ds, .pushlSeg .es, .pushal, .movlEax 0x10, .movwDs, .movwEs, .pushlEsp]

def intHandler (intno : BitVec 32) : List Instr :=
  .pushl 0 :: .pushl intno :: genericIntHandler

def clockIntHandler : List Instr := intHandler 32
def sysInt48Handler : List Instr := intHandler 48
def sysInt49Handler : List Instr := intHandler 49
def sysInt50Handler : List Instr := intHandler 50
def sysInt51Handler : List Instr := intHandler 51
def sysInt52Handler : List Instr := intHandler 52
def sysInt53Handler : List Instr := intHandler 53
def sysInt54Handler : List Instr := intHandler 54
def sysInt55Handler : List Instr := intHandler 55
def sysInt56Handler : List Instr := intHandler 56
def sysInt57Handler : List Instr := intHandler 57

def sysIntHandlers : List (List Instr) :=
  [sysInt48Handler, sysInt49Handler, sysInt50Handler, sysInt51Handler, sysInt52Handler,
    sysInt53Handler, sysInt54Handler, sysInt55Handler, sysInt56Handler, sysInt57Handler]

def interruptDescriptors (vector : Nat) : Option (List Instr) :=
  if vector = 32 then some clockIntHandler
  else if 48 ≤ vector then sysIntHandlers[vector - 48]?
  else none

namespace Registers

-- `registers_t` as it lies in memory; the lower half of a word comes first.
def words (reg : Registers) : List (BitVec 32) :=
  [reg.regEdi, reg.regEsi, reg.regEbp, reg.regOriginalEsp, reg.regEbx, reg.regEdx, reg.regEcx,
    reg.regEax, reg.regPadding1 ++ reg.regEs, reg.regPadding2 ++ reg.regDs, reg.regIntno,
    reg.regErr, reg.regEip, reg.regPadding3 ++ reg.regCs, reg.regEflags, reg.regEsp,
    reg.regPadding4 ++ reg.regSs]

def ofWords : List (BitVec 32) → Option Registers
  | edi :: esi :: ebp :: originalEsp :: ebx :: edx :: ecx :: eax :: es :: ds :: intno :: err ::
      eip :: cs :: eflags :: esp :: ss :: _ =>
      some {
        regEdi := edi
        regEsi := esi
        regEbp := ebp
        regOriginalEsp := originalEsp
        regEbx := ebx
        regEdx := edx
        regEcx := ecx
        regEax := eax
        regEs := es.setWidth 16
        regPadding1 := (es >>> 16).setWidth 16
        regDs := ds.setWidth 16
        regPadding2 := (ds >>> 16).setWidth 16
        regIntno := intno
        regErr := err
        regEip := eip
        regCs := cs.setWidth 16
        regPadding3 := (cs >>> 16).setWidth 16
        regEflags := eflags
        regEsp := esp
        regSs := ss.setWidth 16
        regPadding4 := (ss >>> 16).setWidth 16 }
  | _ => none

end Registers

def argument (s : State) : Option Registers :=
  s.stack.head?.bind fun reg => Registers.ofWords (s.wordsAt reg)

-- The assembly of `run`, once `esp` is at `p_registers`.
def runAsm : List Instr := [.popal, .poplEs, .poplDs, .addlEsp 8, .iret]

/-- A process executes, or the kernel does; there `Machine.user` stands for a call of `run`. -/
inductive Context where
  | process (pid : Nat) (k : Kernel) (cpu : Cpu)
  | kernel (m : Machine)

def Context.machine : Context → Machine
  | .process _ k _ => .user k
  | .kernel m => m

inductive Event where
  | interrupt (pid : Nat) (cpu : Cpu)
  | dispatch (pid : Nat)
  | resume (pid : Nat) (cpu : Cpu)
  | execute

inductive Switch : Context → Event → Context → Prop where
  | interrupt {pid vector : Nat} {k : Kernel} {cpu : Cpu} {handler : List Instr}
      {upper : Segment → BitVec 16} {s : State} {reg : Registers}
      (gate : interruptDescriptors vector = some handler)
      (pushed : execs upper handler
        (enter upper segselKernData kernelStackTop segselKernCode cpu) = some s)
      (read : argument s = some reg) :
      Switch (.process pid k cpu) (.interrupt pid cpu) (.kernel (interrupt reg k))
  | dispatch {k k' : Kernel} (picked : k.Schedules k') :
      Switch (.kernel (.scheduling k)) (.dispatch k'.current) (.kernel (.user k'))
  | resume {k : Kernel} {cpu : Cpu} {upper : Segment → BitVec 16} {s : State}
      (popped : execs upper runAsm
        { cpu := cpu, stack := (k.procArray k.current).pRegisters.words } = some s) :
      Switch (.kernel (.user k)) (.resume k.current s.cpu) (.process k.current k s.cpu)
  -- User code: any registers, and the stores of `Step`.
  | execute {pid : Nat} {k : Kernel} {cpu : Cpu} (cpu' : Cpu) (cursorpos lock : BitVec 32)
      (cells : BitVec 32 → BitVec 16) :
      Switch (.process pid k cpu) .execute
        (.process pid { k with cursorpos := cursorpos, lock := lock, cells := cells } cpu')

abbrev Switches (boot : Boot) (trace : List (Event × Context)) (last : Context) : Prop :=
  Trace.Run Switch (.kernel (start boot)) trace last

def Boot.context (boot : Boot) (pid : Nat) : Cpu where
  eax := 0
  ecx := 0
  edx := 0
  ebx := 0
  esp := proc1Start + BitVec.ofNat 32 pid * procSize
  ebp := 0
  esi := 0
  edi := 0
  eip := boot.entryPoint (pid - 1)
  eflags := eflagsIf
  cs := segselAppCode ||| 3
  ss := segselAppData ||| 3
  ds := segselAppData ||| 3
  es := segselAppData ||| 3

def lastContext (boot : Boot) (pid : Nat) (past : List Event) : Cpu :=
  past.foldl (fun saved event =>
    match event with
    | .interrupt caller cpu => if caller = pid then cpu else saved
    | _ => saved) (boot.context pid)

section Layout

-- What `run` makes of a `registers_t`, whatever the kernel has left in the registers.
def Restores (reg : Registers) (cpu : Cpu) : Prop :=
  ∀ upper kernelCpu, execs upper runAsm { cpu := kernelCpu, stack := reg.words } =
    some { cpu := cpu, stack := [] }

theorem halves (word : BitVec 32) :
    (word >>> 16).setWidth 16 ++ word.setWidth 16 = word := by
  ext i bound
  rw [BitVec.getElem_append]
  split
  · simp [BitVec.getLsbD_eq_getElem bound]
  · simp [BitVec.getLsbD_eq_getElem bound, show 16 + (i - 16) = i by omega]

theorem words_ofWords {stack : List (BitVec 32)} {reg : Registers}
    (read : Registers.ofWords stack = some reg) : reg.words = stack.take 17 := by
  unfold Registers.ofWords at read
  split at read
  · obtain rfl := Option.some.inj read
    simp only [Registers.words, halves]
    rfl
  · cases read

theorem gate_handler {vector : Nat} {handler : List Instr}
    (gate : interruptDescriptors vector = some handler) :
    handler = intHandler (BitVec.ofNat 32 vector) := by
  unfold interruptDescriptors at gate
  split at gate
  next clock =>
    subst clock
    exact (Option.some.inj gate).symm
  next =>
    split at gate
    · next low =>
        obtain ⟨i, rfl⟩ := Nat.exists_eq_add_of_le low
        rw [Nat.add_sub_cancel_left] at gate
        obtain ⟨bound, -⟩ := List.getElem?_eq_some_iff.mp gate
        change i < 10 at bound
        interval_cases i <;> exact (Option.some.inj gate).symm
    · cases gate

theorem argument_generic (upper : Segment → BitVec 16) (s : State) :
    (execs upper genericIntHandler s).bind argument =
      Registers.ofWords (generalWords { s.cpu with esp := s.cpu.esp - 4 - 4 } ++
        [selectorWord upper s.cpu .es, selectorWord upper s.cpu .ds] ++ s.stack) := by
  let below := (s.push (selectorWord upper s.cpu .ds)).push (selectorWord upper s.cpu .es)
  have ran : execs upper genericIntHandler s =
      execs upper (.pushal :: [.movlEax 0x10, .movwDs, .movwEs, .pushlEsp]) below := by
    rw [genericIntHandler, execs_pushlSeg, execs_pushlSeg]
    rfl
  rw [execs, exec_pushal, Option.bind_some] at ran
  obtain ⟨pushed, called, stack⟩ : ∃ pushed, execs upper genericIntHandler s = some pushed ∧
      pushed.stack = (pushed.cpu.esp + 4) ::
        (generalWords { s.cpu with esp := s.cpu.esp - 4 - 4 } ++
          [selectorWord upper s.cpu .es, selectorWord upper s.cpu .ds] ++ s.stack) := by
    refine ⟨_, ran, ?_⟩
    simp only [State.push, BitVec.sub_add_cancel]
    rfl
  have next : (pushed.cpu.esp + 4 - pushed.cpu.esp).toNat / 4 = 1 := by
    rw [add_sub_cancel_left]
    rfl
  rw [called, Option.bind_some]
  unfold argument State.wordsAt
  rw [stack, List.head?_cons, Option.bind_some, next]
  rfl

theorem argument_intHandler (intno : BitVec 32) (upper : Segment → BitVec 16) (cpu : Cpu) :
    ∃ saved, ∀ stack, (execs upper (intHandler intno) ⟨cpu, stack⟩).bind argument =
      Registers.ofWords (generalWords { cpu with esp := saved } ++
        [selectorWord upper cpu .es, selectorWord upper cpu .ds, intno, 0] ++ stack) := by
  refine ⟨cpu.esp - 4 - 4 - 4 - 4, fun stack => ?_⟩
  rw [intHandler, execs_pushl, execs_pushl, argument_generic]
  rfl

theorem ofWords_append {words : List (BitVec 32)} {reg : Registers}
    (read : Registers.ofWords words = some reg) (above : List (BitVec 32)) :
    Registers.ofWords (words ++ above) = some reg := by
  unfold Registers.ofWords at read
  split at read
  · exact read
  · cases read

-- `run` puts everything back but the kernel's own `esp`, which `iret` replaces.
theorem restores_pushed {reg : Registers} {cpu : Cpu} {saved intno : BitVec 32}
    {upper : Segment → BitVec 16}
    (words : reg.words = generalWords { cpu with esp := saved } ++
      [selectorWord upper cpu .es, selectorWord upper cpu .ds, intno, 0] ++ frameWords upper cpu) :
    Restores reg cpu := by
  intro upper' kernelCpu
  have popped (cpu : Cpu) (rest : List (BitVec 32)) : execs upper' [.addlEsp 8, .iret]
      { cpu := cpu, stack := intno :: 0 :: rest } =
        execs upper' [.iret] { cpu := { cpu with esp := cpu.esp + 8 }, stack := rest } := by
    rw [execs, exec, Option.bind_some]
    rfl
  rw [words, List.append_assoc, runAsm, execs, exec_popal, Option.bind_some]
  simp only [List.cons_append, List.nil_append]
  rw [execs, exec, Option.bind_some, execs, exec, Option.bind_some, popped, execs, exec_iret,
    Option.bind_some, execs]
  simp only [selectorWord_lower, Cpu.selector]

theorem intHandler_hands_over (intno : BitVec 32) (upper : Segment → BitVec 16) (cpu : Cpu) :
    let entered := enter upper segselKernData kernelStackTop segselKernCode cpu
    ∃ reg, (∀ above, (execs upper (intHandler intno)
        ⟨entered.cpu, entered.stack ++ above⟩).bind argument = some reg) ∧
      reg.regIntno = intno ∧ Restores reg cpu := by
  intro entered
  obtain ⟨saved, handed⟩ := argument_intHandler intno upper entered.cpu
  obtain ⟨general, ds, es⟩ := enter_registers upper segselKernData kernelStackTop segselKernCode
    cpu saved
  let words := generalWords { cpu with esp := saved } ++
    [selectorWord upper cpu .es, selectorWord upper cpu .ds, intno, 0] ++ frameWords upper cpu
  have same (above : List Word) :
      Registers.ofWords (generalWords { entered.cpu with esp := saved } ++
        [selectorWord upper entered.cpu .es, selectorWord upper entered.cpu .ds, intno, 0] ++
          (entered.stack ++ above)) = Registers.ofWords (words ++ above) := by
    rw [general, enter_stack, selectorWord, selectorWord, Cpu.selector, Cpu.selector, ds, es,
      ← List.append_assoc]
    rfl
  obtain ⟨reg, read⟩ : ∃ reg, Registers.ofWords words = some reg := ⟨_, rfl⟩
  refine ⟨reg, fun above => ?_, ?_, ?_⟩
  · rw [handed, same]
    exact ofWords_append read above
  · obtain rfl := Option.some.inj read
    rfl
  · exact restores_pushed (words_ofWords read)

theorem handler_hands_over {vector : Nat} {handler : List Instr}
    (gate : interruptDescriptors vector = some handler) (upper : Segment → BitVec 16) (cpu : Cpu) :
    ∃ s reg, execs upper handler
        (enter upper segselKernData kernelStackTop segselKernCode cpu) = some s ∧
      argument s = some reg ∧ reg.regIntno = BitVec.ofNat 32 vector ∧ Restores reg cpu := by
  obtain rfl := gate_handler gate
  obtain ⟨reg, handed, intno, restores⟩ :=
    intHandler_hands_over (BitVec.ofNat 32 vector) upper cpu
  have alone := handed []
  rw [List.append_nil] at alone
  obtain ⟨s, ran, read⟩ := Option.bind_eq_some_iff.mp alone
  exact ⟨s, reg, ran, read, intno, restores⟩

end Layout

section Switches

variable {boot : Boot}

theorem Switch.machine {c c' : Context} {event : Event} (step : Switch c event c') :
    c'.machine = c.machine ∨ ∃ label, Step Kernel.Schedules c.machine label c'.machine := by
  cases step with
  | interrupt gate pushed read => exact .inr ⟨_, .interrupt _ _⟩
  | dispatch picked => exact .inr ⟨_, .dispatch picked⟩
  | resume popped => exact .inl rfl
  | execute cpu' cursorpos lock cells => exact .inr ⟨_, .store _ cursorpos lock cells⟩

@[simp] theorem served_registers (reg : Registers) (proc : Process) :
    (proc.served reg).pRegisters = reg := by
  cases kind : reg.service <;> simp [Process.served, kind]

theorem lastContext_interrupt (pid caller : Nat) (cpu : Cpu) (past : List Event) :
    lastContext boot pid (past ++ [.interrupt caller cpu]) =
      if caller = pid then cpu else lastContext boot pid past := by
  simp [lastContext]

theorem lastContext_other (pid : Nat) {event : Event} (past : List Event)
    (other : ∀ caller cpu, event ≠ .interrupt caller cpu) :
    lastContext boot pid (past ++ [event]) = lastContext boot pid past := by
  cases event with
  | interrupt caller cpu => exact absurd rfl (other caller cpu)
  | dispatch | resume | execute => simp [lastContext]

/-- The descriptors hold what the processes are to get back, and the current one belongs to the
process that executes. -/
structure Saved (boot : Boot) (past : List Event) (c : Context) : Prop where
  reached : ∃ trace, Runs boot trace c.machine
  executing : ∀ pid k cpu, c = .process pid k cpu → pid = k.current
  descriptors : ∀ pid, 1 ≤ pid → pid < nprocs →
    Restores (c.machine.kernel.procArray pid).pRegisters (lastContext boot pid past)

theorem saved_start (boot : Boot) : Saved boot [] (.kernel (start boot)) := by
  refine ⟨⟨[], .nil _⟩, fun pid k cpu same => (by cases same), fun pid low high => ?_⟩
  have registers := congrArg Process.pRegisters (boot.kernel_proc low high)
  change Restores (boot.kernel.procArray pid).pRegisters (boot.context pid)
  rw [registers]
  exact @restores_pushed _ (boot.context pid) 0 0 (fun _ => 0) rfl

theorem Saved.step (algorithm : boot.schedulingAlgorithm ≠ 1) {past : List Event} {c c' : Context}
    {event : Event} (saved : Saved boot past c) (step : Switch c event c') :
    Saved boot (past ++ [event]) c' := by
  obtain ⟨trace, run⟩ := saved.reached
  have reached : ∃ trace, Runs boot trace c'.machine := by
    rcases step.machine with same | ⟨label, next⟩
    · exact ⟨trace, same ▸ run⟩
    · exact ⟨_, run.snoc next⟩
  have descriptors := saved.descriptors
  obtain ⟨table, same⟩ := runs_wellFormed algorithm run
  cases step with
  | @interrupt pid vector k cpu handler upper s reg gate pushed read =>
      obtain rfl := saved.executing pid k cpu rfl
      refine ⟨reached, fun pid k cpu same => (by cases same), fun pid low high => ?_⟩
      rw [lastContext_interrupt]
      change Restores ((interrupt reg k).kernel.procArray pid).pRegisters _
      by_cases caller : k.current = pid
      · subst caller
        rw [if_pos rfl, interrupt_proc_current, served_registers]
        obtain ⟨s', reg', pushed', read', -, restores⟩ := handler_hands_over gate upper cpu
        obtain rfl := Option.some.inj (pushed.symm.trans pushed')
        obtain rfl := Option.some.inj (read.symm.trans read')
        exact restores
      · rw [if_neg caller, interrupt_proc_other _ _ (Ne.symm caller)]
        exact descriptors pid low high
  | dispatch picked =>
      refine ⟨reached, fun pid k cpu same => (by cases same), fun pid low high => ?_⟩
      rw [lastContext_other _ _ (fun _ _ => by simp)]
      obtain ⟨next, -, -, times, rngs, rfl⟩ :=
        Kernel.schedules_picks table.1 (same ▸ algorithm) picked
      exact descriptors pid low high
  | resume popped =>
      refine ⟨reached, fun pid k cpu same => (by cases same; rfl), fun pid low high => ?_⟩
      rw [lastContext_other _ _ (fun _ _ => by simp)]
      exact descriptors pid low high
  | @execute pid k cpu cpu' cursorpos lock cells =>
      refine ⟨reached, fun _ _ _ same => ?_, fun pid low high => ?_⟩
      · cases same
        exact saved.executing pid k cpu rfl
      · rw [lastContext_other _ _ (fun _ _ => by simp)]
        exact descriptors pid low high

theorem switches_saved (algorithm : boot.schedulingAlgorithm ≠ 1) {trace : List (Event × Context)}
    {last : Context} (run : Switches boot trace last) :
    Saved boot (trace.map Prod.fst) last :=
  run.history (Saved boot) (saved_start boot) fun _ _ _ _ saved step => saved.step algorithm step

theorem Saved.resumes {past : List Event} {k : Kernel}
    (saved : Saved boot past (.kernel (.user k))) (low : 1 ≤ k.current)
    (high : k.current < nprocs) :
    Switch (.kernel (.user k)) (.resume k.current (lastContext boot k.current past))
      (.process k.current k (lastContext boot k.current past)) :=
  .resume (saved.descriptors k.current low high (fun _ => 0) (boot.context 0))

theorem context_switches_transparent
    (algorithm : boot.schedulingAlgorithm ∈ [0, 2, 3, 4]) {trace : List (Event × Context)}
    {k : Kernel} (run : Switches boot trace (.kernel (.user k))) (event : Event) (c : Context) :
    Switch (.kernel (.user k)) event c ↔
      event = .resume k.current (lastContext boot k.current (trace.map Prod.fst)) ∧
        c = .process k.current k (lastContext boot k.current (trace.map Prod.fst)) := by
  have tested := ne_strict algorithm
  have saved := switches_saved tested run
  obtain ⟨reached, machine⟩ := saved.reached
  obtain ⟨low, high⟩ := (runs_wellFormed tested machine).1.1.current
  have restores := saved.descriptors k.current low high
  constructor
  · intro step
    cases step with
    | @resume _ cpu upper s popped =>
        obtain rfl := Option.some.inj (popped.symm.trans (restores upper cpu))
        exact ⟨rfl, rfl⟩
  · rintro ⟨rfl, rfl⟩
    exact saved.resumes low high

theorem interrupt_switch {vector : Nat} {handler : List Instr}
    (gate : interruptDescriptors vector = some handler) (pid : Nat) (k : Kernel) (cpu : Cpu) :
    ∃ reg, reg.regIntno = BitVec.ofNat 32 vector ∧
      Switch (.process pid k cpu) (.interrupt pid cpu) (.kernel (interrupt reg k)) := by
  obtain ⟨s, reg, pushed, read, intno, -⟩ := handler_hands_over gate (fun _ => 0) cpu
  exact ⟨reg, intno, .interrupt gate pushed read⟩

theorem context_switches_transparent_priority : ∃ k cpu, k.current = 2 ∧ cpu.eax = 9 ∧
    ∀ event c, Switch (.kernel (.user k)) event c ↔
      event = .resume 2 cpu ∧ c = .process 2 k cpu := by
  let boot := bareBoot 0
  let cpu := { boot.context 2 with eax := 9 }
  have started : Switches boot _ _ :=
    .cons ((saved_start boot).resumes (by decide) (by decide)) (.nil _)
  obtain ⟨reg, yields, trapped⟩ :=
    interrupt_switch (show interruptDescriptors 48 = some _ from rfl) 1 boot.kernel (boot.context 1)
  have service : reg.service = .yield := by rw [Registers.service, yields]; rfl
  rw [interrupt_schedules reg _ (by simp [service])] at trapped
  have yielded := started.snoc trapped
  generalize left : (interrupt reg boot.kernel).kernel = k at yielded
  have picked : k.Schedules (k.run 2) := by
    have algorithm : k.schedulingAlgorithm = 0 := left ▸ interrupt_algorithm reg boot.kernel
    have pid : (k.procArray k.current).pPid = 1 := by
      rw [← left, interrupt_current, interrupt_proc_current, served_pid]
      rfl
    have runnable : k.Runnable 2 := by
      rw [Kernel.Runnable, ← left, interrupt_proc_other _ _ (by decide)]
      rfl
    have pass : k.roundRobinPass 1 = .leave (k.run 2) := if_pos runnable
    refine ⟨1, ?_⟩
    simp only [Kernel.schedule, pid, algorithm, if_true]
    exact Loop.run_leave pass 0
  have dispatched := yielded.snoc (.dispatch picked)
  have saved := switches_saved (by decide) dispatched
  have resumed := dispatched.snoc
    (saved.resumes (show 1 ≤ 2 by decide) (show 2 < nprocs by decide))
  have executed := resumed.snoc (.execute cpu k.cursorpos k.lock k.cells)
  obtain ⟨reg', sets, trapped'⟩ :=
    interrupt_switch (show interruptDescriptors 50 = some _ from rfl) 2 (k.run 2) cpu
  have service' : reg'.service = .user1 := by rw [Registers.service, sets]; rfl
  rw [interrupt_returns reg' _ (by simp [service'])] at trapped'
  have current : (interrupt reg' (k.run 2)).kernel.current = 2 := interrupt_current reg' (k.run 2)
  refine ⟨_, cpu, current, rfl, fun event c => ?_⟩
  have transparent := context_switches_transparent (by decide) (executed.snoc trapped') event c
  rw [List.map_append, List.map_singleton, lastContext_interrupt, current,
    if_pos rfl] at transparent
  exact transparent

end Switches

end SchedOS
