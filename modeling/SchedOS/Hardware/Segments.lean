import SchedOS.Hardware.Descriptors
import SchedOS.Kernel.Context

set_option autoImplicit false

namespace SchedOS

open Bitfield Protection

structure TaskState where
  tsLink : Nat := 0
  tsEsp0 : Nat := 0
  tsSs0 : Nat := 0
  tsPadding1 : Nat := 0
  tsEsp1 : Nat := 0
  tsSs1 : Nat := 0
  tsPadding2 : Nat := 0
  tsEsp2 : Nat := 0
  tsSs2 : Nat := 0
  tsPadding3 : Nat := 0
  tsCr3 : Nat := 0
  tsEip : Nat := 0
  tsEflags : Nat := 0
  tsEax : Nat := 0
  tsEcx : Nat := 0
  tsEdx : Nat := 0
  tsEbx : Nat := 0
  tsEsp : Nat := 0
  tsEbp : Nat := 0
  tsEsi : Nat := 0
  tsEdi : Nat := 0
  tsEs : Nat := 0
  tsPadding4 : Nat := 0
  tsCs : Nat := 0
  tsPadding5 : Nat := 0
  tsSs : Nat := 0
  tsPadding6 : Nat := 0
  tsDs : Nat := 0
  tsPadding7 : Nat := 0
  tsFs : Nat := 0
  tsPadding8 : Nat := 0
  tsGs : Nat := 0
  tsPadding9 : Nat := 0
  tsLdt : Nat := 0
  tsPadding10 : Nat := 0
  tsT : Nat := 0
  tsIomb : Nat := 0

def TaskState.fields (t : TaskState) : List Bitfield.Field :=
  [(32, t.tsLink), (32, t.tsEsp0), (16, t.tsSs0), (16, t.tsPadding1), (32, t.tsEsp1),
    (16, t.tsSs1), (16, t.tsPadding2), (32, t.tsEsp2), (16, t.tsSs2), (16, t.tsPadding3),
    (32, t.tsCr3), (32, t.tsEip), (32, t.tsEflags), (32, t.tsEax), (32, t.tsEcx), (32, t.tsEdx),
    (32, t.tsEbx), (32, t.tsEsp), (32, t.tsEbp), (32, t.tsEsi), (32, t.tsEdi), (16, t.tsEs),
    (16, t.tsPadding4), (16, t.tsCs), (16, t.tsPadding5), (16, t.tsSs), (16, t.tsPadding6),
    (16, t.tsDs), (16, t.tsPadding7), (16, t.tsFs), (16, t.tsPadding8), (16, t.tsGs),
    (16, t.tsPadding9), (16, t.tsLdt), (16, t.tsPadding10), (16, t.tsT), (16, t.tsIomb)]

def TaskState.bits (t : TaskState) : Nat := pack t.fields

def TaskState.size : Nat := width ({} : TaskState).fields / 8

theorem TaskState.width_fields (t : TaskState) : width t.fields = 8 * TaskState.size := by
  simp [TaskState.fields, TaskState.size]

def segselTaskstate : BitVec 16 := 0x28
def intClock : Nat := 32
def intSysYield : Nat := 48

-- The addresses that the linker gives to a variable and to the handlers of `schedos-int.S`.
structure Symbols where
  kernelTaskDescriptor : BitVec 32
  clockIntHandler : BitVec 32
  sysIntHandlers : Nat → BitVec 32
  defaultIntHandler : BitVec 32

structure Hardware where
  segments : List SegmentDescriptor
  interruptDescriptors : Nat → GateDescriptor
  kernelTaskDescriptor : TaskState

def Hardware.initial : Hardware :=
  { segments :=
      [segNull, seg (staX ||| staR) 0 0xFFFFFFFF 0, seg staW 0 0xFFFFFFFF 0,
        seg (staX ||| staR) 0 0xFFFFFFFF 3, seg staW 0 0xFFFFFFFF 3, segNull]
    interruptDescriptors := fun _ => .zero
    kernelTaskDescriptor := {} }

def interruptDescriptorsCount : Nat := 256

def setGates (gate : Nat → GateDescriptor) (start count : Nat) (gates : Nat → GateDescriptor) :
    Nat → GateDescriptor :=
  (List.range' start count).foldl (fun gates i => Function.update gates i (gate i)) gates

def segmentsInit (sym : Symbols) (h : Hardware) : Hardware :=
  let segments := h.segments.set (segselTaskstate.toNat >>> 3)
    (seg16 stsT32a sym.kernelTaskDescriptor (BitVec.ofNat 32 TaskState.size) 0)
  let segments := segments.modify (segselTaskstate.toNat >>> 3) fun s => { s with sdS := 0 }
  let task := { h.kernelTaskDescriptor with
    tsEsp0 := kernelStackTop.toNat, tsSs0 := segselKernData.toNat }
  let gates := setGates (fun _ => setgate false segselKernCode sym.defaultIntHandler 0)
    0 interruptDescriptorsCount h.interruptDescriptors
  let gates := Function.update gates intClock
    (setgate false segselKernCode sym.clockIntHandler 0)
  let gates := setGates
    (fun i => setgate false segselKernCode (sym.sysIntHandlers (i - intSysYield)) 3)
    intSysYield 10 gates
  { segments := segments, interruptDescriptors := gates, kernelTaskDescriptor := task }

def Hardware.globalDescriptorTable (h : Hardware) : Table :=
  { limit := 8 * h.segments.length - 1
    entry := fun i => ((h.segments[i]?).map SegmentDescriptor.bits).getD 0 }

def Hardware.interruptDescriptorTable (h : Hardware) : Table :=
  { limit := 8 * interruptDescriptorsCount - 1
    entry := fun i => (h.interruptDescriptors i).bits }

-- `lgdt`, `ltr` and `lidt`; `memory` gives the bits of what lies at an address.
def Hardware.load (h : Hardware) (memory : Nat → Nat) : Except Fault Tables :=
  match loadTask h.globalDescriptorTable segselTaskstate.toNat with
  | .error fault => .error fault
  | .ok s => .ok {
      gdt := h.globalDescriptorTable
      idt := h.interruptDescriptorTable
      taskSelector := segselTaskstate.toNat
      taskLimit := s.limit
      task := memory s.base }

-- What `segments_init` makes of the variables as the boot loader leaves them.
def kernelHardware (sym : Symbols) : Hardware := segmentsInit sym .initial

section Tables

variable (sym : Symbols)

theorem setGates_apply (gate : Nat → GateDescriptor) (start count : Nat)
    (gates : Nat → GateDescriptor) (i : Nat) : setGates gate start count gates i =
      if start ≤ i ∧ i < start + count then gate i else gates i := by
  induction count generalizing start gates with
  | zero => rw [if_neg (by omega)]; rfl
  | succ count ih =>
      rw [setGates, List.range'_succ, List.foldl_cons, ← setGates, ih]
      by_cases here : i = start
      · subst here
        rw [if_neg (by omega), if_pos (by omega), Function.update_self]
      · rw [Function.update_of_ne here]
        split_ifs <;> first | rfl | omega

theorem gates_kernel (vector : Nat) : (kernelHardware sym).interruptDescriptors vector =
    if 48 ≤ vector ∧ vector < 58 then
      setgate false segselKernCode (sym.sysIntHandlers (vector - 48)) 3
    else if vector = 32 then setgate false segselKernCode sym.clockIntHandler 0
    else if vector < 256 then setgate false segselKernCode sym.defaultIntHandler 0
    else .zero := by
  simp only [kernelHardware, segmentsInit, setGates_apply, intSysYield, intClock,
    interruptDescriptorsCount]
  split_ifs with call clock inside
  · rfl
  · rw [clock]; exact Function.update_self ..
  · rw [Function.update_of_ne clock, setGates_apply, if_pos (by omega)]
  · rw [Function.update_of_ne clock, setGates_apply, if_neg (by omega)]
    rfl

def flat (kind dpl : Nat) : Segment :=
  { base := 0, limit := 2 ^ 32 - 1, kind := kind, system := false, dpl := dpl, present := true,
    big := true }

def taskSegment : Segment :=
  { base := sym.kernelTaskDescriptor.toNat, limit := 104, kind := availableTask, system := true,
    dpl := 0, present := true, big := true }

theorem flat_code (dpl : Nat) (level : dpl < 4) :
    Segment.ofBits (seg (staX ||| staR) 0 0xFFFFFFFF dpl).bits = flat 10 dpl :=
  segment_seg 0 0xFFFFFFFF (by decide) level

theorem flat_data (dpl : Nat) (level : dpl < 4) :
    Segment.ofBits (seg staW 0 0xFFFFFFFF dpl).bits = flat 2 dpl :=
  segment_seg 0 0xFFFFFFFF (by decide) level

theorem task_bits : Segment.ofBits
    { seg16 stsT32a sym.kernelTaskDescriptor (BitVec.ofNat 32 TaskState.size) 0 with
      sdS := 0 }.bits = taskSegment sym := by
  have read := @segment_seg16 stsT32a 0 sym.kernelTaskDescriptor
    (BitVec.ofNat 32 TaskState.size) (by decide) (by decide)
  rw [segment_bits] at read ⊢
  rw [Segment.mk.injEq] at read ⊢
  obtain ⟨base, limit, kind, -, dpl, present, big⟩ := read
  exact ⟨base, limit, kind, rfl, dpl, present, big⟩

theorem segments_kernel : (kernelHardware sym).segments =
    [segNull, seg (staX ||| staR) 0 0xFFFFFFFF 0, seg staW 0 0xFFFFFFFF 0,
      seg (staX ||| staR) 0 0xFFFFFFFF 3, seg staW 0 0xFFFFFFFF 3,
      { seg16 stsT32a sym.kernelTaskDescriptor (BitVec.ofNat 32 TaskState.size) 0 with
        sdS := 0 }] := rfl

theorem segment_read (h : Hardware) (some : 0 < h.segments.length) (index : Nat) :
    (h.globalDescriptorTable.read index).map Segment.ofBits =
      (h.segments[index]?).map fun s => Segment.ofBits s.bits := by
  have last : h.globalDescriptorTable.limit = 8 * h.segments.length - 1 := rfl
  have entry : h.globalDescriptorTable.entry index =
    ((h.segments[index]?).map SegmentDescriptor.bits).getD 0 := rfl
  unfold Table.read
  rcases Nat.lt_or_ge index h.segments.length with inside | outside
  · rw [if_pos (by omega), entry, List.getElem?_eq_getElem inside]
    rfl
  · rw [if_neg (by omega), List.getElem?_eq_none outside]
    rfl

theorem segment_kernel (selector : Nat) :
    (kernelHardware sym).globalDescriptorTable.segment selector =
      if selector / 4 = 0 then some (Segment.ofBits 0)
      else if selector / 4 = 2 then some (flat 10 0)
      else if selector / 4 = 4 then some (flat 2 0)
      else if selector / 4 = 6 then some (flat 10 3)
      else if selector / 4 = 8 then some (flat 2 3)
      else if selector / 4 = 10 then some (taskSegment sym)
      else none := by
  rw [Table.segment, segment_read (kernelHardware sym) (Nat.zero_lt_succ 5), segments_kernel,
    Nat.testBit_eq_decide_div_mod_eq]
  split_ifs with table null kernCode kernData appCode appData task
  all_goals simp only [decide_eq_true_eq] at table
  all_goals try omega
  · rfl
  · rw [show selector / 8 = 0 by omega]; rfl
  · rw [show selector / 8 = 1 by omega]; exact congrArg some (flat_code 0 (by decide))
  · rw [show selector / 8 = 2 by omega]; exact congrArg some (flat_data 0 (by decide))
  · rw [show selector / 8 = 3 by omega]; exact congrArg some (flat_code 3 (by decide))
  · rw [show selector / 8 = 4 by omega]; exact congrArg some (flat_data 3 (by decide))
  · rw [show selector / 8 = 5 by omega]; exact congrArg some (task_bits sym)
  · rw [List.getElem?_eq_none (by simp only [List.length_cons, List.length_nil]; omega)]
    rfl

end Tables

section Loads

variable (sym : Symbols)

theorem flat_kinds (dpl : Nat) : (flat 2 dpl).code = false ∧ (flat 2 dpl).writable = true ∧
    (flat 10 dpl).writable = false := by
  simp only [flat, Segment.writable, Segment.code]
  decide

theorem loadData_applications {cpl selector : Nat} (level : cpl ≤ 3)
    (application : selector / 4 ∈ [0, 6, 8]) :
    ∃ s, loadData (kernelHardware sym).globalDescriptorTable cpl selector = .ok s := by
  have segment := segment_kernel sym selector
  have request : rpl selector ≤ 3 := Nat.le_of_lt_succ (Nat.mod_lt _ (by decide))
  simp only [List.mem_cons, List.not_mem_nil, or_false] at application
  rcases application with null | code | data
  · exact ⟨none, loadData_null null⟩
  · have real : ¬ Null selector := by rw [Null, code]; decide
    simp only [code, Nat.reduceEqDiff, if_false, if_true] at segment
    exact ⟨_, (loadData_ok real segment).mpr ⟨rfl, rfl, fun _ => ⟨request, level⟩, rfl, rfl⟩⟩
  · have real : ¬ Null selector := by rw [Null, data]; decide
    simp only [data, Nat.reduceEqDiff, if_false, if_true] at segment
    exact ⟨_, (loadData_ok real segment).mpr ⟨rfl, rfl, fun _ => ⟨request, level⟩, rfl, rfl⟩⟩

theorem loadData_level3 {selector : Nat} {result : Option Segment}
    (loads : loadData (kernelHardware sym).globalDescriptorTable 3 selector = .ok result) :
    selector / 4 ∈ [0, 6, 8] := by
  by_cases null : Null selector
  · rw [show selector / 4 = 0 from null]
    decide
  have segment := segment_kernel sym selector
  have level (s : Segment) (data : s.dpl < 3) (plain : s.conforming = false)
      (found : (kernelHardware sym).globalDescriptorTable.segment selector = some s) : False := by
    obtain ⟨-, -, checked, -⟩ := (loadData_ok null found).mp loads
    have := checked fun both => by rw [plain] at both; exact Bool.noConfusion both.2
    omega
  split_ifs at segment with zero kernCode kernData appCode appData task
  · exact absurd zero null
  · exact (level _ (by decide) rfl segment).elim
  · exact (level _ (by decide) rfl segment).elim
  · rw [appCode]; decide
  · rw [appData]; decide
  · exact Bool.noConfusion ((loadData_ok null segment).mp loads).1
  · rw [loadData, if_neg null, segment] at loads
    cases loads

theorem returnCode_level3 {selector : Nat} {s : Segment} (level : rpl selector = 3)
    (returns : returnCode (kernelHardware sym).globalDescriptorTable 0 selector = .ok s) :
    selector = 0x1b := by
  have real : ¬ Null selector := by
    intro null
    rw [returnCode, if_pos null] at returns
    cases returns
  have segment := segment_kernel sym selector
  have outer (s : Segment) (inner : s.dpl ≠ 3) (plain : ¬ s.conforming = true)
      (found : (kernelHardware sym).globalDescriptorTable.segment selector = some s) : False := by
    obtain ⟨-, -, -, same, -⟩ := (returnCode_ok real found).mp returns
    exact inner (level ▸ same plain).symm
  have data (dpl : Nat)
      (found : (kernelHardware sym).globalDescriptorTable.segment selector = some (flat 2 dpl)) :
      False := by
    have code := ((returnCode_ok real found).mp returns).1
    exact Bool.noConfusion ((flat_kinds dpl).1.symm.trans code)
  split_ifs at segment with zero kernCode kernData appCode appData task
  · exact absurd zero real
  · exact (outer _ (by decide) (by decide) segment).elim
  · exact (data 0 segment).elim
  · unfold rpl at level
    omega
  · exact (data 3 segment).elim
  · exact Bool.noConfusion ((returnCode_ok real segment).mp returns).1
  · rw [returnCode, if_neg real, segment] at returns
    cases returns

theorem loadStack_level3 {selector vector external : Nat} {s : Segment}
    (loads : loadStack (kernelHardware sym).globalDescriptorTable 3 vector external selector =
      .ok s) : selector = 0x23 := by
  have real : ¬ Null selector := by
    intro null
    rw [loadStack, if_pos null] at loads
    cases loads
  have segment := segment_kernel sym selector
  have checked (s : Segment)
      (found : (kernelHardware sym).globalDescriptorTable.segment selector = some s) :
      rpl selector = 3 ∧ s.dpl = 3 ∧ s.writable = true := by
    obtain ⟨request, level, writable, -⟩ := (loadStack_ok real found).mp loads
    exact ⟨request, level, writable⟩
  split_ifs at segment with zero kernCode kernData appCode appData task
  · exact absurd zero real
  · exact absurd (checked _ segment).2.1 (by decide)
  · exact absurd (checked _ segment).2.1 (by decide)
  · exact absurd (checked _ segment).2.2 (by rw [(flat_kinds 3).2.2]; decide)
  · obtain ⟨request, -⟩ := checked _ segment
    unfold rpl at request
    omega
  · exact absurd (checked _ segment).2.1 (by simp [taskSegment])
  · rw [loadStack, if_neg real, segment] at loads
    cases loads

structure Admitted (gdt : Table) (cpu : X86.Cpu) : Prop where
  cs : rpl cpu.cs.toNat = 3 ∧ ∃ s, returnCode gdt 0 cpu.cs.toNat = .ok s
  ss : ∃ s, loadStack gdt 3 generalProtection 0 cpu.ss.toNat = .ok s
  ds : ∃ s, loadData gdt 3 cpu.ds.toNat = .ok s
  es : ∃ s, loadData gdt 3 cpu.es.toNat = .ok s

theorem Admitted.loads {cpu : X86.Cpu}
    (admitted : Admitted (kernelHardware sym).globalDescriptorTable cpu) :
    cpu.cs = segselAppCode ||| 3 ∧ cpu.ss = segselAppData ||| 3 ∧
      (∃ s, loadData (kernelHardware sym).globalDescriptorTable 0 cpu.es.toNat = .ok s) ∧
      ∃ s, loadData (kernelHardware sym).globalDescriptorTable 0 cpu.ds.toNat = .ok s := by
  obtain ⟨⟨level, _, returns⟩, ⟨_, stack⟩, ⟨_, ds⟩, ⟨_, es⟩⟩ := admitted
  refine ⟨BitVec.eq_of_toNat_eq (returnCode_level3 sym level returns),
    BitVec.eq_of_toNat_eq (loadStack_level3 sym stack), ?_, ?_⟩
  · exact loadData_applications sym (Nat.zero_le 3) (loadData_level3 sym es)
  · exact loadData_applications sym (Nat.zero_le 3) (loadData_level3 sym ds)

theorem return_loads :
    returnCode (kernelHardware sym).globalDescriptorTable 0 0x1b = .ok (flat 10 3) ∧
      loadStack (kernelHardware sym).globalDescriptorTable 3 generalProtection 0 0x23 =
        .ok (flat 2 3) := by
  have code := segment_kernel sym 0x1b
  have data := segment_kernel sym 0x23
  refine ⟨(returnCode_ok (by decide) code).mpr ⟨rfl, by decide, ?_, fun _ => rfl, rfl, rfl⟩,
    (loadStack_ok (by decide) data).mpr ⟨rfl, rfl, (flat_kinds 3).2.1, rfl, rfl⟩⟩
  exact fun conforms => Bool.noConfusion conforms

theorem boot_admitted (boot : Boot) (pid : Nat) :
    Admitted (kernelHardware sym).globalDescriptorTable (boot.context pid) := by
  obtain ⟨code, stack⟩ := return_loads sym
  have data := loadData_applications sym (Nat.le_refl 3) (show 0x23 / 4 ∈ [0, 6, 8] by decide)
  exact ⟨⟨show rpl 0x1b = 3 by decide, _, code⟩, ⟨_, stack⟩, data, data⟩

theorem lastContext_admitted {gdt : Table} {boot : Boot} {pid : Nat} {past : List Event}
    (start : Admitted gdt (boot.context pid))
    (admitted : ∀ caller cpu, .interrupt caller cpu ∈ past → Admitted gdt cpu) :
    Admitted gdt (lastContext boot pid past) := by
  induction past using List.reverseRecOn with
  | nil => exact start
  | append_singleton past event ih =>
      have earlier := ih fun caller cpu member =>
        admitted caller cpu (List.mem_append_left _ member)
      cases event with
      | interrupt caller cpu =>
          rw [lastContext_interrupt]
          split_ifs
          · exact admitted caller cpu (by simp)
          · exact earlier
      | dispatch | resume | execute =>
          rw [lastContext_other _ _ (fun _ _ => by simp)]
          exact earlier

theorem restores_selectors {reg : Registers} {cpu : X86.Cpu} (restores : Restores reg cpu) :
    reg.regEs = cpu.es ∧ reg.regDs = cpu.ds ∧ reg.regCs = cpu.cs ∧ reg.regSs = cpu.ss := by
  have ran := restores (fun _ => 0) cpu
  simp only [runAsm, X86.execs, X86.exec, Registers.words, Option.bind_some, List.drop_succ_cons,
    List.drop_zero, Nat.reduceDiv, BitVec.setWidth_append_eq_right, Option.some.injEq,
    X86.State.mk.injEq, and_true] at ran
  exact ⟨congrArg X86.Cpu.es ran, congrArg X86.Cpu.ds ran, congrArg X86.Cpu.cs ran,
    congrArg X86.Cpu.ss ran⟩

end Loads

/-- No load of a segment register on the way into the kernel or out of it faults, and `run`
returns to the segments of the applications at level 3, in every run in which the processes only
have segment registers that the processor admits. -/
theorem run_loads (sym : Symbols) (boot : Boot)
    (algorithm : boot.schedulingAlgorithm ∈ [0, 2, 3, 4])
    (trace : List (Event × Context)) (k : Kernel) (run : Switches boot trace (.kernel (.user k)))
    (admitted : ∀ caller cpu, .interrupt caller cpu ∈ trace.map Prod.fst →
      Admitted (kernelHardware sym).globalDescriptorTable cpu) :
    let gdt := (kernelHardware sym).globalDescriptorTable
    let reg := (k.procArray k.current).pRegisters
    (∃ s, loadData gdt 0 reg.regEs.toNat = .ok s) ∧
    (∃ s, loadData gdt 0 reg.regDs.toNat = .ok s) ∧
    rpl reg.regCs.toNat = 3 ∧ returnCode gdt 0 reg.regCs.toNat = .ok (flat 10 3) ∧
    loadStack gdt 3 generalProtection 0 reg.regSs.toNat = .ok (flat 2 3) ∧
    loadData gdt 0 segselKernData.toNat = .ok (some (flat 2 0)) := by
  intro gdt reg
  have tested := ne_strict algorithm
  have saved := switches_saved tested run
  obtain ⟨_, machine⟩ := saved.reached
  obtain ⟨low, high⟩ := (runs_wellFormed tested machine).1.1.current
  have last := lastContext_admitted (boot_admitted sym boot k.current) admitted
  obtain ⟨cs, ss, es, ds⟩ := last.loads
  obtain ⟨sameEs, sameDs, sameCs, sameSs⟩ :=
    restores_selectors (saved.descriptors k.current low high)
  obtain ⟨code, stack⟩ := return_loads sym
  have kernel := segment_kernel sym 0x10
  refine ⟨?_, ?_, ?_, ?_, ?_, ?_⟩
  · exact sameEs.symm ▸ es
  · exact sameDs.symm ▸ ds
  · rw [show reg.regCs = _ from sameCs, cs]; decide
  · rw [show reg.regCs = _ from sameCs, cs]; exact code
  · rw [show reg.regSs = _ from sameSs, ss]; exact stack
  · exact (loadData_ok (by decide) kernel).mpr ⟨rfl, rfl, fun _ => ⟨by decide, le_rfl⟩, rfl, rfl⟩

-- A process sets its priority with a null selector in `ds` and a code segment in `es`.
theorem run_loads_null : ∃ trace k cpu, Switches (bareBoot 0) trace (.kernel (.user k)) ∧
    .interrupt 1 cpu ∈ trace.map Prod.fst ∧ cpu.ds = 0 ∧ cpu.es = 0x1b ∧
    returnCode (kernelHardware ⟨0, 0, fun _ => 0, 0⟩).globalDescriptorTable 0
      (k.procArray k.current).pRegisters.regCs.toNat = .ok (flat 10 3) := by
  let sym : Symbols := ⟨0, 0, fun _ => 0, 0⟩
  let boot := bareBoot 0
  let cpu := { boot.context 1 with ds := 0, es := 0x1b }
  have started : Switches boot _ _ :=
    .cons ((saved_start boot).resumes (by decide) (by decide)) (.nil _)
  have executed := started.snoc
    (.execute cpu boot.kernel.cursorpos boot.kernel.lock boot.kernel.cells)
  obtain ⟨reg, sets, trapped⟩ :=
    interrupt_switch (show interruptDescriptors 50 = some _ from rfl) 1 _ cpu
  have service : reg.service = .user1 := by rw [Registers.service, sets]; rfl
  rw [interrupt_returns reg _ (by simp [service])] at trapped
  have run := executed.snoc trapped
  refine ⟨_, _, cpu, run, by simp, rfl, rfl, ?_⟩
  refine (run_loads sym boot (by decide) _ _ run ?_).2.2.2.1
  intro caller other member
  obtain ⟨rfl, rfl⟩ : caller = 1 ∧ other = cpu := by simpa using member
  have first := boot_admitted sym boot 1
  exact ⟨first.cs, first.ss, ⟨none, loadData_null (show Null 0 from rfl)⟩,
    loadData_applications sym (Nat.le_refl 3) (show 0x1b / 4 ∈ [0, 6, 8] by decide)⟩

end SchedOS
