import SchedOS.Hardware.Segments

set_option autoImplicit false

namespace SchedOS

open Bitfield Protection

-- It pushes no trap number: what it pushes stands in the place of `reg_intno`.
def defaultIntHandler : List X86.Instr := .pushl 0 :: genericIntHandler

/-- What the linker has done: the handlers are where the gates look for them, and the task state
segment where its descriptor says. -/
structure Linked (sym : Symbols) (text : BitVec 32 → Option (List X86.Instr))
    (memory : Nat → Nat) : Prop where
  clock : text sym.clockIntHandler = some clockIntHandler
  calls : ∀ i, i < 10 → text (sym.sysIntHandlers i) = sysIntHandlers[i]?
  default : text sym.defaultIntHandler = some defaultIntHandler
  task : memory sym.kernelTaskDescriptor.toNat % 2 ^ (8 * TaskState.size) =
    (kernelHardware sym).kernelTaskDescriptor.bits

def SystemCall (vector : Nat) : Prop := 48 ≤ vector ∧ vector < 58

instance : DecidablePred SystemCall := fun _ => inferInstanceAs (Decidable (_ ∧ _))

def Handled (vector : Nat) (source : Source) : Prop :=
  SystemCall vector ∨ vector = 32 ∧ source ≠ .software

instance (vector : Nat) (source : Source) : Decidable (Handled vector source) :=
  inferInstanceAs (Decidable (_ ∨ _))

section Delivery

variable (sym : Symbols) {memory : Nat → Nat}

def kernelTables (memory : Nat → Nat) : Tables :=
  { gdt := (kernelHardware sym).globalDescriptorTable
    idt := (kernelHardware sym).interruptDescriptorTable
    taskSelector := segselTaskstate.toNat
    taskLimit := 104
    task := memory sym.kernelTaskDescriptor.toNat }

theorem load_kernel : (kernelHardware sym).load memory = .ok (kernelTables sym memory) := by
  have found := segment_kernel sym segselTaskstate.toNat
  have loads : loadTask (kernelHardware sym).globalDescriptorTable segselTaskstate.toNat =
      .ok (taskSegment sym) :=
    (loadTask_ok (by decide) found).mpr ⟨rfl, rfl, rfl, rfl⟩
  rw [Hardware.load, loads]
  rfl

theorem gate_kernel {vector : Nat} (inside : vector < 256) : ∃ g,
    (kernelTables sym memory).idt.read vector = some g ∧
      (Gate.ofBits g).offset = (if SystemCall vector then sym.sysIntHandlers (vector - 48)
        else if vector = 32 then sym.clockIntHandler else sym.defaultIntHandler).toNat ∧
      (Gate.ofBits g).selector = 8 ∧ (Gate.ofBits g).kind = interruptGate ∧
      (Gate.ofBits g).dpl = (if SystemCall vector then 3 else 0) ∧
      (Gate.ofBits g).present = true := by
  have limit : 8 * vector + 7 ≤ (kernelTables sym memory).idt.limit := by
    change 8 * vector + 7 ≤ 8 * 256 - 1
    omega
  refine ⟨_, if_pos limit, ?_⟩
  change let g := Gate.ofBits ((kernelHardware sym).interruptDescriptors vector).bits
    g.offset = _ ∧ g.selector = _ ∧ g.kind = _ ∧ g.dpl = _ ∧ g.present = _
  rw [gates_kernel]
  by_cases call : SystemCall vector
  · rw [if_pos (show 48 ≤ vector ∧ vector < 58 from call), gate_setgate _ _ _ (by decide)]
    simp only [if_pos call]
    exact ⟨trivial, rfl, rfl, trivial, trivial⟩
  · rw [if_neg (show ¬ (48 ≤ vector ∧ vector < 58) from call)]
    simp only [if_neg call]
    by_cases clock : vector = 32
    · rw [if_pos clock, if_pos clock, gate_setgate _ _ _ (by decide)]
      exact ⟨rfl, rfl, rfl, rfl, rfl⟩
    · rw [if_neg clock, if_neg clock, if_pos inside, gate_setgate _ _ _ (by decide)]
      exact ⟨rfl, rfl, rfl, rfl, rfl⟩

section Task

variable {sym}
  (task : memory sym.kernelTaskDescriptor.toNat % 2 ^ (8 * TaskState.size) =
    (kernelHardware sym).kernelTaskDescriptor.bits)
include task

theorem extract_task {low w : Nat} (inside : low + w ≤ 8 * TaskState.size) :
    extract (kernelTables sym memory).task low w =
      extract (kernelHardware sym).kernelTaskDescriptor.bits low w := by
  rw [← task, extract_mod inside]
  rfl

theorem innerStack_kernel (external : Nat) :
    innerStack (kernelTables sym memory) 0 external = .ok (0x10, 0x180000) := by
  have esp : extract (kernelTables sym memory).task 32 32 = 0x180000 :=
    (extract_task task (by decide)).trans
      (@extract_field (kernelHardware sym).kernelTaskDescriptor.fields 1 _ _ rfl)
  have ss : extract (kernelTables sym memory).task 64 16 = 0x10 :=
    (extract_task task (by decide)).trans
      (@extract_field (kernelHardware sym).kernelTaskDescriptor.fields 2 _ _ rfl)
  have found := segment_kernel sym 0x10
  have loads : loadStack (kernelTables sym memory).gdt 0 invalidTask external 0x10 =
      .ok (flat 2 0) :=
    (loadStack_ok (by decide) found).mpr ⟨rfl, rfl, (flat_kinds 0).2.1, rfl, rfl⟩
  have limit : (kernelTables sym memory).taskLimit = 104 := rfl
  rw [innerStack, limit]
  simp only [Nat.reduceMul, Nat.zero_add, Nat.reduceAdd, esp, ss, loads]
  rfl

theorem through_kernel {g : Gate} (selector : g.selector = 8) (kind : g.kind = interruptGate)
    (offset : g.offset < 2 ^ 32) (source : Source) : through (kernelTables sym memory) 3 g source =
      .enters {
        offset := g.offset, cs := 8, stack := some (0x10, 0x180000), error := source.error,
        disables := true } := by
  have found : (kernelTables sym memory).gdt.segment 8 = some (flat 10 0) := segment_kernel sym 8
  have inner := innerStack_kernel task source.externalBit
  have within : ¬ 2 ^ 32 - 1 < g.offset := by omega
  rw [through, selector, if_neg (by decide), found, kind]
  simp only [flat, Segment.code, Segment.conforming, if_neg within, inner]
  rfl

theorem raise_kernel {vector : Nat} (inside : vector < 256) (source : Source) :
    raise (kernelTables sym memory) 3 vector source =
      if source = .software ∧ ¬ SystemCall vector then
        .faults ⟨generalProtection, vectorError vector 0⟩
      else .enters {
        offset := (if SystemCall vector then sym.sysIntHandlers (vector - 48)
          else if vector = 32 then sym.clockIntHandler else sym.defaultIntHandler).toNat
        cs := 8, stack := some (0x10, 0x180000), error := source.error, disables := true } := by
  obtain ⟨bits, read, offset, selector, kind, dpl, present⟩ := @gate_kernel sym memory vector inside
  have entered := through_kernel task selector kind (offset ▸ BitVec.isLt _) source
  have level : (Gate.ofBits bits).dpl < 3 ↔ ¬ SystemCall vector := by
    rw [dpl]
    split_ifs with call <;> simp [call]
  rw [raise, read]
  simp only [kind, level, present, entered, offset]
  rw [if_neg (by decide), if_neg (by decide)]
  by_cases refused : source = .software ∧ ¬ SystemCall vector
  · rw [if_pos refused, if_pos refused, refused.1]
    rfl
  · rw [if_neg refused, if_neg refused]
    rfl

theorem arrive_kernel {vector : Nat} (inside : vector < 256) (source : Source) :
    ∃ error, arrive (kernelTables sym memory) 3 vector source = some {
        offset := (if Handled vector source then
          if SystemCall vector then sym.sysIntHandlers (vector - 48) else sym.clockIntHandler
          else sym.defaultIntHandler).toNat
        cs := 8, stack := some (0x10, 0x180000), error := error, disables := true } ∧
      (Handled vector source → error = source.error) := by
  have raised := raise_kernel task inside source
  by_cases refused : source = .software ∧ ¬ SystemCall vector
  · have second := raise_kernel task (show 13 < 256 by decide)
      (.exception (some (vectorError vector 0)))
    rw [if_pos refused] at raised
    rw [if_neg (by simp), if_neg (by decide), if_neg (by decide)] at second
    have unhandled : ¬ Handled vector source := by
      rintro (call | ⟨-, device⟩)
      · exact refused.2 call
      · exact device refused.1
    refine ⟨some (vectorError vector 0), ?_, fun handled => absurd handled unhandled⟩
    rw [arrive, raised]
    simp only [generalProtection, second, if_neg unhandled]
    rfl
  · rw [if_neg refused] at raised
    refine ⟨source.error, ?_, fun _ => rfl⟩
    rw [arrive, raised]
    simp only [Handled, Option.some.injEq, Entry.mk.injEq, and_true]
    congr 1
    by_cases call : SystemCall vector
    · simp [call]
    · have device : source ≠ .software := fun software => refused ⟨software, call⟩
      simp [call, device]

end Task

end Delivery

section HandOver

variable (upper : X86.Segment → BitVec 16)

def entered (above : List X86.Word) (stack : Nat × Nat) (cs : Nat) (error : Option Nat)
    (cpu : X86.Cpu) : X86.State :=
  let s := X86.enter upper (BitVec.ofNat 16 stack.1) (BitVec.ofNat 32 stack.2)
    (BitVec.ofNat 16 cs) cpu
  let s := { s with stack := s.stack ++ above }
  match error with
  | some error => s.push (BitVec.ofNat 32 error)
  | none => s

def handOver (t : Tables) (text : BitVec 32 → Option (List X86.Instr)) (above : List X86.Word)
    (cpu : X86.Cpu) (vector : Nat) (source : Source) : Option Registers :=
  match arrive t 3 vector source with
  | some { offset := offset, cs := cs, stack := some stack, error := error, disables := true } =>
      (text (BitVec.ofNat 32 offset)).bind fun handler =>
        (X86.execs upper handler (entered upper above stack cs error cpu)).bind argument
  -- There is no trap gate, and none without a change of the stack.
  | _ => none

theorem entered_stack (above : List X86.Word) (error : Option Nat) (cpu : X86.Cpu) :
    (entered upper above (0x10, 0x180000) 8 error cpu).stack =
      (error.map (BitVec.ofNat 32)).toList ++ X86.frameWords upper cpu ++ above := by
  cases error <;> rfl

theorem default_argument {above : List X86.Word} (room : above ≠ []) (error : Option Nat)
    (cpu : X86.Cpu) : ∃ reg, (X86.execs upper defaultIntHandler
        (entered upper above (0x10, 0x180000) 8 error cpu)).bind argument = some reg ∧
      reg.regIntno = 0 := by
  rw [defaultIntHandler, X86.execs_pushl, argument_generic, X86.State.push, entered_stack]
  obtain ⟨word, rest, rfl⟩ := List.exists_cons_of_ne_nil room
  cases error <;> exact ⟨_, rfl, rfl⟩

end HandOver

theorem service_halts {reg : Registers} (k : Kernel) :
    (∃ halt, interrupt reg k = .halted halt) ↔ reg.service = .unknown := by
  constructor
  · rintro ⟨halt, halted⟩
    cases kind : reg.service <;> simp [interrupt, kind] at halted
    rfl
  · intro unknown
    exact ⟨_, by rw [interrupt, unknown]⟩

theorem service_unknown {vector : Nat} (inside : vector < 256) :
    service (BitVec.ofNat 32 vector) = .unknown ↔
      ¬ (48 ≤ vector ∧ vector < 54 ∨ vector = 32) := by
  have value : (BitVec.ofNat 32 vector).toNat = vector := by
    rw [BitVec.toNat_ofNat]
    exact Nat.mod_eq_of_lt (by omega)
  unfold service
  rw [value]
  split
  case h_8 not48 not49 not50 not51 not52 not53 not32 =>
    simp only [imp_false] at not48 not49 not50 not51 not52 not53 not32
    exact iff_of_true rfl (by omega)
  all_goals simp

theorem Linked.handler {sym : Symbols} {text : BitVec 32 → Option (List X86.Instr)}
    {memory : Nat → Nat} (linked : Linked sym text memory) {vector : Nat} {source : Source}
    (handled : Handled vector source) :
    text (if SystemCall vector then sym.sysIntHandlers (vector - 48) else sym.clockIntHandler) =
        some (intHandler (BitVec.ofNat 32 vector)) ∧
      interruptDescriptors vector = some (intHandler (BitVec.ofNat 32 vector)) := by
  have found : ∃ handler, interruptDescriptors vector = some handler ∧
      text (if SystemCall vector then sym.sysIntHandlers (vector - 48) else sym.clockIntHandler) =
        some handler := by
    by_cases call : SystemCall vector
    · obtain ⟨low, high⟩ := call
      have inside : vector - 48 < sysIntHandlers.length := by
        change vector - 48 < 10
        omega
      refine ⟨sysIntHandlers[vector - 48], ?_, ?_⟩
      · rw [interruptDescriptors, if_neg (by omega), if_pos low]
        exact List.getElem?_eq_getElem inside
      · rw [if_pos ⟨low, high⟩, linked.calls _ inside]
        exact List.getElem?_eq_getElem inside
    · obtain ⟨rfl, -⟩ := handled.resolve_left call
      exact ⟨_, rfl, (congrArg text (if_neg call)).trans linked.clock⟩
  obtain ⟨handler, gate, code⟩ := found
  exact ⟨code.trans (congrArg some (gate_handler gate)),
    gate.trans (congrArg some (gate_handler gate))⟩

/-- Whatever an application or a device raises, `interrupt` is called: with the number of a system
call or of the clock and the registers that `run` restores, as in the context switches of the
machine, or with the number 0. The kernel goes on after the six system calls that it knows and after
the clock, which no `int` instruction can play; everything else makes it spin. -/
theorem traps (sym : Symbols) (text : BitVec 32 → Option (List X86.Instr)) (memory : Nat → Nat)
    (linked : Linked sym text memory) (vector : Nat) (inside : vector < 256) (source : Source)
    (exceptions : ∀ error, source = .exception error → vector < 32)
    (upper : X86.Segment → BitVec 16) (above : List X86.Word) (room : above ≠ []) (cpu : X86.Cpu)
    (pid : Nat) (k : Kernel) :
    ∃ t reg, (kernelHardware sym).load memory = .ok t ∧
      handOver upper t text above cpu vector source = some reg ∧
      (Handled vector source → reg.regIntno = BitVec.ofNat 32 vector ∧ Restores reg cpu ∧
        Switch (.process pid k cpu) (.interrupt pid cpu) (.kernel (interrupt reg k))) ∧
      (¬ Handled vector source → reg.regIntno = 0) ∧
      ((∃ halt, interrupt reg k = .halted halt) ↔
        ¬ (48 ≤ vector ∧ vector < 54 ∨ vector = 32 ∧ source ≠ .software)) := by
  refine ⟨kernelTables sym memory, ?_⟩
  obtain ⟨error, arrived, pushed⟩ := arrive_kernel linked.task inside source
  by_cases handled : Handled vector source
  · rw [if_pos handled] at arrived
    have plain : error = none := by
      rw [pushed handled]
      cases source with
      | software | external => rfl
      | exception error =>
          have low := exceptions error rfl
          unfold Handled SystemCall at handled
          omega
    obtain ⟨code, gate⟩ := linked.handler handled
    obtain ⟨reg, read, intno, restores⟩ :=
      intHandler_hands_over (BitVec.ofNat 32 vector) upper cpu
    refine ⟨reg, load_kernel sym, ?_, fun _ => ⟨intno, restores, ?_⟩,
      fun other => absurd handled other, ?_⟩
    · rw [handOver, arrived, plain]
      simp only [BitVec.ofNat_toNat, BitVec.setWidth_eq, code, Option.bind_some]
      exact read above
    · have own := read []
      rw [List.append_nil] at own
      obtain ⟨s, ran, argued⟩ := Option.bind_eq_some_iff.mp own
      exact .interrupt gate ran argued
    · rw [service_halts, Registers.service, intno, service_unknown inside]
      rcases handled with ⟨low, -⟩ | clock
      · have other : vector ≠ 32 := by omega
        simp [other]
      · simp [clock]
  · have code : text sym.defaultIntHandler = some defaultIntHandler := linked.default
    obtain ⟨reg, read, intno⟩ := default_argument upper room error cpu
    refine ⟨reg, load_kernel sym, ?_, fun is => absurd is handled, fun _ => intno, ?_⟩
    · rw [handOver, arrived]
      simp only [if_neg handled, BitVec.ofNat_toNat, BitVec.setWidth_eq, code, Option.bind_some,
        read]
    · rw [service_halts, Registers.service, intno]
      unfold Handled SystemCall at handled
      refine iff_of_true rfl fun known => handled ?_
      rcases known with ⟨low, high⟩ | clock
      · exact .inl ⟨low, by omega⟩
      · exact .inr clock

theorem kernelTaskDescriptor_mod (sym : Symbols) :
    (kernelHardware sym).kernelTaskDescriptor.bits % 2 ^ (8 * TaskState.size) =
      (kernelHardware sym).kernelTaskDescriptor.bits := by
  have small := pack_lt (kernelHardware sym).kernelTaskDescriptor.fields
  rw [TaskState.width_fields] at small
  exact Nat.mod_eq_of_lt small

def someSymbols : Symbols :=
  { kernelTaskDescriptor := 0x101000, clockIntHandler := 0x100020
    sysIntHandlers := fun i => 0x100030 + 16 * BitVec.ofNat 32 i, defaultIntHandler := 0x1000d0 }

def someText (address : BitVec 32) : Option (List X86.Instr) :=
  if address = 0x100020 then some clockIntHandler
  else if address = 0x1000d0 then some defaultIntHandler
  else sysIntHandlers[((address - 0x100030) / 16).toNat]?

theorem someText_linked : Linked someSymbols someText
    fun _ => (kernelHardware someSymbols).kernelTaskDescriptor.bits := by
  refine ⟨rfl, fun i bound => ?_, rfl, kernelTaskDescriptor_mod someSymbols⟩
  interval_cases i <;> rfl

theorem traps_clock : ∃ t reg,
    handOver (fun _ => 0) t someText [0] ((bareBoot 0).context 1) 32 .software = some reg ∧
      ∃ halt, interrupt reg (bareBoot 0).kernel = .halted halt := by
  obtain ⟨t, reg, -, handed, -, -, halts⟩ := traps someSymbols someText _ someText_linked 32
    (by decide) .software (fun _ => by simp) (fun _ => 0) [0] (by simp) ((bareBoot 0).context 1) 1
    (bareBoot 0).kernel
  exact ⟨t, reg, handed, halts.mpr (by simp)⟩

/-- The applications can use the ports below 832 but for three: `segments_init` leaves `ts_iomb` 0,
so the task state segment is its own permission map. -/
theorem ports (sym : Symbols) (memory : Nat → Nat)
    (task : memory sym.kernelTaskDescriptor.toNat % 2 ^ (8 * TaskState.size) =
      (kernelHardware sym).kernelTaskDescriptor.bits) :
    ∃ t, (kernelHardware sym).load memory = .ok t ∧
      ∀ port bytes, (port < 832 → port + bytes ≤ 832) →
        (t.portAllowed port bytes ↔ port < 832 ∧ ∀ i, i < bytes → port + i ∉ [51, 52, 68]) := by
  refine ⟨kernelTables sym memory, load_kernel sym, fun port bytes inside => ?_⟩
  have bits : (kernelHardware sym).kernelTaskDescriptor.bits = 2 ^ 51 ||| 2 ^ 52 ||| 2 ^ 68 := by
    let rest := (TaskState.fields {}).drop 3
    have split : (kernelHardware sym).kernelTaskDescriptor.bits =
      pack ([(32, 0), (32, 0x180000), (16, 0x10)] ++ rest) := rfl
    have zeros : ∀ field ∈ rest, field.2 = 0 := by decide
    rw [split, pack_append, pack_zeros zeros]
    rfl
  have set (p : Nat) :
      (kernelHardware sym).kernelTaskDescriptor.bits.testBit p = false ↔ p ∉ [51, 52, 68] := by
    rw [bits, Nat.testBit_or, Nat.testBit_or, Nat.testBit_two_pow, Nat.testBit_two_pow,
      Nat.testBit_two_pow]
    simp only [Bool.or_eq_false_iff, decide_eq_false_iff_not, List.mem_cons, List.not_mem_nil,
      or_false, not_or]
    omega
  have map : extract (kernelTables sym memory).task (8 * 102) 16 = 0 := by
    rw [extract_task task (by decide)]
    exact extract_zero.mpr fun i _ => (set _).mpr (by simp; omega)
  have limit : (kernelTables sym memory).taskLimit = 104 := rfl
  have whole : 8 * TaskState.size = 832 := by decide
  unfold Tables.portAllowed
  rw [map, limit]
  simp only [Nat.zero_add, Nat.mul_zero]
  by_cases low : port < 832
  · have short := inside low
    rw [extract_task task (by omega), extract_zero]
    simp only [set]
    refine and_congr ?_ Iff.rfl
    omega
  · exact iff_of_false (fun allowed => low (by omega)) (fun allowed => low allowed.1)

theorem ports_controller : ∃ t,
    (kernelHardware someSymbols).load
      (fun _ => (kernelHardware someSymbols).kernelTaskDescriptor.bits) = .ok t ∧
    t.portAllowed 0x21 1 ∧ ¬ t.portAllowed 0x3D4 1 := by
  obtain ⟨t, loaded, allowed⟩ := ports someSymbols
    (fun _ => (kernelHardware someSymbols).kernelTaskDescriptor.bits)
    (kernelTaskDescriptor_mod someSymbols)
  exact ⟨t, loaded, (allowed 0x21 1 (by decide)).mpr (by decide),
    mt (allowed 0x3D4 1 (by decide)).mp (by decide)⟩

end SchedOS
