import SchedOS.Kernel.InMemory

set_option autoImplicit false

namespace SchedOS

open Bitfield
open Memory (Holds Elements)

def SegmentDescriptor.bytes (s : SegmentDescriptor) : List Byte := Bitfield.bytes 8 s.bits
def GateDescriptor.bytes (g : GateDescriptor) : List Byte := Bitfield.bytes 8 g.bits
def TaskState.bytes (t : TaskState) : List Byte := Bitfield.bytes TaskState.size t.bits

def SegmentDescriptor.access (s : SegmentDescriptor) : Nat :=
  pack [(4, s.sdType), (1, s.sdS), (2, s.sdDpl), (1, s.sdP)]

def Hardware.busy (h : Hardware) : Hardware :=
  let segments := h.segments.modify (segselTaskstate.toNat >>> 3) fun s =>
    { s with sdType := s.sdType ||| 2 }
  { h with segments := segments }

namespace Link

variable (link : Link)

def taskSegment : BitVec 32 :=
  link.segments + BitVec.ofNat 32 (8 * (segselTaskstate.toNat >>> 3))

def storeGates (gate : Nat → GateDescriptor) (start count : Nat) (m : Bytes) : Bytes :=
  (List.range' start count).foldl
    (fun m i => Memory.store (link.interruptDescriptors + BitVec.ofNat 32 (8 * i)) (gate i).bytes m)
    m

-- The stores to the task's segment; `sd_s` and the type are in its sixth byte.
def storeTask (m : Bytes) : Bytes :=
  let m := Memory.store link.taskSegment (seg16 stsT32a link.symbols.kernelTaskDescriptor
    (BitVec.ofNat 32 TaskState.size) 0).bytes m
  Memory.store (link.taskSegment + BitVec.ofNat 32 5)
    [m (link.taskSegment + BitVec.ofNat 32 5) &&& 0xEF] m

def storeTaskState (m : Bytes) : Bytes :=
  let m := write32 (link.symbols.kernelTaskDescriptor + BitVec.ofNat 32 4) kernelStackTop m
  write16 (link.symbols.kernelTaskDescriptor + BitVec.ofNat 32 8) segselKernData m

def storeInterrupts (m : Bytes) : Bytes :=
  let m := link.storeGates (fun _ => setgate false segselKernCode link.symbols.defaultIntHandler 0)
    0 interruptDescriptorsCount m
  let m := link.storeGates (fun _ => setgate false segselKernCode link.symbols.clockIntHandler 0)
    intClock 1 m
  link.storeGates
    (fun i => setgate false segselKernCode (link.symbols.sysIntHandlers (i - intSysYield)) 3)
    intSysYield 10 m

-- `ltr` marks the segment busy.
def loadTask (m : Bytes) : Bytes :=
  Memory.store (link.taskSegment + BitVec.ofNat 32 5)
    [m (link.taskSegment + BitVec.ofNat 32 5) ||| 0x02] m

def segmentsInit (m : Bytes) : Bytes :=
  link.loadTask (link.storeInterrupts (link.storeTaskState (link.storeTask m)))

structure Tables (m : Bytes) (h : Hardware) : Prop where
  count : h.segments.length = 6
  segments : Holds m link.segments (h.segments.flatMap SegmentDescriptor.bytes)
  task : Holds m link.symbols.kernelTaskDescriptor h.kernelTaskDescriptor.bytes
  gates : Elements m link.interruptDescriptors 8 interruptDescriptorsCount
    fun i => (h.interruptDescriptors i).bytes

end Link

section Bytes

theorem byte_shift {w : Nat} (v : BitVec w) (k : Nat) :
    (v >>> k).setWidth 8 = BitVec.ofNat 8 (v.toNat / 2 ^ k) := by
  apply BitVec.eq_of_toNat_eq
  rw [BitVec.toNat_setWidth, BitVec.toNat_ushiftRight, BitVec.toNat_ofNat,
    Nat.shiftRight_eq_div_pow]

theorem bytes_word (v : BitVec 32) : Bitfield.bytes 4 v.toNat = wordBytes v := by
  simp only [Bitfield.bytes, wordBytes, byte_shift, Nat.div_div_eq_div_mul]
  rfl

theorem bytes_half (v : BitVec 16) : Bitfield.bytes 2 v.toNat = halfBytes v := by
  simp only [Bitfield.bytes, halfBytes, byte_shift]
  rfl

theorem bytes_field (n value : Nat) :
    Bitfield.bytes n (pack [(8 * n, value)]) = Bitfield.bytes n value := by
  rw [pack, pack, Nat.mul_zero, Nat.add_zero, bytes_mod]

theorem SegmentDescriptor.bytes_length (s : SegmentDescriptor) : s.bytes.length = 8 :=
  length_bytes 8 s.bits

theorem SegmentDescriptor.bytes_split (s : SegmentDescriptor) :
    s.bytes = Bitfield.bytes 5 (pack (s.fields.take 3)) ++ [BitVec.ofNat 8 s.access] ++
      Bitfield.bytes 2 (pack (s.fields.drop 7)) := by
  have parts : s.fields = s.fields.take 3 ++
      ([(4, s.sdType), (1, s.sdS), (2, s.sdDpl), (1, s.sdP)] ++ s.fields.drop 7) := rfl
  have low : width (s.fields.take 3) = 8 * 5 := rfl
  have middle : width [(4, s.sdType), (1, s.sdS), (2, s.sdDpl), (1, s.sdP)] = 8 * 1 := rfl
  rw [SegmentDescriptor.bytes, SegmentDescriptor.bits, parts, bytes_pack low 3,
    bytes_pack middle 2, List.append_assoc]
  rfl

theorem TaskState.bytes_split (t : TaskState) :
    t.bytes = Bitfield.bytes 4 t.tsLink ++ (Bitfield.bytes 4 t.tsEsp0 ++
      (Bitfield.bytes 2 t.tsSs0 ++ Bitfield.bytes 94 (pack (t.fields.drop 3)))) := by
  have parts : t.fields = [(8 * 4, t.tsLink)] ++ ([(8 * 4, t.tsEsp0)] ++ ([(8 * 2, t.tsSs0)] ++
      t.fields.drop 3)) := rfl
  have size : TaskState.size = 4 + (4 + (2 + 94)) := rfl
  rw [TaskState.bytes, TaskState.bits, size, parts, bytes_pack rfl, bytes_pack rfl,
    bytes_pack rfl, bytes_field, bytes_field, bytes_field]
  rfl

end Bytes

namespace Link

variable {link : Link} {m : Bytes} {h : Hardware}

theorem storeGates_changes (gate : Nat → GateDescriptor) {start count : Nat}
    (inside : start + count ≤ interruptDescriptorsCount) (m : Bytes) :
    link.Changes [.interruptDescriptors] m (link.storeGates gate start count m) := by
  induction count generalizing start m with
  | zero => exact fun _ _ => rfl
  | succ count ih =>
      have first : link.Changes [.interruptDescriptors] m (Memory.store
          (link.interruptDescriptors + BitVec.ofNat 32 (8 * start)) (gate start).bytes m) := by
        refine changes_store (v := .interruptDescriptors) ?_ m
        rw [GateDescriptor.bytes, length_bytes]
        change _ ≤ 8 * 256
        unfold interruptDescriptorsCount at inside
        omega
      exact first.twice (ih (by omega) _)

theorem storeGates_gates (gate : Nat → GateDescriptor) {start count : Nat}
    (inside : start + count ≤ interruptDescriptorsCount) {gates : Nat → GateDescriptor}
    (held : Elements m link.interruptDescriptors 8 interruptDescriptorsCount
      fun i => (gates i).bytes) :
    Elements (link.storeGates gate start count m) link.interruptDescriptors 8
      interruptDescriptorsCount fun i => (setGates gate start count gates i).bytes := by
  induction count generalizing start m gates with
  | zero => exact held
  | succ count ih =>
      have stored := held.set (show start < interruptDescriptorsCount by omega)
        (length_bytes 8 (gate start).bits) (fun j => length_bytes 8 _) (by decide)
      have element : Function.update (fun i => (gates i).bytes) start (gate start).bytes =
          fun i => (Function.update gates start (gate start) i).bytes :=
        (Function.comp_update GateDescriptor.bytes gates start (gate start)).symm
      exact ih (by omega) (element ▸ stored)

theorem storeInterrupts_changes (m : Bytes) :
    link.Changes [.interruptDescriptors] m (link.storeInterrupts m) :=
  ((storeGates_changes _ (by decide) m).twice (storeGates_changes _ (by decide) _)).twice
    (storeGates_changes _ (by decide) _)

theorem storeInterrupts_gates (held : Elements m link.interruptDescriptors 8
      interruptDescriptorsCount fun i => (h.interruptDescriptors i).bytes) :
    Elements (link.storeInterrupts m) link.interruptDescriptors 8 interruptDescriptorsCount
      fun i => ((SchedOS.segmentsInit link.symbols h).interruptDescriptors i).bytes :=
  storeGates_gates _ (by decide)
    (storeGates_gates _ (by decide) (storeGates_gates _ (by decide) held))

theorem storeTaskState_changes (m : Bytes) :
    link.Changes [.kernelTaskDescriptor] m (link.storeTaskState m) := by
  refine Changes.twice (changes_store (v := .kernelTaskDescriptor) ?_ m)
    (changes_store (v := .kernelTaskDescriptor) ?_ _)
  · rw [wordBytes_length]
    decide
  · rw [halfBytes_length]
    decide

theorem storeTaskState_task {t : TaskState}
    (held : Holds m link.symbols.kernelTaskDescriptor t.bytes) :
    Holds (link.storeTaskState m) link.symbols.kernelTaskDescriptor
      { t with tsEsp0 := kernelStackTop.toNat, tsSs0 := segselKernData.toNat }.bytes := by
  have short (t : TaskState) : t.bytes.length < 2 ^ 32 := by
    rw [TaskState.bytes, length_bytes]
    decide
  have esp0 : Holds (write32 (link.symbols.kernelTaskDescriptor + BitVec.ofNat 32 4)
      kernelStackTop m) link.symbols.kernelTaskDescriptor
      { t with tsEsp0 := kernelStackTop.toNat }.bytes := by
    have old := short t
    rw [TaskState.bytes_split, ← List.append_assoc] at held old ⊢
    rw [bytes_word]
    exact held.update (by rw [length_bytes, wordBytes_length]) old
  have next := short { t with tsEsp0 := kernelStackTop.toNat }
  rw [TaskState.bytes_split, ← List.append_assoc, ← List.append_assoc] at esp0 next ⊢
  rw [bytes_half]
  exact esp0.update (by rw [length_bytes, halfBytes_length]) next

theorem modify_entry {α : Type} {l : List α} {i : Nat} {a : α} (entry : l[i]? = some a)
    (f : α → α) : l.modify i f = l.set i (f a) := by
  obtain ⟨inside, rfl⟩ := List.getElem?_eq_some_iff.mp entry
  rw [List.modify_eq_take_cons_drop inside, List.set_eq_take_append_cons_drop, if_pos inside]

theorem access_store {segments : List SegmentDescriptor} {s : SegmentDescriptor}
    (s' : SegmentDescriptor)
    (held : Holds m link.segments (segments.flatMap SegmentDescriptor.bytes))
    (entry : segments[5]? = some s) (count : segments.length = 6)
    (low : s'.fields.take 3 = s.fields.take 3) (high : s'.fields.drop 7 = s.fields.drop 7) :
    m (link.taskSegment + BitVec.ofNat 32 5) = BitVec.ofNat 8 s.access ∧
      Holds (Memory.store (link.taskSegment + BitVec.ofNat 32 5) [BitVec.ofNat 8 s'.access] m)
        link.segments ((segments.set 5 s').flatMap SegmentDescriptor.bytes) := by
  have bound : 5 < segments.length := by rw [count]; decide
  obtain ⟨_, value⟩ := List.getElem?_eq_some_iff.mp entry
  have total := Memory.length_flatMap_encode SegmentDescriptor.bytes_length segments
  have before := Memory.length_before SegmentDescriptor.bytes_length bound
  let front := (segments.take 5).flatMap SegmentDescriptor.bytes ++
    Bitfield.bytes 5 (pack (s.fields.take 3))
  have place : front.length = 45 := by
    rw [List.length_append, before, length_bytes]
  have address : link.taskSegment + BitVec.ofNat 32 5 =
      link.segments + BitVec.ofNat 32 front.length := by
    rw [place, taskSegment, address_add]
    rfl
  have parts := Memory.flatMap_split SegmentDescriptor.bytes bound
  rw [value, SegmentDescriptor.bytes_split, ← List.append_assoc, ← List.append_assoc,
    List.append_assoc _ _ ((segments.drop 6).flatMap SegmentDescriptor.bytes)] at parts
  rw [parts] at held total
  rw [Memory.flatMap_set SegmentDescriptor.bytes bound, s'.bytes_split, low, high,
    ← List.append_assoc, ← List.append_assoc,
    List.append_assoc _ _ ((segments.drop 6).flatMap SegmentDescriptor.bytes), address]
  refine ⟨?_, held.update rfl (by rw [total, count]; decide)⟩
  rw [List.append_assoc] at held
  have here := (Memory.holds_append.mp held).2 0 (Nat.zero_lt_succ _)
  rwa [show ∀ a : BitVec 32, a + BitVec.ofNat 32 0 = a from BitVec.add_zero] at here

theorem taskSegment_changes {k : Nat} {new : List Byte} (inside : 40 + k + new.length ≤ 48)
    (m : Bytes) :
    link.Changes [.segments] m (Memory.store (link.taskSegment + BitVec.ofNat 32 k) new m) := by
  rw [taskSegment, address_add]
  exact changes_store (v := .segments) inside m

theorem storeTask_changes (m : Bytes) : link.Changes [.segments] m (link.storeTask m) := by
  have start : link.taskSegment + BitVec.ofNat 32 0 = link.taskSegment := BitVec.add_zero _
  have whole (s : SegmentDescriptor) :
      link.Changes [.segments] m (Memory.store link.taskSegment s.bytes m) := by
    have inside : 40 + 0 + s.bytes.length ≤ 48 := by rw [s.bytes_length]
    rw [← start]
    exact taskSegment_changes inside m
  refine (whole _).twice (taskSegment_changes (k := 5) ?_ _)
  rw [List.length_singleton]
  decide

theorem loadTask_changes (m : Bytes) : link.Changes [.segments] m (link.loadTask m) := by
  refine taskSegment_changes (k := 5) ?_ m
  rw [List.length_singleton]
  decide

def taskEntry (link : Link) : SegmentDescriptor :=
  { seg16 stsT32a link.symbols.kernelTaskDescriptor (BitVec.ofNat 32 TaskState.size) 0 with
    sdS := 0 }

theorem segments_set (link : Link) (inside : 5 < h.segments.length) :
    (SchedOS.segmentsInit link.symbols h).segments = (h.segments.set 5
      (seg16 stsT32a link.symbols.kernelTaskDescriptor (BitVec.ofNat 32 TaskState.size) 0)).set 5
      link.taskEntry :=
  modify_entry (List.getElem?_set_self inside) fun s => { s with sdS := 0 }

theorem segmentsInit_count (link : Link) (count : h.segments.length = 6) :
    (SchedOS.segmentsInit link.symbols h).segments.length = 6 := by
  rw [segments_set link (by rw [count]; decide), List.length_set, List.length_set, count]

theorem segments_length {segments : List SegmentDescriptor} (count : segments.length = 6) :
    (segments.flatMap SegmentDescriptor.bytes).length = Variable.size .segments := by
  rw [Memory.length_flatMap_encode SegmentDescriptor.bytes_length, count]
  rfl

theorem storeTask_segments (count : h.segments.length = 6)
    (held : Holds m link.segments (h.segments.flatMap SegmentDescriptor.bytes)) :
    Holds (link.storeTask m) link.segments
      ((SchedOS.segmentsInit link.symbols h).segments.flatMap SegmentDescriptor.bytes) := by
  let s := seg16 stsT32a link.symbols.kernelTaskDescriptor (BitVec.ofNat 32 TaskState.size) 0
  have inside : 5 < h.segments.length := by rw [count]; decide
  have whole := Holds.set SegmentDescriptor.bytes_length held inside (by rw [count]; decide) s
  have length : (h.segments.set 5 s).length = 6 := by rw [List.length_set, count]
  obtain ⟨read, cleared⟩ := access_store link.taskEntry whole (List.getElem?_set_self inside)
    length rfl rfl
  have byte : Memory.store link.taskSegment s.bytes m (link.taskSegment + BitVec.ofNat 32 5) &&&
      0xEF = BitVec.ofNat 8 link.taskEntry.access := by
    have plain : s.access = 0x99 := rfl
    have system : link.taskEntry.access = 0x89 := rfl
    refine (congrArg (· &&& 0xEF) read).trans ?_
    rw [system, plain]
    rfl
  rw [segments_set link inside, storeTask, byte]
  exact cleared

theorem loadTask_segments (count : h.segments.length = 6)
    (held : Holds m link.segments
      ((SchedOS.segmentsInit link.symbols h).segments.flatMap SegmentDescriptor.bytes)) :
    Holds (link.loadTask m) link.segments
      ((SchedOS.segmentsInit link.symbols h).busy.segments.flatMap SegmentDescriptor.bytes) := by
  let s := { link.taskEntry with sdType := link.taskEntry.sdType ||| 2 }
  have inside : 5 < h.segments.length := by rw [count]; decide
  have length := segmentsInit_count link count
  have entry : (SchedOS.segmentsInit link.symbols h).segments[5]? = some link.taskEntry := by
    rw [segments_set link inside]
    exact List.getElem?_set_self (by rwa [List.length_set])
  obtain ⟨read, marked⟩ := access_store s held entry length rfl rfl
  have byte : m (link.taskSegment + BitVec.ofNat 32 5) ||| 0x02 = BitVec.ofNat 8 s.access := by
    have plain : link.taskEntry.access = 0x89 := rfl
    have busy : s.access = pack [(4, stsT32a ||| 2), (1, 0), (2, 0), (1, 1)] := rfl
    rw [read, plain, busy]
    decide
  have changed : (SchedOS.segmentsInit link.symbols h).busy.segments =
      (SchedOS.segmentsInit link.symbols h).segments.set 5 s :=
    modify_entry entry fun s => { s with sdType := s.sdType ||| 2 }
  rw [changed, loadTask, byte]
  exact marked

theorem Tables.kept (tables : link.Tables m h) {m' : Bytes} (segments : link.Keeps .segments m m')
    (task : link.Keeps .kernelTaskDescriptor m m')
    (gates : link.Keeps .interruptDescriptors m m') : link.Tables m' h where
  count := tables.count
  segments := segments.holds_start (segments_length tables.count).le tables.segments
  task := task.holds_start (length_bytes _ _).le tables.task
  gates := gates.elements le_rfl (fun _ => length_bytes 8 _) tables.gates

theorem segmentsInit_tables (disjoint : link.Disjoint) (tables : link.Tables m h) :
    link.Tables (link.segmentsInit m) (SchedOS.segmentsInit link.symbols h).busy := by
  obtain ⟨count, segments, task, gates⟩ := tables
  let m₁ := link.storeTask m
  let m₂ := link.storeTaskState m₁
  let m₃ := link.storeInterrupts m₂
  have first : link.Changes _ m m₁ := storeTask_changes m
  have second : link.Changes _ m₁ m₂ := storeTaskState_changes m₁
  have third : link.Changes _ m₂ m₃ := storeInterrupts_changes m₂
  have last : link.Changes _ m₃ (link.loadTask m₃) := loadTask_changes m₃
  have length := segmentsInit_count link count
  refine ⟨(List.length_modify ..).trans length, ?_, ?_, ?_⟩
  · have keeps : link.Keeps .segments m₁ m₃ := (second.trans third).keeps disjoint (by decide)
    exact loadTask_segments count
      (keeps.holds_start (segments_length length).le (storeTask_segments count segments))
  · have before : link.Keeps .kernelTaskDescriptor m m₁ := first.keeps disjoint (by decide)
    have after : link.Keeps .kernelTaskDescriptor m₂ (link.loadTask m₃) :=
      (third.trans last).keeps disjoint (by decide)
    exact after.holds_start (length_bytes _ _).le
      (storeTaskState_task (before.holds_start (length_bytes _ _).le task))
  · have before : link.Keeps .interruptDescriptors m m₂ :=
      (first.trans second).keeps disjoint (by decide)
    have after : link.Keeps .interruptDescriptors m₃ (link.loadTask m₃) :=
      last.keeps disjoint (by decide)
    exact after.elements le_rfl (fun i => length_bytes 8 _)
      (storeInterrupts_gates (before.elements le_rfl (fun i => length_bytes 8 _) gates))

theorem segmentsInit_changes (m : Bytes) : link.Changes
    [.segments, .kernelTaskDescriptor, .interruptDescriptors] m (link.segmentsInit m) := by
  have first : link.Changes _ m (link.storeTask m) := storeTask_changes m
  have stores := (first.trans (storeTaskState_changes _)).trans (storeInterrupts_changes _)
  intro x outside
  rw [segmentsInit, loadTask_changes _ x fun v member => outside v ?_]
  · exact stores x outside
  · rw [List.mem_singleton] at member
    exact member ▸ List.mem_cons_self

end Link

end SchedOS
