import SchedOS.Hardware.Segments
import SchedOS.Kernel.Loader
import SchedOS.Shared.Blocks

set_option autoImplicit false

namespace SchedOS

open Memory (Holds)

def halfBytes (v : BitVec 16) : List Byte := [v.setWidth 8, (v >>> 8).setWidth 8]

def write16 (a : BitVec 32) (v : BitVec 16) (m : Bytes) : Bytes := Memory.store a (halfBytes v) m

def ProcState.word : ProcState → BitVec 32
  | .empty => 0
  | .runnable => 1
  | .blocked => 2
  | .zombie => 3

def Process.words (p : Process) : List (BitVec 32) :=
  BitVec.ofNat 32 p.pPid :: p.pRegisters.words ++
    [p.pState.word, BitVec.ofInt 32 p.pExitStatus, BitVec.ofInt 32 p.pPriority,
      BitVec.ofInt 32 p.pShare, BitVec.ofInt 32 p.pTimePassed]

def Process.bytes (p : Process) : List Byte := p.words.flatMap wordBytes

def sizeofProcess : Nat := 92
def sizeofRegisters : Nat := 68

-- The addresses that the linker gives, and the RAM images.
structure Link where
  symbols : Symbols
  segments : BitVec 32
  interruptDescriptors : BitVec 32
  procArray : BitVec 32
  numTickets : BitVec 32
  cursorpos : BitVec 32
  lock : BitVec 32
  ramimages : List RamImage

-- The variables that `start()` stores to, with the memory of the screen.
inductive Variable where
  | numTickets
  | segments
  | kernelTaskDescriptor
  | interruptDescriptors
  | cursorpos
  | screen
  | procArray
  | lock
  deriving DecidableEq

def Variable.size : Variable → Nat
  | .numTickets => 4
  | .segments => 8 * 6
  | .kernelTaskDescriptor => TaskState.size
  | .interruptDescriptors => 8 * interruptDescriptorsCount
  | .cursorpos => 4
  | .screen => 2 * (80 * 25)
  | .procArray => sizeofProcess * nprocs
  | .lock => 4

namespace Link

variable (link : Link)

def place : Variable → BitVec 32
  | .numTickets => link.numTickets
  | .segments => link.segments
  | .kernelTaskDescriptor => link.symbols.kernelTaskDescriptor
  | .interruptDescriptors => link.interruptDescriptors
  | .cursorpos => link.cursorpos
  | .screen => consoleBegin
  | .procArray => link.procArray
  | .lock => link.lock

def In (v : Variable) (x : BitVec 32) : Prop := (x - link.place v).toNat < v.size

def proc (i : Nat) : BitVec 32 := link.procArray + BitVec.ofNat 32 (sizeofProcess * i)

def pPid (i : Nat) : BitVec 32 := link.proc i + BitVec.ofNat 32 (4 * 0)
def pRegisters (i : Nat) : BitVec 32 := link.proc i + BitVec.ofNat 32 4
def regEs (i : Nat) : BitVec 32 := link.proc i + BitVec.ofNat 32 (4 * 9)
def regDs (i : Nat) : BitVec 32 := link.proc i + BitVec.ofNat 32 (4 * 10)
def regEip (i : Nat) : BitVec 32 := link.proc i + BitVec.ofNat 32 (4 * 13)
def regCs (i : Nat) : BitVec 32 := link.proc i + BitVec.ofNat 32 (4 * 14)
def regEflags (i : Nat) : BitVec 32 := link.proc i + BitVec.ofNat 32 (4 * 15)
def regEsp (i : Nat) : BitVec 32 := link.proc i + BitVec.ofNat 32 (4 * 16)
def regSs (i : Nat) : BitVec 32 := link.proc i + BitVec.ofNat 32 (4 * 17)
def pState (i : Nat) : BitVec 32 := link.proc i + BitVec.ofNat 32 (4 * 18)
def pPriority (i : Nat) : BitVec 32 := link.proc i + BitVec.ofNat 32 (4 * 20)
def pShare (i : Nat) : BitVec 32 := link.proc i + BitVec.ofNat 32 (4 * 21)
def pTimePassed (i : Nat) : BitVec 32 := link.proc i + BitVec.ofNat 32 (4 * 22)

-- Without the port writes that move the cursor of the screen.
def consoleClear (m : Bytes) : Bytes :=
  (List.range (80 * 25)).foldl
    (fun m i => write16 (read32 m link.cursorpos + 2 * BitVec.ofNat 32 i) (0x20 ||| 0x0700) m)
    (write32 link.cursorpos consoleBegin m)

def clearTable (m : Bytes) : Bytes :=
  (List.range nprocs).foldl
    (fun m i => write32 (link.pState i) 0 (write32 (link.pPid i) (BitVec.ofNat 32 i) m))
    (Memory.fill 0 (sizeofProcess * nprocs) link.procArray m)

def specialRegistersInit (i : Nat) (m : Bytes) : Bytes :=
  let m := Memory.fill 0 sizeofRegisters (link.pRegisters i) m
  let m := write16 (link.regCs i) (segselAppCode ||| 3) m
  let m := write16 (link.regDs i) (segselAppData ||| 3) m
  let m := write16 (link.regEs i) (segselAppData ||| 3) m
  let m := write16 (link.regSs i) (segselAppData ||| 3) m
  write32 (link.regEflags i) eflagsIf m

-- The loop over the processes, up to the call of `program_loader`.
def describe (i : Nat) (m : Bytes) : Bytes :=
  let m := link.specialRegistersInit i m
  let m := write32 (link.pShare i) 1 m
  let m := write32 (link.pTimePassed i) 0 m
  let m := write32 (link.pPriority i) 1 m
  write32 (link.regEsp i) (proc1Start + BitVec.ofNat 32 i * procSize) m

def initProc (fuel i : Nat) (m : Bytes) : Option LoaderResult :=
  (programLoader fuel link.ramimages ((i : Int) - 1) (link.regEip i) (link.describe i m)).map
    fun
      | .returned m => .returned (write32 link.lock 0 (write32 (link.pState i) 1 m))
      | .panicked m => .panicked m

def initProcs (fuel : Nat) : List Nat → Bytes → Option LoaderResult
  | [], m => some (.returned m)
  | i :: rest, m =>
      match link.initProc fuel i m with
      | some (.returned m) => initProcs fuel rest m
      | stopped => stopped

end Link

theorem wordBytes_halves (upper lower : BitVec 16) :
    wordBytes (upper ++ lower) = halfBytes lower ++ halfBytes upper := by
  have low : (upper ++ lower).toNat = upper.toNat * 2 ^ 16 + lower.toNat := append_toNat upper lower
  have first := lower.isLt
  simp only [wordBytes, halfBytes, List.cons_append, List.nil_append, List.cons.injEq, and_true]
  refine ⟨?_, ?_, ?_, ?_⟩
  all_goals
    apply BitVec.eq_of_toNat_eq
    simp only [BitVec.toNat_setWidth, BitVec.toNat_ushiftRight, low, Nat.shiftRight_eq_div_pow]
    omega

theorem halfBytes_length (v : BitVec 16) : (halfBytes v).length = 2 := rfl

theorem words_length (p : Process) : p.words.length = 23 := rfl

theorem bytes_words (p : Process) : p.bytes.length = 4 * p.words.length :=
  Memory.length_flatMap_encode wordBytes_length p.words

theorem bytes_length (p : Process) : p.bytes.length = sizeofProcess := bytes_words p

theorem bytes_registers (p : Process) : p.bytes =
    wordBytes (BitVec.ofNat 32 p.pPid) ++ p.pRegisters.words.flatMap wordBytes ++
      [p.pState.word, BitVec.ofInt 32 p.pExitStatus, BitVec.ofInt 32 p.pPriority,
        BitVec.ofInt 32 p.pShare, BitVec.ofInt 32 p.pTimePassed].flatMap wordBytes := by
  rw [Process.bytes, Process.words, List.cons_append, List.flatMap_cons, List.flatMap_append,
    List.append_assoc]

namespace Link

variable (link : Link)

def Table (m : Bytes) (procs : Nat → Process) : Prop :=
  Memory.Elements m link.procArray sizeofProcess nprocs fun i => (procs i).bytes

section Table

variable {link} {m : Bytes} {procs : Nat → Process} {p q : Process} {i : Nat}
  (inside : i < nprocs)
include inside

theorem Table.store {k : Nat} {new : List Byte}
    (table : link.Table m (Function.update procs i p)) (fits : k + new.length ≤ sizeofProcess)
    (held : Holds (Memory.store (link.proc i + BitVec.ofNat 32 k) new m) (link.proc i) q.bytes) :
    link.Table (Memory.store (link.proc i + BitVec.ofNat 32 k) new m)
      (Function.update procs i q) := by
  refine Memory.Elements.store table inside fits (fun j => bytes_length _) (by decide)
    (fun j other => ?_) ?_
  · simp only [Function.update_of_ne other]
  · simp only [Function.update_self]
    exact held

theorem Table.self (table : link.Table m (Function.update procs i p)) :
    Holds m (link.proc i) p.bytes := by
  have held := table i inside
  simp only [Function.update_self] at held
  exact held

theorem Table.write32 {n : Nat} {v : BitVec 32}
    (table : link.Table m (Function.update procs i p)) (word : n < 23)
    (words : q.words = p.words.set n v) :
    link.Table (SchedOS.write32 (link.proc i + BitVec.ofNat 32 (4 * n)) v m)
      (Function.update procs i q) := by
  have held := table.self inside
  have changed := Holds.set wordBytes_length held (word.trans_eq (words_length p).symm) (by
    rw [words_length]
    decide) v
  rw [← words] at changed
  refine table.store inside ?_ changed
  rw [wordBytes_length, sizeofProcess]
  omega

-- The upper half of the word is padding.
theorem Table.write16 {n : Nat} {v upper lower : BitVec 16}
    (table : link.Table m (Function.update procs i p)) (old : p.words[n]? = some (upper ++ lower))
    (words : q.words = p.words.set n (upper ++ v)) :
    link.Table (SchedOS.write16 (link.proc i + BitVec.ofNat 32 (4 * n)) v m)
      (Function.update procs i q) := by
  have held := table.self inside
  obtain ⟨word, entry⟩ := List.getElem?_eq_some_iff.mp old
  have length := bytes_words p
  rw [bytes_length] at length
  have parts := Memory.flatMap_split wordBytes word
  rw [entry, wordBytes_halves] at parts
  have total : p.bytes.length = _ := congrArg List.length parts
  rw [bytes_length, sizeofProcess] at total
  rw [Process.bytes, parts, ← List.append_assoc, List.append_assoc] at held
  have changed := held.update (show (halfBytes v).length = (halfBytes lower).length from rfl) (by
    simp only [List.length_append] at total ⊢
    omega)
  rw [Memory.length_before wordBytes_length word, ← List.append_assoc,
    List.append_assoc _ (halfBytes v), ← wordBytes_halves, ← Memory.flatMap_set wordBytes word,
    ← words] at changed
  refine table.store inside ?_ changed
  change _ + 2 ≤ _
  omega

theorem Table.clearRegisters (table : link.Table m (Function.update procs i p)) :
    link.Table (Memory.fill 0 sizeofRegisters (link.pRegisters i) m)
      (Function.update procs i { p with pRegisters := .zero }) := by
  have held := table.self inside
  have zeros : List.replicate sizeofRegisters (0 : Byte) =
      Registers.zero.words.flatMap wordBytes := by decide
  have length (reg : Registers) : (reg.words.flatMap wordBytes).length = 4 * 17 :=
    Memory.length_flatMap_encode wordBytes_length reg.words
  have same := (length .zero).trans (length p.pRegisters).symm
  have short : p.bytes.length < 2 ^ 32 := by
    rw [bytes_length]
    decide
  rw [bytes_registers] at held
  rw [bytes_registers] at short
  have changed := held.update same short
  rw [Memory.fill_eq_store, zeros]
  refine table.store inside (by decide) ?_
  rw [bytes_registers]
  exact changed

end Table

theorem Table.zero (m : Bytes) :
    link.Table (Memory.fill 0 (sizeofProcess * nprocs) link.procArray m) fun _ => .zero := by
  intro i inside t bound
  have words : Process.zero.words = List.replicate 23 0 := by decide
  have zeros : Process.zero.bytes = List.replicate 92 0 := by
    have word : wordBytes 0 = List.replicate 4 0 := rfl
    rw [Process.bytes, words, List.flatMap_replicate, word, List.flatten_replicate_replicate]
  have length : t < 92 := bound.trans_eq (bytes_length .zero)
  have offset : (link.proc i + BitVec.ofNat 32 t - link.procArray).toNat =
      sizeofProcess * i + t := by
    rw [proc, address_add, add_sub_cancel_left, BitVec.toNat_ofNat]
    unfold sizeofProcess nprocs at *
    omega
  have within : sizeofProcess * i + t < sizeofProcess * nprocs := by
    unfold sizeofProcess nprocs at *
    omega
  rw [proc] at offset
  simp only [zeros, List.getElem_replicate]
  rw [Memory.fill_get _ (by decide), offset, if_pos within]

theorem Table.clear {l : List Nat} (inside : ∀ i ∈ l, i < nprocs) {m : Bytes}
    {procs : Nat → Process} (table : link.Table m procs) : link.Table
      (l.foldl
        (fun m i => SchedOS.write32 (link.pState i) 0
          (SchedOS.write32 (link.pPid i) (BitVec.ofNat 32 i) m)) m)
      (l.foldl
        (fun procs i => Function.update procs i { procs i with pPid := i, pState := .empty })
        procs) := by
  induction l generalizing m procs with
  | nil => exact table
  | cons i l ih =>
      have here := inside i List.mem_cons_self
      have start : link.Table m (Function.update procs i (procs i)) := by
        rwa [Function.update_eq_self]
      have pid := start.write32 here (n := 0) (v := BitVec.ofNat 32 i)
        (q := { procs i with pPid := i }) (by decide) rfl
      have state := pid.write32 here (n := 18) (v := 0)
        (q := { procs i with pPid := i, pState := .empty }) (by decide) rfl
      exact ih (fun j member => inside j (List.mem_cons_of_mem _ member)) state

theorem table_cleared (m : Bytes) :
    link.Table (link.clearTable m) fun i => { Process.zero with pPid := i } := by
  have cleared := Table.clear link (fun i member => List.mem_range.mp member) (Table.zero link m)
  intro i inside
  have here := cleared i inside
  unfold nprocs at inside
  interval_cases i <;> exact here

theorem Table.described {m : Bytes} {procs : Nat → Process} {i : Nat} (inside : i < nprocs)
    (table : link.Table m procs) : link.Table (link.describe i m) (Function.update procs i
      { procs i with
        pRegisters := { SchedOS.specialRegistersInit with
          regEsp := proc1Start + BitVec.ofNat 32 i * procSize }
        pShare := 1
        pTimePassed := 0
        pPriority := 1 }) := by
  have start : link.Table m (Function.update procs i (procs i)) := by
    rwa [Function.update_eq_self]
  have zero := start.clearRegisters inside
  let r := { Registers.zero with regCs := segselAppCode ||| 3 }
  have cs := zero.write16 inside (n := 14) (v := segselAppCode ||| 3)
    (q := { procs i with pRegisters := r }) rfl rfl
  let r := { r with regDs := segselAppData ||| 3 }
  have ds := cs.write16 inside (n := 10) (v := segselAppData ||| 3)
    (q := { procs i with pRegisters := r }) rfl rfl
  let r := { r with regEs := segselAppData ||| 3 }
  have es := ds.write16 inside (n := 9) (v := segselAppData ||| 3)
    (q := { procs i with pRegisters := r }) rfl rfl
  let r := { r with regSs := segselAppData ||| 3 }
  have ss := es.write16 inside (n := 17) (v := segselAppData ||| 3)
    (q := { procs i with pRegisters := r }) rfl rfl
  let r := { r with regEflags := eflagsIf }
  have eflags := ss.write32 inside (n := 15) (v := eflagsIf)
    (q := { procs i with pRegisters := r }) (by decide) rfl
  let p := { procs i with pRegisters := r, pShare := 1 }
  have share := eflags.write32 inside (n := 21) (v := 1) (q := p) (by decide) rfl
  let p := { p with pTimePassed := 0 }
  have time := share.write32 inside (n := 22) (v := 0) (q := p) (by decide) rfl
  let p := { p with pPriority := 1 }
  have priority := time.write32 inside (n := 20) (v := 1) (q := p) (by decide) rfl
  let esp := proc1Start + BitVec.ofNat 32 i * procSize
  exact priority.write32 inside (n := 16) (v := esp)
    (q := { p with pRegisters := { r with regEsp := esp } }) (by decide) rfl

section Frame

variable {link} {i n : Nat} {x : BitVec 32} (inside : i < nprocs)
  (outside : sizeofProcess * nprocs ≤ (x - link.procArray).toNat)
include inside outside

theorem store_frame {k : Nat} {new : List Byte} (fits : k + new.length ≤ sizeofProcess)
    (m : Bytes) : Memory.store (link.proc i + BitVec.ofNat 32 k) new m x = m x := by
  rw [proc, address_add]
  refine Memory.store_outside outside ?_ m
  unfold sizeofProcess nprocs at *
  omega

theorem write32_frame (word : n < 23) (v : BitVec 32) (m : Bytes) :
    SchedOS.write32 (link.proc i + BitVec.ofNat 32 (4 * n)) v m x = m x := by
  refine store_frame inside outside ?_ m
  rw [wordBytes_length, sizeofProcess]
  omega

theorem write16_frame (word : n < 23) (v : BitVec 16) (m : Bytes) :
    SchedOS.write16 (link.proc i + BitVec.ofNat 32 (4 * n)) v m x = m x := by
  refine store_frame inside outside ?_ m
  change 4 * n + 2 ≤ 92
  omega

theorem describe_frame (m : Bytes) : link.describe i m x = m x := by
  simp only [describe, specialRegistersInit, regEsp, pPriority, pTimePassed, pShare, regEflags,
    regSs, regEs, regDs, regCs, pRegisters]
  iterate 5 rw [write32_frame inside outside (by decide)]
  iterate 4 rw [write16_frame inside outside (by decide)]
  rw [Memory.fill_eq_store]
  exact store_frame inside outside (by decide) m

end Frame

def Disjoint : Prop := ∀ u v, u ≠ v → ∀ x, link.In u x → ¬ link.In v x

def Changes (vs : List Variable) (m m' : Bytes) : Prop :=
  ∀ x, (∀ v ∈ vs, ¬ link.In v x) → m' x = m x

section Changes

variable {link} {u v : Variable} {us vs : List Variable} {m m' m'' : Bytes}

theorem Changes.trans (first : link.Changes us m m') (second : link.Changes vs m' m'') :
    link.Changes (us ++ vs) m m'' := by
  intro x outside
  rw [second x fun v member => outside v (List.mem_append_right us member)]
  exact first x fun u member => outside u (List.mem_append_left vs member)

theorem Changes.twice (first : link.Changes vs m m') (second : link.Changes vs m' m'') :
    link.Changes vs m m'' :=
  fun x outside => (second x outside).trans (first x outside)

theorem Variable.size_lt (v : Variable) : v.size < 2 ^ 32 := by
  cases v <;> decide

theorem in_place {k : Nat} (inside : k < v.size) :
    link.In v (link.place v + BitVec.ofNat 32 k) := by
  have small := Variable.size_lt v
  rw [In, add_sub_cancel_left, BitVec.toNat_ofNat, Nat.mod_eq_of_lt (by omega)]
  exact inside

theorem changes_store {k : Nat} {new : List Byte} (inside : k + new.length ≤ v.size) (m : Bytes) :
    link.Changes [v] m (Memory.store (link.place v + BitVec.ofNat 32 k) new m) := by
  intro x outside
  exact Memory.store_outside (Nat.le_of_not_lt (outside v List.mem_cons_self)) inside m

theorem changes_start {new : List Byte} (inside : new.length ≤ v.size) (m : Bytes) :
    link.Changes [v] m (Memory.store (link.place v) new m) := by
  have start : link.place v + BitVec.ofNat 32 0 = link.place v := BitVec.add_zero _
  rw [← start]
  exact changes_store (by rwa [Nat.zero_add]) m

def Keeps (link : Link) (v : Variable) (m m' : Bytes) : Prop := ∀ x, link.In v x → m' x = m x

theorem Changes.keeps (disjoint : link.Disjoint) (changes : link.Changes vs m m')
    (other : v ∉ vs) : link.Keeps v m m' := by
  intro x inside
  refine changes x fun u member => ?_
  refine disjoint v u ?_ x inside
  rintro rfl
  exact other member

theorem Keeps.holds (keeps : link.Keeps v m m') {k : Nat} {block : List Byte}
    (inside : k + block.length ≤ v.size)
    (held : Holds m (link.place v + BitVec.ofNat 32 k) block) :
    Holds m' (link.place v + BitVec.ofNat 32 k) block := by
  refine held.congr fun t bound => keeps _ ?_
  rw [address_add]
  exact in_place (by omega)

theorem Keeps.holds_start (keeps : link.Keeps v m m') {block : List Byte}
    (inside : block.length ≤ v.size) (held : Holds m (link.place v) block) :
    Holds m' (link.place v) block :=
  held.congr fun _ bound => keeps _ (in_place (bound.trans_le inside))

theorem Keeps.read32 (keeps : link.Keeps v m m') (word : 4 ≤ v.size) :
    SchedOS.read32 m' (link.place v) = SchedOS.read32 m (link.place v) := by
  have start : link.place v + BitVec.ofNat 32 0 = link.place v := BitVec.add_zero _
  have same := read32_congr (fun i less => keeps _ (in_place (Nat.lt_of_lt_of_le less word)))
    (Nat.zero_add 4).le
  rwa [start] at same

theorem Keeps.elements (keeps : link.Keeps v m m') {size count : Nat}
    (inside : size * count ≤ v.size) {blocks : Nat → List Byte}
    (length : ∀ i, (blocks i).length = size)
    (held : Memory.Elements m (link.place v) size count blocks) :
    Memory.Elements m' (link.place v) size count blocks := by
  intro i bound
  refine keeps.holds ?_ (held i bound)
  rw [length, ← Nat.mul_succ]
  exact (Nat.mul_le_mul_left size bound).trans inside

end Changes

theorem clearTable_changes (m : Bytes) : link.Changes [.procArray] m (link.clearTable m) := by
  intro x outside
  have away : sizeofProcess * nprocs ≤ (x - link.procArray).toNat :=
    Nat.le_of_not_lt (outside .procArray List.mem_cons_self)
  have loop {l : List Nat} (inside : ∀ i ∈ l, i < nprocs) (m : Bytes) :
      l.foldl
        (fun m i => SchedOS.write32 (link.pState i) 0
          (SchedOS.write32 (link.pPid i) (BitVec.ofNat 32 i) m)) m x = m x := by
    induction l generalizing m with
    | nil => rfl
    | cons i l ih =>
        have here := inside i List.mem_cons_self
        rw [List.foldl_cons, ih fun j member => inside j (List.mem_cons_of_mem _ member), pState,
          pPid, write32_frame here away (by decide), write32_frame here away (by decide)]
  rw [clearTable, loop (fun i member => List.mem_range.mp member),
    Memory.fill_get _ (by decide), if_neg (Nat.not_lt.mpr away)]

end Link

end SchedOS
