import SchedOS.Kernel.Random

set_option autoImplicit false

namespace SchedOS

def proc1Start : BitVec 32 := 0x200000
def procSize : BitVec 32 := 0x100000
def consoleBegin : BitVec 32 := 0xB8000

def cell (i : Nat) : BitVec 32 := consoleBegin + 2 * BitVec.ofNat 32 i

theorem cell_succ (i : Nat) : cell i + 2 = cell (i + 1) := by
  unfold cell
  bv_omega

theorem cell_ne {i j : Nat} (less : i < j) (bound : j ≤ 2000) : cell i ≠ cell j := by
  unfold cell
  bv_omega

/-- What `start()` depends on: the value it gives `scheduling_algorithm`, the entry points of the
four RAM images, and what memory held before. -/
structure Boot where
  schedulingAlgorithm : Int
  entryPoint : Nat → BitVec 32
  memory : Kernel

def bareBoot (schedulingAlgorithm : Int) : Boot where
  schedulingAlgorithm := schedulingAlgorithm
  entryPoint := fun i => proc1Start + BitVec.ofNat 32 i * procSize
  memory :=
    { procArray := fun _ => .zero, current := 0, schedulingAlgorithm := 0, numTickets := 0,
      tickets := fun _ => 0, rngs := ⟨fun _ => 0, 0, false⟩, cursorpos := 0, lock := 0,
      cells := fun _ => 0 }

def Rngs.static : Rngs :=
  { seed := fun j => if j = 0 then defaultSeed else 0, stream := 0, initialized := false }

namespace Kernel

def consoleClear (k : Kernel) : Kernel :=
  { k with
    cursorpos := consoleBegin
    cells := (List.range (80 * 25)).foldl
      (fun cells i => Function.update cells (cell i) (0x20 ||| 0x0700)) k.cells }

-- The `memset` and the first loop over the process descriptors.
def clearProc (k : Kernel) (i : Nat) : Kernel :=
  k.setProc i { Process.zero with pPid := i, pState := .empty }

end Kernel

def specialRegistersInit : Registers :=
  { Registers.zero with
    regCs := segselAppCode ||| 3
    regDs := segselAppData ||| 3
    regEs := segselAppData ||| 3
    regSs := segselAppData ||| 3
    regEflags := eflagsIf }

def Boot.initProc (boot : Boot) (k : Kernel) (i : Nat) : Kernel :=
  { k.setProc i { k.procArray i with
      pRegisters := { specialRegistersInit with
        regEsp := proc1Start + BitVec.ofNat 32 i * procSize
        regEip := boot.entryPoint (i - 1) }
      pShare := 1
      pTimePassed := 0
      pPriority := 1
      pState := .runnable } with
    lock := 0 }

def Boot.table (boot : Boot) : Kernel :=
  let k := { boot.memory with rngs := Rngs.static }
  -- Segments and interrupt controller are set up here; none of that is kernel data.
  let k := { k with numTickets := 0 }.consoleClear
  let k := (List.range nprocs).foldl Kernel.clearProc k
  (List.range' 1 (nprocs - 1)).foldl boot.initProc k

def start (boot : Boot) : Machine :=
  let k := boot.table
  let k := { k with cursorpos := 0xB8000 }
  let k := { k with schedulingAlgorithm := boot.schedulingAlgorithm }
  let k := { k with rngs := k.rngs.plantSeeds 1 }
  .user (k.run 1)

def Boot.kernel (boot : Boot) : Kernel := (start boot).kernel

theorem start_user (boot : Boot) : start boot = .user boot.kernel := rfl

namespace Boot

variable (boot : Boot)

theorem kernel_proc {i : Nat} (low : 1 ≤ i) (high : i < nprocs) :
    boot.kernel.procArray i =
      { pPid := i
        pRegisters := { specialRegistersInit with
          regEsp := proc1Start + BitVec.ofNat 32 i * procSize
          regEip := boot.entryPoint (i - 1) }
        pState := .runnable
        pExitStatus := 0
        pPriority := 1
        pShare := 1
        pTimePassed := 0 } := by
  have cases : i = 1 ∨ i = 2 ∨ i = 3 ∨ i = 4 := by simp only [nprocs] at high; omega
  rcases cases with rfl | rfl | rfl | rfl <;> rfl

@[simp] theorem kernel_current : boot.kernel.current = 1 := rfl

@[simp] theorem kernel_cursorpos : boot.kernel.cursorpos = consoleBegin := rfl

@[simp] theorem kernel_lock : boot.kernel.lock = 0 := rfl

theorem kernel_rngs : boot.kernel.rngs = Rngs.static.plantSeeds 1 := by
  have planted : boot.kernel.rngs = boot.table.rngs.plantSeeds 1 := by
    simp only [Boot.kernel, start, Machine.kernel, Kernel.run]
  have untouched : boot.table.rngs = Rngs.static := rfl
  rw [planted, untouched]

end Boot

end SchedOS
