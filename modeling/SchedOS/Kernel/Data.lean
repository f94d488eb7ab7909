import Mathlib.Logic.Function.Basic

set_option autoImplicit false

namespace SchedOS

def nprocs : Nat := 5
def maxTickets : Nat := 200
def intMax : Int := 0x7fffffff

def segselAppCode : BitVec 16 := 0x18
def segselAppData : BitVec 16 := 0x20
def eflagsIf : BitVec 32 := 0x200

-- `registers_t`, in the order of `pushal`, `pushl` and `iret`.
structure Registers where
  regEdi : BitVec 32
  regEsi : BitVec 32
  regEbp : BitVec 32
  regOriginalEsp : BitVec 32
  regEbx : BitVec 32
  regEdx : BitVec 32
  regEcx : BitVec 32
  regEax : BitVec 32
  regEs : BitVec 16
  regPadding1 : BitVec 16
  regDs : BitVec 16
  regPadding2 : BitVec 16
  regIntno : BitVec 32
  regErr : BitVec 32
  regEip : BitVec 32
  regCs : BitVec 16
  regPadding3 : BitVec 16
  regEflags : BitVec 32
  regEsp : BitVec 32
  regSs : BitVec 16
  regPadding4 : BitVec 16
  deriving DecidableEq

def Registers.zero : Registers :=
  ⟨0, 0, 0, 0, 0, 0, 0, 0, 0, 0, 0, 0, 0, 0, 0, 0, 0, 0, 0, 0, 0⟩

inductive ProcState where
  | empty
  | runnable
  | blocked
  | zombie
  deriving DecidableEq

-- `process_t`; the C `int` fields are kept as the integers they hold.
structure Process where
  pPid : Nat
  pRegisters : Registers
  pState : ProcState
  pExitStatus : Int
  pPriority : Int
  pShare : Int
  pTimePassed : Int
  deriving DecidableEq

def Process.zero : Process :=
  { pPid := 0, pRegisters := .zero, pState := .empty, pExitStatus := 0,
    pPriority := 0, pShare := 0, pTimePassed := 0 }

structure Rngs where
  seed : Nat → Int
  stream : Nat
  initialized : Bool

/-- Everything the kernel keeps between interrupts. An entry of `procArray` from `nprocs` on is
the memory behind the array. -/
structure Kernel where
  procArray : Nat → Process
  current : Nat
  schedulingAlgorithm : Int
  numTickets : Nat
  tickets : Nat → Nat
  rngs : Rngs
  cursorpos : BitVec 32
  lock : BitVec 32
  cells : BitVec 32 → BitVec 16

namespace Kernel

def setProc (k : Kernel) (pid : Nat) (proc : Process) : Kernel :=
  { k with procArray := Function.update k.procArray pid proc }

@[simp] theorem setProc_self (k : Kernel) (pid : Nat) (proc : Process) :
    (k.setProc pid proc).procArray pid = proc := by
  simp [setProc]

@[simp] theorem setProc_current (k : Kernel) (pid : Nat) (proc : Process) :
    (k.setProc pid proc).current = k.current := rfl

@[simp] theorem setProc_algorithm (k : Kernel) (pid : Nat) (proc : Process) :
    (k.setProc pid proc).schedulingAlgorithm = k.schedulingAlgorithm := rfl

@[simp] theorem setProc_numTickets (k : Kernel) (pid : Nat) (proc : Process) :
    (k.setProc pid proc).numTickets = k.numTickets := rfl

@[simp] theorem setProc_tickets (k : Kernel) (pid : Nat) (proc : Process) :
    (k.setProc pid proc).tickets = k.tickets := rfl

@[simp] theorem setProc_rngs (k : Kernel) (pid : Nat) (proc : Process) :
    (k.setProc pid proc).rngs = k.rngs := rfl

@[simp] theorem setProc_cursorpos (k : Kernel) (pid : Nat) (proc : Process) :
    (k.setProc pid proc).cursorpos = k.cursorpos := rfl

@[simp] theorem setProc_lock (k : Kernel) (pid : Nat) (proc : Process) :
    (k.setProc pid proc).lock = k.lock := rfl

@[simp] theorem setProc_cells (k : Kernel) (pid : Nat) (proc : Process) :
    (k.setProc pid proc).cells = k.cells := rfl

def Runnable (k : Kernel) (pid : Nat) : Prop := (k.procArray pid).pState = .runnable

instance (k : Kernel) : DecidablePred k.Runnable :=
  fun _ => inferInstanceAs (Decidable (_ = _))

def run (k : Kernel) (pid : Nat) : Kernel := { k with current := pid }

end Kernel

/-- Where the processor is: in the current process, in `schedule()`, or in the endless loop that
follows an unknown interrupt. -/
inductive Machine where
  | user (k : Kernel)
  | scheduling (k : Kernel)
  | halted (k : Kernel)

def Machine.kernel : Machine → Kernel
  | .user k => k
  | .scheduling k => k
  | .halted k => k

end SchedOS
