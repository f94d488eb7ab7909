import Mathlib.Tactic.Common

set_option autoImplicit false

namespace X86

abbrev Word := BitVec 32

structure Cpu where
  eax : Word
  ecx : Word
  edx : Word
  ebx : Word
  esp : Word
  ebp : Word
  esi : Word
  edi : Word
  eip : Word
  eflags : Word
  cs : BitVec 16
  ss : BitVec 16
  ds : BitVec 16
  es : BitVec 16
  deriving DecidableEq

inductive Segment where
  | cs
  | ss
  | ds
  | es

structure State where
  cpu : Cpu
  stack : List Word

inductive Instr where
  | pushl (value : Word)
  | pushlSeg (segment : Segment)
  | pushlEsp
  | pushal
  | movlEax (value : Word)
  | movwDs
  | movwEs
  | popal
  | poplEs
  | poplDs
  | addlEsp (bytes : Nat)
  | iret

def Cpu.selector (cpu : Cpu) : Segment → BitVec 16
  | .cs => cpu.cs
  | .ss => cpu.ss
  | .ds => cpu.ds
  | .es => cpu.es

def State.push (s : State) (word : Word) : State :=
  { cpu := { s.cpu with esp := s.cpu.esp - 4 }, stack := word :: s.stack }

-- A selector is pushed as a word, of which the processor does not say what the upper half holds.
def selectorWord (upper : Segment → BitVec 16) (cpu : Cpu) (segment : Segment) : Word :=
  upper segment ++ cpu.selector segment

section Exec

variable (upper : Segment → BitVec 16)

def exec : Instr → State → Option State
  | .pushl value, s => some (s.push value)
  | .pushlSeg segment, s => some (s.push (selectorWord upper s.cpu segment))
  | .pushlEsp, s => some (s.push s.cpu.esp)
  | .pushal, s =>
      let pushed := (((s.push s.cpu.eax).push s.cpu.ecx).push s.cpu.edx).push s.cpu.ebx
      some ((((pushed.push s.cpu.esp).push s.cpu.ebp).push s.cpu.esi).push s.cpu.edi)
  | .movlEax value, s => some { s with cpu := { s.cpu with eax := value } }
  | .movwDs, s => some { s with cpu := { s.cpu with ds := s.cpu.eax.setWidth 16 } }
  | .movwEs, s => some { s with cpu := { s.cpu with es := s.cpu.eax.setWidth 16 } }
  | .popal, s =>
      match s.stack with
      -- The value of `esp` is popped and ignored.
      | edi :: esi :: ebp :: _ :: ebx :: edx :: ecx :: eax :: rest =>
          some { cpu := { s.cpu with
                   edi := edi, esi := esi, ebp := ebp, esp := s.cpu.esp + 32, ebx := ebx,
                   edx := edx, ecx := ecx, eax := eax }
                 stack := rest }
      | _ => none
  | .poplEs, s =>
      match s.stack with
      | es :: rest =>
          some { cpu := { s.cpu with esp := s.cpu.esp + 4, es := es.setWidth 16 }, stack := rest }
      | _ => none
  | .poplDs, s =>
      match s.stack with
      | ds :: rest =>
          some { cpu := { s.cpu with esp := s.cpu.esp + 4, ds := ds.setWidth 16 }, stack := rest }
      | _ => none
  | .addlEsp bytes, s =>
      some { cpu := { s.cpu with esp := s.cpu.esp + BitVec.ofNat 32 bytes }
             stack := s.stack.drop (bytes / 4) }
  | .iret, s =>
      match s.stack with
      -- A return to an outer privilege level; what its own stack holds is left open.
      | eip :: cs :: eflags :: esp :: ss :: _ =>
          some { cpu := { s.cpu with
                   eip := eip, cs := cs.setWidth 16, eflags := eflags, esp := esp,
                   ss := ss.setWidth 16 }
                 stack := [] }
      | _ => none

def execs : List Instr → State → Option State
  | [], s => some s
  | instr :: rest, s => (exec upper instr s).bind (execs rest)

-- IF, TF, NT, RF and VM, which an interrupt gate clears.
def gateFlags : Word := 0x34300

/-- An interrupt from an outer privilege level, through a gate to the code segment `cs0`, with the
stack of the task state segment. -/
def enter (ss0 : BitVec 16) (esp0 : Word) (cs0 : BitVec 16) (cpu : Cpu) : State :=
  let fresh : State := { cpu := { cpu with ss := ss0, esp := esp0 }, stack := [] }
  let pushed := ((fresh.push (selectorWord upper cpu .ss)).push cpu.esp).push cpu.eflags
  let pushed := (pushed.push (selectorWord upper cpu .cs)).push cpu.eip
  { pushed with
    cpu := { pushed.cpu with cs := cs0, eflags := cpu.eflags &&& ~~~gateFlags } }

end Exec

def State.wordsAt (s : State) (address : Word) : List Word :=
  s.stack.drop ((address - s.cpu.esp).toNat / 4)

def generalWords (cpu : Cpu) : List Word :=
  [cpu.edi, cpu.esi, cpu.ebp, cpu.esp, cpu.ebx, cpu.edx, cpu.ecx, cpu.eax]

def frameWords (upper : Segment → BitVec 16) (cpu : Cpu) : List Word :=
  [cpu.eip, selectorWord upper cpu .cs, cpu.eflags, cpu.esp, selectorWord upper cpu .ss]

@[simp] theorem selectorWord_lower (upper : Segment → BitVec 16) (cpu : Cpu) (segment : Segment) :
    (selectorWord upper cpu segment).setWidth 16 = cpu.selector segment :=
  BitVec.setWidth_append_eq_right

section Exec

variable (upper : Segment → BitVec 16)

theorem execs_pushl (value : Word) (rest : List Instr) (s : State) :
    execs upper (.pushl value :: rest) s = execs upper rest (s.push value) := by
  rw [execs, exec, Option.bind_some]

theorem execs_pushlSeg (segment : Segment) (rest : List Instr) (s : State) :
    execs upper (.pushlSeg segment :: rest) s =
      execs upper rest (s.push (selectorWord upper s.cpu segment)) := by
  rw [execs, exec, Option.bind_some]

theorem enter_stack (ss0 : BitVec 16) (esp0 : Word) (cs0 : BitVec 16) (cpu : Cpu) :
    (enter upper ss0 esp0 cs0 cpu).stack = frameWords upper cpu := rfl

theorem enter_registers (ss0 : BitVec 16) (esp0 : Word) (cs0 : BitVec 16) (cpu : Cpu) (esp : Word) :
    generalWords { (enter upper ss0 esp0 cs0 cpu).cpu with esp := esp } =
        generalWords { cpu with esp := esp } ∧
      (enter upper ss0 esp0 cs0 cpu).cpu.ds = cpu.ds ∧
      (enter upper ss0 esp0 cs0 cpu).cpu.es = cpu.es := by
  simp only [enter, State.push, generalWords, and_self]

theorem exec_pushal (s : State) : exec upper .pushal s =
    some { cpu := { s.cpu with esp := s.cpu.esp - 32 }
           stack := generalWords s.cpu ++ s.stack } := by
  have down : s.cpu.esp - 4 - 4 - 4 - 4 - 4 - 4 - 4 - 4 = s.cpu.esp - 32 := by bv_omega
  simp only [exec, State.push, generalWords, List.cons_append, List.nil_append, down]

theorem exec_popal (cpu saved : Cpu) (rest : List Word) :
    exec upper .popal { cpu := cpu, stack := generalWords saved ++ rest } =
      some { cpu := { saved with
               esp := cpu.esp + 32, eip := cpu.eip, eflags := cpu.eflags, cs := cpu.cs,
               ss := cpu.ss, ds := cpu.ds, es := cpu.es }
             stack := rest } := rfl

theorem exec_iret (cpu saved : Cpu) (pushed : Segment → BitVec 16) :
    exec upper .iret { cpu := cpu, stack := frameWords pushed saved } =
      some { cpu := { cpu with
               eip := saved.eip, cs := saved.cs, eflags := saved.eflags, esp := saved.esp,
               ss := saved.ss }
             stack := [] } := by
  simp [exec, frameWords, Cpu.selector]

end Exec

end X86
