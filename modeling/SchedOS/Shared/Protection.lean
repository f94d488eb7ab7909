import SchedOS.Shared.Bitfield

set_option autoImplicit false

namespace Protection

open Bitfield

structure Segment where
  base : Nat
  -- The last offset of the segment.
  limit : Nat
  kind : Nat
  system : Bool
  dpl : Nat
  present : Bool
  big : Bool
  deriving DecidableEq

def Segment.ofBits (bits : Nat) : Segment :=
  let limit := extract bits 0 16 + 2 ^ 16 * extract bits 48 4
  { base := extract bits 16 24 + 2 ^ 24 * extract bits 56 8
    limit := if extract bits 55 1 = 1 then 4096 * limit + 4095 else limit
    kind := extract bits 40 4
    system := extract bits 44 1 == 0
    dpl := extract bits 45 2
    present := extract bits 47 1 == 1
    big := extract bits 54 1 == 1 }

def Segment.code (s : Segment) : Bool := !s.system && s.kind.testBit 3
def Segment.conforming (s : Segment) : Bool := s.kind.testBit 2
def Segment.readable (s : Segment) : Bool := !s.code || s.kind.testBit 1
def Segment.writable (s : Segment) : Bool := !s.system && !s.code && s.kind.testBit 1

structure Gate where
  offset : Nat
  selector : Nat
  kind : Nat
  dpl : Nat
  present : Bool
  deriving DecidableEq

-- The fifth bit of the type says that the descriptor is none of the system.
def Gate.ofBits (bits : Nat) : Gate :=
  { offset := extract bits 0 16 + 2 ^ 16 * extract bits 48 16
    selector := extract bits 16 16
    kind := extract bits 40 5
    dpl := extract bits 45 2
    present := extract bits 47 1 == 1 }

def interruptGate : Nat := 14
def trapGate : Nat := 15
def availableTask : Nat := 9

structure Table where
  limit : Nat
  entry : Nat → Nat

def Table.read (t : Table) (index : Nat) : Option Nat :=
  if 8 * index + 7 ≤ t.limit then some (t.entry index) else none

def rpl (selector : Nat) : Nat := selector % 4

def Null (selector : Nat) : Prop := selector / 4 = 0

instance : DecidablePred Null := fun _ => inferInstanceAs (Decidable (_ = _))

-- The descriptor of a selector in the global table; its third bit asks for the local one.
def Table.segment (gdt : Table) (selector : Nat) : Option Segment :=
  if selector.testBit 2 then none else (gdt.read (selector / 8)).map Segment.ofBits

structure Fault where
  vector : Nat
  error : Nat
  deriving DecidableEq

-- Error codes name a selector without its privilege level, or an entry of the interrupt table.
def selectorError (selector external : Nat) : Nat := 4 * (selector / 4) + external
def vectorError (vector external : Nat) : Nat := 8 * vector + 2 + external

def invalidTask : Nat := 10
def notPresent : Nat := 11
def stackFault : Nat := 12
def generalProtection : Nat := 13
def doubleFault : Nat := 8

section Loading

variable (gdt : Table) (cpl : Nat)

def loadData (selector : Nat) : Except Fault (Option Segment) :=
  if Null selector then .ok none
  else match gdt.segment selector with
    | none => .error ⟨generalProtection, selectorError selector 0⟩
    | some s =>
        if s.system ∨ ¬ s.readable then .error ⟨generalProtection, selectorError selector 0⟩
        else if ¬ (s.code ∧ s.conforming) ∧ (s.dpl < rpl selector ∨ s.dpl < cpl) then
          .error ⟨generalProtection, selectorError selector 0⟩
        else if ¬ s.present then .error ⟨notPresent, selectorError selector 0⟩
        else .ok (some s)

-- The stack segment of a privilege level; `vector` is the fault of a bad selector.
def loadStack (vector external selector : Nat) : Except Fault Segment :=
  if Null selector then .error ⟨vector, external⟩
  else match gdt.segment selector with
    | none => .error ⟨vector, selectorError selector external⟩
    | some s =>
        if rpl selector ≠ cpl ∨ s.dpl ≠ cpl ∨ ¬ s.writable then
          .error ⟨vector, selectorError selector external⟩
        else if ¬ s.present then .error ⟨stackFault, selectorError selector external⟩
        else .ok s

-- The code segment to which `iret` returns at the level of its selector, no inner one than `cpl`.
def returnCode (selector : Nat) : Except Fault Segment :=
  if Null selector then .error ⟨generalProtection, 0⟩
  else match gdt.segment selector with
    | none => .error ⟨generalProtection, selectorError selector 0⟩
    | some s =>
        if ¬ s.code ∨ rpl selector < cpl then
          .error ⟨generalProtection, selectorError selector 0⟩
        else if s.conforming ∧ rpl selector < s.dpl ∨ ¬ s.conforming ∧ rpl selector ≠ s.dpl then
          .error ⟨generalProtection, selectorError selector 0⟩
        else if ¬ s.present then .error ⟨notPresent, selectorError selector 0⟩
        else .ok s

def loadTask (selector : Nat) : Except Fault Segment :=
  if Null selector then .error ⟨generalProtection, 0⟩
  else match gdt.segment selector with
    | none => .error ⟨generalProtection, selectorError selector 0⟩
    | some s =>
        if ¬ s.system ∨ s.kind ≠ availableTask then
          .error ⟨generalProtection, selectorError selector 0⟩
        else if ¬ s.present then .error ⟨notPresent, selectorError selector 0⟩
        else .ok s

theorem check_ok {ε α : Type} {p : Prop} [Decidable p] {fault : ε} {rest : Except ε α}
    {result : α} :
    (if p then .error fault else rest) = .ok result ↔ ¬ p ∧ rest = .ok result := by
  by_cases fails : p <;> simp [fails]

variable {gdt cpl} {selector : Nat} {s : Segment}

theorem loadData_null (null : Null selector) : loadData gdt cpl selector = .ok none := if_pos null

theorem loadData_ok (real : ¬ Null selector) (found : gdt.segment selector = some s)
    {result : Option Segment} : loadData gdt cpl selector = .ok result ↔
      s.system = false ∧ s.readable = true ∧
        (¬ (s.code = true ∧ s.conforming = true) → rpl selector ≤ s.dpl ∧ cpl ≤ s.dpl) ∧
        s.present = true ∧ result = some s := by
  rw [loadData, if_neg real, found]
  simp only [check_ok, Except.ok.injEq, not_or, Bool.not_eq_true, Bool.not_eq_false, not_and,
    not_lt, and_assoc, eq_comm (a := some s)]

theorem loadStack_ok {vector external : Nat} (real : ¬ Null selector)
    (found : gdt.segment selector = some s) {result : Segment} :
    loadStack gdt cpl vector external selector = .ok result ↔
      rpl selector = cpl ∧ s.dpl = cpl ∧ s.writable = true ∧ s.present = true ∧ result = s := by
  rw [loadStack, if_neg real, found]
  simp only [check_ok, Except.ok.injEq, not_or, not_not, and_assoc, eq_comm (a := s)]

theorem returnCode_ok (real : ¬ Null selector) (found : gdt.segment selector = some s)
    {result : Segment} : returnCode gdt cpl selector = .ok result ↔
      s.code = true ∧ cpl ≤ rpl selector ∧
        (s.conforming = true → s.dpl ≤ rpl selector) ∧
        (¬ s.conforming = true → rpl selector = s.dpl) ∧ s.present = true ∧ result = s := by
  rw [returnCode, if_neg real, found]
  simp only [check_ok, Except.ok.injEq, not_or, not_not, not_and, not_lt, and_assoc,
    eq_comm (a := s)]

theorem loadTask_ok (real : ¬ Null selector) (found : gdt.segment selector = some s)
    {result : Segment} : loadTask gdt selector = .ok result ↔
      s.system = true ∧ s.kind = availableTask ∧ s.present = true ∧ result = s := by
  rw [loadTask, if_neg real, found]
  simp only [check_ok, Except.ok.injEq, not_or, not_not, and_assoc, eq_comm (a := s)]

end Loading

-- An `int` instruction, a device, or an exception, of which some push an error code.
inductive Source where
  | software
  | external
  | exception (error : Option Nat)
  deriving DecidableEq

def Source.externalBit : Source → Nat
  | .software => 0
  | _ => 1

def Source.error : Source → Option Nat
  | .exception error => error
  | _ => none

/-- How the processor enters a handler: with a new stack where the privilege level changes, the
error code on it if there is one, and interrupts off if the gate is an interrupt gate. -/
structure Entry where
  offset : Nat
  cs : Nat
  stack : Option (Nat × Nat)
  error : Option Nat
  disables : Bool
  deriving DecidableEq

-- Task gates and 16-bit gates are `foreign`: what they do is not described here.
inductive Outcome where
  | enters (entry : Entry)
  | faults (fault : Fault)
  | foreign
  deriving DecidableEq

/-- What the processor works with: the two tables, and the task state segment. -/
structure Tables where
  gdt : Table
  idt : Table
  taskSelector : Nat
  taskLimit : Nat
  task : Nat

section Raise

variable (t : Tables) (cpl : Nat)

def innerStack (level external : Nat) : Except Fault (Nat × Nat) :=
  let place := 8 * level + 4
  if t.taskLimit < place + 5 then
    .error ⟨invalidTask, selectorError t.taskSelector external⟩
  else
    let esp := extract t.task (8 * place) 32
    let ss := extract t.task (8 * (place + 4)) 16
    match loadStack t.gdt level invalidTask external ss with
    | .error fault => .error fault
    | .ok s =>
        if esp < 24 ∨ s.limit < esp - 1 then .error ⟨stackFault, selectorError ss external⟩
        else .ok (ss, esp)

def through (g : Gate) (source : Source) : Outcome :=
  let external := source.externalBit
  let entry (level : Nat) (stack : Option (Nat × Nat)) : Outcome :=
    .enters {
      offset := g.offset, cs := 4 * (g.selector / 4) + level, stack := stack,
      error := source.error, disables := g.kind == interruptGate }
  if Null g.selector then .faults ⟨generalProtection, external⟩
  else match t.gdt.segment g.selector with
    | none => .faults ⟨generalProtection, selectorError g.selector external⟩
    | some s =>
        if ¬ s.code ∨ cpl < s.dpl then
          .faults ⟨generalProtection, selectorError g.selector external⟩
        else if ¬ s.present then .faults ⟨notPresent, selectorError g.selector external⟩
        else if s.limit < g.offset then .faults ⟨generalProtection, external⟩
        else if s.conforming ∨ s.dpl = cpl then entry cpl none
        else match innerStack t s.dpl external with
          | .error fault => .faults fault
          | .ok stack => entry s.dpl (some stack)

/-- The processor at privilege level `cpl` takes an interrupt. -/
def raise (vector : Nat) (source : Source) : Outcome :=
  let external := source.externalBit
  match t.idt.read vector with
  | none => .faults ⟨generalProtection, vectorError vector external⟩
  | some bits =>
      let g := Gate.ofBits bits
      if g.kind ∈ [5, 6, 7] then .foreign
      else if g.kind ∉ [interruptGate, trapGate] then
        .faults ⟨generalProtection, vectorError vector external⟩
      else if source = .software ∧ g.dpl < cpl then
        .faults ⟨generalProtection, vectorError vector external⟩
      else if ¬ g.present then .faults ⟨notPresent, vectorError vector external⟩
      else through t cpl g source

/-- A fault on the way is taken in place of the interrupt, and a second one as a double fault.
`none`: the processor shuts down, or a foreign gate is met. -/
def arrive (vector : Nat) (source : Source) : Option Entry :=
  match raise t cpl vector source with
  | .enters entry => some entry
  | .foreign => none
  | .faults first =>
      match raise t cpl first.vector (.exception (some first.error)) with
      | .enters entry => some entry
      | .foreign => none
      | .faults _ =>
          match raise t cpl doubleFault (.exception (some 0)) with
          | .enters entry => some entry
          | _ => none

end Raise

-- The bits of the permission map for the ports from `port` on, of which the processor reads two
-- bytes at the map's place in the task state segment.
def Tables.portAllowed (t : Tables) (port bytes : Nat) : Prop :=
  let place := extract t.task (8 * 102) 16
  place + port / 8 + 1 ≤ t.taskLimit ∧
    extract t.task (8 * place + port) bytes = 0

end Protection
