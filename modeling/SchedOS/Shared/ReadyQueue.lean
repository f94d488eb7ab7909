import Mathlib.Data.List.Basic
import Mathlib.Tactic.Common

set_option autoImplicit false

namespace ReadyQueue

variable {α : Type}

inductive State (α : Type) where
  | running (pid : α) (line : List α)
  | choosing (line : List α)
  | stopped

inductive Action (α : Type) where
  | keep
  | rotate
  | leave
  | stop
  | take (pid : α)

def State.line : State α → List α
  | .running _ line => line
  | .choosing line => line
  | .stopped => []

def Action.taken : Action α → Option α
  | .take pid => some pid
  | _ => none

variable [DecidableEq α]

def step : State α → Action α → Option (State α)
  | .running pid line, .keep => some (.running pid line)
  | .running pid line, .rotate => some (.choosing (line ++ [pid]))
  | .running _ line, .leave => some (.choosing line)
  | .running _ _, .stop => some .stopped
  | .choosing (first :: line), .take pid => if pid = first then some (.running pid line) else none
  | _, _ => none

def run : State α → List (Action α) → Option (State α)
  | state, [] => some state
  | state, action :: rest => (step state action).bind fun next => run next rest

@[simp] theorem step_take {first pid : α} {line : List α} {next : State α} :
    step (.choosing (first :: line)) (.take pid) = some next ↔
      pid = first ∧ next = .running pid line := by
  by_cases same : pid = first
  · simp [step, same, eq_comm]
  · simp [step, same]

theorem step_choosing {line : List α} {action : Action α} {next : State α}
    (stepped : step (.choosing line) action = some next) :
    ∃ first rest, line = first :: rest ∧ action = .take first ∧ next = .running first rest := by
  cases line with
  | nil => cases action <;> cases stepped
  | cons first rest =>
      cases action with
      | take pid =>
          obtain ⟨rfl, rfl⟩ := step_take.mp stepped
          exact ⟨pid, rest, rfl, rfl, rfl⟩
      | keep | rotate | leave | stop => cases stepped

def Agree (xs ys : List α) : Prop := xs <+: ys ∨ ys <+: xs

omit [DecidableEq α] in
theorem Agree.nil (ys : List α) : Agree [] ys := .inl List.nil_prefix

omit [DecidableEq α] in
theorem Agree.cons {xs ys : List α} (x : α) (agree : Agree xs ys) : Agree (x :: xs) (x :: ys) := by
  rcases agree with shorter | longer
  · exact .inl ((List.prefix_cons_inj x).mpr shorter)
  · exact .inr ((List.prefix_cons_inj x).mpr longer)

omit [DecidableEq α] in
theorem Agree.initial {xs ys more : List α} (agree : Agree xs (ys ++ more)) : Agree xs ys := by
  have begins : ys <+: ys ++ more := List.prefix_append ys more
  rcases agree with shorter | longer
  · exact List.prefix_or_prefix_of_prefix shorter begins
  · exact .inr (begins.trans longer)

theorem takes_in_order {state last : State α} {actions : List (Action α)}
    (ran : run state actions = some last) :
    Agree (actions.filterMap Action.taken) state.line := by
  induction actions generalizing state with
  | nil => exact Agree.nil _
  | cons action rest ih =>
      obtain ⟨next, stepped, remaining⟩ := Option.bind_eq_some_iff.mp ran
      have later := ih remaining
      cases state with
      | running pid line =>
          cases action with
          | keep | leave => cases stepped; exact later
          | rotate => cases stepped; exact later.initial
          | stop =>
              cases stepped
              cases rest with
              | nil => exact Agree.nil _
              | cons action rest => cases action <;> cases remaining
          | take => cases stepped
      | choosing line =>
          obtain ⟨first, waiting, rfl, rfl, rfl⟩ := step_choosing stepped
          exact later.cons first
      | stopped => cases action <;> cases stepped

end ReadyQueue
