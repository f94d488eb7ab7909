import SchedOS.Kernel.Start
import SchedOS.Shared.Rotation

set_option autoImplicit false

namespace SchedOS

namespace Kernel

-- The C conversion of a floating-point value to `int`.
def truncate (r : Rat) : Int := r.num.tdiv r.den

def winnerIndex (k : Kernel) (r : Rat) : Int := (truncate (r * 10000)).tmod k.numTickets

def getWinner (k : Kernel) : Nat × Kernel :=
  let (r, rngs) := k.rngs.random
  (k.tickets (k.winnerIndex r).toNat, { k with rngs := rngs })

-- Algorithm 0, and algorithm 4 while too few tickets are sold.
def roundRobinPass (k : Kernel) (pid : Nat) : Loop.Pass Nat Kernel :=
  if k.Runnable ((pid + 1) % nprocs) then .leave (k.run ((pid + 1) % nprocs))
  else .again ((pid + 1) % nprocs)

def strictPass (k : Kernel) (pid : Nat) : Loop.Pass Nat Kernel :=
  .leave (k.run (if ¬ k.Runnable pid then pid + 1 else pid))

def lowestPriority (k : Kernel) (lowest : Int) : Int :=
  (List.range nprocs).foldl (fun lowest i =>
    if (k.procArray i).pPriority < lowest ∧ k.Runnable i then (k.procArray i).pPriority
    else lowest) lowest

def priorityPass (k : Kernel) : Nat × Int → Loop.Pass (Nat × Int) Kernel
  | (pid, lowest) =>
      let lowest := k.lowestPriority lowest
      let pid := (pid + 1) % nprocs
      if (k.procArray pid).pPriority = lowest ∧ k.Runnable pid then .leave (k.run pid)
      else .again (pid, lowest)

def setTimePassed (k : Kernel) (pid : Nat) (time : Int) : Kernel :=
  k.setProc pid { k.procArray pid with pTimePassed := time }

def sharePass : Kernel × Nat → Loop.Pass (Kernel × Nat) Kernel
  | (k, pid) =>
      if k.Runnable pid then
        if (k.procArray pid).pTimePassed ≥ (k.procArray pid).pShare then
          -- A used-up counter is reset, but its process has to wait for its next turn.
          .again (k.setTimePassed pid 0, (pid + 1) % nprocs)
        else
          .leave ((k.setTimePassed pid ((k.procArray pid).pTimePassed + 1)).run pid)
      else .again (k, (pid + 1) % nprocs)

-- Algorithm 4: one call of `get_winner` and the test of its result.
def lotteryPass (k : Kernel) : Loop.Pass Kernel Kernel :=
  let (winner, k) := k.getWinner
  if ¬ k.Runnable winner then .again k else .leave (k.run winner)

/-- `schedule()`, with fuel for its endless loops: the kernel at the `run` that ends the call.
An unknown algorithm is reported on the screen and the kernel spins. -/
def schedule (fuel : Nat) (k : Kernel) : Option Kernel :=
  let pid := (k.procArray k.current).pPid
  if k.schedulingAlgorithm = 0 then Loop.run k.roundRobinPass fuel pid
  else if k.schedulingAlgorithm = 1 then Loop.run k.strictPass fuel pid
  else if k.schedulingAlgorithm = 2 then Loop.run k.priorityPass fuel (pid, intMax)
  else if k.schedulingAlgorithm = 3 then Loop.run sharePass fuel (k, pid)
  else if k.schedulingAlgorithm = 4 then
    if k.numTickets < nprocs - 1 then Loop.run k.roundRobinPass fuel pid
    else Loop.run lotteryPass fuel k
  else none

def Schedules (k k' : Kernel) : Prop := ∃ fuel, k.schedule fuel = some k'

end Kernel

end SchedOS
