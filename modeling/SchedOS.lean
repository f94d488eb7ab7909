import SchedOS.Shared.Loop
import SchedOS.Shared.Fuel
import SchedOS.Shared.Trace
import SchedOS.Shared.Reach
import SchedOS.Shared.Rotation
import SchedOS.Shared.Rounds
import SchedOS.Shared.ReadyQueue
import SchedOS.Shared.Wheel
import SchedOS.Shared.Lehmer
import SchedOS.Shared.Quantise
import SchedOS.Shared.Terminal
import SchedOS.Shared.Memory
import SchedOS.Shared.Blocks
import SchedOS.Shared.X86
import SchedOS.Shared.Bitfield
import SchedOS.Shared.Protection
import SchedOS.Kernel.Data
import SchedOS.Kernel.Random
import SchedOS.Kernel.Start
import SchedOS.Kernel.Schedule
import SchedOS.Kernel.Interrupt
import SchedOS.Kernel.Table
import SchedOS.Kernel.History
import SchedOS.Kernel.Walk
import SchedOS.Kernel.RoundRobin
import SchedOS.Kernel.ReadyQueue
import SchedOS.Kernel.StrictOrder
import SchedOS.Kernel.Priority
import SchedOS.Kernel.Share
import SchedOS.Kernel.Quanta
import SchedOS.Kernel.Draw
import SchedOS.Kernel.Lottery
import SchedOS.Kernel.Streams
import SchedOS.Kernel.Fairness
import SchedOS.Console.Text
import SchedOS.Console.Putc
import SchedOS.Console.Printf
import SchedOS.Console.Field
import SchedOS.Console.Safety
import SchedOS.Console.Directive
import SchedOS.Console.Number
import SchedOS.Console.Layout
import SchedOS.Console.Format
import SchedOS.Kernel.Screen
import SchedOS.Kernel.Loader
import SchedOS.Kernel.LoadExact
import SchedOS.Kernel.Context
import SchedOS.Hardware.Descriptors
import SchedOS.Hardware.Segments
import SchedOS.Hardware.Traps
import SchedOS.Kernel.InMemory
import SchedOS.Hardware.InMemory
import SchedOS.Kernel.LoadAll
import SchedOS.Boot.Elf
import SchedOS.Boot.Disk
import SchedOS.Boot.Image
import SchedOS.Boot.Arguments
import SchedOS.Boot.Outcome
import SchedOS.Boot.Loader
import SchedOS.Boot.ReadBack
import SchedOS.Lib.Memmove
import SchedOS.Lib.Numbuf
import SchedOS.App.Program
import SchedOS.App.Locking
import SchedOS.App.Printing
import SchedOS.App.Turns
import SchedOS.App.Order
import SchedOS.App.PriorityInversion
import SchedOS.App.Dispatches
import SchedOS.App.PriorityOrder
import SchedOS.App.Serial
import SchedOS.App.ShareOrder
import SchedOS.App.Preemption
import SchedOS.App.FairSchedulers
