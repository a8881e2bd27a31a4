import FiFi.Fd.PipeRing
import FiFi.Syscall.UserMemory

/-!
# Reading from a pipe

The loop of `SYS_READ` for the read end of a pipe. A turn takes bytes out of the
ring and then copies them to the process; if there are none it sleeps, and the
next turn comes when the thread runs again. Between two turns other threads write
to the pipe, read from it, close it or change the memory of the process.

The bytes are taken before the destination is looked at. When it is refused the
call returns -1 and the bytes are lost. So the readers get the stream of the
writers without a gap exactly if no turn takes bytes for a bad destination.
-/

namespace FiFi.Syscall

open Fd Pmm Vmm StateMachine Traced

/-- A pipe with its writers and readers. `accepted` and `delivered` are what went in and
what came out; `stopped` is set by a fault, after which nothing runs. -/
structure PipeSystem where
  vmm : VmmState
  pipe : Pipe
  accepted : List UInt8
  delivered : List UInt8
  stopped : Bool

/-- The readers have the first bytes of the stream, and the pipe has the rest. -/
def PipeSystem.NoGap (s : PipeSystem) : Prop :=
  s.stopped = true ∨ s.delivered ++ s.pipe.queue = s.accepted

variable {p : Pipe}

variable {s : PipeSystem}

/-- What holds in a run as long as no bytes are lost. -/
def PipeSystem.Kept (s : PipeSystem) : Prop := s.pipe.Bounded ∧ s.NoGap

/-- A pipe that was just opened. -/
def PipeSystem.start (vm : VmmState) : PipeSystem :=
  { vmm := vm, pipe := { Pipe.zero with ropen := 1, wopen := 1 }, accepted := [], delivered := []
    stopped := false }

end FiFi.Syscall
