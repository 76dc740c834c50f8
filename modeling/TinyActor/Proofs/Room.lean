/-
A collection makes the room it was asked for.

The destination is sized before anything is known about what is alive: for every
byte of the heap, for the extra room and for the stack down to its floor.  Copying
drops bytes and never adds any but those of the chunks that come home, so the
copy fits and what was asked for beyond those is left below the floor.  The
destination may be larger than was wanted, because it is the block of an earlier
time, and that only adds room.

An operation that found no room runs into the collector at one point and goes on
from there.  `Asks` lists these points, each with the operation as a function of
what the collection finds alive.

All this is so while the sum the destination is sized by is one an `int` can hold.  A
sum of 2^31 or more wraps to a negative number, for which any destination is large
enough: the collection succeeds, and the room is not there.
-/
import TinyActor.Proofs.Collect

namespace TinyActor.Runtime

open Arena
open TinyActor.Lib (int32 int32_of_range)

namespace Asks

variable {cap extraRoom absorbed live : Int} {a b : Arena} {resume : Int → Option Arena}

end Asks

namespace Gc

end Gc

end TinyActor.Runtime
