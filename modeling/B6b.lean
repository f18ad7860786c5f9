import B6b.Lib.Scanner
import B6b.Lib.Op
import B6b.Lib.Runs
import B6b.Lib.Reach
import B6b.Lib.Upsert
import B6b.Lib.Word
import B6b.Lib.Block
import B6b.Lib.Cuts
import B6b.Lib.Rounding
import B6b.Lib.Ring
import B6b.Text
import B6b.Tokens
import B6b.Codec
import B6b.Spans
import B6b.Brackets
import B6b.Object
import B6b.Container
import B6b.Evolve
import B6b.Changes
import B6b.Flush
import B6b.Coherent
import B6b.Graph
import B6b.Dict
import B6b.Acyclic
import B6b.Inflate
import B6b.Co
import B6b.Procs
import B6b.Fibers
import B6b.Interp
import B6b.Touches
import B6b.Works
import B6b.Moves
import B6b.Sched
import B6b.Yields
import B6b.Offload
import B6b.Pool
import B6b.Owned
import B6b.Nest
import B6b.Quantum
import B6b.Exit
import B6b.Constants
import B6b.Literals
import B6b.Frames
import B6b.Nesting
import B6b.Scope
import B6b.Turns
import B6b.Loops
import B6b.Statements
import B6b.Held
import B6b.Cursors
import B6b.Under
import B6b.Tries
import B6b.Unwind
import B6b.Strm
import B6b.Overlap
import B6b.Truth
import B6b.Ffi
import B6b.Evloop
import B6b.Extend
import B6b.Ranges
import B6b.Trim
import B6b.Releases
import B6b.Source
import B6b.Expand
import B6b.Split
import B6b.Numerals
import B6b.Reading
import B6b.Taking
import B6b.Buffers
import B6b.Robin
import B6b.Parse
import B6b.Groups
import B6b.Copies
import B6b.Lib.Counts
import B6b.Lib.Twin
import B6b.Clients
import B6b.Channel
import B6b.Sem
import B6b.Trees
import B6b.Levels
import B6b.Rules
