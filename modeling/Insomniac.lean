import Insomniac.Abstract.Code
import Insomniac.Abstract.Known
import Insomniac.Abstract.Machine
import Insomniac.Abstract.Prints
import Insomniac.Abstract.Refine
import Insomniac.Abstract.Shows
import Insomniac.Abstract.Simulate
import Insomniac.Asm.Agree
import Insomniac.Asm.Assemble
import Insomniac.Asm.Boundaries
import Insomniac.Asm.Debug
import Insomniac.Asm.Decode
import Insomniac.Asm.Lexer
import Insomniac.Asm.Ops
import Insomniac.Asm.Placed
import Insomniac.Bootstrap.Characters
import Insomniac.Bootstrap.Include
import Insomniac.Bootstrap.Lexer
import Insomniac.Bootstrap.Lines
import Insomniac.Bootstrap.Numbers
import Insomniac.Bootstrap.Texts
import Insomniac.Buffer.Blocks
import Insomniac.Buffer.Contents
import Insomniac.Buffer.Load
import Insomniac.Buffer.Runs
import Insomniac.Buffer.Writes
import Insomniac.Compile.Agrees
import Insomniac.Compile.Alongside
import Insomniac.Compile.Capture
import Insomniac.Compile.Closed
import Insomniac.Compile.Continuations
import Insomniac.Compile.Correct
import Insomniac.Compile.Emit
import Insomniac.Compile.Ending
import Insomniac.Compile.Evaluate
import Insomniac.Compile.Hidden
import Insomniac.Compile.Library
import Insomniac.Compile.Lookup
import Insomniac.Compile.Names
import Insomniac.Compile.Nested
import Insomniac.Compile.Program
import Insomniac.Compile.Quoted
import Insomniac.Compile.Resumes
import Insomniac.Compile.Sits
import Insomniac.Compile.Syntax
import Insomniac.Compile.Tail
import Insomniac.Compile.Whole
import Insomniac.Compile.Worlds
import Insomniac.Gc.Allocate
import Insomniac.Gc.Collect
import Insomniac.Gc.Ending
import Insomniac.Gc.Heap
import Insomniac.Gc.Marking
import Insomniac.Gc.Process
import Insomniac.Gc.Runs
import Insomniac.Gc.Search
import Insomniac.Hash.Counting
import Insomniac.Hash.Cow
import Insomniac.Hash.FiniteMap
import Insomniac.Hash.Iterator
import Insomniac.Hash.Keys
import Insomniac.Hash.Resize
import Insomniac.Hash.Runs
import Insomniac.Hash.Table
import Insomniac.Hash.Values
import Insomniac.Lib.CallCc
import Insomniac.Lib.Inline
import Insomniac.Lib.Lists
import Insomniac.Lib.Loop
import Insomniac.Lib.Parameters
import Insomniac.Lib.Postamble
import Insomniac.Lib.Preamble
import Insomniac.Lib.Strings
import Insomniac.Lib.Vectors
import Insomniac.Lib.Winds
import Insomniac.Machinery.Bytes
import Insomniac.Machinery.Chunks
import Insomniac.Machinery.Explore
import Insomniac.Machinery.Fuel
import Insomniac.Machinery.Linked
import Insomniac.Machinery.Mirror
import Insomniac.Machinery.Munch
import Insomniac.Machinery.Relate
import Insomniac.Machinery.Run
import Insomniac.Machinery.Traversal
import Insomniac.Runtime.Attachment
import Insomniac.Vm.Arithmetic
import Insomniac.Vm.Bounds
import Insomniac.Vm.Built
import Insomniac.Vm.Changes
import Insomniac.Vm.Closures
import Insomniac.Vm.Equality
import Insomniac.Vm.Eval
import Insomniac.Vm.Fetches
import Insomniac.Vm.Grown
import Insomniac.Vm.Handlers
import Insomniac.Vm.Instructions
import Insomniac.Vm.Lengths
import Insomniac.Vm.Literals
import Insomniac.Vm.Memory
import Insomniac.Vm.Output
import Insomniac.Vm.Print
import Insomniac.Vm.Reads
import Insomniac.Vm.Runs
import Insomniac.Vm.Sized
import Insomniac.Vm.Stack
import Insomniac.Vm.State
import Insomniac.Vm.Steps
import Insomniac.Vm.Symbols
import Insomniac.Vm.Utf8
