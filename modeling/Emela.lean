import Emela.Lib.F64
import Emela.Lib.Merkle
import Emela.Lib.Semver
import Emela.Lib.Search
import Emela.Lib.Ascending
import Emela.Lib.Worklist
import Emela.Pome.Tlog
import Emela.Pome.Lemmas.Read
import Emela.Pome.Checked
import Emela.Pome.Honest
import Emela.Pome.Lemmas.Consistency
import Emela.Pome.Lemmas.Forge
import Emela.Pome.Theorems
import Emela.Pome.Fetch
import Emela.Pome.Lemmas.Version
import Emela.Pome.Lemmas.Mvs
import Emela.Pome.Semver
import Emela.Pome.Selection
import Emela.Pome.Text
import Emela.Pome.SourcePath
import Emela.Pome.Lemmas.SourcePath
import Emela.Pome.Names
import Emela.Pome.Canonical
import Emela.Pome.Trees
import Emela.Pome.Lemmas.Reached
import Emela.Pome.Reached
import Emela.Pome.Records
import Emela.Pome.Sumdb
import Emela.Pome.Lemmas.Fetch
import Emela.Pome.Cached
import Emela.Pome.Manifest
import Emela.Pome.Edit
import Emela.Pome.Resolve
import Emela.Pome.Project
import Emela.Pome.Lemmas.Project
import Emela.Pome.Unchanged
import Emela.Pome.Lemmas.Edit
import Emela.Pome.Grants
import Emela.Pome.Lemmas.Text
import Emela.Pome.Lemmas.Prefix
import Emela.Pome.Lookups
import Emela.Types.Exhaustiveness
import Emela.Types.Lemmas.Split
import Emela.Types.Lemmas.Useful
import Emela.Types.Lemmas.Witnesses
import Emela.Types.Theorems
import Emela.Lir.Ir
import Emela.Lir.Rc
import Emela.Lir.RcCheck
import Emela.Lir.Verify
import Emela.Lir.Lemmas.Live
import Emela.Lir.Lemmas.Rc
import Emela.Lir.Lemmas.RcCheck
import Emela.Lir.Lemmas.Ready
import Emela.Lir.Lemmas.Balance
import Emela.Lir.Theorems
import Emela.Lir.Paths
import Emela.Lir.Lemmas.Held
import Emela.Lir.Lemmas.Extends
import Emela.Lir.Lemmas.Paths
import Emela.Lir.Soundness
import Emela.Lir.Implicit
import Emela.Lir.Meaning
import Emela.Lir.Lemmas.Ways
import Emela.Lir.Lemmas.Build
import Emela.Lir.Lemmas.Flags
import Emela.Lir.Lemmas.Leaving
import Emela.Lir.Lemmas.Rebuilt
import Emela.Lir.Lemmas.Defects
import Emela.Lir.Lemmas.Simulation
import Emela.Lir.Preservation
import Emela.Match.Core
import Emela.Match.Code
import Emela.Match.Compile
import Emela.Match.Lemmas.Rows
import Emela.Match.Lemmas.Reads
import Emela.Match.Lemmas.Normalize
import Emela.Match.Lemmas.Specialize
import Emela.Match.Lemmas.Bodies
import Emela.Match.Lemmas.Runs
import Emela.Match.Theorems
import Emela.Derive.Code
import Emela.Derive.Js
import Emela.Derive.Lemmas.Structural
import Emela.Derive.Equality
import Emela.Runtime.State
import Emela.Runtime.Scheduler
import Emela.Runtime.Lemmas.Flow
import Emela.Runtime.Lemmas.Passing
import Emela.Runtime.Lemmas.Members
import Emela.Runtime.Lemmas.Closing
import Emela.Runtime.Lemmas.Targets
import Emela.Runtime.Lemmas.Interrupts
import Emela.Runtime.Lemmas.Advance
import Emela.Runtime.Lemmas.Requests
import Emela.Runtime.Lemmas.Scopes
import Emela.Runtime.Lemmas.Bodies
import Emela.Runtime.Lemmas.Steps
import Emela.Runtime.Lemmas.Runs
import Emela.Runtime.Lemmas.Lasts
import Emela.Runtime.Theorems
import Emela.Runtime.Lemmas.Still
import Emela.Runtime.Lemmas.Cells
import Emela.Runtime.Lemmas.Holding
import Emela.Runtime.Lemmas.Awaits
import Emela.Runtime.Deferreds
import Emela.Runtime.Holding
import Emela.Stdlib.Core
import Emela.Stdlib.Map
import Emela.Stdlib.Lemmas.Balance
import Emela.Stdlib.Lemmas.Operations
import Emela.Stdlib.Theorems
import Emela.Stdlib.Sort
import Emela.Lib.Base64
import Emela.Lib.Utf8
import Emela.Stdlib.Utf8
import Emela.Stdlib.Request
import Emela.Stdlib.Lemmas.Percent
import Emela.Stdlib.Query
import Emela.Stdlib.Arrays
import Emela.Stdlib.FileSystem
import Emela.Stdlib.Lemmas.FileSystem
import Emela.Stdlib.Files
import Emela.Syntax.Expressions
import Emela.Syntax.Lemmas.Expressions
import Emela.Syntax.Lemmas.Grouping
import Emela.Syntax.Lemmas.Sequences
import Emela.Syntax.Theorems
import Emela.Infer.Ty
import Emela.Infer.Context
import Emela.Infer.Lemmas.Same
import Emela.Infer.Lemmas.Calls
import Emela.Infer.Table
import Emela.Infer.Scheme
import Emela.Infer.Lemmas.Names
import Emela.Infer.Lemmas.Free
import Emela.Infer.Lemmas.Unify
import Emela.Infer.Lemmas.Reached
import Emela.Infer.Lemmas.Literals
import Emela.Infer.Lemmas.Instance
import Emela.Infer.Theorems
import Emela.Mono.Types
import Emela.Mono.Lemmas.Adapter
import Emela.Mono.Theorems
import Emela.Lexer.Continuation
import Emela.Lexer.Lex
import Emela.Text.Shown
import Emela.Lib.Digraph
import Emela.Lib.BreadthFirst
import Emela.Text.Encoding
import Emela.Text.Show
import Emela.Lib.IndexedArray
import Emela.Lib.LinkedQueue
import Emela.Order.InitOrder
import Emela.Order.Lemmas.Search
import Emela.Order.ImportGraph
import Emela.Order.Lemmas.Components
import Emela.Order.Lemmas.ImportGraph
import Emela.Order.Lemmas.Supertraits
import Emela.Order.Theorems
import Emela.Order.Cycles
import Emela.Lib.Renaming
import Emela.Lir.Arena
import Emela.Lir.LiveOn
import Emela.Lir.Lemmas.LiveTree
import Emela.Lir.Lemmas.LivePaths
import Emela.Lir.Liveness
import Emela.Lir.Copy
import Emela.Lir.Alpha
import Emela.Lir.Lemmas.CopyTables
import Emela.Lir.Lemmas.CopyStmt
import Emela.Lir.Lemmas.CopyRun
import Emela.Lir.Lemmas.AlphaScope
import Emela.Lir.Copied
import Emela.EventLoop.State
import Emela.EventLoop.Lemmas.Registrations
import Emela.EventLoop.Lemmas.Tasks
import Emela.EventLoop.Lemmas.Slots
import Emela.EventLoop.Life
import Emela.EventLoop.Lemmas.Steps
import Emela.EventLoop.Runs
import Emela.EventLoop.Theorems
import Emela.EventLoop.TimerPhase
import Emela.Heap.Theorems
