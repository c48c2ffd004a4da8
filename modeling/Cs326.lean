import Cs326.Lib.Run
import Cs326.Lib.Selection
import Cs326.Lib.RunningMin
import Cs326.Scheduler.Table
import Cs326.Lib.Numerals
import Cs326.Scheduler.FileFormat
import Cs326.Lib.Chunks
import Cs326.Scheduler.Entries
import Cs326.Scheduler.Comments
import Cs326.Lib.ExchangeSort
import Cs326.Scheduler.CompletionOrder
import Cs326.Scheduler.Machine
import Cs326.Lib.Cyclic
import Cs326.Scheduler.Algorithms
import Cs326.Scheduler.Steps
import Cs326.Scheduler.Invariant
import Cs326.Scheduler.WorkConservation
import Cs326.Scheduler.Progress
import Cs326.Scheduler.Dispatch
import Cs326.Scheduler.RoundRobin
import Cs326.Scheduler.Order
import Cs326.Scheduler.Fifo
import Cs326.Scheduler.Positions
import Cs326.Scheduler.Shortest
import Cs326.Scheduler.Agreement
import Cs326.Scheduler.Priority
import Cs326.Scheduler.StepsLeft
import Cs326.Scheduler.Termination
import Cs326.Scheduler.Gaps
import Cs326.Scheduler.WallClock
import Cs326.Scheduler.SortedTables
import Cs326.Shell.Jobs
import Cs326.Shell.JobTable
import Cs326.Shell.JobControl
import Cs326.Lib.Dataflow
import Cs326.Lib.Descriptors
import Cs326.Shell.Pipeline
import Cs326.Shell.Wiring
import Cs326.Shell.Connections
import Cs326.Shell.Leetify
import Cs326.Shell.PromptLoop
import Cs326.Shell.Flow
import Cs326.Shell.FlowProgress
import Cs326.Shell.History
import Cs326.Shell.Tokenizer
import Cs326.Shell.Prompt
import Cs326.Shell.Numbering
import Cs326.Shell.Replay
import Cs326.Shell.FailedExpansion
import Cs326.Shell.Listing
import Cs326.Lib.CharArray
import Cs326.Lib.Tokens
import Cs326.Lib.Quotes
import Cs326.Text.NextToken
import Cs326.Text.Splitting
import Cs326.Text.WordCount
import Cs326.Shell.InPlace
import Cs326.Shell.Quoting
import Cs326.Shell.Exec
import Cs326.Shell.CommandLines
import Cs326.Shell.FirstWord
import Cs326.Shell.Builtins
import Cs326.Shell.TypedLine
import Cs326.Shell.QuotedWords
import Cs326.Shell.TokenArrays
import Cs326.Lib.Bytes
import Cs326.Lib.Segment
import Cs326.Lib.CInt
import Cs326.Allocator.Heap
import Cs326.Allocator.Regions
import Cs326.Allocator.Represents
import Cs326.Allocator.Search
import Cs326.Allocator.Fit
import Cs326.Allocator.InUse
import Cs326.Allocator.Malloc
import Cs326.Allocator.Free
import Cs326.Allocator.Client
import Cs326.Allocator.NonInterference
import Cs326.Lib.Printf
import Cs326.Allocator.Dump
import Cs326.Allocator.Fragmentation
import Cs326.Allocator.Reclamation
import Cs326.Allocator.ListInvariant
import Cs326.Allocator.Capacity
import Cs326.Allocator.Contracts
import Cs326.Lib.Walk
import Cs326.Web.Server
import Cs326.Web.Lines
import Cs326.Web.Request
import Cs326.Web.Target
import Cs326.Web.Paths
import Cs326.Web.Responses
import Cs326.Web.Connection
import Cs326.Web.Accept
import Cs326.Web.Isolation
import Cs326.Web.Terminated
import Cs326.Web.ReadLine
import Cs326.Lib.Loop
import Cs326.Socket.AnyClient
import Cs326.Socket.ReadLen
import Cs326.Socket.Client
import Cs326.Socket.SendLoop
import Cs326.Socket.Server
import Cs326.Socket.Session
import Cs326.Inspector.GetNextTok
import Cs326.Inspector.StaleBytes
import Cs326.Inspector.Uptime
import Cs326.Inspector.TaskList
import Cs326.Inspector.ProcessingUnits
import Cs326.Inspector.Hardware
