import SystemProgramming.Lib.Transition
import SystemProgramming.Lib.RecordLock
import SystemProgramming.Lib.ByteFile
import SystemProgramming.Booking.Command
import SystemProgramming.Booking.Server
import SystemProgramming.Booking.Effect
import SystemProgramming.Booking.Locking
import SystemProgramming.Booking.Release
import SystemProgramming.Booking.StableView
import SystemProgramming.Booking.Bounds
import SystemProgramming.Booking.CommandLine
import SystemProgramming.Booking.OwnRecord
import SystemProgramming.Booking.SelectRounds
import SystemProgramming.Booking.Conversation
import SystemProgramming.Booking.IdLine
import SystemProgramming.Lib.TextSearch
import SystemProgramming.Booking.Framing
import SystemProgramming.Lib.Program
import SystemProgramming.Lib.SlotArray
import SystemProgramming.Threads.Scheduler
import SystemProgramming.Threads.Reorder
import SystemProgramming.Threads.Partition
import SystemProgramming.Threads.Switch
import SystemProgramming.Threads.QueueInvariant
import SystemProgramming.Lib.Replay
import SystemProgramming.Threads.Functions
import SystemProgramming.Threads.OwnTcb
import SystemProgramming.Threads.Isolation
import SystemProgramming.Lib.RoundRobin
import SystemProgramming.Threads.Overtaking
import SystemProgramming.Lib.Segments
import SystemProgramming.Threads.MaxSubarray
import SystemProgramming.Lib.Signals
import SystemProgramming.Threads.Signals
import SystemProgramming.Threads.Sequences
import SystemProgramming.Threads.Termination
import SystemProgramming.Threads.Main
import SystemProgramming.Lib.SortedRuns
import SystemProgramming.Movies.Title
import SystemProgramming.Movies.Entry
import SystemProgramming.Movies.Arrays
import SystemProgramming.Movies.ChunkSort
import SystemProgramming.Movies.Merge
import SystemProgramming.Movies.Tserver
import SystemProgramming.Movies.PlainSort
import SystemProgramming.Movies.Pserver
import SystemProgramming.Movies.MergeChild
import SystemProgramming.Lib.Tiling
import SystemProgramming.Movies.Levels
import SystemProgramming.Movies.SortBounds
import SystemProgramming.Movies.InPlace
import SystemProgramming.Movies.Carried
import SystemProgramming.Movies.Agreement
import SystemProgramming.Lib.Confluence
import SystemProgramming.Lib.Network
import SystemProgramming.Lib.Execution
import SystemProgramming.Lib.Ancestor
import SystemProgramming.Lib.Knockout
import SystemProgramming.Lib.OneMessage
import SystemProgramming.Lib.Flags
import SystemProgramming.Lib.RequestReply
import SystemProgramming.Lib.ForkJoin
import SystemProgramming.Lib.ForkTasks
import SystemProgramming.Movies.Accesses
import SystemProgramming.Movies.AccessSort
import SystemProgramming.Movies.AccessMerge
import SystemProgramming.Movies.AccessPhases
import SystemProgramming.Movies.Interleaving
import SystemProgramming.Movies.Mappings
import SystemProgramming.Movies.ChildAccesses
import SystemProgramming.Movies.ForkInterleaving
import SystemProgramming.Championship.Status
import SystemProgramming.Championship.Process
import SystemProgramming.Championship.Bracket
import SystemProgramming.Championship.Relay
import SystemProgramming.Championship.Path
import SystemProgramming.Championship.Rounds
import SystemProgramming.Championship.Play
import SystemProgramming.Championship.Result
import SystemProgramming.Championship.Schedule
import SystemProgramming.Championship.Sound
import SystemProgramming.Championship.Exit
import SystemProgramming.Championship.Elimination
import SystemProgramming.Championship.Completion
import SystemProgramming.Championship.Tournament
import SystemProgramming.Championship.Traffic
import SystemProgramming.Championship.Integrity
import SystemProgramming.Championship.Deadlock
import SystemProgramming.Championship.Identity
import SystemProgramming.Championship.Records
import SystemProgramming.Championship.Law
import SystemProgramming.Championship.Loop
import SystemProgramming.Lib.Ledger
import SystemProgramming.Championship.PipeLogs
import SystemProgramming.Lib.Scanner
import SystemProgramming.Stdio
import SystemProgramming.Championship.StatusFile
import SystemProgramming.Movies.Input
import SystemProgramming.Movies.InputFiles
