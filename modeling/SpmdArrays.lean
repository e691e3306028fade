import SpmdArrays.Fault
import SpmdArrays.Text.Decimal
import SpmdArrays.Text.Number
import SpmdArrays.Text.Unprintable
import SpmdArrays.Text.Quoted
import SpmdArrays.ElementType
import SpmdArrays.Program.Var
import SpmdArrays.Program.Literal
import SpmdArrays.Program.Statement
import SpmdArrays.Program.Function
import SpmdArrays.Program.Order
import SpmdArrays.Program.Module
import SpmdArrays.Program.Printer
import SpmdArrays.Catalog.BySource
import SpmdArrays.Catalog.Basic
import SpmdArrays.Device.EntryPoint
import SpmdArrays.Device.Request
import SpmdArrays.Store.Slab
import SpmdArrays.Store.Basic
import SpmdArrays.Exec.Value
import SpmdArrays.Exec.Error
import SpmdArrays.Exec.Run
import SpmdArrays.Settings
import SpmdArrays.FileCalls.Facts
import SpmdArrays.FileCalls.Error
import SpmdArrays.FileCalls.Resolve
import SpmdArrays.FileCalls.DeadCode
import SpmdArrays.FileCalls.Expand
import SpmdArrays.FileCalls.Pipeline
import SpmdArrays.Llvm.Type
import SpmdArrays.Llvm.Instr
import SpmdArrays.Llvm.Module
import SpmdArrays.Llvm.Session
import SpmdArrays.Lowering.EntryPoint
import SpmdArrays.Lowering.Error
import SpmdArrays.Lowering.Address
import SpmdArrays.Lowering.CumulativeSum
import SpmdArrays.Lowering.Primitive
import SpmdArrays.Spmd.Element
import SpmdArrays.Spmd.Portion
import SpmdArrays.Spmd.Chunk
import SpmdArrays.Spmd.Op
import SpmdArrays.Spmd.World
import SpmdArrays.Json.Token
import SpmdArrays.Json.Value
import SpmdArrays.Json.Settings
import SpmdArrays.Json.Catalog
import SpmdArrays.Diagnostic
import SpmdArrays.Proofs.Exec.Agreement
import SpmdArrays.Proofs.Exec.Requests
import SpmdArrays.Proofs.Exec.Reached
import SpmdArrays.Proofs.Exec.Calls
import SpmdArrays.Proofs.Store.Handles
import SpmdArrays.Proofs.FileCalls.DeadCode
import SpmdArrays.Proofs.FileCalls.NeededNames
import SpmdArrays.Proofs.FileCalls.Emission
import SpmdArrays.Proofs.FileCalls.Recognition
import SpmdArrays.Proofs.FileCalls.CopyTargets
import SpmdArrays.Proofs.FileCalls.FreshNames
import SpmdArrays.Proofs.Program.Assignments
import SpmdArrays.Proofs.Program.VisitingOrder
import SpmdArrays.Proofs.FileCalls.Idempotence
import SpmdArrays.Proofs.FileCalls.Roles
import SpmdArrays.Proofs.FileCalls.Visits
import SpmdArrays.Proofs.FileCalls.SingleAssignment
import SpmdArrays.Proofs.Exec.Definers
import SpmdArrays.Proofs.FileCalls.Introspection
import SpmdArrays.Proofs.Spmd.Steps
import SpmdArrays.Proofs.Spmd.Rendezvous
import SpmdArrays.Proofs.Spmd.Gathering
import SpmdArrays.Proofs.Spmd.Delivery
import SpmdArrays.Proofs.Spmd.Schedules
import SpmdArrays.Proofs.Spmd.DataFlow
import SpmdArrays.Proofs.Program.Dominance
import SpmdArrays.Proofs.Spmd.Portions
import SpmdArrays.Proofs.Spmd.ChunkWrites
import SpmdArrays.Proofs.Spmd.Completion
import SpmdArrays.Proofs.Spmd.PrefixSums
import SpmdArrays.Proofs.Store.Odometer
import SpmdArrays.Proofs.Store.Slabs
import SpmdArrays.Proofs.Store.Transfers
import SpmdArrays.Proofs.Exec.Services
import SpmdArrays.Proofs.FileCalls.EmittedRuns
import SpmdArrays.Proofs.Store.WholeDatasets
import SpmdArrays.Proofs.FileCalls.WholeTransfers
import SpmdArrays.Proofs.FileCalls.AsWritten
import SpmdArrays.Proofs.FileCalls.Senses
import SpmdArrays.Proofs.FileCalls.Sites
import SpmdArrays.Proofs.FileCalls.HiddenNames
import SpmdArrays.Proofs.FileCalls.Mirroring
import SpmdArrays.Proofs.FileCalls.MirroredSteps
import SpmdArrays.Proofs.FileCalls.Preservation
import SpmdArrays.Proofs.FileCalls.IndexVariables
import SpmdArrays.Proofs.Llvm.Building
import SpmdArrays.Proofs.Lowering.Emission
import SpmdArrays.Proofs.Lowering.HelperCode
import SpmdArrays.Proofs.Llvm.Typing
import SpmdArrays.Proofs.Lowering.Typing
import SpmdArrays.Proofs.Llvm.Following
import SpmdArrays.Proofs.Lowering.Following
import SpmdArrays.Proofs.Llvm.Symbols
import SpmdArrays.Proofs.Lowering.Symbols
import SpmdArrays.Proofs.Lowering.OperandChecks
import SpmdArrays.Proofs.Text.Numerals
import SpmdArrays.Proofs.Lowering.HandedOutNames
import SpmdArrays.Proofs.Llvm.Memory
import SpmdArrays.Proofs.Llvm.Machine
import SpmdArrays.Proofs.Lowering.ElementAddresses
import SpmdArrays.Proofs.Lowering.HelperRun
import SpmdArrays.Proofs.Lowering.CumulativeSums
import SpmdArrays.Proofs.Exec.Statuses
import SpmdArrays.Proofs.Store.Contents
import SpmdArrays.Proofs.FileCalls.EmittedCalls
import SpmdArrays.Proofs.FileCalls.CallSafety
import SpmdArrays.Proofs.FileCalls.Survivors
import SpmdArrays.Proofs.Program.Traversal
import SpmdArrays.Proofs.FileCalls.Pipelines
import SpmdArrays.Proofs.Store.SlabListing
import SpmdArrays.Proofs.Store.Answers
import SpmdArrays.Proofs.Store.HandleHistory
import SpmdArrays.Proofs.Store.Likeness
import SpmdArrays.Proofs.Store.SlabLens
import SpmdArrays.Proofs.FileCalls.Removal
import SpmdArrays.Proofs.Exec.ArrayShapes
import SpmdArrays.Proofs.FileCalls.Places
import SpmdArrays.Proofs.FileCalls.EffectOrder
import SpmdArrays.Proofs.FileCalls.TransferOperands
import SpmdArrays.Proofs.FileCalls.Captures
import SpmdArrays.Proofs.FileCalls.Lifetime
