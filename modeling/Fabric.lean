import Fabric.Binary64.Arithmetic
import Fabric.Binary64.Basic
import Fabric.Cache.ReadThrough
import Fabric.Cache.Store
import Fabric.Calls.Plan
import Fabric.Calls.Search
import Fabric.Calls.Summary
import Fabric.CommandLine.Basic
import Fabric.CommandLine.Options
import Fabric.Config.Basic
import Fabric.Config.Canonical
import Fabric.Config.Instances
import Fabric.Config.Interchange
import Fabric.Decimal.Printer
import Fabric.Decimal.Reader
import Fabric.Dictionary
import Fabric.Digest.Basic
import Fabric.Digest.Mixing
import Fabric.Frequency
import Fabric.Hardware.Component
import Fabric.Hardware.Expr
import Fabric.Hardware.Interchange
import Fabric.Hardware.Manifest
import Fabric.Json.Basic
import Fabric.Json.Decode
import Fabric.Json.Printer
import Fabric.Json.Reader
import Fabric.Lowering.Call
import Fabric.Lowering.Draft
import Fabric.Lowering.Expr
import Fabric.Lowering.Handshake
import Fabric.Lowering.Member
import Fabric.Lowering.Operand
import Fabric.Lowering.Pending
import Fabric.Lowering.Stmt
import Fabric.Main
import Fabric.Packed.Basic
import Fabric.Packed.Description
import Fabric.Packed.Tree
import Fabric.Power
import Fabric.Proofs.Component.Execution
import Fabric.Proofs.Component.Protocol
import Fabric.Proofs.Component.Refinement
import Fabric.Proofs.Component.WellFormed
import Fabric.Proofs.Construction.Arguments
import Fabric.Proofs.Construction.Batch
import Fabric.Proofs.Construction.Branch
import Fabric.Proofs.Construction.Call
import Fabric.Proofs.Construction.Draft
import Fabric.Proofs.Construction.Evolution
import Fabric.Proofs.Construction.Expr
import Fabric.Proofs.Construction.Follow
import Fabric.Proofs.Construction.Handshake
import Fabric.Proofs.Construction.Parallel
import Fabric.Proofs.Construction.Site
import Fabric.Proofs.Construction.Stmt
import Fabric.Proofs.Construction.Later
import Fabric.Proofs.Construction.Member
import Fabric.Proofs.Machine.Basic
import Fabric.Proofs.Machine.Flow
import Fabric.Proofs.Resolution.Basic
import Fabric.Proofs.Source.Basic
import Fabric.Proofs.Source.Expr
import Fabric.Proofs.Source.Control
import Fabric.Proofs.Source.Outcome
import Fabric.Proofs.Source.Stmt
import Fabric.Proofs.Binary64.Value
import Fabric.Proofs.Syntax.Arithmetic
import Fabric.Proofs.Syntax.Nodes
import Fabric.Proofs.Syntax.Numbering
import Fabric.Proofs.Syntax.Parents
import Fabric.Proofs.Syntax.Simplification
import Fabric.Proofs.Synthesis.Planned
import Fabric.Proofs.Typing.Basic
import Fabric.Resolution.ArrayTable
import Fabric.Resolution.Basic
import Fabric.Resolution.Fold
import Fabric.Resolution.Lengths
import Fabric.Storage.Basic
import Fabric.Storage.Disk
import Fabric.Syntax.Arithmetic
import Fabric.Syntax.Expr
import Fabric.Syntax.Index
import Fabric.Syntax.Interchange
import Fabric.Syntax.Parents
import Fabric.Syntax.Stmt
import Fabric.Syntax.Tree
import Fabric.Synthesis.Basic
import Fabric.Synthesis.Error
import Fabric.Synthesis.Program
import Fabric.Synthesis.Types
import Fabric.Text.Escapes
import Fabric.Text.Hex
import Fabric.Text.Lines
import Fabric.Timing.Device
import Fabric.Timing.Model
import Fabric.Timing.Report
import Fabric.Toml.Date
import Fabric.Toml.Number
import Fabric.Toml.Reader
import Fabric.Toml.Table
import Fabric.Toml.Text
import Fabric.Vhdl.Dispatcher
import Fabric.Vhdl.Expr
import Fabric.Vhdl.Layout
import Fabric.Vhdl.Names
import Fabric.Vhdl.Process
import Fabric.Vhdl.Sequential
import Fabric.Vhdl.Writer
import Fabric.Proofs.Resolution.Folding
import Fabric.Proofs.Vhdl.Agreement
import Fabric.Proofs.Vhdl.Operand
import Fabric.Proofs.Calls.Graph
import Fabric.Proofs.Calls.Slots
import Fabric.Proofs.Calls.Plan
import Fabric.Proofs.Construction.Ledger
import Fabric.Proofs.Construction.Account
import Fabric.Proofs.Construction.Prepare
import Fabric.Proofs.Construction.Afforded
import Fabric.Proofs.Synthesis.Run
import Fabric.Proofs.Source.Logic
import Fabric.Proofs.Source.Residual
import Fabric.Proofs.Construction.Carry
import Fabric.Proofs.Machine.Service
import Fabric.Proofs.Source.Evaluation
import Fabric.Proofs.Calls.Reachable
import Fabric.Proofs.Calls.Recursion
import Fabric.Proofs.Calls.Groups
import Fabric.Proofs.Config.Bounds
import Fabric.Proofs.Calls.Demand
import Fabric.Proofs.Synthesis.Wiring
import Fabric.Proofs.Resolution.ConstantLocals
import Fabric.Proofs.Source.Exchange
import Fabric.Proofs.Source.Issue
import Fabric.Proofs.Source.Guarded
import Fabric.Proofs.Source.Calls
import Fabric.Proofs.Component.Expansion
import Fabric.Proofs.Component.Laziness
import Fabric.Proofs.Construction.Learning
import Fabric.Proofs.Construction.Working
import Fabric.Proofs.Component.Naming
import Fabric.Proofs.Construction.Inference
import Fabric.Proofs.Construction.Reached
import Fabric.Proofs.Component.Inference
import Fabric.Proofs.Text.Separation
import Fabric.Proofs.Config.Canonical
import Fabric.Proofs.Construction.Settings
import Fabric.Proofs.Synthesis.Settings
import Fabric.Proofs.Synthesis.Clock
import Fabric.Proofs.Packed.Basic
import Fabric.Proofs.Packed.Tree
import Fabric.Proofs.Packed.Description
import Fabric.Proofs.Digest.Framing
import Fabric.Proofs.Synthesis.Identity
import Fabric.Proofs.Cache.Entry
import Fabric.Proofs.Vhdl.Arbitration
import Fabric.Proofs.Cache.ReadThrough
import Fabric.Proofs.Resolution.Identity
import Fabric.Proofs.Json.Printed
import Fabric.Proofs.Json.Unnumbered
import Fabric.Proofs.Syntax.Interchange
import Fabric.Proofs.Syntax.Renumbering
import Fabric.Proofs.Syntax.Unnumbered
import Fabric.Proofs.Resolution.Fixpoint
import Fabric.Proofs.Construction.Course
import Fabric.Proofs.Component.Parallel
import Fabric.Proofs.Construction.Copies
import Fabric.Proofs.Construction.Writing
import Fabric.Proofs.Construction.Context
import Fabric.Proofs.Component.Inlining
import Fabric.Proofs.Component.Lengths
import Fabric.Proofs.Construction.Steps
import Fabric.Proofs.Resolution.Lengths
import Fabric.Proofs.Typing.Conversions
import Fabric.Proofs.Construction.Kinding
import Fabric.Proofs.Construction.Conversions
import Fabric.Proofs.Component.Conversions
import Fabric.Proofs.Syntax.CallTargets
import Fabric.Proofs.Synthesis.EntryPoints
import Fabric.Proofs.Component.Cycles
import Fabric.Proofs.Resolution.Sites
import Fabric.Proofs.Timing.Report
import Fabric.Proofs.Vhdl.Renaming
import Fabric.Proofs.Construction.Rounds
import Fabric.Proofs.Syntax.Words
import Fabric.Proofs.Vhdl.Types
