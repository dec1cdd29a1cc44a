import Foreman.BuildTree
import Foreman.Controller
import Foreman.Description
import Foreman.Digraph
import Foreman.Digraph.Cycle
import Foreman.Error
import Foreman.Export
import Foreman.FilePath
import Foreman.Glob
import Foreman.Identity
import Foreman.Lifecycle
import Foreman.Lock.Access
import Foreman.Lock.Key
import Foreman.Lock.Lease
import Foreman.Lock.Table
import Foreman.Mutations
import Foreman.Neighbours
import Foreman.Plan
import Foreman.Proofs.Run.Moves
import Foreman.Registry
import Foreman.Resolution
import Foreman.Run.Demand
import Foreman.Run.Select
import Foreman.Run.Settle
import Foreman.Settings.Reading
import Foreman.Task
import Foreman.Text.Quoted
import Foreman.Toml.Document
import Foreman.Toml.Scalar
import Foreman.Toml.Table
import Foreman.Toml.Token
import Foreman.Toml.Value
import Foreman.WorkGraph
import Foreman.WorkGraph.Freeze
import Foreman.WorkGraph.Schedule
import Foreman.Workshop
import Foreman.Proofs.Totals
import Foreman.Proofs.Run.Demand
import Foreman.Proofs.Run.Settling
import Foreman.Proofs.Run.Selection
import Foreman.Proofs.Run.History
import Foreman.Proofs.Run.Precedence
import Foreman.Proofs.Acyclic
import Foreman.Proofs.Digraph
import Foreman.Proofs.Run.Bookkeeping
import Foreman.Proofs.Resolution
import Foreman.Proofs.WorkGraph.Populating
import Foreman.Proofs.WorkGraph.Frozen
import Foreman.Proofs.Run.Skipping
import Foreman.Proofs.WorkGraph.Losses
import Foreman.Proofs.BuildTree.Assembling
import Foreman.Proofs.BuildTree.Waiting
import Foreman.Proofs.Lock.Table
import Foreman.Proofs.Run.Answering
import Foreman.Proofs.Run.Choosing
import Foreman.Proofs.Workshop.Crew
import Foreman.Proofs.Workshop.Jam
import Foreman.Proofs.Workshop.Progress
import Foreman.Proofs.Workshop.Opening
import Foreman.Proofs.Workshop.Stirring
import Foreman.Proofs.BuildTree.Launching
import Foreman.Proofs.BuildTree.Hanging
import Foreman.Proofs.WorkGraph.Growing
import Foreman.Proofs.Requests
import Foreman.Proofs.Lock.Sharing
import Foreman.Proofs.Workshop.Deeds
import Foreman.Proofs.Workshop.Manning
import Foreman.Proofs.Workshop.Effects
import Foreman.Proofs.Workshop.Site
import Foreman.Proofs.Workshop.Exclusion
import Foreman.Proofs.Run.Reporting
import Foreman.Proofs.WorkGraph.Starting
import Foreman.Proofs.Workshop.Reporting
import Foreman.Proofs.BuildTree.Soliciting
import Foreman.Proofs.BuildTree.Rounds
import Foreman.Proofs.BuildTree.Fresh
import Foreman.Proofs.BuildTree.Starting
import Foreman.Proofs.BuildTree.Running
import Foreman.Proofs.BuildTree.Reporting
import Foreman.Proofs.WorkGraph.Journal
import Foreman.Proofs.WorkGraph.Determined
import Foreman.Proofs.Run.Stopping
import Foreman.Proofs.Workshop.Stopping
import Foreman.Proofs.BuildTree.Stopping
import Foreman.Proofs.Workshop.ToDo
import Foreman.Proofs.Workshop.Ending
import Foreman.Proofs.WorkGraph.Ending
import Foreman.Proofs.WorkGraph.Ordering
import Foreman.Proofs.Lock.Visits
import Foreman.Proofs.Lock.TwoPhase
import Foreman.Proofs.WorkGraph.Charging
import Foreman.Proofs.BuildTree.Entailing
import Foreman.Proofs.BuildTree.Obligations
import Foreman.Proofs.BuildTree.Quiescence
import Foreman.Proofs.Lock.Course
import Foreman.Proofs.Lock.Tally
import Foreman.Proofs.Lock.Accounting
import Foreman.Proofs.Run.Audit
import Foreman.Proofs.Run.Exporting
import Foreman.Proofs.WorkGraph.Exporting
import Foreman.Proofs.Controller.Desk
import Foreman.Proofs.Controller.Leading
import Foreman.Proofs.Controller.Handover
import Foreman.Proofs.Controller.Releasing
import Foreman.Proofs.Digraph.Cycle
import Foreman.Proofs.WorkGraph.Hinting
import Foreman.Proofs.WorkGraph.Summoning
import Foreman.Proofs.Run.Standstill
import Foreman.Proofs.WorkGraph.Overtaking
import Foreman.Proofs.Expansion
import Foreman.Proofs.Lock.Ownership
import Foreman.Proofs.WorkGraph.Ordinals
import Foreman.Proofs.WorkGraph.Chronicle
import Foreman.Proofs.Repeating
import Foreman.Proofs.TaskPath
import Foreman.Proofs.Mutations
import Foreman.Proofs.WorkGraph.Coherence
import Foreman.Proofs.Run.Fixpoint
import Foreman.Proofs.WorkGraph.Resting
