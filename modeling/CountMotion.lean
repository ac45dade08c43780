import CountMotion.Alias
import CountMotion.Dominance.Basic
import CountMotion.Dominance.Tree
import CountMotion.Edit
import CountMotion.Effect
import CountMotion.Exchange
import CountMotion.Explore
import CountMotion.Facts
import CountMotion.Flat
import CountMotion.Graph.Basic
import CountMotion.Graph.Postorder
import CountMotion.Hoist
import CountMotion.Identity
import CountMotion.Loop.Canonical
import CountMotion.Loop.Forest
import CountMotion.Match
import CountMotion.Pairing
import CountMotion.Pass
import CountMotion.Proofs.Accounting
import CountMotion.Proofs.Agreement
import CountMotion.Proofs.Backing
import CountMotion.Proofs.Balance
import CountMotion.Proofs.BareFacts
import CountMotion.Proofs.Behaviour
import CountMotion.Proofs.Canonicalizing
import CountMotion.Proofs.ChildLoops
import CountMotion.Proofs.Closures
import CountMotion.Proofs.Coherence
import CountMotion.Proofs.Collapsing
import CountMotion.Proofs.Completion
import CountMotion.Proofs.Counting
import CountMotion.Proofs.Crossings
import CountMotion.Proofs.DeadEnds
import CountMotion.Proofs.DepthFirst
import CountMotion.Proofs.DomTree
import CountMotion.Proofs.Dominance
import CountMotion.Proofs.Driving
import CountMotion.Proofs.Entering
import CountMotion.Proofs.Evenness
import CountMotion.Proofs.Exchanges
import CountMotion.Proofs.Execution
import CountMotion.Proofs.FixedPoint
import CountMotion.Proofs.Flattening
import CountMotion.Proofs.Flow
import CountMotion.Proofs.ForkedRetains
import CountMotion.Proofs.Forks
import CountMotion.Proofs.Freezing
import CountMotion.Proofs.FreshSummaries
import CountMotion.Proofs.Handshake
import CountMotion.Proofs.HeldObjects
import CountMotion.Proofs.HoistSpan
import CountMotion.Proofs.Hoisting
import CountMotion.Proofs.Holding
import CountMotion.Proofs.Indexing
import CountMotion.Proofs.JoinedReleases
import CountMotion.Proofs.Journeys
import CountMotion.Proofs.LapCounts
import CountMotion.Proofs.Laps
import CountMotion.Proofs.LastingFacts
import CountMotion.Proofs.Lawfulness
import CountMotion.Proofs.Layout
import CountMotion.Proofs.Ledger
import CountMotion.Proofs.Lifetimes
import CountMotion.Proofs.LoopForest
import CountMotion.Proofs.Machine
import CountMotion.Proofs.Matching
import CountMotion.Proofs.Moves
import CountMotion.Proofs.NaturalLoop
import CountMotion.Proofs.NearestCommon
import CountMotion.Proofs.Nesting
import CountMotion.Proofs.PairSpan
import CountMotion.Proofs.PassEffect
import CountMotion.Proofs.Paths
import CountMotion.Proofs.Pendings
import CountMotion.Proofs.Pointwise
import CountMotion.Proofs.Preheaders
import CountMotion.Proofs.Reducible
import CountMotion.Proofs.RedundantPairs
import CountMotion.Proofs.RegionRounds
import CountMotion.Proofs.RegionViews
import CountMotion.Proofs.Rerouting
import CountMotion.Proofs.Rewiring
import CountMotion.Proofs.Rising
import CountMotion.Proofs.RoughRounds
import CountMotion.Proofs.RoundEffect
import CountMotion.Proofs.Search
import CountMotion.Proofs.SeedOrder
import CountMotion.Proofs.Sharing
import CountMotion.Proofs.Sinking
import CountMotion.Proofs.Slots
import CountMotion.Proofs.SoundFacts
import CountMotion.Proofs.Spans
import CountMotion.Proofs.Splice
import CountMotion.Proofs.Standing
import CountMotion.Proofs.Summaries
import CountMotion.Proofs.Tombstones
import CountMotion.Proofs.Total
import CountMotion.Proofs.TripWalk
import CountMotion.Proofs.Unused
import CountMotion.Proofs.Views
import CountMotion.Proofs.Weaving
import CountMotion.Proofs.WellNested
import CountMotion.Proofs.WholeRounds
import CountMotion.Proofs.WholeView
import CountMotion.Round
import CountMotion.Routine.Access
import CountMotion.Routine.Basic
import CountMotion.Routine.Contract
import CountMotion.Routine.Flow
import CountMotion.Sorted
import CountMotion.Summary
import CountMotion.SummaryTable
import CountMotion.Sweep
import CountMotion.Tally
import CountMotion.TombMap
import CountMotion.Trapping
import CountMotion.Trip
