import BlockEngine.Graph.Printer
import BlockEngine.Main
import BlockEngine.Site.Menu
import BlockEngine.Proofs.View
import BlockEngine.Proofs.Locks
import BlockEngine.Proofs.Interleaving
import BlockEngine.Proofs.Discipline
import BlockEngine.Proofs.Effects
import BlockEngine.Proofs.Conduct
import BlockEngine.Proofs.Handlers
import BlockEngine.Proofs.Work
import BlockEngine.Proofs.Stepping
import BlockEngine.Proofs.Callers
import BlockEngine.Proofs.Supervision
import BlockEngine.Proofs.Handover
import BlockEngine.Proofs.Renewal
import BlockEngine.Proofs.Moves
import BlockEngine.Proofs.Script
import BlockEngine.Proofs.Emptiness
import BlockEngine.Proofs.Deliveries
import BlockEngine.Proofs.Documents
import BlockEngine.Proofs.RoundTrip
import BlockEngine.Proofs.Generations
import BlockEngine.Proofs.Arguments
import BlockEngine.Proofs.Replies
import BlockEngine.Proofs.Stopping
import BlockEngine.Proofs.Following
import BlockEngine.Proofs.HatRuns
import BlockEngine.Proofs.Waits
import BlockEngine.Proofs.Turns
import BlockEngine.Proofs.Sparing
import BlockEngine.Proofs.Teardown
import BlockEngine.Proofs.Clearing
import BlockEngine.Proofs.Dropping
import BlockEngine.Proofs.Registration
import BlockEngine.Proofs.Rules
import BlockEngine.Proofs.TabTable
import BlockEngine.Proofs.LockMap
import BlockEngine.Proofs.Resolving
import BlockEngine.Proofs.Termination
import BlockEngine.Proofs.Subscriptions
import BlockEngine.Proofs.Loops
import BlockEngine.Proofs.Unwinding
import BlockEngine.Proofs.Listening
import BlockEngine.Proofs.Starting
import BlockEngine.Proofs.WatcherRuns
import BlockEngine.Proofs.Blame
import BlockEngine.Proofs.Serving
import BlockEngine.Proofs.StopTimeouts
import BlockEngine.Proofs.Strides
import BlockEngine.Proofs.Integers
import BlockEngine.Proofs.NamedValues
import BlockEngine.Proofs.Inputs
import BlockEngine.Proofs.Menus
import BlockEngine.Proofs.FirstFields
import BlockEngine.Proofs.Truth
import BlockEngine.Proofs.Aside
import BlockEngine.Proofs.Alone
import BlockEngine.Proofs.Reloading
import BlockEngine.Proofs.Loading
import BlockEngine.Proofs.Additions
