import Handoff.CallQueue.Session
import Handoff.Channel.Session
import Handoff.Consumer.Session
import Handoff.Fixture.IsolatedCommand
import Handoff.Fixture.Playback
import Handoff.Fixture.TempFolder
import Handoff.Fleet
import Handoff.Liveness.Switchboard
import Handoff.Log.Session
import Handoff.Pipeline
import Handoff.PlainLoop
import Handoff.Producer.Session
import Handoff.Proofs.Tally
import Handoff.Proofs.Steps
import Handoff.Proofs.Runs
import Handoff.Proofs.Lockstep
import Handoff.Proofs.Teardown
import Handoff.Proofs.Progress
import Handoff.Proofs.Verdict
import Handoff.Proofs.PlainRuns
import Handoff.Proofs.Refinement
import Handoff.Proofs.Interleaving
import Handoff.Proofs.Schedules
import Handoff.Proofs.Abandonment
import Handoff.Proofs.Stock
import Handoff.Proofs.Supply
import Handoff.Proofs.Departure
import Handoff.Proofs.Custody
import Handoff.Proofs.Acceptance
import Handoff.Proofs.Conveyance
import Handoff.Proofs.Delivery
import Handoff.Proofs.Stopping
import Handoff.Proofs.Queueing
import Handoff.Proofs.Refusal
import Handoff.Proofs.Remains
import Handoff.Proofs.Confluence
import Handoff.Proofs.Muster
import Handoff.Proofs.Independence
import Handoff.Proofs.Handles
import Handoff.Proofs.Merging
import Handoff.Producer.Frame
import Handoff.Proofs.Leaving
import Handoff.Proofs.Finality
import Handoff.Producer.Dispatch
import Handoff.Proofs.FirstFailure
import Handoff.CallQueue.Caller
import Handoff.CallQueue.Exchange
import Handoff.Proofs.Tickets
import Handoff.Proofs.Movement
import Handoff.Proofs.Answering
import Handoff.Proofs.Driving
import Handoff.Consumer.Service
import Handoff.Proofs.Serving
import Handoff.Proofs.Finalizing
import Handoff.Proofs.Service
import Handoff.Channel.Publisher
import Handoff.Proofs.Requests
import Handoff.Proofs.HandingBack
import Handoff.Proofs.Echo
import Handoff.Proofs.Restopping
import Handoff.Log.Install
import Handoff.Proofs.Locating
import Handoff.Proofs.Opening
import Handoff.Proofs.Installing
import Handoff.Proofs.Spelling
import Handoff.Liveness.Census
import Handoff.Proofs.Generations
import Handoff.Proofs.Naming
import Handoff.Proofs.Playing
