import TimedStreams.Engine.Session
import TimedStreams.Main
import TimedStreams.Proofs.Sequence
import TimedStreams.Proofs.Updates
import TimedStreams.Proofs.Answer
import TimedStreams.Proofs.Arrival
import TimedStreams.Proofs.Choices
import TimedStreams.Proofs.EngineRuns
import TimedStreams.Proofs.Progress
import TimedStreams.Proofs.Producers
import TimedStreams.Proofs.Serving
import TimedStreams.Proofs.Driving
import TimedStreams.Proofs.LiveJoins
import TimedStreams.Proofs.Grammar
import TimedStreams.Proofs.Requests
import TimedStreams.Proofs.Surveys
import TimedStreams.Proofs.Leaves
import TimedStreams.Proofs.Replays
import TimedStreams.Proofs.Horizons
import TimedStreams.Proofs.Circuits
import TimedStreams.Proofs.Promises
import TimedStreams.Proofs.Associativity
import TimedStreams.Proofs.Documents
import TimedStreams.Proofs.RoundTrips
import TimedStreams.Proofs.Chaining
import TimedStreams.Proofs.Spelling
import TimedStreams.Proofs.Refusals
import TimedStreams.Proofs.Passes
import TimedStreams.Proofs.Intakes
import TimedStreams.Proofs.Emissions
import TimedStreams.Proofs.Reports
