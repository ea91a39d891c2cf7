import Compliance.Execution.Manager
import Compliance.Plan.Resolution
import Compliance.Proofs.Acyclic
import Compliance.Proofs.Aliases
import Compliance.Proofs.Answers
import Compliance.Proofs.Attestation
import Compliance.Proofs.Citations
import Compliance.Proofs.CodeJobs
import Compliance.Proofs.Composites
import Compliance.Proofs.Dangling
import Compliance.Proofs.Datapoints
import Compliance.Proofs.Direct
import Compliance.Proofs.Discovery
import Compliance.Proofs.Filters
import Compliance.Proofs.FrameworkJobs
import Compliance.Proofs.InForce
import Compliance.Proofs.Indexing
import Compliance.Proofs.Itinerary
import Compliance.Proofs.Materialization
import Compliance.Proofs.Naming
import Compliance.Proofs.OrderFree
import Compliance.Proofs.OutOfScope
import Compliance.Proofs.Outlines
import Compliance.Proofs.PolicyJobs
import Compliance.Proofs.Precedence
import Compliance.Proofs.Rearrangements
import Compliance.Proofs.Roles
import Compliance.Proofs.Separation
import Compliance.Proofs.Sequencing
import Compliance.Proofs.Stopping
import Compliance.Proofs.Stragglers
import Compliance.Proofs.Termination
import Compliance.Proofs.Verdicts
import Compliance.Proofs.Waiting
import Compliance.Proofs.Bindings
import Compliance.Proofs.Outstanding
import Compliance.Proofs.Environment
import Compliance.Proofs.Decoders
import Compliance.Proofs.WireForms
