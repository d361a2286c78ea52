import Ankusa.Queue.Visible
import Ankusa.Verifier.Binding
import Ankusa.Replay.Lifecycle
import Ankusa.Replay.Archive
import Ankusa.Intake.Idempotence
import Ankusa.Store.Restore
import Ankusa.ClaimCheck.Stores
import Ankusa.Delivery.Counts
import Ankusa.Intake.Claims
import Ankusa.Intake.Gate
import Ankusa.Intake.Owners
import Ankusa.Intake.Duplicates
import Ankusa.Queue.Swept
import Ankusa.Queue.Groups
import Ankusa.Edge.QuarantineBucket
import Ankusa.Edge.QueueShare
import Ankusa.Edge.QuarantinePen
import Ankusa.Edge.BatcherRuns
import Ankusa.Edge.FleetBreaker
import Ankusa.Edge.FleetLimit
import Ankusa.Edge.ClientIp
import Ankusa.Sink.PubSub
import Ankusa.Delivery.Markers
import Ankusa.Delivery.Placed
import Ankusa.Dispatch.Rotation
import Ankusa.Dispatch.Probes
import Ankusa.SourceStore.Redis
