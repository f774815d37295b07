import Oxidizer.Headers.Fixdate
import Oxidizer.BytesBuf.Capacity
import Oxidizer.BytesBuf.Comparison
import Oxidizer.Cachet.Refresh
import Oxidizer.Breaker.Episodes
import Oxidizer.Breaker.Health
import Oxidizer.Hedging.Race
import Oxidizer.Hedging.Retry
import Oxidizer.Executor.Inspection
import Oxidizer.Routing.Static
import Oxidizer.Routing.Vectors
import Oxidizer.Routing.Conflicts
import Oxidizer.Query.Codec
import Oxidizer.TemplatedUri.Expansion
import Oxidizer.Rallocator.QueueOrder
import Oxidizer.Rallocator.CombiningCalls
import Oxidizer.Uniflight.Cleanup
import Oxidizer.Overlay.Flat
import Oxidizer.Plurality.Geometry
import Oxidizer.Plurality.Safety
import Oxidizer.Plurality.Growth
import Oxidizer.Performables.TryWrite
import Oxidizer.Performables.Order
import Oxidizer.Performables.Notified
import Oxidizer.Performables.Delivered
import Oxidizer.Compressors.Segments
import Oxidizer.Seismograph.Isolation
import Oxidizer.Overlay.Request
import Oxidizer.Overlay.Insertion
import Oxidizer.Rallocator.Classes
