import Meshwarden.Codec.Base32
import Meshwarden.Codec.Stream
import Meshwarden.Proto.Allocation
import Meshwarden.Proto.DecodeExact
import Meshwarden.Proto.Threads
import Meshwarden.Proto.Attribution
import Meshwarden.Proto.Messages
import Meshwarden.Proto.BoundChecks
import Meshwarden.Proto.Symmetry
import Meshwarden.Transport.Interrupted
import Meshwarden.Transport.ReadBuffer
import Meshwarden.Identity.Issuance
import Meshwarden.Identity.Minting
import Meshwarden.Identity.WireForms
import Meshwarden.Identity.Sizes
import Meshwarden.Identity.Capabilities
import Meshwarden.Transport.Amplification
import Meshwarden.Transport.Promptness
import Meshwarden.Transport.Backpressure
