import Wetnork.Library.Runs
import Wetnork.Packet
import Wetnork.Reliable.Channel
import Wetnork.Reliable.Timer
import Wetnork.Tunnel.DataPath
import Wetnork.Reliable.System
import Wetnork.Reliable.Lockstep
import Wetnork.Reliable.Delivery
import Wetnork.Reliable.Counters
import Wetnork.Crypto.Moves
import Wetnork.Crypto.Refinement
import Wetnork.Crypto.Safety
import Wetnork.Crypto.Results
import Wetnork.Crypto.Context
import Wetnork.Crypto.Notifications
import Wetnork.Address.IPAddress
import Wetnork.Ipc.Deserializer
import Wetnork.Ipc.RoundTrip
import Wetnork.Address.SocketAddress
import Wetnork.Library.Descriptors
import Wetnork.Udp.Socket
import Wetnork.Udp.Peers
import Wetnork.Udp.Ownership
import Wetnork.Crypto.Handles
import Wetnork.Tunnel.Teardown
import Wetnork.Tunnel.Wiring
import Wetnork.Host.TunDevice
import Wetnork.Host.Ownership
import Wetnork.Host.Identity
import Wetnork.Reliable.Codec
import Wetnork.Reliable.Receiver
import Wetnork.Crypto.Faults
import Wetnork.Crypto.Rejections
import Wetnork.Crypto.Transport
import Wetnork.Tunnel.Device
import Wetnork.Crypto.Measures
import Wetnork.Address.Fields
import Wetnork.Ipc.Cursor
import Wetnork.Packet.Views
import Wetnork.Reliable.Bounds
import Wetnork.Library.Simulation
import Wetnork.Reliable.Trace
import Wetnork.Reliable.Liveness
import Wetnork.Reliable.Adversary
import Wetnork.Library.Numerals
import Wetnork.Address.Quad
import Wetnork.Address.Hextets
import Wetnork.Address.Text
import Wetnork.Library.Scopes
import Wetnork.Packet.Ownership
import Wetnork.Host.Netlink
import Wetnork.Crypto.Integrity
import Wetnork.Ipc.Decoding
import Wetnork.Library.Approximation
import Wetnork.Crypto.Returns
import Wetnork.Program
import Wetnork.Udp.Process
import Wetnork.Crypto.Credentials
