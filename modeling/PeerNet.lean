import PeerNet.Lookup.Master
import PeerNet.Lookup.Owned
import PeerNet.Lookup.Recording
import PeerNet.Loop.Integrity
import PeerNet.Network.Stall
import PeerNet.Network.Stored
import PeerNet.Network.Uploads
import PeerNet.Packets.Arrivals
import PeerNet.Packets.ExactFill
import PeerNet.Packets.Retry
import PeerNet.Receiver.Announced
import PeerNet.Receiver.ConnLimit
import PeerNet.Receiver.Gets
import PeerNet.Receiver.Greedy
import PeerNet.Receiver.Labels
import PeerNet.Receiver.Numbering
import PeerNet.Receiver.Output
import PeerNet.Sender.Discipline
import PeerNet.Sender.Integrity
import PeerNet.Sender.Passes
import PeerNet.Sender.Published
import PeerNet.Startup.AtLoop
import PeerNet.Wire.Commands
import PeerNet.Wire.Fifo
import PeerNet.Wire.Flood
import PeerNet.Wire.Reads
import PeerNet.Wire.Splitting
import PeerNet.Wire.Strangers
