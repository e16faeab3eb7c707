import Conduit.Transceiver.FramerRuns
import Conduit.Bgen.BitmapRoundTrip
import Conduit.Queue.Accounting
import Conduit.Transceiver.Conservation
import Conduit.Transceiver.Delivery
import Conduit.Transceiver.EncodeCalls
import Conduit.Transceiver.HandlerRegistry
import Conduit.Ports.WriterAgree
import Conduit.Ports.ReaderAgree
import Conduit.Bindings.RegisterSession
import Conduit.Ports.ExprAgree
import Conduit.Bgen.SizeSafety
import Conduit.Bgen.ExprSafety
import Conduit.Bgen.MessageIds
import Conduit.Bgen.ValidatorDepth
import Conduit.Transceiver.PeerNames
import Conduit.Transceiver.UdpEviction
import Conduit.Transceiver.Shutdown
import Conduit.Transceiver.BackPressure
import Conduit.Bgen.CaseOverlap
import Conduit.Bgen.BitmapBits
import Conduit.Bgen.TerminatedText
import Conduit.Bgen.PrefixedText
import Conduit.Bgen.SyncPattern
import Conduit.Bgen.LiteralRange
import Conduit.Transceiver.ConfigPeers
import Conduit.Transceiver.MessageLogFiles
import Conduit.Io.ExactCodes
