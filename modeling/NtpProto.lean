import NtpProto.Time
import NtpProto.Float
import NtpProto.Packet
import NtpProto.Register
import NtpProto.TemporaryList
import NtpProto.Peer
import NtpProto.FilterRun
import NtpProto.Exchange
import NtpProto.Association
import NtpProto.Selection
import NtpProto.Window
