import Aerion.AnyTls.Negotiation
import Aerion.AnyTls.Server
import Aerion.Core.Quota
import Aerion.IoUtil
import Aerion.Mieru.KeyLookups
import Aerion.Mieru.Opening
import Aerion.Mieru.Pattern
import Aerion.Mieru.Reception
import Aerion.Mieru.SendWindow
import Aerion.Mieru.Survival
import Aerion.Naive.EndOfStream
import Aerion.Naive.RoundTrip
import Aerion.Reality.ClientHello
import Aerion.Reality.Flush
import Aerion.Relay
import Aerion.Shadowsocks.UdpClient
import Aerion.Shadowsocks.UdpSessions
import Aerion.Sudoku.Credentials
import Aerion.Sudoku.EndToEnd
import Aerion.Sudoku.FastPath
import Aerion.Sudoku.MuxStreams
import Aerion.Sudoku.Replay
import Aerion.Sudoku.Shuffle
import Aerion.Sudoku.Tunnel
import Aerion.TaskAbort
import Aerion.Trojan.Fallback
import Aerion.Trojan.Retention
import Aerion.Trojan.UdpClient
import Aerion.Tuic.Associations
import Aerion.Vless.Grpc
import Aerion.Vless.MuxIsolation
import Aerion.Vless.TlsFilter
import Aerion.Vless.UdpRelay
import Aerion.Vless.Xudp
import Aerion.Vmess.Replay
import Aerion.Vmess.UdpTunnel
