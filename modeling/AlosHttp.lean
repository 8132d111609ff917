import AlosHttp.H1.Segmentation
import AlosHttp.H1.Framing
import AlosHttp.H1.RootSound
import AlosHttp.H1.StreamRun
import AlosHttp.H2.HeaderFrames
import AlosHttp.H2.ConnRun
import AlosHttp.Quic.RecvRanges
import AlosHttp.Quic.KeyUpdate
import AlosHttp.Quic.PeerStreams
import AlosHttp.Quic.Credit
import AlosHttp.Quic.SendReset
import AlosHttp.Quic.Amplification
import AlosHttp.Quic.Frames
import AlosHttp.Qpack.Response
import AlosHttp.Router.Answers
import AlosHttp.Quic.Crypto
import AlosHttp.H3.RequestStream
import AlosHttp.WebSocket.Outbox
import AlosHttp.Proxy.H1Response
import AlosHttp.Proxy.H2Response
import AlosHttp.Proxy.H2Streams
import AlosHttp.Proxy.Hpack
import AlosHttp.RateLimit.PerIP
import AlosHttp.RateLimit.Counter
import AlosHttp.Proxy.Exchange
import AlosHttp.Proxy.RealIP
import AlosHttp.RateLimit.TokenBucket
import AlosHttp.WebSocket.Mask
import AlosHttp.H1.WordScan
