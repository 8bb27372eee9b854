import QuickTunnel.Core.LTS
import QuickTunnel.Core.Tally
import QuickTunnel.Core.Bytes
import QuickTunnel.Http.Field
import QuickTunnel.Http.Framing
import QuickTunnel.Http.Request
import QuickTunnel.Proxy.Httparse
import QuickTunnel.Error
import QuickTunnel.Stream
import QuickTunnel.Stream.Decode
import QuickTunnel.Proxy.Shape
import QuickTunnel.Proxy.Head
import QuickTunnel.Proxy.Io
import QuickTunnel.Proxy.Pooled
import QuickTunnel.Proxy.PooledRuns
import QuickTunnel.Proxy.Delimiting
import QuickTunnel.Proxy.Persistence
import QuickTunnel.Proxy.RequestBody
import QuickTunnel.Proxy.Inbound
import QuickTunnel.Proxy.Answer
import QuickTunnel.Proxy.HalfClose
import QuickTunnel.Proxy.EofPropagation
import QuickTunnel.Rpc.Driver
import QuickTunnel.Manager.Leg
import QuickTunnel.Manager.Shutdown
import QuickTunnel.Manager.Control
import QuickTunnel.Http.Print
import QuickTunnel.Http.Connection
import QuickTunnel.Proxy.EdgeRequest
import QuickTunnel.Pool
import QuickTunnel.Pool.Concurrent
import QuickTunnel.Pool.HalfClosed
import QuickTunnel.Pool.Expired
import QuickTunnel.Proxy.ConnectionOption
import QuickTunnel.Proxy.Relay
import QuickTunnel.Proxy.Truncation
import QuickTunnel.Proxy.Interim
import QuickTunnel.Proxy.Segmentation
import QuickTunnel.Proxy.RoundTrip
import QuickTunnel.Proxy.Metadata
import QuickTunnel.Manager.Supervisor
import QuickTunnel.Manager.Reconnect
import QuickTunnel.Core.Retry
import QuickTunnel.Core.Utf8
import QuickTunnel.Api
import QuickTunnel.Edge
import QuickTunnel.EdgeRegistry
import QuickTunnel.EdgeRegistry.Rate
import QuickTunnel.Manager.Edges
import QuickTunnel.Rpc.HungUp
import QuickTunnel.Rpc.LifeCycle
import QuickTunnel.Manager.Start
import QuickTunnel.Proxy.Socket
import QuickTunnel.Proxy.Shared
import QuickTunnel.Proxy.Served
import QuickTunnel.Proxy.Pairing
import QuickTunnel.Proxy.Talk
import QuickTunnel.Proxy.Exchange
import QuickTunnel.Proxy.Dialogue
import QuickTunnel.Manager.Metrics
import QuickTunnel.Core.Message
import QuickTunnel.Rpc.Registration
import QuickTunnel.Rpc.Session
import QuickTunnel.Stream.Messages
import QuickTunnel.Manager.Attempts
import QuickTunnel.Proxy.OpenSockets
import QuickTunnel.Manager.Outages
import QuickTunnel.Manager.Joining
import QuickTunnel.Proxy.Paths
import QuickTunnel.Pool.Reuse
import QuickTunnel.Proxy.PeakLoad
import QuickTunnel.Proxy.EndToEnd
