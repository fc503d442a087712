import Voxlib.Coroutine
import Voxlib.Queue.Fifo
import Voxlib.MHeap.Order
import Voxlib.Timer.Timeout
import Voxlib.Tcp.WriteOrder
import Voxlib.HTable.Atomic
import Voxlib.RbTree.Balance
import Voxlib.Http.Parser.Chunked
import Voxlib.Http.Parser.Rendered
import Voxlib.Http.Stream
import Voxlib.Tpool.Once
import Voxlib.Tpool.Wait
import Voxlib.Mqtt.Sticky
import Voxlib.Mqtt.Exchange
import Voxlib.Mqtt.PacketIds
import Voxlib.Mqtt.Properties
import Voxlib.Mqtt.Topics
import Voxlib.MPool.Contents
import Voxlib.Mqtt.Closing
import Voxlib.Mqtt.Bodies
import Voxlib.Mqtt.Retry
import Voxlib.Mqtt.Inbox
import Voxlib.Mqtt.Failures
import Voxlib.Redis.Integers
import Voxlib.Redis.Bounds
import Voxlib.Crypto.Hmac
import Voxlib.WebSocket.Utf8
import Voxlib.WebSocket.Bounds
import Voxlib.Http.WsRules
import Voxlib.WebSocket.Server
import Voxlib.Json.RoundTrip
import Voxlib.Redis.Command
import Voxlib.Db.Ownership
import Voxlib.Redis.Ownership
import Voxlib.Redis.Locks
import Voxlib.Xml.RoundTrip
import Voxlib.Http.Registration
import Voxlib.Ini.NormalForm
import Voxlib.Regex.Repetition
import Voxlib.Regex.Longest
import Voxlib.Crypto.Crc32
import Voxlib.Crypto.Digests
import Voxlib.Http.RateLimit
import Voxlib.Json.Serialize
import Voxlib.Crypto.Base64Bounds
import Voxlib.Regex.Folding
import Voxlib.Regex.Groups
import Voxlib.Regex.Replace
import Voxlib.Http.Query
import Voxlib.Coroutine.Pool
import Voxlib.Db.Idle
import Voxlib.Http.Multipart.Streaming
import Voxlib.Vector
import Voxlib.VoxString.Replace
import Voxlib.ScannerStream
