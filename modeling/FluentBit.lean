import FluentBit.Foundation.Runs
import FluentBit.Foundation.Tally
import FluentBit.Routes.Mask
import FluentBit.Config
import FluentBit.Engine.State
import FluentBit.Storage.Chunk
import FluentBit.Engine.Task
import FluentBit.Engine.Dispatch
import FluentBit.Storage.Append
import FluentBit.Engine.Event
import FluentBit.Engine.Lifecycle
import FluentBit.CloudWatch.Batches
import FluentBit.ConfigFormat.RoundTrip
import FluentBit.Csv.Written
import FluentBit.Engine.Backoff
import FluentBit.Engine.BucketQueue
import FluentBit.Engine.RetryLimit
import FluentBit.Engine.Singleplex
import FluentBit.Event.EncodeDecode
import FluentBit.Event.ScopeRollback
import FluentBit.Filter.RewriteTag
import FluentBit.Filter.Throttle
import FluentBit.Gzip.CountMembers
import FluentBit.Gzip.Reads
import FluentBit.HashTable.Capacity
import FluentBit.HashTable.Exact
import FluentBit.Http.Delivery
import FluentBit.Http.HeaderLookup
import FluentBit.InCollectd.NetprotProperties
import FluentBit.InForward.Accesses
import FluentBit.InForward.Acks
import FluentBit.InForward.Framing
import FluentBit.InForward.Handshake
import FluentBit.InMqtt.Framing
import FluentBit.InMqtt.Publishes
import FluentBit.InSyslog.Stream
import FluentBit.InTcp.JsonFraming
import FluentBit.Json.Numerals
import FluentBit.Json.TextTokens
import FluentBit.Json.WriteStrReads
import FluentBit.Multiline.GroupLimit
import FluentBit.Multiline.Isolation
import FluentBit.Multiline.Metadata
import FluentBit.Parsers.Calendar
import FluentBit.Parsers.LocalTypes
import FluentBit.RecordAccessor.KeysRemoveProperties
import FluentBit.RecordAccessor.TemplateTranslation
import FluentBit.RecordAccessor.UpdateProperties
import FluentBit.Routes.Router
import FluentBit.Storage.Room
import FluentBit.StreamProcessor.Extremes
import FluentBit.StreamProcessor.GroupNodes
import FluentBit.StreamProcessor.Precedence
import FluentBit.StreamProcessor.Selection
import FluentBit.StreamProcessor.SnapshotPages
import FluentBit.StreamProcessor.StringOwnership
import FluentBit.Strings.SdsUtf8
import FluentBit.Strings.Split
import FluentBit.Strings.Unescape
import FluentBit.Strings.Url
import FluentBit.Tail.Resume
import FluentBit.Upstream.Gauges
