import Chronicle.Scan.AbiCache
import Chronicle.Scan.AbiTables
import Chronicle.Scan.Retained
import Chronicle.Scan.Rollback
import Chronicle.Block.Tagged
import Chronicle.Block.Traces
import Chronicle.Interactive.Lookup
import Chronicle.Interactive.Irreversible
import Chronicle.Interactive.BlockAbis
import Chronicle.Consumer.Republish
import Chronicle.Consumer.Chain
import Chronicle.Scan.AckRange
import Chronicle.Scan.Chained
import Chronicle.Scan.ReceivedBlocks
import Chronicle.Scan.Export
import Chronicle.Interactive.Requests
import Chronicle.Exporter.Sender
import Chronicle.Exporter.FlowControl
import Chronicle.Consumer.Acks
import Chronicle.Logic.Program
import Chronicle.Logic.Telling
import Chronicle.Relic.Loop
import Chronicle.Relic.Carried
import Chronicle.Relic.TransactionIds
import Chronicle.Relic.Status
import Chronicle.Relic.AutoBurn
import Chronicle.Relic.Lookups
import Chronicle.Snapshot.Restore
import Chronicle.Snapshot.RoundTrip
import Chronicle.Exporter.Slowdown
import Chronicle.Interactive.Backpressure
import Chronicle.Interactive.StaleHead
import Chronicle.Consumer.ForkDepth
import Chronicle.Exporter.TextProtocol
import Chronicle.Exporter.Framing
import Chronicle.Decoder.Failures
import Chronicle.Relic.Expiration
import Chronicle.Exporter.Websocket
import Chronicle.KeyOps.Account
import Chronicle.Block.Published
import Chronicle.Scan.Told
import Chronicle.Scan.Committed
import Chronicle.Consumer.Collected
import Chronicle.Consumer.Dumper
import Chronicle.Snapshot.Transparent
