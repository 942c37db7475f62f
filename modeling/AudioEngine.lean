import AudioEngine.Lib.Table
import AudioEngine.Lib.PyStr
import AudioEngine.Lib.Lines
import AudioEngine.Lib.PyJson
import AudioEngine.Lib.PyJsonDump
import AudioEngine.Lib.PyIp
import AudioEngine.Lib.Sha256
import AudioEngine.Lib.Interleave
import AudioEngine.Lib.Story
import AudioEngine.Lib.Leads
import AudioEngine.Lib.Settle
import AudioEngine.Lib.Project
import AudioEngine.Lib.Registry
import AudioEngine.Lib.Lease
import AudioEngine.Domain.State
import AudioEngine.Domain.Vendor
import AudioEngine.Domain.Text
import AudioEngine.Domain.Events
import AudioEngine.Gateway.Ingest
import AudioEngine.Infra.Db
import AudioEngine.Infra.Queries
import AudioEngine.Infra.Barrier
import AudioEngine.Infra.Inbox
import AudioEngine.Infra.Broker
import AudioEngine.Infra.Topology
import AudioEngine.Worker.AckLast
import AudioEngine.Worker.Ladder
import AudioEngine.Worker.Climb
import AudioEngine.Worker.FanOut
import AudioEngine.Worker.Ssrf
import AudioEngine.Worker.Notify
import AudioEngine.Semaphore.Model
import AudioEngine.Semaphore.Ledger
import AudioEngine.Semaphore.Conservation
import AudioEngine.Semaphore.Limit
import AudioEngine.Semaphore.Reapers
import AudioEngine.Semaphore.Slot
import AudioEngine.Semaphore.Healing
import AudioEngine.Semaphore.Clock
import AudioEngine.Pipeline.Handlers
import AudioEngine.Worker.Resolver
import AudioEngine.Worker.Wire
import AudioEngine.Pipeline.System
import AudioEngine.Pipeline.Effects
import AudioEngine.Pipeline.Writes
import AudioEngine.Pipeline.Rows
import AudioEngine.Pipeline.Sound
import AudioEngine.Pipeline.Moves
import AudioEngine.Pipeline.Assertions
import AudioEngine.Pipeline.Posts
import AudioEngine.Pipeline.Data
import AudioEngine.Pipeline.Stages
import AudioEngine.Pipeline.Delivery
import AudioEngine.Pipeline.Wins
import AudioEngine.Pipeline.Webhook
import AudioEngine.Pipeline.Status
import AudioEngine.Pipeline.Counter
import AudioEngine.Pipeline.Exact
import AudioEngine.Pipeline.Trace
import AudioEngine.Pipeline.Seeding
import AudioEngine.Pipeline.Republish
import AudioEngine.Pipeline.Rerun
import AudioEngine.Pipeline.Chunks
import AudioEngine.Pipeline.Fanin
import AudioEngine.Pipeline.Whole
import AudioEngine.Pipeline.Asset
import AudioEngine.Pipeline.Returns
import AudioEngine.Pipeline.Recovery
import AudioEngine.Pipeline.Progress
import AudioEngine.Pipeline.DeadLetter
import AudioEngine.Pipeline.Lock
import AudioEngine.Pipeline.Consistency
import AudioEngine.Pipeline.Settling
import AudioEngine.Pipeline.Isolation
import AudioEngine.Pipeline.Stampede
import AudioEngine.Pipeline.Stitching
import AudioEngine.Pipeline.Finalise
import AudioEngine.Pipeline.Poison
import AudioEngine.Pipeline.Authentic
import AudioEngine.Engine.Model
import AudioEngine.Engine.Limit
import AudioEngine.Engine.Clock
import AudioEngine.Engine.Settling
import AudioEngine.Gateway.Views
