import Ridgeline.Transition
import Ridgeline.Word
import Ridgeline.Framing
import Ridgeline.Separator
import Ridgeline.Decimal
import Ridgeline.CumulativeAck
import Ridgeline.WrappedIndex
import Ridgeline.BoundedFifo
import Ridgeline.MissingNumbers
import Ridgeline.FileSystem
import Ridgeline.VersionedSlot
import Ridgeline.Regulator
import Ridgeline.Crc
import Ridgeline.CrcPolynomial
import Ridgeline.GreedySelection
import Ridgeline.HexText
import Ridgeline.Calendar
import Ridgeline.OrderStatistic
import Ridgeline.Buffer
import Ridgeline.Interpolation
import Ridgeline.FirstOccurrences
import Ridgeline.PeriodicBursts
import Ridgeline.ReleaseAcquire
import Ridgeline.WalRecord
import Ridgeline.WalDecode
import Ridgeline.Crc32
import Ridgeline.WalCorruption
import Ridgeline.Wal
import Ridgeline.WalReplay
import Ridgeline.WalLifetimes
import Ridgeline.WalGrowth
import Ridgeline.CheckpointLoss
import Ridgeline.WalThreads
import Ridgeline.WalCrash
import Ridgeline.Ingest
import Ridgeline.AckSoundness
import Ridgeline.StreamAccounting
import Ridgeline.LostFigure
import Ridgeline.Resume
import Ridgeline.ResumeStream
import Ridgeline.ResumeSafety
import Ridgeline.Deployment
import Ridgeline.IdealStream
import Ridgeline.DeploymentInvariant
import Ridgeline.DeploymentSafety
import Ridgeline.DeploymentProgress
import Ridgeline.DeploymentStall
import Ridgeline.Backoff
import Ridgeline.AgentMain
import Ridgeline.Identity
import Ridgeline.TokenBucket
import Ridgeline.TokenRegulator
import Ridgeline.RateIsolation
import Ridgeline.ShadowStore
import Ridgeline.ShadowWriters
import Ridgeline.ShadowContention
import Ridgeline.ShadowExceptions
import Ridgeline.Tenancy
import Ridgeline.OtaManifest
import Ridgeline.OtaTool
import Ridgeline.DesiredConfigs
import Ridgeline.RedisHotState
import Ridgeline.KafkaProducer
import Ridgeline.KafkaPublication
import Ridgeline.SigV4
import Ridgeline.AlertEngine
import Ridgeline.DemoFeed
import Ridgeline.ConfigReconciliation
import Ridgeline.ConfigLoop
import Ridgeline.FakeProducer
import Ridgeline.RingBuffer
import Ridgeline.RingObserver
import Ridgeline.RingBufferOrder
import Ridgeline.KOfNConfirmer
import Ridgeline.EdgePipeline
import Ridgeline.EdgeCompletion
import Ridgeline.EdgeStop
import Ridgeline.EdgeEpisodes
import Ridgeline.Detector
import Ridgeline.Letterbox
import Ridgeline.VideoFrames
import Ridgeline.BurstDetection
import Ridgeline.LatencyStats
import Ridgeline.VideoProducer
