import Xq.Common.Crc32cLaws
import Xq.Core.Api
import Xq.Core.EncoderThreads
import Xq.Proofs.Core.BlockBuffers
import Xq.Proofs.Core.DecodeCalls
import Xq.Core.ReaderThreads
import Xq.Lib.Canonical
import Xq.Proofs.Codec.LzbEmit
import Xq.Proofs.Codec.LzbHistory
import Xq.Proofs.Core.Chunking
import Xq.Proofs.Core.Isolation
import Xq.Proofs.Core.ReaderProgress
import Xq.Proofs.Core.Verify
import Xq.Codec.LzbAccess
import Xq.Core.Container
import Xq.Proofs.Core.DecoderMemory
import Xq.Lib.BitFields
import Xq.Lib.Blocks
import Xq.Lib.ExactCoding
import Xq.Lib.MergeForest
import Xq.Proofs.Codec.ContextHistory
import Xq.Proofs.Codec.LzbChains
import Xq.Proofs.Codec.LzbExpansion
import Xq.Proofs.Codec.LzbReference
import Xq.Proofs.Codec.LzeRoundTrip
import Xq.Proofs.Core.Emission
import Xq.Proofs.Core.EncoderCreation
import Xq.Proofs.Core.RepairAccount
import Xq.Proofs.Core.RecordInsertion
import Xq.Proofs.Core.Repairing
import Xq.Proofs.Core.Writing
import Xq.Proofs.Format.Exact
import Xq.Proofs.Core.CompressBound
import Xq.Proofs.Core.MemoryLimits
import Xq.Proofs.Core.PreadTotal
import Xq.Proofs.Core.CacheLru
import Xq.Proofs.Core.RepairScan
import Xq.Proofs.Common.HuffHeights
import Xq.Proofs.Common.HuffOptimal
import Xq.Lib.SlotRing
import Xq.Proofs.Core.Blocking
import Xq.Proofs.Format.Bursts
import Xq.Common.Xxh64Laws
import Xq.Proofs.Codec.VarintExact
import Xq.Proofs.Codec.PrepareFailures
import Xq.Proofs.Core.EncoderWorkers
import Xq.Proofs.Core.EncoderProducer
import Xq.Proofs.Core.EncoderThreads
import Xq.Proofs.Core.FinishedFile
import Xq.Proofs.Core.EncoderFailures
import Xq.Proofs.Core.WellFormed
import Xq.Proofs.Codec.TakesBack
import Xq.Proofs.Core.EncoderContexts
import Xq.Proofs.Core.FileContents
import Xq.Proofs.Core.FileDecoding
import Xq.Proofs.Core.RoundTrip
import Xq.Proofs.Core.FileReading
import Xq.Proofs.Core.FileDamage
import Xq.Proofs.Core.FileRepair
