import Slakshna.Lib.Ranking
import Slakshna.Lib.Lowest
import Slakshna.Chain.Lattice
import Slakshna.Chain.Committee
import Slakshna.Chain.Contribution
import Slakshna.Node.Epoch
import Slakshna.Node.OwnChain
import Slakshna.Node.Staging
import Slakshna.Node.Evaluations
import Slakshna.Node.Blocks
import Slakshna.Net.Wire
import Slakshna.Net.Cluster
import Slakshna.Net.Replication
import Slakshna.Net.Agreement
import Slakshna.Net.Provenance
import Slakshna.Net.Restart
import Slakshna.Net.Election
import Slakshna.Engine.Trust
import Slakshna.Engine.Tensor
import Slakshna.Engine.Delta
import Slakshna.Engine.Aggregate
import Slakshna.Engine.Average
import Slakshna.Engine.Federation
import Slakshna.Inference.Generate
import Slakshna.Inference.Lossless
import Slakshna.Inference.Codebook
import Slakshna.Inference.LayerStore
import Slakshna.Inference.StaticCache
import Slakshna.Inference.SideBuffer
import Slakshna.Inference.Padding
import Slakshna.Inference.Nucleus
import Slakshna.Inference.Support
import Slakshna.Inference.Patcher
import Slakshna.Training.Loop
import Slakshna.Training.Crash
import Slakshna.Training.Resume
import Slakshna.Data.CacheRuns
import Slakshna.Inference.Resample
import Slakshna.Inference.Budget
import Slakshna.Inference.Law
import Slakshna.Node.Standing
import Slakshna.Node.Queries
import Slakshna.Node.Store
import Slakshna.Net.Peers
import Slakshna.Logging.MLflowLogger
import Slakshna.Lib.Removal
import Slakshna.Training.Ranks
import Slakshna.Serve.Replica
import Slakshna.Serve.Stream
import Slakshna.Training.Schedule
import Slakshna.Models.Introspect
import Slakshna.Models.Lora
import Slakshna.Training.MoeLoss
import Slakshna.Engine.Similarity
import Slakshna.Engine.ModelHash
import Slakshna.Lib.Bisect
import Slakshna.Inference.TurboQuant
import Slakshna.Lib.Cells
import Slakshna.Inference.LloydMax
import Slakshna.Data.TokenRows
import Slakshna.Lib.Tags
import Slakshna.Inference.Param2
import Slakshna.Inference.Param2Stream
import Slakshna.Serve.Signal
import Slakshna.Serve.Stops
import Slakshna.Lib.Scan
import Slakshna.Engine.LossTracking
import Slakshna.Inference.CacheMemory
import Slakshna.Inference.Standard
import Slakshna.Training.RunSaves
import Slakshna.Inference.Patching
import Slakshna.Training.Throughput
import Slakshna.Inference.Distortion
import Slakshna.Data.Formats
