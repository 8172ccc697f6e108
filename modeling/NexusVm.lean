import NexusVm.Circuit.Independent
import NexusVm.Nova.CcsFold
import NexusVm.Nova.CircuitLinearization
import NexusVm.Nova.Shared
import NexusVm.Nova.Sound
import NexusVm.Nova.TreeFold
import NexusVm.Nova.Accs
import NexusVm.Nova.ParallelBuffers
import NexusVm.Shuffling.RsShuffle.Sound
import NexusVm.Mangrove.Permutation
import NexusVm.Nova.Circuits.PcdTree
import NexusVm.Nova.Circuits.SequentialSound
import NexusVm.Nova.Circuits.Compression
import NexusVm.Nova.Circuits.PcdBinary
import NexusVm.BulkReads
import NexusVm.Failure
import NexusVm.Memory.FailedUpdate
import NexusVm.Nova.ParallelClaim
import NexusVm.Circuit.Selectors
import NexusVm.Nova.ParallelReady
import NexusVm.Profile
import NexusVm.Nova.Embedding
import NexusVm.Nova.MatrixMle
import NexusVm.Nova.InterpolateMachine
import NexusVm.Nova.NimfsRobust
import NexusVm.Shuffling.RsShuffle.GrandProducts
import NexusVm.Shuffling.RsShuffle.RadixSort
import NexusVm.Shuffling.Rerandomization
import NexusVm.Shuffling.VerifyRerandomization
import NexusVm.Nova.Circuits.SizeProjection
import NexusVm.Shuffling.BatchVerify
import NexusVm.Sha256.ChainFolder
import NexusVm.Network.RoundTrip
import NexusVm.Elf.Image
import NexusVm.Network.Accounting
import NexusVm.Nova.Circuits.SupernovaVerify
import NexusVm.Nova.TaskHeap
import NexusVm.Nova.BlockPool
import NexusVm.Jolt.Failing
import NexusVm.Spartan.VerifierRobust
import NexusVm.Circuit.Complete
import NexusVm.Spartan.Hyrax
import NexusVm.Spartan.Spark
