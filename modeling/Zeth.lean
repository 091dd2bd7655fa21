import Zeth.Agreement.HonestMix
import Zeth.Agreement.MerkleTree
import Zeth.Agreement.Mimc
import Zeth.Agreement.MixEvents
import Zeth.Agreement.Prf
import Zeth.Circuit.Blake2sHash
import Zeth.Circuit.MimcExponent
import Zeth.Client.NoteDelivery
import Zeth.Client.NoteLookup
import Zeth.Client.SyncRecovery
import Zeth.Contract.Groth16BLS12377
import Zeth.Contract.Pghr13
import Zeth.Contract.TokenAccounting
import Zeth.Coordinator.Contribute
import Zeth.Coordinator.Interleaving
import Zeth.Coordinator.Restart
import Zeth.Core.ChachaRng
import Zeth.Core.HashStream
import Zeth.Core.MerkleTreeBuild
import Zeth.Mpc.EvaluatorFromLagrange
import Zeth.Mpc.KeyGeneration
import Zeth.Mpc.PowersOfTauFiles
import Zeth.Mpc.WellFormed
import Zeth.Serialization.JsonVectors
import Zeth.Serialization.KeyFiles
import Zeth.Circuit.NoteBinding
