import BitcoinC.ValueConservation
import BitcoinC.ColdStake
import BitcoinC.Airdrop
import BitcoinC.RingIndex
import BitcoinC.Mempool
import BitcoinC.MoneySupply
import BitcoinC.UndoBlock
import BitcoinC.AnonValue
import BitcoinC.CacheRun
import BitcoinC.CoinsRefinement
import BitcoinC.RoundTrip
import BitcoinC.SignatureHash
import BitcoinC.StakeForks
import BitcoinC.ReplayBlocks
import BitcoinC.BestHeader
import BitcoinC.EarlyDelivery
import BitcoinC.OutputAuthority
import BitcoinC.KernelAge
import BitcoinC.StakeSeen
import BitcoinC.ClockVerdict
import BitcoinC.RingMaturity
import BitcoinC.Emission
import BitcoinC.AddressRuns
import BitcoinC.PoolKeyImages
import BitcoinC.PoolReorg
import BitcoinC.VarInt
import BitcoinC.RingVerdict
import BitcoinC.StakeTarget
import BitcoinC.Retarget
import BitcoinC.MerkleRoot
import BitcoinC.PurgedMessages
import BitcoinC.BucketTable
import BitcoinC.StoredMessages
import BitcoinC.BestChain
import BitcoinC.SeenKernels
import BitcoinC.DevFundTable
import BitcoinC.ScriptPaths
import BitcoinC.RingRepair
import BitcoinC.PoolMaturity
import BitcoinC.PoolInsight
import BitcoinC.AddressQueries
import BitcoinC.AuthorityBinding
import BitcoinC.AmountCompression
import BitcoinC.RangeProofParameters
import BitcoinC.SkipList
import BitcoinC.BlockWork
import BitcoinC.SequenceLocks
import BitcoinC.BlockFiles
import BitcoinC.PartialMerkleTree
import BitcoinC.CurveKeys
import BitcoinC.StealthKeys
import BitcoinC.KeyDerivation
import BitcoinC.NestedScripts
