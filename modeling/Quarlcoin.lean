import Quarlcoin.Pow.Monotone
import Quarlcoin.Pow.Regtest
import Quarlcoin.HeadersSync.Complete
import Quarlcoin.HeadersSync.Bound
import Quarlcoin.NetProcessing.Safety
import Quarlcoin.Coins.Prefetch
import Quarlcoin.VersionBits.Cache
import Quarlcoin.Chain.Active
import Quarlcoin.Chain.Linked
import Quarlcoin.Script.Multisig
import Quarlcoin.Script.ConditionStack
import Quarlcoin.Consensus.Coinbase
import Quarlcoin.NetProcessing.CompactBlocks
import Quarlcoin.Net.LargeMessages
import Quarlcoin.Coins.Compressor
import Quarlcoin.Consensus.LockTime
import Quarlcoin.CheckQueue.Verdict
import Quarlcoin.Node.BumpFees
import Quarlcoin.Asmap.Safety
import Quarlcoin.Orphanage.Aborts
import Quarlcoin.Pow.Usable
import Quarlcoin.Index.Runs
import Quarlcoin.Policy.TrucTopology
import Quarlcoin.Node.Selected
import Quarlcoin.Wallet.RandomSelection
import Quarlcoin.TxGraph.Diagrams
import Quarlcoin.Mempool.Prioritise
import Quarlcoin.Node.HeaderTime
