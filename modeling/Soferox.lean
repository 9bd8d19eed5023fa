import Soferox.Script.SoftFork
import Soferox.Validation.Conservation
import Soferox.Chain.Prune
import Soferox.Chain.SkipList
import Soferox.Chain.Headers
import Soferox.Validation.Supply
import Soferox.Script.SignatureHash
import Soferox.Validation.SigOps
import Soferox.Coins.Compressor
import Soferox.Mempool.Order
import Soferox.Mempool.Reorg
import Soferox.Mempool.TxHashes
import Soferox.Mempool.LockPointsSound
import Soferox.Mempool.BlockConnected
import Soferox.Threads.Scheduler
import Soferox.Threads.SerialQueue
import Soferox.Threads.CheckQueue
import Soferox.Net.PartialMerkleSound
import Soferox.Net.BlockTransactions
import Soferox.Net.CompactBlockFill
import Soferox.Net.DownloadAccounts
import Soferox.Validation.Contextual
import Soferox.Net.Framing
import Soferox.Net.AddrManReload
import Soferox.Primitives.SipHash
import Soferox.Policy.FeeRate
import Soferox.Wallet.Abandon
