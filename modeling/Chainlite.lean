import Chainlite.BlockCodec
import Chainlite.ChainForkChoice
import Chainlite.LedgerOrder
import Chainlite.LedgerSpending
import Chainlite.MiningCollect
import Chainlite.MiningLaunch
import Chainlite.NetHandshake
import Chainlite.NetLinks
import Chainlite.NetPipe
import Chainlite.NetPush
import Chainlite.NodeHoldings
import Chainlite.NodePending
import Chainlite.NodeRecords
import Chainlite.NodeSwarm
import Chainlite.ProofTamper
import Chainlite.MiningAlone
import Chainlite.WalletVerify
import Chainlite.StorageLife
import Chainlite.SyncInvariant
import Chainlite.SyncSession
import Chainlite.ViewerVerdict
