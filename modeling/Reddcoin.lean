import Reddcoin.Arith.BlockProof
import Reddcoin.Coins.CoinsSerialize
import Reddcoin.Coins.StackRefinement
import Reddcoin.Connect.Rewards
import Reddcoin.Crypto.LockedPages
import Reddcoin.Crypto.Sha256
import Reddcoin.Files.ExternalFile
import Reddcoin.Files.Regions
import Reddcoin.Index.CheckedRun
import Reddcoin.Index.StakeAgreement
import Reddcoin.Kernel.ModifierRounds
import Reddcoin.Mempool.OrphanMaps
import Reddcoin.Mempool.StandardInputs
import Reddcoin.Mining.Template
import Reddcoin.Net.AddrManEvict
import Reddcoin.Net.AddrManRoundTrip
import Reddcoin.Net.BloomFilterRun
import Reddcoin.Net.DownloadWindow
import Reddcoin.Net.InFlightExact
import Reddcoin.Net.LimitedMap
import Reddcoin.Net.NetMessage
import Reddcoin.Net.TimeData
import Reddcoin.Primitives.MerkleSoundness
import Reddcoin.Script.CombinedMultisig
import Reddcoin.Script.DerSignature
import Reddcoin.Script.ScriptBuilder
import Reddcoin.Serialize.VarIntWidth
import Reddcoin.Text.Base58
import Reddcoin.Text.BaseCodec
import Reddcoin.Text.MoneyString
import Reddcoin.Validation.CheckQueueRun
import Reddcoin.Validation.Retarget
import Reddcoin.Wallet.BalanceRun
import Reddcoin.Wallet.CreatedCoinStake
import Reddcoin.Wallet.KeyPoolRun
import Reddcoin.Wallet.KeyStore
import Reddcoin.Wallet.Rescan
