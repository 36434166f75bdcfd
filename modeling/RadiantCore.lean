import RadiantCore.SighashCommitment
import RadiantCore.MultiSig
import RadiantCore.HashOpcodes
import RadiantCore.Shifts
import RadiantCore.Arithmetic
import RadiantCore.CatchAll
import RadiantCore.Timelocks
import RadiantCore.DisallowCheck
import RadiantCore.SigChecks
import RadiantCore.Recovery
import RadiantCore.SwapTables
import RadiantCore.SwapPages
import RadiantCore.SwapMigration
import RadiantCore.RpcAmount
import RadiantCore.CoinRecord
import RadiantCore.ChainNavigation
import RadiantCore.Difficulty
import RadiantCore.MempoolRun
import RadiantCore.BlockWork
import RadiantCore.PrevoutOrder
import RadiantCore.TxWire
import RadiantCore.ScriptPush
