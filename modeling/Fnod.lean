import Fnod.Lib.OrdMap
import Fnod.Lib.Treap
import Fnod.Lib.Sim
import Fnod.Lib.Bytes
import Fnod.Chaincfg.Chainhash
import Fnod.Chaincfg.Params
import Fnod.Stake.TicketTreap
import Fnod.Stake.Lottery
import Fnod.Stake.Tickets
import Fnod.Stake.Refine
import Fnod.Stake.Moves
import Fnod.Stake.LifeCycle
import Fnod.Stake.Undo
import Fnod.Stake.TicketDB
import Fnod.Stake.Mirror
import Fnod.Stake.StakeRun
import Fnod.Blockchain.StakeNode
import Fnod.Lib.Reader
import Fnod.Lib.Slice
import Fnod.Wire.MsgTx
import Fnod.Wire.BlockHeader
import Fnod.Txscript.SigHash
import Fnod.Txscript.Standard
import Fnod.Stake.StakeTx
import Fnod.Lib.Int64
import Fnod.Txscript.Script
import Fnod.Stake.StakeOutputs
import Fnod.Blockchain.Subsidy
import Fnod.Blockchain.UtxoViewpoint
import Fnod.Blockchain.Validate
import Fnod.Blockchain.UtxoBook
import Fnod.Blockchain.Spendable
import Fnod.Lib.BlockTree
import Fnod.Blockchain.BlockIndex
import Fnod.Blockchain.Orphans
import Fnod.Blockchain.Chain
import Fnod.Blockchain.BestChain
import Fnod.Blockchain.Adoption
import Fnod.Blockchain.ChainTips
import Fnod.Lib.Tally
import Fnod.Lib.Memo
import Fnod.Blockchain.StakeVersion
import Fnod.Blockchain.VersionHistory
import Fnod.Blockchain.ThresholdState
import Fnod.Blockchain.MsgBlock
import Fnod.Lib.Returns
import Fnod.Lib.Canonical
import Fnod.Mempool.TxPool
import Fnod.Mempool.PoolRules
import Fnod.Mempool.OrphanTxs
import Fnod.Mempool.Accepted
import Fnod.Mempool.Outpoints
import Fnod.Mempool.DoubleSpends
import Fnod.Mempool.Votes
import Fnod.Wire.VarInt
import Fnod.Wire.TxCodec
import Fnod.Wire.BlockCodec
import Fnod.Indexers.TxIndex
import Fnod.Indexers.TxIndexRun
import Fnod.Wire.Plain
import Fnod.Lib.StaticStack
import Fnod.Lib.NodeMem
import Fnod.Stake.TreapNodes
import Fnod.Stake.TreapRefine
import Fnod.Stake.TreapDelete
import Fnod.Stake.TreapAccess
import Fnod.Stake.TreapVersions
import Fnod.Lib.ProRata
import Fnod.Stake.Commitments
import Fnod.Blockchain.TicketReturn
import Fnod.Blockchain.FeeLimits
import Fnod.Lib.Layer
import Fnod.Database.DbCache
import Fnod.Database.Snapshots
import Fnod.Database.TreapOrder
import Fnod.Stake.Draws
import Fnod.Lib.Decay
import Fnod.Blockchain.SubsidyCache
import Fnod.Blockchain.Supply
import Fnod.Lib.Windows
import Fnod.Blockchain.StakeDifficulty
import Fnod.Stake.PoolSize
import Fnod.Blockchain.StakeDiffBounds
import Fnod.Lib.Rounding
import Fnod.Blockchain.Compact
import Fnod.Blockchain.WorkDifficulty
import Fnod.Blockchain.EasiestDifficulty
import Fnod.Lib.Buffer
import Fnod.Lib.PowMod
import Fnod.Fnoec.Nonce
import Fnod.Fnoec.Secp256k1
import Fnod.Fnoec.Signature
import Fnod.Hdkeychain.ExtendedKey
import Fnod.Blockchain.Vlq
import Fnod.Blockchain.Compress
import Fnod.Blockchain.ChainView
import Fnod.Blockchain.LastChanged
import Fnod.Chaincfg.Agenda
import Fnod.Blockchain.VoteCounts
import Fnod.Lib.Median
import Fnod.Blockchain.MedianTime
import Fnod.Blockchain.SequenceLock
import Fnod.Lib.HashTree
import Fnod.Blockchain.Merkle
import Fnod.Lib.Ranked
import Fnod.Mining.ParentVotes
import Fnod.Txscript.Parse
import Fnod.Txscript.ScriptNum
import Fnod.Txscript.ScriptBuilder
import Fnod.Lib.Matching
import Fnod.Txscript.MultiSig
import Fnod.Lib.BitStream
import Fnod.Gcs.Bits
import Fnod.Gcs.Filter
import Fnod.Gcs.Decoding
import Fnod.Fnoutil.Block
