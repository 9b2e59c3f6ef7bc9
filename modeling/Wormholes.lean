import Wormholes.Lib.Blocks
import Wormholes.Lib.Lookup
import Wormholes.Lib.Digits
import Wormholes.Lib.Run
import Wormholes.Lib.Cuts
import Wormholes.Lib.Outcome
import Wormholes.Lib.Quorum
import Wormholes.Lib.Ranking
import Wormholes.Lib.Rlp
import Wormholes.Common.Address
import Wormholes.Common.Encoding
import Wormholes.Types.Nft
import Wormholes.Types.Stake
import Wormholes.State.Object
import Wormholes.State.Database
import Wormholes.State.Nft
import Wormholes.State.Account
import Wormholes.State.Operation
import Wormholes.State.Snapshot
import Wormholes.Core.Result
import Wormholes.Core.Orders
import Wormholes.Core.Sales
import Wormholes.Core.HandleNFT
import Wormholes.Core.Exec
import Wormholes.Core.StateTransition
import Wormholes.Chain.Machine
import Wormholes.Vm.Memory
import Wormholes.Vm.Instructions
import Wormholes.Vm.Interpreter
import Wormholes.Vm.Call
import Wormholes.Consensus.Istanbul
import Wormholes.Consensus.Ibft
import Wormholes.Consensus.IbftNetwork
import Wormholes.Consensus.ExtraData
import Wormholes.Consensus.IbftLookups
import Wormholes.Consensus.Voting
import Wormholes.Consensus.QbftTypes
import Wormholes.Consensus.QbftNode
import Wormholes.Consensus.QbftNetwork
import Wormholes.Laws.Common.Address
import Wormholes.Laws.Common.Encoding
import Wormholes.Laws.State.Steps
import Wormholes.Laws.State.Database
import Wormholes.Laws.State.Nft
import Wormholes.Laws.State.Account
import Wormholes.Laws.State.Operation
import Wormholes.Laws.State.Revert
import Wormholes.Laws.State.Tree
import Wormholes.Laws.State.Merge
import Wormholes.Laws.State.Split
import Wormholes.Laws.State.Writes
import Wormholes.Laws.State.Handover
import Wormholes.Laws.State.Approvals
import Wormholes.Laws.State.Snapshot
import Wormholes.Laws.Types.Nft
import Wormholes.Laws.State.Supply
import Wormholes.Laws.State.Storage
import Wormholes.Laws.State.Regroup
import Wormholes.Laws.State.RoundTrip
import Wormholes.Laws.Core.HandleNFT
import Wormholes.Laws.Core.Panic
import Wormholes.Laws.Core.Empty
import Wormholes.Laws.Core.Fees
import Wormholes.Laws.Types.Stake
import Wormholes.Laws.Types.StakeLedger
import Wormholes.Laws.Chain.Steps
import Wormholes.Laws.Chain.Queue
import Wormholes.Laws.Chain.Pledge
import Wormholes.Laws.Chain.Accounts
import Wormholes.Laws.Chain.Exchanger
import Wormholes.Laws.Chain.Trades
import Wormholes.Laws.Chain.Approvals
import Wormholes.Laws.State.MetaURL
import Wormholes.Laws.Chain.MetaURL
import Wormholes.Laws.Chain.Panic
import Wormholes.Laws.Chain.Funds
import Wormholes.Laws.Chain.Value
import Wormholes.Laws.Chain.Intent
import Wormholes.Laws.Core.Signing
import Wormholes.Laws.Core.Exec
import Wormholes.Laws.Chain.Replay
import Wormholes.Laws.Vm.Memory
import Wormholes.Laws.Vm.Stack
import Wormholes.Laws.Vm.Metering
import Wormholes.Laws.Vm.Static
import Wormholes.Laws.Consensus.Istanbul
import Wormholes.Laws.Consensus.Quorum
import Wormholes.Laws.Consensus.Selection
import Wormholes.Laws.Consensus.Reward
import Wormholes.Laws.Consensus.ExtraData
import Wormholes.Laws.Consensus.IbftNode
import Wormholes.Laws.Consensus.IbftNetwork
import Wormholes.Laws.Consensus.IbftLookups
import Wormholes.Laws.Consensus.Commit
import Wormholes.Laws.Consensus.IbftRounds
import Wormholes.Laws.Consensus.Proposer
import Wormholes.Laws.Consensus.Voting
import Wormholes.Laws.Consensus.QbftTypes
import Wormholes.Laws.Consensus.QbftJustification
import Wormholes.Laws.Consensus.QbftNode
import Wormholes.Laws.Consensus.QbftRoundChangeSet
import Wormholes.Laws.Consensus.QbftEvidence
import Wormholes.Laws.Consensus.QbftRounds
import Wormholes.Laws.Consensus.QbftPrepared
import Wormholes.Laws.Consensus.QbftAgreement
import Wormholes.Laws.Consensus.QbftDecided
import Wormholes.Laws.Core.OfficialPool
import Wormholes.Laws.Chain.Royalty
import Wormholes.Laws.State.Lookup
import Wormholes.Laws.Core.Matching
import Wormholes.Laws.Chain.Miners
import Wormholes.Laws.Core.NftText
import Wormholes.Laws.State.Minted
import Wormholes.Laws.State.UserNFT
import Wormholes.Laws.Chain.UserMint
