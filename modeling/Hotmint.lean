import Hotmint.Light.Trust
import Hotmint.Safety.Collected
import Hotmint.Safety.VotingRule
import Hotmint.Safety.Votes
import Hotmint.Safety.CommittedIndex
import Hotmint.Safety.Recovery
import Hotmint.Safety.CommitFunction
import Hotmint.Safety.Monotone
import Hotmint.Safety.Liveness
import Hotmint.Safety.Extensions
import Hotmint.Safety.OwnVote
import Hotmint.Safety.Portable
import Hotmint.Safety.Timeouts
import Hotmint.Safety.SameView
import Hotmint.Safety.StateRoots
import Hotmint.Staking.Driven
import Hotmint.Staking.Order
import Hotmint.Abci.Alignment
import Hotmint.Abci.Protocol
import Hotmint.Safety.FailedReplay
import Hotmint.Safety.Results
import Hotmint.Mempool.Best
import Hotmint.Storage.Wal
import Hotmint.Storage.BlockStores
import Hotmint.Storage.EvidenceStores
import Hotmint.Mempool.Payload
import Hotmint.Network.Relay
import Hotmint.Network.PeerMap
