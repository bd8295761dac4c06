import Sahyadri.Smt.Pages
import Sahyadri.Account.Prove
import Sahyadri.Account.Step
import Sahyadri.Did.Run
import Sahyadri.Did.Commits
import Sahyadri.Did.Submit
import Sahyadri.Pipeline.Acceptance
import Sahyadri.Live.Undo
import Sahyadri.Consensus.SelectedChain
import Sahyadri.Consensus.Pruning
import Sahyadri.Consensus.Difficulty
import Sahyadri.Consensus.Window
import Sahyadri.Consensus.Levels
import Sahyadri.Consensus.VirtualParents
import Sahyadri.Pipeline.Sink
import Sahyadri.P2p.Header
import Sahyadri.Deps.Run
import Sahyadri.Live.Legacy
import Sahyadri.Live.Batch
import Sahyadri.Sync.Bootstrap
import Sahyadri.Pipeline.Fees
import Sahyadri.Mining.Pending
import Sahyadri.Mining.Template
import Sahyadri.Mining.Sequence
import Sahyadri.Mining.Modify
import Sahyadri.Sync.RootProof
import Sahyadri.Fri.Opening
