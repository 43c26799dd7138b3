import WalletReview.Main
import WalletReview.Engine.Action
import WalletReview.Proofs.BoundedText
import WalletReview.Proofs.Passing
import WalletReview.Scenario
import WalletReview.Scripted
import WalletReview.Document.Printer
import WalletReview.Proofs.Landing
import WalletReview.Proofs.Children
import WalletReview.Proofs.Standing
import WalletReview.Proofs.Navigation
import WalletReview.Proofs.Excursion
import WalletReview.Proofs.Lifecycle
import WalletReview.Proofs.Moves
import WalletReview.Proofs.Consistency
import WalletReview.Proofs.Screens
import WalletReview.Proofs.Linear
import WalletReview.Proofs.Seen
import WalletReview.Proofs.Content
import WalletReview.Proofs.OnScreen
import WalletReview.Proofs.Settling
import WalletReview.Proofs.Decisions
import WalletReview.Proofs.Refusals
import WalletReview.Proofs.Faultless
import WalletReview.Proofs.Places
import WalletReview.Proofs.StaticScreens
import WalletReview.Proofs.Constant
import WalletReview.Proofs.FrontEnds
import WalletReview.Proofs.Pages
import WalletReview.Proofs.Correspondence
import WalletReview.Proofs.Documents
import WalletReview.Proofs.Replay
import WalletReview.Proofs.Return
import WalletReview.Proofs.Upholds
import WalletReview.Proofs.Writing
import WalletReview.Proofs.Residue
import WalletReview.Proofs.Determined
import WalletReview.Proofs.Paths
import WalletReview.Proofs.Grounds
import WalletReview.Proofs.Keeps
import WalletReview.Proofs.Queries
import WalletReview.Proofs.Ranks
import WalletReview.Proofs.Levels
import WalletReview.Proofs.Browsing
import WalletReview.Proofs.Unfailing
import WalletReview.Proofs.Numbered
import WalletReview.Proofs.Reaching
import WalletReview.Proofs.Adapter
import WalletReview.Proofs.StaticCalls
import WalletReview.Proofs.StaticRuns
import WalletReview.Proofs.StaticRefusals
import WalletReview.Proofs.StaticPartition
import WalletReview.Proofs.Standstill
import WalletReview.Proofs.Busy
import WalletReview.Proofs.Simulator
import WalletReview.Proofs.Console
import WalletReview.Proofs.Nesting
import WalletReview.Proofs.StaticFields
import WalletReview.Proofs.StaticIndexing
import WalletReview.Proofs.Vacant
import WalletReview.Proofs.Weaving
import WalletReview.Proofs.Cuts
import WalletReview.Proofs.Edits
import WalletReview.Proofs.Paging
import WalletReview.Proofs.Ellipsis
import WalletReview.Proofs.Rounds
import WalletReview.Proofs.Sweeps
import WalletReview.Proofs.Loading
import WalletReview.Proofs.Sufficient
import WalletReview.Proofs.Console
