import Dendra.Jobs.Solvency
import Dendra.Jobs.JobLedger
import Dendra.Jobs.EscrowExit
import Dendra.Jobs.ExpiryExact
import Dendra.Jobs.Disputer
import Dendra.Jobs.NashGuard
import Dendra.Jobs.HeldFee
import Dendra.Jobs.Majority
import Dendra.Jobs.ExitGuard
import Dendra.Jobs.Disbursement
import Dendra.Jobs.Unwind
import Dendra.Jobs.Absences
import Dendra.Jobs.RoundTrip
import Dendra.Jobs.Agreement
import Dendra.Jobs.SlashSafety
import Dendra.Jobs.Isolation
import Dendra.Jobs.Seeds
import Dendra.Jobs.Anchor
import Dendra.Jobs.Admission
import Dendra.Jobs.Halt
import Dendra.Jobs.Recent
import Dendra.Emission.Subsidy
import Dendra.Jobs.Lifetime
import Dendra.App.VoteExtensions
import Dendra.App.Proposal
import Dendra.Emission.Exact
import Dendra.Season.Report
import Dendra.Season.Window
import Dendra.Season.Unwound
import Dendra.Season.Capacity
import Dendra.Season.Payout
import Dendra.Season.Faults
import Dendra.Season.EvidenceFile
import Dendra.Relay.Durability
import Dendra.Relay.Resend
import Dendra.Season.Cap
import Dendra.Season.Closed
import Dendra.Season.Paid
import Dendra.Judge.Question
import Dendra.Gateway.Accounted
import Dendra.Faucet.Bounds
import Dendra.Judge.Once
import Dendra.Judge.Decide
import Dendra.Reveal.JobId
import Dendra.Reveal.Recipients
import Dendra.Jobs.Washing
import Dendra.Jobs.Bar
import Dendra.Jobs.Ranking
import Dendra.Jobs.Keys
import Dendra.Jobs.Update
import Dendra.Jobs.Coherence
import Dendra.Jobs.Window
import Dendra.Jobs.Reversal
import Dendra.Emission.Availability
import Dendra.Relay.Canon
import Dendra.Relay.Antireplay
import Dendra.Relay.CosmosAddr
import Dendra.Relay.Client
import Dendra.Reveal.DepositKey
import Dendra.Reveal.Merkle
import Dendra.Relay.ListCache
import Dendra.Points.Split
import Dendra.Season.SeasonList
import Dendra.Alert.Channel
import Dendra.Capacity.Anonymity
import Dendra.Capacity.Rate
import Dendra.Emission.Ledger
import Dendra.Jobs.Bisection
import Dendra.Jobs.HeldSummary
import Dendra.Mpc.Sharing
import Dendra.TheProof.Commits
import Dendra.TheProof.Exact
import Dendra.Capacity.Signed
import Dendra.Jobs.Relaunch
import Dendra.TheProof.Feed
