import Dendra.Jobs.Progress.Run
import Dendra.Jobs.Application

/-!
# Solvency

As long as the parameters in force are bounded, the account of the module covers everything that the
module owes, in every state that a run of messages and blocks reaches, whichever bank calls fail.

* `solvency`: the bound.
-/

namespace Dendra.Jobs

/-- What is owed for the jobs is their escrows and the bonds of their open disputes. -/
theorem sum_owed (t : Table Job.jobId) :
    t.sum Job.owed = t.sum Job.escrow + t.sum Job.openBond := by
  simp only [Table.sum, ← List.sum_map_add]
  rfl

/-- The account covers the bonds of the miners, the escrows of the jobs that are neither paid nor
refunded, the retentions, the bonds of the open disputes, and the pools. -/
theorem solvency [Chain] {s : State} (h : Reachable (fun s _ => s.params.Bounded) s) :
    s.funds.stakes + s.jobs.sum Job.escrow + s.funds.heldTotal + s.jobs.sum Job.openBond +
      s.funds.poolCoins ≤ s.funds.bank.balance := by
  have hs := Reachable.slack (fun _ _ hb => hb) h
  rw [State.slack, Funds.slack, sum_owed] at hs
  omega

/-- Five bonds and the escrow of a fresh job. -/
theorem solvency_village : ∃ s, Reachable (fun s _ => s.params.Bounded) s ∧ s.funds.stakes = 5000 ∧
    s.jobs.sum Job.escrow = 1000 ∧
    s.funds.stakes + s.jobs.sum Job.escrow + s.funds.heldTotal + s.jobs.sum Job.openBond +
      s.funds.poolCoins ≤ s.funds.bank.balance := by
  have hb : Params.default.Bounded := by decide
  obtain ⟨s, hs, ht⟩ := exists_reachable (fun _ _ h => of_decide_eq_true h)
    (reachable_village Params.validate_default.1 (by decide) fun s _ _ h => h ▸ hb)
    (show endsIn (fun s _ => decide s.params.Bounded)
      (fun s => decide (s.funds.stakes = 5000 ∧ s.jobs.sum Job.escrow = 1000))
      [(blockAt 2, .openJob ⟨client, "job".toList, 1000⟩)] (village .default) = true by
        rewrite [application_eq_tabled]
        decide +kernel)
  obtain ⟨h1, h2⟩ := of_decide_eq_true ht
  exact ⟨s, hs, h1, h2, solvency hs⟩

end Dendra.Jobs
