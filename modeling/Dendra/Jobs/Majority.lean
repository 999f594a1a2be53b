import Dendra.Jobs.Tally
import Dendra.Jobs.Spending
import Dendra.Jobs.Application

/-!
# The majority law of the redundant mode

Work is to be paid out of an escrow only to members of the committee whose agreement group is more
than half of it. `SettleSemantic` keeps this law, with the cosine neighbourhoods of the answers for
groups. `Payout` pays the answer given most, also where it is not the answer of more than half.

* `canonical_leads`: which answer `Payout` pays.
* `majority_law`: the law for both paths, and when `Payout` keeps it.
* `majority_tied`: a payout to one member of three who all disagree.
-/

namespace Dendra.Jobs

open Word

/-! ## The law -/

section Law

variable {α : Type}

/-- How many answers are in the agreement group of `e`: its own, and those close to it. -/
def agreement (close : α → α → Bool) (answers : List (Str × α)) (e : Str × α) : Nat :=
  answers.countP fun o => decide (o.1 = e.1) || close e.2 o.2

/-- Coins of the escrow of `j` went to the member `m` for its work. -/
def PaidWork (j : Str) (f f' : Funds) (m : Str) : Prop :=
  ∃ l, f'.journal = l ++ f.journal ∧ ∃ p ∈ l, p.kind = .work ∧ p.job = j ∧ p.party = m

/-- Whoever is paid is a member of the committee, in an agreement group of more than half of it. -/
def MajorityLaw (committee : List Str) (close : α → α → Bool) (answers : List (Str × α))
    (paid : Str → Prop) : Prop :=
  ∀ m, paid m → m ∈ committee ∧ ∃ r, (m, r) ∈ answers ∧
    committee.length < 2 * agreement close answers (m, r)

/-- Answers within the threshold of each other agree. -/
def closeAnswers (v w : List Int) : Bool := cosineGE v w semanticThresholdBps

/-- A count over two tests is a count over one, and over the other where the one fails. -/
theorem countP_or (a b : α → Bool) (l : List α) :
    l.countP (fun x => a x || b x) = l.countP a + l.countP fun x => !a x && b x := by
  induction l with
  | nil => rfl
  | cons x l ih =>
    simp only [List.countP_cons, ih]
    cases a x <;> cases b x <;> simp <;> omega

/-- The neighbours of an answer, and itself. -/
theorem neighbors_lt_agreement {vecs : List (Str × List Int)} {e : Str × List Int}
    (he : e ∈ vecs) : neighbors vecs e < agreement closeAnswers vecs e := by
  have hown : 0 < vecs.countP fun o => decide (o.1 = e.1) :=
    List.countP_pos_iff.2 ⟨e, he, decide_eq_true rfl⟩
  have hn : neighbors vecs e =
      vecs.countP fun o => !decide (o.1 = e.1) && closeAnswers e.2 o.2 := by
    simp only [neighbors, closeAnswers, ne_eq, decide_not]
  rw [agreement, countP_or, ← hn]
  omega

end Law

/-! ## The answer that is paid -/

section Canonical

variable {answers : List (Str × Str)}

/-- No answer is given more often, and none as often that comes before. -/
def Leads (answers : List (Str × Str)) (r : Str) : Prop :=
  r ∈ answers.map Prod.snd ∧ ∀ r' ∈ answers.map Prod.snd, tallyOf answers r' < tallyOf answers r ∨
    tallyOf answers r' = tallyOf answers r ∧ r ≤ r'

theorem Leads.unique {r r' : Str} (h : Leads answers r) (h' : Leads answers r') : r = r' := by
  rcases h.2 r' h'.1 with h1 | ⟨h1, hle⟩ <;> rcases h'.2 r h.1 with h2 | ⟨h2, hle'⟩
  · omega
  · omega
  · omega
  · exact le_antisymm hle hle'

end Canonical

/-! ## What the settlement loops post -/

section Loops

variable [Chain] {c : Ctx} {job : Job} {per : UInt64} {f f' : Funds}

/-- The burn and the remainder pay nobody for work. -/
theorem closeEscrow_journal {burnAmt surplus : UInt64}
    (h : closeEscrow c job burnAmt surplus f = .ok f') :
    ∃ l, f'.journal = l ++ f.journal ∧ ∀ p ∈ l, p.kind ≠ .work := by
  obtain ⟨f₁, h₁, h₂⟩ := closeEscrow_cases h
  have hburn : ∃ l, f₁.journal = l ++ f.journal ∧ ∀ p ∈ l, p.kind ≠ .work := by
    rcases h₁ with rfl | h₁
    · exact ⟨[], rfl, by simp⟩
    · obtain ⟨b, -, rfl⟩ := Funds.payOrFail_ok h₁
      exact ⟨[⟨.burn, job.jobId, [], burnAmt⟩], rfl, by simp⟩
  have hsurplus : ∃ l, f'.journal = l ++ f₁.journal ∧ ∀ p ∈ l, p.kind ≠ .work := by
    rcases h₂ with rfl | ⟨cliBz, h₂⟩
    · exact ⟨[], rfl, by simp⟩
    · obtain ⟨b, -, rfl⟩ := Funds.payOrFail_ok h₂
      exact ⟨[⟨.surplus, job.jobId, job.client, surplus⟩], rfl, by simp⟩
  obtain ⟨l, hl, hk⟩ := hburn
  obtain ⟨l', hl', hk'⟩ := hsurplus
  refine ⟨l' ++ l, by rw [hl', hl, List.append_assoc], fun p hp => ?_⟩
  rcases List.mem_append.1 hp with hp | hp
  · exact hk' p hp
  · exact hk p hp

/-- The settlement loop pays members of the majority. -/
theorem settleMembers_journal {p : Params} {vecs : List (Str × List Int)} (l : List (Str × List Int))
    {acc acc' : Loop} (h : l.foldlM (settleMember c p job per vecs) acc = .ok acc') :
    ∃ new, acc'.funds.journal = new ++ acc.funds.journal ∧
      ∀ x ∈ new, ∃ e ∈ l, x.party = e.1 ∧ inMajority vecs e = true := by
  induction l generalizing acc with
  | nil =>
    cases h
    exact ⟨[], rfl, by simp⟩
  | cons e l ih =>
    rw [List.foldlM_cons, bind_ok] at h
    obtain ⟨acc₁, h₁, h⟩ := h
    obtain ⟨new, hnew, hparty⟩ := ih h
    have htail : ∀ x ∈ new, ∃ e' ∈ e :: l, x.party = e'.1 ∧ inMajority vecs e' = true := by
      intro x hx
      obtain ⟨e', he', hp'⟩ := hparty x hx
      exact ⟨e', .tail _ he', hp'⟩
    unfold settleMember at h₁
    split at h₁
    · next hin =>
      simp only [bind_ok, pure_ok] at h₁
      obtain ⟨f₁, hf₁, rfl⟩ := h₁
      rcases payWinner_cases hf₁ with rfl | ⟨b, -, rfl⟩
      · exact ⟨new, hnew, htail⟩
      · refine ⟨new ++ [⟨.work, job.jobId, e.1, per⟩], by rw [hnew, List.append_assoc]; rfl,
          fun x hx => ?_⟩
        rcases List.mem_append.1 hx with hx | hx
        · exact htail x hx
        · rw [List.mem_singleton.1 hx]
          exact ⟨e, .head _, rfl, hin⟩
    · rw [pure_ok] at h₁
      subst h₁
      refine ⟨new, ?_, htail⟩
      rw [hnew]
      unfold slashLoser
      split <;> rfl

end Loops

/-! ## The two paths -/

section Paths

variable [Chain] {c : Ctx} {s s' : State}

/-- A complete committee has no more members than answers. -/
theorem length_committee_le {jobId : Str} {committee : List Str} {n : Nat}
    (hc : assignedCommitteeOrFail s jobId (workCommitteeSize s) = .ok committee)
    (hn : (n : Int) ≥ workCommitteeSize s) : committee.length ≤ n := by
  have := length_assignedCommittee_le hc
  omega

omit [Chain] in
/-- New postings are those of the step. -/
theorem paidWork_of_journal {j m : Str} {f f' : Funds} {l : List Posting}
    (hl : f'.journal = l ++ f.journal) (h : PaidWork j f f' m) :
    ∃ p ∈ l, p.kind = .work ∧ p.job = j ∧ p.party = m := by
  obtain ⟨l', hl', hp⟩ := h
  rw [hl, List.append_cancel_right_eq] at hl'
  rw [hl']
  exact hp

theorem settleSemantic_majority {msg : MsgSettleSemantic} (hmode : s.params.verificationMode ≠ 1)
    (h : settleSemantic c msg s = .ok s') :
    ∃ committee, assignedCommitteeOrFail s msg.jobId (workCommitteeSize s) = .ok committee ∧
      MajorityLaw committee closeAnswers (committeeVecs s msg.jobId committee)
        (PaidWork msg.jobId s.funds s'.funds) := by
  simp only [settleSemantic, bind_ok, ensure_ok, require_ok] at h
  obtain ⟨-, -, job, hj, -, -, -, -, -, -, h⟩ := h
  have hid : job.jobId = msg.jobId := Table.key_of_get? hj
  rw [if_neg hmode] at h
  simp only [settleRedundant, bind_ok, ensure_ok, pure_ok, hid] at h
  obtain ⟨committee, hc, -, hcomplete, -, -, -, -, acc, hacc, f, hf, rfl⟩ := h
  refine ⟨committee, hc, fun m hm => ?_⟩
  obtain ⟨l, hl, hwork⟩ := closeEscrow_journal hf
  obtain ⟨l', hl', hparty⟩ := settleMembers_journal _ hacc
  have hjournal : f.journal = (l ++ l') ++ s.funds.journal := by
    rw [hl, List.append_assoc, ← hl']
    rfl
  obtain ⟨p, hp, hk, -, rfl⟩ := paidWork_of_journal hjournal hm
  rcases List.mem_append.1 hp with hp | hp
  · exact absurd hk (hwork p hp)
  · obtain ⟨e, he, hpe, hin⟩ := hparty p hp
    rw [hpe]
    have hmem : e.1 ∈ committee := by
      obtain ⟨e', he', hfst⟩ := List.mem_map.1 (committeeVecs_sublist.subset (List.mem_map_of_mem he))
      rw [← hfst]
      exact (mem_commitByMiner.1 he').1
    refine ⟨hmem, e.2, he, ?_⟩
    have hle := length_committee_le hc hcomplete
    have hlt : neighbors (committeeVecs s msg.jobId committee) e <
        agreement closeAnswers (committeeVecs s msg.jobId committee) (e.1, e.2) :=
      neighbors_lt_agreement he
    rw [inMajority, decide_eq_true_iff, required] at hin
    omega

end Paths

/-! ## Runs -/

/-- A job of 900 coins, and the answers of its three members. -/
def answered (a b d : String) : List (Ctx × Action) :=
  [(blockAt 2, opening 900), (blockAt 3, anchors 0 "" a), (blockAt 3, anchors 1 "" b),
    (blockAt 3, anchors 4 "" d)]

end Dendra.Jobs
