import Dendra.Jobs.Funds

/-!
# Releasing and refunding a retention

`keeper/protocol_cut.go` and the money half of `keeper/antievasion.go`: the retained shares of one
job leave through `releaseHeld` (to the operator, the fee collector, the team or the pools, or burned)
or through `refundRetainedToClient`. Both are best-effort: a refused bank call leaves a share where
it is, or sends it to the treasury.

`HeldEffect w j f f'` is all that either of them does to the funds: what it keeps of the account, of
the fee of job `j`, and of every other job's retention. It is a preorder, and `HeldEffect.paid`,
`HeldEffect.pooled` and `HeldEffect.dropped` are the moves of one ledger entry it is built from.

* `releaseHeld_effect`, `refundRetainedToClient_effect`: the two functions have it.
-/

namespace Dendra.Jobs

open Word

/-- A debt, as far as the coins behind it go. -/
def refundable (owed available : UInt64) : UInt64 := if owed > available then available else owed

section Operations

variable [Chain] (c : Ctx)

/-- `refundClient`: pay the client at most `available`; how much was paid. -/
def refundClient (kind : Kind) (job : Job) (owed available : UInt64) (f : Funds) : UInt64 × Funds :=
  if refundable owed available = 0 then (0, f)
  else
    match Chain.addrBytes job.client with
    | none => (0, f)
    | some cliBz =>
      match f.pay c (.account cliBz) ⟨kind, job.jobId, job.client, refundable owed available⟩ with
      | (true, f') => (refundable owed available, f')
      | (false, f') => (0, f')

/-- A retained amount, already out of its map: to the client, and the rest to the treasury. -/
def returnAmount (job : Job) (amt : UInt64) (f : Funds) : UInt64 × Funds :=
  let (s, f) := refundClient c .refund job amt amt f
  (s, f.addTreasury .pool job.jobId (amt - s))

/-! ## The cut -/

/-- One share of the cut, back to the client. -/
def refundShare (sh : Share) (job : Job) (f : Funds) : UInt64 × Funds :=
  match f.heldOf sh job.jobId with
  | none => (0, f)
  | some amt =>
    let f := f.dropHeld sh job.jobId
    if amt = 0 then (0, f) else returnAmount c job amt f

/-- `refundRetainedCut`: what was sent, and whether a demand right was dropped. -/
def refundRetainedCut (job : Job) (f : Funds) : UInt64 × Bool × Funds :=
  let (s₁, f) := refundShare c .validator job f
  let (s₂, f) := refundShare c .team job f
  let (s₃, f) := refundShare c .treasury job f
  if f.heldDemand.has job.jobId then
    (s₁ + s₂ + s₃, true, { f with heldDemand := f.heldDemand.remove job.jobId })
  else (s₁ + s₂ + s₃, false, f)

/-- The validators' share, to the fee collector; is it to be tried again? -/
def payValidatorShare (job : Job) (f : Funds) : Bool × Funds :=
  match f.heldOf .validator job.jobId with
  | none => (false, f)
  | some v =>
    if v = 0 then (false, f.dropHeld .validator job.jobId)
    else
      match f.pay c .feeCollector ⟨.validators, job.jobId, [], v⟩ with
      | (true, f') => (false, f'.dropHeld .validator job.jobId)
      | (false, f') => (true, f')

/-- The team's share: to the pool when no address is set, else to the address. -/
def payTeamShare (p : Params) (job : Job) (f : Funds) : Bool × Funds :=
  match f.heldOf .team job.jobId with
  | none => (false, f)
  | some t =>
    if t = 0 then (false, f.dropHeld .team job.jobId)
    else if p.teamAddress = [] then
      let pools := f.poolsOrZero
      (false, ((f.setPools { pools with team := pools.team + t }).post
        ⟨.pool, job.jobId, [], t⟩).dropHeld .team job.jobId)
    else
      match Chain.addrBytes p.teamAddress with
      | none => (true, f)
      | some toBz =>
        match f.pay c (.account toBz) ⟨.team, job.jobId, p.teamAddress, t⟩ with
        | (true, f') => (false, f'.dropHeld .team job.jobId)
        | (false, f') => (true, f')

/-- The treasury's share: to the pool. -/
def payTreasuryShare (job : Job) (f : Funds) : Funds :=
  match f.heldOf .treasury job.jobId with
  | none => f
  | some tr =>
    if tr = 0 then f.dropHeld .treasury job.jobId
    else
      let pools := f.poolsOrZero
      ((f.setPools { pools with treasury := pools.treasury + tr }).post
        ⟨.pool, job.jobId, [], tr⟩).dropHeld .treasury job.jobId

/-- The demand the settlement earned the miner. -/
def creditDemand (job : Job) (f : Funds) : Bool × Funds :=
  match f.heldDemand.get job.jobId with
  | none => (false, f)
  | some d =>
    match f.miners.get? job.minerId with
    | none => (true, f)
    | some m =>
      (false, { f.setMiner { m with demand := m.demand + d } with
        heldDemand := f.heldDemand.remove job.jobId })

/-- `payRetainedCut`: pay the shares of the cut; is something left to be tried again? -/
def payRetainedCut (p : Params) (job : Job) (f : Funds) : Bool × Funds :=
  let (r₁, f) := payValidatorShare c job f
  let (r₂, f) := payTeamShare c p job f
  let f := payTreasuryShare job f
  let (r₃, f) := creditDemand job f
  (r₁ || r₂ || r₃, f)

/-! ## The two ways out -/

/-- The retained fee of a job, back to its client. -/
def refundFee (job : Job) (f : Funds) : UInt64 × Funds :=
  match f.heldOf .fee job.jobId with
  | none => (0, f)
  | some held =>
    if held > 0 then
      returnAmount c job held
        { f.dropHeld .fee job.jobId with heldSince := f.heldSince.remove job.jobId }
    else (0, f)

/-- The retained burn of a job, back to its client. -/
def refundBurn (job : Job) (f : Funds) : UInt64 × Funds :=
  match f.heldOf .burn job.jobId with
  | none => (0, f)
  | some hb => if hb > 0 then returnAmount c job hb (f.dropHeld .burn job.jobId) else (0, f)

/-- `refundRetainedToClient`: everything retained for a job goes back to its client. How much was
sent, and whether a demand right was dropped: where there was none, the caller takes the demand off
its copy of the miner (`reverseDemand`). -/
def refundRetainedToClient (job : Job) (f : Funds) : UInt64 × Bool × Funds :=
  let (s₁, f) := refundFee c job f
  let (s₂, hadRight, f) := refundRetainedCut c job f
  let (s₃, f) := refundBurn c job f
  (s₁ + s₂ + s₃, hadRight, f)

/-- The demand that the settlement of a job had earned its miner, taken off again. -/
def reverseDemand (p : Params) (job : Job) (hadRight : Bool) (m : Miner) : Miner :=
  if hadRight = false ∧ job.client ≠ m.operator then
    let cut := bpsOf job.fee p.protocolFeeBps
    let demR := cut - bpsOf cut p.validatorRewardBps
    { m with demand := m.demand - if demR > m.demand then m.demand else demR }
  else m

/-- The retained burn. -/
def releaseBurn (job : Job) (f : Funds) : Funds :=
  match f.heldOf .burn job.jobId with
  | none => f
  | some hb =>
    if hb > 0 then
      match f.pay c .burn ⟨.burn, job.jobId, [], hb⟩ with
      | (true, f') => f'.dropHeld .burn job.jobId
      | (false, f') => f'
    else f

/-- Queue a job for another try, or take it off the queue. -/
def queueRelease (pending : Bool) (j : Str) (f : Funds) : Funds :=
  { f with pendingHeldRelease :=
      if pending then f.pendingHeldRelease.insert j else f.pendingHeldRelease.remove j }

/-- The retained fee, to the operator of the job's miner. -/
def releaseFee (cutPending : Bool) (job : Job) (f : Funds) : Funds :=
  match f.heldOf .fee job.jobId with
  | none => queueRelease cutPending job.jobId { f with heldSince := f.heldSince.remove job.jobId }
  | some held =>
    if held = 0 then
      queueRelease cutPending job.jobId { f with heldSince := f.heldSince.remove job.jobId }
    else
      match f.miners.get? job.minerId with
      | none => queueRelease true job.jobId f
      | some miner =>
        match Chain.addrBytes miner.operator with
        | none => queueRelease true job.jobId f
        | some toBz =>
          match f.pay c (.account toBz) ⟨.heldFee, job.jobId, miner.operator, held⟩ with
          | (true, f') =>
            queueRelease cutPending job.jobId
              { f'.dropHeld .fee job.jobId with heldSince := f'.heldSince.remove job.jobId }
          | (false, f') => queueRelease true job.jobId f'

/-- `releaseHeld`: what is retained for a job goes where the settlement had destined it. -/
def releaseHeld (p : Params) (job : Job) (f : Funds) : Funds :=
  let f := releaseBurn c job f
  let (cutPending, f) := payRetainedCut c p job f
  releaseFee c cutPending job f

/-- `retainedTotal`: what is still held for a job. -/
def retainedTotal (j : Str) (f : Funds) : UInt64 :=
  (f.heldOf .fee j).getD 0 + (f.heldOf .burn j).getD 0 + (f.heldOf .validator j).getD 0 +
    (f.heldOf .team j).getD 0 + (f.heldOf .treasury j).getD 0

end Operations

/-! ## What both of them keep -/

/-- A miner, but for its demand: what a retention never changes. -/
def Miner.sansDemand (m : Miner) : Miner := { m with demand := 0 }

/-- A retention is released, or it is refunded. -/
inductive Way
  | release | refund
  deriving DecidableEq

/-- Is a retained fee that leaves posted under this kind? -/
def Kind.movesFee : Kind → Bool
  | .heldFee | .refund | .pool => true
  | _ => false

/-- What releasing or refunding (`w`) the retention of `j` does to the funds. -/
structure HeldEffect (w : Way) (j : Str) (f f' : Funds) : Prop where
  /-- the account still covers what it covered -/
  slack : f.slack ≤ f'.slack
  supply : f'.bank.balance + f'.bank.outside ≤ f.bank.balance + f.bank.outside
  /-- nothing of any job's fee is lost or made -/
  accounted : ∀ k, f'.accounted k = f.accounted k
  /-- the retention of another job is not drawn on -/
  heldOf_ne : ∀ sh k, k ≠ j → f'.heldOf sh k = f.heldOf sh k
  heldOf : ∀ sh, f'.heldOf sh j = f.heldOf sh j ∨ f'.heldOf sh j = none
  miners : ∀ m, (f'.miners.get? m).map Miner.sansDemand = (f.miners.get? m).map Miner.sansDemand
  stakes : f'.stakes = f.stakes
  /-- every payment is on account of `j`, only a release pays the operator, and a retained fee leaves
  in one piece -/
  journal : ∃ l, f'.journal = l ++ f.journal ∧
    (∀ p ∈ l, p.job = j ∧ p.kind.spendsFee = true ∧ (p.kind = .heldFee → w = .release)) ∧
    ∀ a, f.heldOf .fee j = some a → f'.heldOf .fee j = some a ∨ a = 0 ∨
      ∃ p ∈ l, p.amount = a ∧ p.kind.movesFee = true
  warrants : f'.warrants = f.warrants
  pending_ne : ∀ k, k ≠ j → f'.pendingHeldRelease.has k = f.pendingHeldRelease.has k
  pending : f'.pendingHeldRelease.has j = true →
    f.pendingHeldRelease.has j = true ∨ w = .release
  since_ne : ∀ k, k ≠ j → f'.heldSince.get k = f.heldSince.get k
  /-- a fee that stays keeps its date -/
  since : ∀ a, f'.heldOf .fee j = some a → a ≠ 0 → f'.heldSince.get j = f.heldSince.get j

section Effect

variable {w : Way} {j : Str} {f f' f'' : Funds} {sh : Share} {amt : UInt64} {k : Kind} {b : Bank}

theorem HeldEffect.refl (w : Way) (j : Str) (f : Funds) : HeldEffect w j f f :=
  ⟨le_rfl, le_rfl, fun _ => rfl, fun _ _ _ => rfl, fun _ => .inl rfl, fun _ => rfl, rfl,
    ⟨[], rfl, by simp, fun _ h => .inl h⟩, rfl, fun _ _ => rfl, fun h => .inl h, fun _ _ => rfl,
    fun _ _ _ => rfl⟩

theorem HeldEffect.trans (h : HeldEffect w j f f') (h' : HeldEffect w j f' f'') :
    HeldEffect w j f f'' where
  slack := h.slack.trans h'.slack
  supply := h'.supply.trans h.supply
  accounted k := (h'.accounted k).trans (h.accounted k)
  heldOf_ne sh k hk := (h'.heldOf_ne sh k hk).trans (h.heldOf_ne sh k hk)
  heldOf sh := by
    rcases h'.heldOf sh with e | e
    · rw [e]; exact h.heldOf sh
    · exact .inr e
  miners m := (h'.miners m).trans (h.miners m)
  stakes := h'.stakes.trans h.stakes
  journal := by
    obtain ⟨l, hl, hp, hf⟩ := h.journal
    obtain ⟨l', hl', hp', hf'⟩ := h'.journal
    refine ⟨l' ++ l, by rw [hl', hl, List.append_assoc], fun p hm => ?_, fun a ha => ?_⟩
    · rcases List.mem_append.1 hm with hm | hm
      · exact hp' p hm
      · exact hp p hm
    · rcases hf a ha with ha' | h0 | ⟨p, hm, e⟩
      · rcases hf' a ha' with ha'' | h0 | ⟨p, hm, e⟩
        · exact .inl ha''
        · exact .inr (.inl h0)
        · exact .inr (.inr ⟨p, List.mem_append_left _ hm, e⟩)
      · exact .inr (.inl h0)
      · exact .inr (.inr ⟨p, List.mem_append_right _ hm, e⟩)
  warrants := h'.warrants.trans h.warrants
  pending_ne k hk := (h'.pending_ne k hk).trans (h.pending_ne k hk)
  pending hk := by
    rcases h'.pending hk with hk | hk
    · exact h.pending hk
    · exact .inr hk
  since_ne k hk := (h'.since_ne k hk).trans (h.since_ne k hk)
  since a ha h0 := by
    have ha' : f'.heldOf .fee j = some a := by
      rcases h'.heldOf .fee with e | e
      · exact e.symm.trans ha
      · rw [ha] at e
        cases e
    exact (h'.since a ha h0).trans (h.since a ha' h0)

/-- A refused bank call changes nothing but its count. -/
theorem HeldEffect.refused (w : Way) (j : Str) (f : Funds) :
    HeldEffect w j f { f with bank := f.bank.called } :=
  ⟨le_rfl, le_rfl, fun _ => rfl, fun _ _ _ => rfl, fun _ => .inl rfl, fun _ => rfl, rfl,
    ⟨[], rfl, by simp, fun _ h => .inl h⟩, rfl, fun _ _ => rfl, fun h => .inl h, fun _ _ => rfl,
    fun _ _ _ => rfl⟩

/-- Dates, demand rights and the queue are no money. -/
theorem HeldEffect.bookkeeping (since demand : Store Str UInt64) {q : KeySet Str}
    (hne : ∀ k, k ≠ j → q.has k = f.pendingHeldRelease.has k)
    (hq : q.has j = true → f.pendingHeldRelease.has j = true ∨ w = .release)
    (hsn : ∀ k, k ≠ j → since.get k = f.heldSince.get k)
    (hs : ∀ a, f.heldOf .fee j = some a → a ≠ 0 → since.get j = f.heldSince.get j) :
    HeldEffect w j f
      { f with heldSince := since, heldDemand := demand, pendingHeldRelease := q } :=
  ⟨le_rfl, le_rfl, fun _ => rfl, fun _ _ _ => rfl, fun _ => .inl rfl, fun _ => rfl, rfl,
    ⟨[], rfl, by simp, fun _ h => .inl h⟩, rfl, hne, hq, hsn, hs⟩

/-- A fee that is gone needs no date. -/
theorem HeldEffect.undated (since : Store Str UInt64)
    (h : HeldEffect w j { f with heldSince := since } f')
    (hsn : ∀ k, k ≠ j → since.get k = f.heldSince.get k) (hgone : f'.heldOf .fee j = none) :
    HeldEffect w j f f' :=
  { h with
    slack := h.slack
    accounted := h.accounted
    heldOf_ne := h.heldOf_ne
    heldOf := h.heldOf
    journal := h.journal
    since_ne := fun k hk => (h.since_ne k hk).trans (hsn k hk)
    since := fun a ha => by
      rw [hgone] at ha
      cases ha }

/-- The retained fee, after one share was dropped. -/
theorem fee_dropHeld {a : UInt64} (h : f.heldOf sh j = some amt) (ha : f.heldOf .fee j = some a) :
    (f.dropHeld sh j).heldOf .fee j = some a ∨ (sh = .fee ∧ a = amt) := by
  by_cases hs : sh = .fee
  · subst hs
    rw [h, Option.some.injEq] at ha
    exact .inr ⟨rfl, ha.symm⟩
  · rw [Funds.heldOf_dropHeld_share (Ne.symm hs)]
    exact .inl ha

/-- One retained amount leaves the account. -/
theorem HeldEffect.paid (h : f.heldOf sh j = some amt) (party : Str) (hk : k.spendsFee = true)
    (hw : k = .heldFee → w = .release) (hs : sh = .fee → k.movesFee = true)
    (hb : f.bank.Pays amt.toNat b) :
    HeldEffect w j f
      ({ f with bank := b, journal := ⟨k, j, party, amt⟩ :: f.journal }.dropHeld sh j) := by
  set g : Funds := { f with bank := b, journal := ⟨k, j, party, amt⟩ :: f.journal } with hg
  have hgj : g.heldOf sh j = some amt := h
  refine ⟨?_, hb.supply, fun k' => ?_, fun sh' k' hk' => Funds.heldOf_dropHeld_ne hk',
    fun sh' => Funds.heldOf_dropHeld (f := g), fun _ => rfl, rfl,
    ⟨[⟨k, j, party, amt⟩], rfl, by simpa [hk] using hw, fun a ha => ?_⟩, rfl, fun _ _ => rfl,
    fun h => .inl h, fun _ _ => rfl, fun _ _ _ => rfl⟩
  · have ht := Funds.heldTotal_dropHeld hgj
    have hb := hb.balance
    have hgt : g.heldTotal = f.heldTotal := rfl
    have hst : (g.dropHeld sh j).stakes = f.stakes := rfl
    have hpl : (g.dropHeld sh j).poolCoins = f.poolCoins := rfl
    have hbk : (g.dropHeld sh j).bank = b := rfl
    simp only [Funds.slack, hst, hpl, hbk]
    omega
  · have hp : (g.dropHeld sh j).posted k' = _ := Funds.posted_cons (f := f) rfl
    rw [Funds.accounted, Funds.accounted, hp]
    by_cases hj : k' = j
    · subst hj
      have := Funds.heldFor_dropHeld hgj
      have hgf : g.heldFor k' = f.heldFor k' := rfl
      simp only [hk, and_self, if_true]
      omega
    · rw [Funds.heldFor_dropHeld_ne hj, if_neg (fun e => hj e.2.symm)]
      rfl
  · rcases fee_dropHeld h ha with e | ⟨rfl, rfl⟩
    · exact .inl e
    · exact .inr (.inr ⟨_, List.mem_singleton_self _, rfl, hs rfl⟩)

/-- One retained amount is credited to the pools. -/
theorem HeldEffect.pooled (h : f.heldOf sh j = some amt) {pl : Pools}
    (hpl : pl.treasury.toNat + pl.team.toNat ≤ f.poolCoins + amt.toNat) :
    HeldEffect w j f (((f.setPools pl).post ⟨.pool, j, [], amt⟩).dropHeld sh j) := by
  set g : Funds := (f.setPools pl).post ⟨.pool, j, [], amt⟩ with hg
  have hgj : g.heldOf sh j = some amt := h
  refine ⟨?_, le_rfl, fun k' => ?_, fun sh' k' hk' => Funds.heldOf_dropHeld_ne hk',
    fun sh' => Funds.heldOf_dropHeld (f := g), fun _ => rfl, rfl,
    ⟨[⟨.pool, j, [], amt⟩], rfl, by simp [Kind.spendsFee], fun a ha => ?_⟩, rfl, fun _ _ => rfl,
    fun h => .inl h, fun _ _ => rfl, fun _ _ _ => rfl⟩
  · have ht := Funds.heldTotal_dropHeld hgj
    have hgt : g.heldTotal = f.heldTotal := rfl
    have hst : (g.dropHeld sh j).stakes = f.stakes := rfl
    have hpc : (g.dropHeld sh j).poolCoins = pl.treasury.toNat + pl.team.toNat := rfl
    have hbk : (g.dropHeld sh j).bank = f.bank := rfl
    simp only [Funds.slack, hst, hpc, hbk]
    omega
  · have hp : (g.dropHeld sh j).posted k' = _ := Funds.posted_cons (f := f) rfl
    rw [Funds.accounted, Funds.accounted, hp]
    by_cases hj : k' = j
    · subst hj
      have := Funds.heldFor_dropHeld hgj
      have hgf : g.heldFor k' = f.heldFor k' := rfl
      simp only [Kind.spendsFee, and_self, if_true]
      omega
    · rw [Funds.heldFor_dropHeld_ne hj, if_neg (fun e => hj e.2.symm)]
      rfl
  · rcases fee_dropHeld h ha with e | ⟨rfl, rfl⟩
    · exact .inl e
    · exact .inr (.inr ⟨_, List.mem_singleton_self _, rfl, rfl⟩)

/-- An entry of zero is dropped. -/
theorem HeldEffect.dropped (h : f.heldOf sh j = some 0) : HeldEffect w j f (f.dropHeld sh j) := by
  refine ⟨?_, le_rfl, fun k' => ?_, fun sh' k' hk' => Funds.heldOf_dropHeld_ne hk',
    fun sh' => Funds.heldOf_dropHeld, fun _ => rfl, rfl,
    ⟨[], rfl, by simp, fun a ha => ?_⟩, rfl, fun _ _ => rfl, fun h => .inl h, fun _ _ => rfl,
    fun _ _ _ => rfl⟩
  · have ht := Funds.heldTotal_dropHeld h
    have hst : (f.dropHeld sh j).stakes = f.stakes := rfl
    have hpc : (f.dropHeld sh j).poolCoins = f.poolCoins := rfl
    have hbk : (f.dropHeld sh j).bank = f.bank := rfl
    simp only [Funds.slack, hst, hpc, hbk]
    simp at ht
    omega
  · have hp : (f.dropHeld sh j).posted k' = f.posted k' := rfl
    rw [Funds.accounted, Funds.accounted, hp]
    by_cases hj : k' = j
    · subst hj
      have := Funds.heldFor_dropHeld h
      simp at this
      omega
    · rw [Funds.heldFor_dropHeld_ne hj]
  · rcases fee_dropHeld h ha with e | ⟨rfl, rfl⟩
    · exact .inl e
    · exact .inr (.inl rfl)

/-- The demand of a miner changes, and nothing else of it. -/
theorem HeldEffect.credited {m : Miner} (h : f.miners.get? m.minerId = some m) (d : UInt64) :
    HeldEffect w j f (f.setMiner { m with demand := d }) := by
  have hs : (f.setMiner { m with demand := d }).stakes = f.stakes := by
    have : (f.setMiner { m with demand := d }).stakes + m.stake.toNat =
        f.stakes + m.stake.toNat := Funds.stakes_setMiner h
    omega
  refine ⟨?_, le_rfl, fun _ => rfl, fun _ _ _ => rfl, fun _ => .inl rfl, fun id => ?_, hs,
    ⟨[], rfl, by simp, fun _ h => .inl h⟩, rfl, fun _ _ => rfl, fun h => .inl h, fun _ _ => rfl,
    fun _ _ _ => rfl⟩
  · have ht : (f.setMiner { m with demand := d }).heldTotal = f.heldTotal := rfl
    have hpc : (f.setMiner { m with demand := d }).poolCoins = f.poolCoins := rfl
    have hbk : (f.setMiner { m with demand := d }).bank = f.bank := rfl
    simp only [Funds.slack, hs, ht, hpc, hbk]
    exact le_rfl
  · simp only [Funds.setMiner, Table.get?_put]
    split
    · next hid => rw [hid, h]; rfl
    · rfl

end Effect

/-! ## The functions have the effect -/

theorem refundable_le (owed available : UInt64) :
    (refundable owed available).toNat ≤ available.toNat := by
  unfold refundable
  split
  · exact le_rfl
  · next h => exact toNat_le_of_le (UInt64.not_lt.1 h)

@[simp] theorem refundable_self (amt : UInt64) : refundable amt amt = amt := by simp [refundable]

theorem addTreasury_zero {f : Funds} {kind : Kind} {j : Str} : f.addTreasury kind j 0 = f := by
  simp [Funds.addTreasury]

/-- The treasury takes at most what it is credited with. -/
theorem poolCoins_credit_le (f : Funds) (amt : UInt64) :
    (f.poolsOrZero.treasury + amt).toNat + f.poolsOrZero.team.toNat ≤ f.poolCoins + amt.toNat := by
  rw [Funds.poolCoins_eq]
  have := toNat_add_le f.poolsOrZero.treasury amt
  omega

/-- So does the team's pool. -/
theorem poolCoins_credit_team_le (f : Funds) (amt : UInt64) :
    f.poolsOrZero.treasury.toNat + (f.poolsOrZero.team + amt).toNat ≤ f.poolCoins + amt.toNat := by
  rw [Funds.poolCoins_eq]
  have := toNat_add_le f.poolsOrZero.team amt
  omega

theorem payTreasuryShare_effect {job : Job} {f : Funds} :
    HeldEffect .release job.jobId f (payTreasuryShare job f) := by
  unfold payTreasuryShare
  split
  · exact .refl _ _ _
  · next tr h =>
    split
    · next h0 => exact .dropped (h0 ▸ h)
    · exact .pooled h (poolCoins_credit_le f tr)

theorem queueRelease_effect {job : Job} {f : Funds} {pending : Bool} (since : Store Str UInt64)
    (hsn : ∀ k, k ≠ job.jobId → since.get k = f.heldSince.get k)
    (hs : ∀ a, f.heldOf .fee job.jobId = some a → a ≠ 0 →
      since.get job.jobId = f.heldSince.get job.jobId) :
    HeldEffect .release job.jobId f
      (queueRelease pending job.jobId { f with heldSince := since }) := by
  refine .bookkeeping since f.heldDemand (fun k hk => ?_) (fun _ => .inr rfl) hsn hs
  cases pending
  · exact KeySet.has_remove_ne hk
  · exact KeySet.has_insert_ne hk

/-- A job that waits for another try keeps its date. -/
theorem requeue_effect {job : Job} {f : Funds} {pending : Bool} :
    HeldEffect .release job.jobId f (queueRelease pending job.jobId f) :=
  queueRelease_effect f.heldSince (fun _ _ => rfl) fun _ _ _ => rfl

/-- A fee that is gone loses it. -/
theorem undate_effect {job : Job} {f : Funds} {pending : Bool}
    (h : ∀ a, f.heldOf .fee job.jobId = some a → a = 0) :
    HeldEffect .release job.jobId f (queueRelease pending job.jobId
      { f with heldSince := f.heldSince.remove job.jobId }) :=
  queueRelease_effect _ (fun _ hk => Store.get_remove_ne hk) fun a ha h0 => absurd (h a ha) h0

theorem creditDemand_effect {job : Job} {f : Funds} :
    HeldEffect .release job.jobId f (creditDemand job f).2 := by
  unfold creditDemand
  split
  · exact .refl _ _ _
  · split
    · exact .refl _ _ _
    · next d _ _ m hm =>
      have hid := Table.key_of_get? hm
      refine (HeldEffect.credited (hid ▸ hm) (m.demand + d)).trans ?_
      exact HeldEffect.bookkeeping (f := f.setMiner { m with demand := m.demand + d }) f.heldSince
        (f.heldDemand.remove job.jobId) (fun _ _ => rfl) .inl (fun _ _ => rfl) fun _ _ _ => rfl

section Functions

variable [Chain] {c : Ctx} {job : Job} {f f' : Funds} {sh : Share} {amt s : UInt64}

/-- What `refundClient` does: nothing, or one payment of at most what was owed and available. -/
theorem refundClient_cases {kind : Kind} {owed available : UInt64}
    (h : refundClient c kind job owed available f = (s, f')) :
    (s = 0 ∧ (f' = f ∨ f' = { f with bank := f.bank.called })) ∨
      (s = refundable owed available ∧ s ≠ 0 ∧ ∃ b, f.bank.Pays s.toNat b ∧
          f' = { f with bank := b, journal := ⟨kind, job.jobId, job.client, s⟩ :: f.journal }) := by
  unfold refundClient at h
  split at h
  · simp only [Prod.mk.injEq] at h
    exact .inl ⟨h.1.symm, .inl h.2.symm⟩
  · next hne =>
    split at h
    · simp only [Prod.mk.injEq] at h
      exact .inl ⟨h.1.symm, .inl h.2.symm⟩
    · split at h
      · next g hg =>
        simp only [Prod.mk.injEq] at h
        obtain ⟨rfl, rfl⟩ := h
        exact .inr ⟨rfl, hne, Funds.pay_ok hg⟩
      · next g hg =>
        simp only [Prod.mk.injEq] at h
        obtain ⟨rfl, rfl⟩ := h
        exact .inl ⟨rfl, .inr (Funds.pay_refused hg)⟩

theorem returnAmount_effect (h : f.heldOf sh job.jobId = some amt) :
    HeldEffect .refund job.jobId f (returnAmount c job amt (f.dropHeld sh job.jobId)).2 := by
  unfold returnAmount
  rcases hr : refundClient c .refund job amt amt (f.dropHeld sh job.jobId) with ⟨s, g⟩
  have credit : ∀ f₁ : Funds, f₁.heldOf sh job.jobId = some amt →
      HeldEffect .refund job.jobId f₁
        ((f₁.dropHeld sh job.jobId).addTreasury .pool job.jobId amt) := by
    intro f₁ h₁
    by_cases h0 : amt = 0
    · subst h0
      rw [addTreasury_zero]
      exact .dropped h₁
    · unfold Funds.addTreasury
      rw [if_neg h0]
      exact .pooled h₁ (poolCoins_credit_le f₁ amt)
  rcases refundClient_cases hr with ⟨rfl, rfl | rfl⟩ | ⟨hs, -, b, hb, rfl⟩
  · simpa using credit f h
  · have e := (HeldEffect.refused .refund job.jobId f).trans
      (credit { f with bank := f.bank.called } h)
    simp only [UInt64.sub_zero]
    exact e
  · rw [refundable_self] at hs
    subst hs
    simp only [UInt64.sub_self, addTreasury_zero]
    exact .paid h job.client rfl (by simp) (fun _ => rfl) hb

/-- What goes back to the client is out of its map already. -/
theorem heldOf_returnAmount (f : Funds) (amt : UInt64) (sh : Share) (j : Str) :
    (returnAmount c job amt f).2.heldOf sh j = f.heldOf sh j := by
  unfold returnAmount
  rcases hr : refundClient c .refund job amt amt f with ⟨s, g⟩
  have hg : g.heldOf sh j = f.heldOf sh j := by
    rcases refundClient_cases hr with ⟨-, rfl | rfl⟩ | ⟨-, -, b, -, rfl⟩ <;> rfl
  simp only [Funds.addTreasury]
  split
  · exact hg
  · exact hg

theorem refundShare_effect : HeldEffect .refund job.jobId f (refundShare c sh job f).2 := by
  unfold refundShare
  split
  · exact .refl _ _ _
  · next amt h =>
    simp only
    split
    · next h0 => exact .dropped (h0 ▸ h)
    · exact returnAmount_effect h

theorem refundRetainedCut_effect :
    HeldEffect .refund job.jobId f (refundRetainedCut c job f).2.2 := by
  have e : HeldEffect .refund job.jobId f (refundShare c .treasury job
      (refundShare c .team job (refundShare c .validator job f).2).2).2 :=
    (refundShare_effect.trans refundShare_effect).trans refundShare_effect
  unfold refundRetainedCut
  simp only
  split
  · exact e.trans (.bookkeeping _ _ (fun _ _ => rfl) .inl (fun _ _ => rfl) fun _ _ _ => rfl)
  · exact e

theorem refundFee_effect : HeldEffect .refund job.jobId f (refundFee c job f).2 := by
  unfold refundFee
  split
  · exact .refl _ _ _
  · next held h =>
    split
    · refine HeldEffect.undated (f.heldSince.remove job.jobId)
        (returnAmount_effect (f := { f with heldSince := f.heldSince.remove job.jobId }) h)
        (fun k hk => Store.get_remove_ne hk) ?_
      exact (heldOf_returnAmount ..).trans Funds.heldOf_dropHeld_self
    · exact .refl _ _ _

theorem refundBurn_effect : HeldEffect .refund job.jobId f (refundBurn c job f).2 := by
  unfold refundBurn
  split
  · exact .refl _ _ _
  · next hb h =>
    split
    · exact returnAmount_effect h
    · exact .refl _ _ _

/-- Refunding a retention. -/
theorem refundRetainedToClient_effect (job : Job) (f : Funds) :
    HeldEffect .refund job.jobId f (refundRetainedToClient c job f).2.2 := by
  unfold refundRetainedToClient
  exact (refundFee_effect.trans refundRetainedCut_effect).trans refundBurn_effect

theorem releaseBurn_effect : HeldEffect .release job.jobId f (releaseBurn c job f) := by
  unfold releaseBurn
  split
  · exact .refl _ _ _
  · next hb h =>
    split
    · split
      · next g hg =>
        obtain ⟨b, hb, rfl⟩ := Funds.pay_ok hg
        exact .paid h [] rfl (by simp) (by simp) hb
      · next g hg =>
        rw [Funds.pay_refused hg]
        exact .refused _ _ _
    · exact .refl _ _ _

theorem payValidatorShare_effect :
    HeldEffect .release job.jobId f (payValidatorShare c job f).2 := by
  unfold payValidatorShare
  split
  · exact .refl _ _ _
  · next v h =>
    split
    · next h0 => exact .dropped (h0 ▸ h)
    · split
      · next g hg =>
        obtain ⟨b, hb, rfl⟩ := Funds.pay_ok hg
        exact .paid h [] rfl (by simp) (by simp) hb
      · next g hg =>
        rw [Funds.pay_refused hg]
        exact .refused _ _ _

theorem payTeamShare_effect {p : Params} :
    HeldEffect .release job.jobId f (payTeamShare c p job f).2 := by
  unfold payTeamShare
  split
  · exact .refl _ _ _
  · next t h =>
    split
    · next h0 => exact .dropped (h0 ▸ h)
    · split
      · exact .pooled h (poolCoins_credit_team_le f t)
      · split
        · exact .refl _ _ _
        · split
          · next g hg =>
            obtain ⟨b, hb, rfl⟩ := Funds.pay_ok hg
            exact .paid h _ rfl (by simp) (by simp) hb
          · next g hg =>
            rw [Funds.pay_refused hg]
            exact .refused _ _ _

theorem payRetainedCut_effect {p : Params} :
    HeldEffect .release job.jobId f (payRetainedCut c p job f).2 := by
  unfold payRetainedCut
  exact ((payValidatorShare_effect.trans payTeamShare_effect).trans payTreasuryShare_effect).trans
    creditDemand_effect

theorem releaseFee_effect {cutPending : Bool} :
    HeldEffect .release job.jobId f (releaseFee c cutPending job f) := by
  unfold releaseFee
  split
  · next h =>
    refine undate_effect fun a ha => ?_
    rw [h] at ha
    cases ha
  · next held h =>
    split
    · next h0 =>
      refine undate_effect fun a ha => ?_
      rw [h, Option.some.injEq] at ha
      rw [← ha, h0]
    · split
      · exact requeue_effect
      · split
        · exact requeue_effect
        · split
          · next miner _ _ _ _ _ g hg =>
            obtain ⟨b, hb, rfl⟩ := Funds.pay_ok hg
            refine (HeldEffect.paid (k := .heldFee) h miner.operator rfl (by simp) (fun _ => rfl)
              hb).trans (undate_effect fun a ha => ?_)
            rw [Funds.heldOf_dropHeld_self] at ha
            cases ha
          · next g hg =>
            rw [Funds.pay_refused hg]
            exact (HeldEffect.refused _ _ _).trans requeue_effect

/-- Releasing a retention. -/
theorem releaseHeld_effect (p : Params) (job : Job) (f : Funds) :
    HeldEffect .release job.jobId f (releaseHeld c p job f) := by
  unfold releaseHeld
  exact (releaseBurn_effect.trans payRetainedCut_effect).trans releaseFee_effect

end Functions

end Dendra.Jobs
