import Dendra.Jobs.Msg.Dispute

/-!
# Spending outside the retentions

`Funds.Spends x P f f'`: at most `x` coins of slack were used between `f` and `f'`, every new posting
meets `P`, and no retention, date, queue or set of registered miners changed. Costs add up
(`Spends.trans`), so a handler's effect on the account is the sum of what its parts spend.

The loops that slash, pay or restore a list of miners hold the pools in a local copy; their effect is
stated on `Loop.settled`, the funds with that copy written back.
-/

namespace Dendra.Jobs

open Word

/-- Between `f` and `f'` at most `x` coins of slack were used, and no retention was touched. -/
structure Funds.Spends (x : Int) (P : Posting → Prop) (f f' : Funds) : Prop where
  slack : f.slack ≤ f'.slack + x
  supply : f'.bank.balance + f'.bank.outside ≤ f.bank.balance + f.bank.outside
  held : f'.held = f.held
  heldSince : f'.heldSince = f.heldSince
  heldDemand : f'.heldDemand = f.heldDemand
  pending : f'.pendingHeldRelease = f.pendingHeldRelease
  warrants : f'.warrants = f.warrants
  journal : ∃ l, f'.journal = l ++ f.journal ∧ ∀ p ∈ l, P p
  registered : ∀ m, f'.miners.has m = f.miners.has m

namespace Funds

variable {x y : Int} {P Q : Posting → Prop} {f f' f'' : Funds} {amt : UInt64} {b : Bank}

theorem Spends.refl (P : Posting → Prop) (f : Funds) : Spends 0 P f f :=
  ⟨by omega, le_rfl, rfl, rfl, rfl, rfl, rfl, ⟨[], rfl, by simp⟩, fun _ => rfl⟩

theorem Spends.trans (h : Spends x P f f') (h' : Spends y P f' f'') : Spends (x + y) P f f'' where
  slack := by have := h.slack; have := h'.slack; omega
  supply := h'.supply.trans h.supply
  held := h'.held.trans h.held
  heldSince := h'.heldSince.trans h.heldSince
  heldDemand := h'.heldDemand.trans h.heldDemand
  pending := h'.pending.trans h.pending
  warrants := h'.warrants.trans h.warrants
  journal := by
    obtain ⟨l, hl, hp⟩ := h.journal
    obtain ⟨l', hl', hp'⟩ := h'.journal
    refine ⟨l' ++ l, by rw [hl', hl, List.append_assoc], fun p hm => ?_⟩
    exact (List.mem_append.1 hm).elim (hp' p) (hp p)
  registered m := (h'.registered m).trans (h.registered m)

theorem Spends.mono (h : Spends x P f f') (hx : x ≤ y) (hok : ∀ p, P p → Q p) :
    Spends y Q f f' :=
  { h with
    slack := by have := h.slack; omega
    journal := by
      obtain ⟨l, hl, hp⟩ := h.journal
      exact ⟨l, hl, fun p hm => hok p (hp p hm)⟩ }

theorem Spends.mono_cost (h : Spends x P f f') (hx : x ≤ y) : Spends y P f f' :=
  h.mono hx fun _ hp => hp

/-- What is retained for a job, and what its fee is accounted for, did not change. -/
theorem Spends.heldOf (h : Spends x P f f') (sh : Share) (j : Str) :
    f'.heldOf sh j = f.heldOf sh j := by
  rw [Funds.heldOf, Funds.heldOf, h.held]

theorem Spends.posted (h : Spends x P f f') (j : Str)
    (hok : ∀ p, P p → p.kind.spendsFee = true → p.job ≠ j) : f'.posted j = f.posted j := by
  obtain ⟨l, hl, hp⟩ := h.journal
  have hnil : l.filter (fun p => p.kind.spendsFee && decide (p.job = j)) = [] := by
    rw [List.filter_eq_nil_iff]
    intro p hm
    simpa using hok p (hp p hm)
  rw [Funds.posted, Funds.posted, hl, List.filter_append, hnil, List.nil_append]

theorem Spends.accounted (h : Spends x P f f') (j : Str)
    (hok : ∀ p, P p → p.kind.spendsFee = true → p.job ≠ j) : f'.accounted j = f.accounted j := by
  rw [Funds.accounted, Funds.accounted, h.posted j hok, Funds.heldFor, Funds.heldFor]
  simp only [h.heldOf]

/-! ## The operations -/

theorem Spends.refused (P : Posting → Prop) (f : Funds) :
    Spends 0 P f { f with bank := f.bank.called } :=
  ⟨by simp only [Funds.slack, Bank.called]; exact le_of_eq (by simp; rfl), le_rfl, rfl, rfl, rfl,
    rfl, rfl, ⟨[], rfl, by simp⟩, fun _ => rfl⟩

theorem Spends.paid {p : Posting} (hb : f.bank.Pays p.amount.toNat b) (hok : P p) :
    Spends p.amount.toNat P f { f with bank := b, journal := p :: f.journal } := by
  refine ⟨?_, hb.supply, rfl, rfl, rfl, rfl, rfl, ⟨[p], rfl, by simpa using hok⟩, fun _ => rfl⟩
  have hb := hb.balance
  show (f.bank.balance : Int) - (f.stakes + f.heldTotal + f.poolCoins : Nat) ≤
    (b.balance : Int) - (f.stakes + f.heldTotal + f.poolCoins : Nat) + p.amount.toNat
  omega

theorem Spends.collected {c : Ctx} {text : String} (h : f.collect c amt text = .ok f') :
    Spends (-amt.toNat) P f f' := by
  obtain ⟨b, rfl, hbal, hsup⟩ := collect_ok h
  refine ⟨?_, le_of_eq hsup, rfl, rfl, rfl, rfl, rfl, ⟨[], rfl, by simp⟩, fun _ => rfl⟩
  show (f.bank.balance : Int) - (f.stakes + f.heldTotal + f.poolCoins : Nat) ≤
    (b.balance : Int) - (f.stakes + f.heldTotal + f.poolCoins : Nat) + -(amt.toNat : Int)
  omega

/-- A miner's record is replaced. -/
theorem Spends.setMiner {m t : Miner} (h : f.miners.get? t.minerId = some m) :
    Spends (t.stake.toNat - m.stake.toNat) P f (f.setMiner t) := by
  refine ⟨?_, le_rfl, rfl, rfl, rfl, rfl, rfl, ⟨[], rfl, by simp⟩, fun id => ?_⟩
  · have hs := stakes_setMiner h
    show (f.bank.balance : Int) - (f.stakes + f.heldTotal + f.poolCoins : Nat) ≤
      (f.bank.balance : Int) - ((f.setMiner t).stakes + f.heldTotal + f.poolCoins : Nat) + _
    omega
  · rw [Table.has_eq_isSome, Table.has_eq_isSome]
    show ((f.miners.put t).get? id).isSome = (f.miners.get? id).isSome
    rw [Table.get?_put]
    split
    · next e => rw [e, h]; rfl
    · rfl

/-- The pools are replaced. -/
theorem Spends.setPools (pl : Pools) :
    Spends ((pl.treasury.toNat + pl.team.toNat : Nat) - f.poolCoins : Int) P f (f.setPools pl) := by
  refine ⟨?_, le_rfl, rfl, rfl, rfl, rfl, rfl, ⟨[], rfl, by simp⟩, fun _ => rfl⟩
  show (f.bank.balance : Int) - (f.stakes + f.heldTotal + f.poolCoins : Nat) ≤
    (f.bank.balance : Int) -
      (f.stakes + f.heldTotal + (pl.treasury.toNat + pl.team.toNat) : Nat) + _
  omega

theorem Spends.post {p : Posting} (hok : P p) : Spends 0 P f (f.post p) :=
  ⟨by simp only [add_zero]; exact le_rfl, le_rfl, rfl, rfl, rfl, rfl, rfl,
    ⟨[p], rfl, by simpa using hok⟩, fun _ => rfl⟩

/-- A credit of the treasury. -/
theorem Spends.addTreasury {kind : Kind} {j : Str} (hok : P ⟨kind, j, [], amt⟩) :
    Spends amt.toNat P f (f.addTreasury kind j amt) := by
  unfold Funds.addTreasury
  split
  · exact (Spends.refl P f).mono_cost (by omega)
  · have hpl := poolCoins_credit_le f amt
    exact ((Spends.setPools _).trans (Spends.post hok)).mono_cost (by simp only; omega)

section Pay

variable [Chain] {c : Ctx} {payee : Payee} {p : Posting} {text : String}

theorem Spends.payOrFail (h : f.payOrFail c payee p text = .ok f') (hok : P p) :
    Spends p.amount.toNat P f f' := by
  obtain ⟨b, hb, rfl⟩ := payOrFail_ok h
  exact .paid hb hok

/-- A best-effort payment. -/
theorem Spends.pay {r : Bool} (h : f.pay c payee p = (r, f')) (hok : P p) :
    Spends p.amount.toNat P f f' := by
  cases r with
  | true =>
    obtain ⟨b, hb, rfl⟩ := pay_ok h
    exact .paid hb hok
  | false =>
    rw [pay_refused h]
    exact (Spends.refused P f).mono_cost (by omega)

/-- A refund costs what was sent, and at most what was available. -/
theorem Spends.refundClient {job : Job} {kind : Kind} {owed available s : UInt64}
    (h : refundClient c kind job owed available f = (s, f'))
    (hok : P ⟨kind, job.jobId, job.client, s⟩) :
    Spends s.toNat P f f' ∧ s.toNat ≤ available.toNat := by
  rcases refundClient_cases h with ⟨rfl, rfl | rfl⟩ | ⟨hs, -, b, hb, rfl⟩
  · exact ⟨Spends.refl P f', by simp⟩
  · exact ⟨Spends.refused P f, by simp⟩
  · exact ⟨Spends.paid (p := ⟨kind, job.jobId, job.client, s⟩) hb hok,
      hs ▸ refundable_le owed available⟩

end Pay

end Funds

/-! ## Loops over a committee -/

/-- The funds of a loop, with its copy of the pools written back. -/
def Loop.settled (acc : Loop) : Funds := acc.funds.setPools acc.pools

section Loops

variable {P : Posting → Prop} {acc acc' : Loop} {p : Params}

/-- A loop starts from the pools as they are. -/
theorem settled_start (f : Funds) (l : List SlashRecord) :
    Funds.Spends 0 P f (Loop.settled ⟨f, f.poolsOrZero, l⟩) :=
  (Funds.Spends.setPools f.poolsOrZero).mono_cost (by rw [Funds.poolCoins_eq]; omega)

/-- Coins that move from a bond to the treasury. -/
theorem settled_slash {m m' : Miner} {t : UInt64} (hm : acc.funds.miners.get? m'.minerId = some m)
    (ht : m'.stake.toNat + t.toNat ≤ m.stake.toNat + acc.pools.treasury.toNat)
    (l : List SlashRecord) :
    Funds.Spends 0 P acc.settled
      (Loop.settled ⟨acc.funds.setMiner m', { acc.pools with treasury := t }, l⟩) := by
  have h1 := Funds.Spends.setMiner (P := P) (f := acc.settled) hm
  have h2 := Funds.Spends.setPools (P := P) (f := acc.settled.setMiner m')
    { acc.pools with treasury := t }
  refine (h1.trans h2).mono_cost ?_
  show (m'.stake.toNat : Int) - m.stake.toNat +
    ((t.toNat + acc.pools.team.toNat : Nat) - (acc.pools.treasury.toNat + acc.pools.team.toNat : Nat))
      ≤ 0
  omega

/-- A slash costs the account nothing: the treasury takes what the bond loses. -/
theorem slashLoser_spends (hp : p.slashLeakBps.toNat ≤ 10000) {keepZero : Bool} {mid : Str} :
    Funds.Spends 0 P acc.settled (slashLoser p keepZero acc mid).settled := by
  unfold slashLoser
  split
  · exact .refl _ _
  · next m hm =>
    have hid := Table.key_of_get? hm
    refine settled_slash (m := m) (by simpa [hid] using hm) ?_ _
    have h1 := toNat_sub (bpsOf_le (x := m.stake) hp)
    have h2 := toNat_le_of_le (bpsOf_le (x := m.stake) hp)
    have h3 := toNat_add_le acc.pools.treasury (bpsOf m.stake p.slashLeakBps)
    simp only
    omega

theorem slashLosers_spends (hp : p.slashLeakBps.toNat ≤ 10000) {keepZero : Bool}
    (mids : List Str) (acc : Loop) :
    Funds.Spends 0 P acc.settled (mids.foldl (slashLoser p keepZero) acc).settled := by
  induction mids generalizing acc with
  | nil => exact .refl _ _
  | cons mid mids ih => exact (slashLoser_spends hp).trans (ih _)

/-- Giving a slash back costs the account nothing: the bond takes what the treasury loses. -/
theorem restoreSlash_spends {rec : SlashRecord} :
    Funds.Spends 0 P acc.settled (restoreSlash acc rec).settled := by
  unfold restoreSlash
  simp only
  generalize ha : (if rec.amount > acc.pools.treasury then acc.pools.treasury else rec.amount) = amt
  have hle : amt ≤ acc.pools.treasury := by
    rw [← ha]
    split
    · exact UInt64.le_refl _
    · next h => exact UInt64.not_lt.1 h
  split
  · exact .refl _ _
  · split
    · exact .refl _ _
    · next m hm =>
      have hid := Table.key_of_get? hm
      refine settled_slash (m := m) (by simpa [hid] using hm) ?_ _
      have h1 := toNat_sub hle
      have h2 := toNat_le_of_le hle
      have h3 := toNat_add_le m.stake amt
      simp only
      omega

theorem restoreSlashes_spends (recs : List SlashRecord) (acc : Loop) :
    Funds.Spends 0 P acc.settled (recs.foldl restoreSlash acc).settled := by
  induction recs generalizing acc with
  | nil => exact .refl _ _
  | cons rec recs ih => exact restoreSlash_spends.trans (ih _)

variable [Chain] {c : Ctx} {job : Job} {per : UInt64} {f f' : Funds}

/-- A winner is paid its share, or passed over. -/
theorem payWinner_cases {mid : Str} (h : payWinner c job per f mid = .ok f') :
    f' = f ∨ ∃ b, f.bank.Pays per.toNat b ∧
      f' = { f with bank := b, journal := ⟨.work, job.jobId, mid, per⟩ :: f.journal } := by
  unfold payWinner at h
  split at h
  · cases h
    exact .inl rfl
  · split at h
    · cases h
      exact .inl rfl
    · exact .inr (Funds.payOrFail_ok h)

theorem payWinner_spends {mid : Str} (h : payWinner c job per f mid = .ok f')
    (hok : P ⟨.work, job.jobId, mid, per⟩) : Funds.Spends per.toNat P f f' := by
  rcases payWinner_cases h with rfl | ⟨b, hb, rfl⟩
  · exact (Funds.Spends.refl P f').mono_cost (by omega)
  · exact Funds.Spends.paid (p := ⟨.work, job.jobId, mid, per⟩) hb hok

/-- Paying a list of winners costs at most their shares. -/
theorem payWinners_spends (ws : List Str) {g : Funds}
    (h : ws.foldlM (payWinner c job per) g = .ok f')
    (hok : ∀ mid ∈ ws, P ⟨.work, job.jobId, mid, per⟩) :
    Funds.Spends (ws.length * per.toNat : Nat) P g f' := by
  induction ws generalizing g with
  | nil =>
    cases h
    exact (Funds.Spends.refl P _).mono_cost (by simp)
  | cons w ws ih =>
    rw [List.foldlM_cons, bind_ok] at h
    obtain ⟨g', hg, h⟩ := h
    have h1 := payWinner_spends hg (hok w (by simp))
    have h2 := ih h fun mid hm => hok mid (by simp [hm])
    refine (h1.trans h2).mono_cost ?_
    rw [List.length_cons, Nat.add_mul, Nat.one_mul]
    omega

/-- What closes an escrow: the burn, if there is any, and then a surplus to a client that can be read. -/
theorem closeEscrow_cases {burnAmt surplus : UInt64} {g : Funds}
    (h : closeEscrow c job burnAmt surplus g = .ok f') :
    ∃ f₁, (f₁ = g ∨ g.payOrFail c .burn ⟨.burn, job.jobId, [], burnAmt⟩ "burn" = .ok f₁) ∧
      (f' = f₁ ∨ ∃ cliBz, f₁.payOrFail c (.account cliBz)
        ⟨.surplus, job.jobId, job.client, surplus⟩ "refund surplus" = .ok f') := by
  have hburn : ∃ f₁, (f₁ = g ∨ g.payOrFail c .burn ⟨.burn, job.jobId, [], burnAmt⟩ "burn" = .ok f₁) ∧
      closeEscrow c job 0 surplus f₁ = .ok f' := by
    by_cases hb : burnAmt > 0
    · simp only [closeEscrow, if_pos hb, bind_ok] at h
      obtain ⟨f₁, h₁, h⟩ := h
      exact ⟨f₁, .inr h₁, h⟩
    · simp only [closeEscrow, if_neg hb, bind_ok, pure_ok] at h
      obtain ⟨f₁, rfl, h⟩ := h
      exact ⟨_, .inl rfl, h⟩
  obtain ⟨f₁, h₁, h⟩ := hburn
  refine ⟨f₁, h₁, ?_⟩
  have hnone : ¬ (0 : UInt64) > 0 := by decide
  simp only [closeEscrow, if_neg hnone, bind_ok, pure_ok] at h
  obtain ⟨f₂, rfl, h⟩ := h
  split at h
  · split at h
    · rw [pure_ok] at h
      exact .inl h.symm
    · next cliBz _ => exact .inr ⟨cliBz, h⟩
  · rw [pure_ok] at h
    exact .inl h.symm

end Loops

end Dendra.Jobs
