import Dendra.Jobs.Params

/-!
# The money of the module

`Funds` is everything that holds or owes coins, but for the jobs: the module's bank account, the
stakes, the pools and the five retention maps (`held`). Every coin that leaves the account and every
credit of a pool is also written to `journal`, with the job it is on account of; `warrants` records
on what ground a retention was released. No operation reads these two.

* `Bank.pay`, `Bank.collect`: a bank call moves exactly the coins asked, or is refused.
* `Funds.slack`: what the account holds over what the ledgers owe.
* `Funds.posted`, `Funds.accounted`: what the journal and the retention maps say of one job.
-/

namespace Dendra.Jobs

/-! ## The bank -/

/-- The coins of the module account and of everybody else, and the bank calls made in this step. -/
structure Bank where
  balance : Nat
  outside : Nat
  calls : Nat

/-- Where coins of the module account go. -/
inductive Payee
  | account (a : Addr)
  | feeCollector
  | burn

namespace Bank

/-- A bank call that moves nothing. -/
def called (b : Bank) : Bank := { b with calls := b.calls + 1 }

/-- Coins out of the module account: `SendCoinsFromModuleToAccount`, `SendCoinsFromModuleToModule`
and `BurnCoins`. The flag says whether the call succeeded. -/
def pay [Chain] (c : Ctx) (payee : Payee) (amt : UInt64) (b : Bank) : Bool × Bank :=
  if c.refuses b.calls ∨ b.balance < amt.toNat then (false, b.called)
  else
    match payee with
    | .account a =>
      if a = moduleAddr then (true, b.called)
      else (true, ⟨b.balance - amt.toNat, b.outside + amt.toNat, b.calls + 1⟩)
    | .feeCollector => (true, ⟨b.balance - amt.toNat, b.outside + amt.toNat, b.calls + 1⟩)
    | .burn => (true, ⟨b.balance - amt.toNat, b.outside, b.calls + 1⟩)

/-- `SendCoinsFromAccountToModule`: coins of a signer, who is never the module itself. -/
def collect (c : Ctx) (amt : UInt64) (b : Bank) : Option Bank :=
  if c.refuses b.calls ∨ b.outside < amt.toNat then none
  else some ⟨b.balance + amt.toNat, b.outside - amt.toNat, b.calls + 1⟩

/-- `SendCoins` between two accounts, of which the receiver may be the module's. -/
def send [Chain] (c : Ctx) (dst : Addr) (amt : UInt64) (b : Bank) : Option Bank :=
  if dst = moduleAddr then b.collect c amt
  else if c.refuses b.calls ∨ b.outside < amt.toNat then none
  else some b.called

/-- `b'` is `b` after at most `amt` coins left the account, and no coin was made. -/
structure Pays (b : Bank) (amt : Nat) (b' : Bank) : Prop where
  balance : b.balance ≤ b'.balance + amt
  supply : b'.balance + b'.outside ≤ b.balance + b.outside

theorem Pays.called (b : Bank) (amt : Nat) : b.Pays amt b.called :=
  ⟨by simp [Bank.called], by simp [Bank.called]⟩

theorem Pays.trans {b b' b'' : Bank} {m n : Nat} (h : b.Pays m b') (h' : b'.Pays n b'') :
    b.Pays (m + n) b'' :=
  ⟨by have := h.balance; have := h'.balance; omega, h'.supply.trans h.supply⟩

theorem Pays.mono {b b' : Bank} {m n : Nat} (h : b.Pays m b') (hmn : m ≤ n) : b.Pays n b' :=
  ⟨by have := h.balance; omega, h.supply⟩

theorem Pays.refl (b : Bank) : b.Pays 0 b := ⟨le_rfl, le_rfl⟩

theorem collect_eq_some {c : Ctx} {amt : UInt64} {b b' : Bank} (h : b.collect c amt = some b') :
    b'.balance = b.balance + amt.toNat ∧ b'.balance + b'.outside = b.balance + b.outside := by
  unfold collect at h
  split at h
  · cases h
  · next hno =>
    rw [not_or, not_lt] at hno
    simp only [Option.some.injEq] at h
    subst h
    exact ⟨rfl, by simp only; omega⟩

variable [Chain] {c : Ctx} {payee : Payee} {amt : UInt64} {b b' : Bank}

/-- A payment that is refused moves nothing. -/
theorem pay_refused (h : b.pay c payee amt = (false, b')) : b' = b.called := by
  unfold pay at h
  split at h
  · simpa using h.symm
  · cases payee <;> simp only at h <;> try split at h
    all_goals simp at h

/-- A payment that succeeds moves at most the coins asked. -/
theorem pay_ok (h : b.pay c payee amt = (true, b')) : b.Pays amt.toNat b' := by
  unfold pay at h
  split at h
  · simp at h
  · next hno =>
    rw [not_or, not_lt] at hno
    cases payee with
    | account a =>
      simp only at h
      split at h
      · simp only [Prod.mk.injEq, true_and] at h
        exact h ▸ .called _ _
      · simp only [Prod.mk.injEq, true_and] at h
        subst h
        exact ⟨by simp only; omega, by simp only; omega⟩
    | feeCollector =>
      simp only [Prod.mk.injEq, true_and] at h
      subst h
      exact ⟨by simp only; omega, by simp only; omega⟩
    | burn =>
      simp only [Prod.mk.injEq, true_and] at h
      subst h
      exact ⟨by simp only; omega, by simp only; omega⟩

theorem send_eq_some {a : Addr} (h : b.send c a amt = some b') :
    b.balance ≤ b'.balance ∧ b'.balance + b'.outside = b.balance + b.outside := by
  unfold send at h
  split at h
  · have := collect_eq_some h
    omega
  · split at h
    · cases h
    · simp only [Option.some.injEq] at h
      subst h
      simp [Bank.called]

end Bank

/-! ## The ledgers -/

/-- The five retention maps. -/
inductive Share
  | fee | burn | validator | team | treasury
  deriving DecidableEq, Repr

/-- Why coins left the account, or a pool was credited. -/
inductive Kind
  | work | surplus | escrow | immediate | heldFee | burn | validators | team | pool | refund
  | bondRefund | bondPool | slash | forfeited | dispute | stake
  deriving DecidableEq, Repr

/-- Does a posting of this kind spend the fee of an optimistic job? -/
def Kind.spendsFee : Kind → Bool
  | .immediate | .heldFee | .burn | .validators | .team | .pool | .refund => true
  | _ => false

/-- Does a posting of this kind draw on the escrow of a job, or on what was retained of it? -/
def Kind.drawsEscrow : Kind → Bool
  | .work | .surplus | .escrow => true
  | k => k.spendsFee

/-- One payment or credit: its kind, the job it is on account of, who received it, how much. -/
structure Posting where
  kind : Kind
  job : Str
  party : Str
  amount : UInt64
  deriving DecidableEq

/-- The ground on which a retention is released, with what the decision looked at. -/
inductive Warrant
  /-- the lottery passed the job over: is the seed required and found decentralised, the draw, the
  sample rate -/
  | passedOver (required decentralized : Bool) (draw bps : UInt64)
  /-- the audit committee vindicated the primary -/
  | vindicated (p : Params) (valid : Bool) (voters validVotes seats : Int)
  /-- the adjudication found fresh answers agreeing with the primary's -/
  | agreed (answered : Bool) (agree total : UInt64)
  /-- the authority resolved the dispute -/
  | authority
  /-- a redo committee stayed silent to the deadline -/
  | silent
  /-- no committee was ever summoned -/
  | unfounded

/-- Everything that holds or owes coins, but for the jobs. -/
structure Funds where
  bank : Bank
  miners : Table Miner.minerId
  pools : Option Pools
  held : Share → Store Str UInt64
  heldSince : Store Str UInt64
  heldDemand : Store Str UInt64
  pendingHeldRelease : KeySet Str
  journal : List Posting
  warrants : List (Str × Warrant)

namespace Funds

/-- The retention of `j` under a share. -/
def heldOf (f : Funds) (sh : Share) (j : Str) : Option UInt64 := (f.held sh).get j

def setHeld (sh : Share) (j : Str) (amt : UInt64) (f : Funds) : Funds :=
  { f with held := Function.update f.held sh ((f.held sh).set j amt) }

def dropHeld (sh : Share) (j : Str) (f : Funds) : Funds :=
  { f with held := Function.update f.held sh ((f.held sh).remove j) }

def setMiner (m : Miner) (f : Funds) : Funds := { f with miners := f.miners.put m }

/-- `types.Pools{}` when the item is not set. -/
def poolsOrZero (f : Funds) : Pools := f.pools.getD default

def setPools (pl : Pools) (f : Funds) : Funds := { f with pools := some pl }

def post (p : Posting) (f : Funds) : Funds := { f with journal := p :: f.journal }

/-- Record the ground of a release. -/
def warrant (j : Str) (w : Warrant) (f : Funds) : Funds :=
  { f with warrants := (j, w) :: f.warrants }

/-- A payment out of the account, with its posting. -/
def pay [Chain] (c : Ctx) (payee : Payee) (p : Posting) (f : Funds) : Bool × Funds :=
  match f.bank.pay c payee p.amount with
  | (true, b) => (true, { f with bank := b, journal := p :: f.journal })
  | (false, b) => (false, { f with bank := b })

/-- A payment that fails the message when the bank refuses it. -/
def payOrFail [Chain] (c : Ctx) (payee : Payee) (p : Posting) (text : String) (f : Funds) :
    Except Err Funds :=
  match f.pay c payee p with
  | (true, f') => .ok f'
  | (false, _) => .error ⟨.insufficientFunds, text⟩

/-- Coins of the signer into the account. -/
def collect (c : Ctx) (amt : UInt64) (text : String) (f : Funds) : Except Err Funds :=
  match f.bank.collect c amt with
  | some b => .ok { f with bank := b }
  | none => .error ⟨.insufficientFunds, text⟩

/-- `addTreasury`: credit the treasury, when there is something to credit. -/
def addTreasury (kind : Kind) (j : Str) (amt : UInt64) (f : Funds) : Funds :=
  if amt = 0 then f
  else
    let pools := f.poolsOrZero
    (f.setPools { pools with treasury := pools.treasury + amt }).post ⟨kind, j, [], amt⟩

/-! ### What is owed -/

/-- The coins of the pools. -/
def poolCoins (f : Funds) : Nat :=
  match f.pools with
  | some pl => pl.treasury.toNat + pl.team.toNat
  | none => 0

/-- The coins retained, over all jobs. -/
def heldTotal (f : Funds) : Nat :=
  (f.held .fee).total UInt64.toNat + (f.held .burn).total UInt64.toNat +
    (f.held .validator).total UInt64.toNat + (f.held .team).total UInt64.toNat +
    (f.held .treasury).total UInt64.toNat

/-- The stakes of the registered miners. -/
def stakes (f : Funds) : Nat := f.miners.sum fun m => m.stake.toNat

/-- What the account holds over what these ledgers owe. -/
def slack (f : Funds) : Int := (f.bank.balance : Int) - (f.stakes + f.heldTotal + f.poolCoins : Nat)

/-- What is retained for one job. -/
def heldFor (f : Funds) (j : Str) : Nat :=
  ((f.heldOf .fee j).getD 0).toNat + ((f.heldOf .burn j).getD 0).toNat +
    ((f.heldOf .validator j).getD 0).toNat + ((f.heldOf .team j).getD 0).toNat +
    ((f.heldOf .treasury j).getD 0).toNat

/-- The postings on account of one job that spend its fee. -/
def posted (f : Funds) (j : Str) : Nat :=
  ((f.journal.filter fun p => p.kind.spendsFee && decide (p.job = j)).map
    fun p => p.amount.toNat).sum

/-- The fee of one job, as far as it is accounted for. -/
def accounted (f : Funds) (j : Str) : Nat := f.posted j + f.heldFor j

/-! ### What the small operations do to the sums -/

section Sums

variable {f : Funds} {sh sh' : Share} {j k : Str} {amt : UInt64}

@[simp] theorem heldOf_dropHeld_self : (f.dropHeld sh j).heldOf sh j = none := by
  simp [heldOf, dropHeld]

theorem heldOf_dropHeld_ne (h : k ≠ j) : (f.dropHeld sh j).heldOf sh' k = f.heldOf sh' k := by
  unfold heldOf dropHeld
  by_cases hs : sh' = sh
  · subst hs
    simp [Store.get_remove_ne h]
  · simp [Function.update_of_ne hs]

theorem heldOf_dropHeld_share (h : sh' ≠ sh) : (f.dropHeld sh j).heldOf sh' k = f.heldOf sh' k := by
  simp [heldOf, dropHeld, Function.update_of_ne h]

theorem heldOf_dropHeld : (f.dropHeld sh j).heldOf sh' k = f.heldOf sh' k ∨
    (f.dropHeld sh j).heldOf sh' k = none := by
  by_cases hs : sh' = sh
  · by_cases hk : k = j
    · subst hs hk
      exact .inr heldOf_dropHeld_self
    · exact .inl (heldOf_dropHeld_ne hk)
  · exact .inl (heldOf_dropHeld_share hs)

/-- A removal takes the removed amount off the total. -/
theorem heldTotal_dropHeld (h : f.heldOf sh j = some amt) :
    (f.dropHeld sh j).heldTotal + amt.toNat = f.heldTotal := by
  have := Store.total_remove_of_some UInt64.toNat h
  cases sh <;> simp [heldTotal, dropHeld, Function.update] at this ⊢ <;> omega

/-- A write adds at most the written amount. -/
theorem heldTotal_setHeld_le (f : Funds) (sh : Share) (j : Str) (amt : UInt64) :
    (f.setHeld sh j amt).heldTotal ≤ f.heldTotal + amt.toNat := by
  have := Store.total_set UInt64.toNat (f.held sh) j amt
  cases sh <;> simp [heldTotal, setHeld, Function.update] at this ⊢ <;> omega

theorem heldFor_dropHeld (h : f.heldOf sh j = some amt) :
    (f.dropHeld sh j).heldFor j + amt.toNat = f.heldFor j := by
  cases sh <;> simp [heldFor, heldOf_dropHeld_share, h] <;> omega

theorem heldFor_dropHeld_ne (h : k ≠ j) : (f.dropHeld sh j).heldFor k = f.heldFor k := by
  simp [heldFor, heldOf_dropHeld_ne h]

theorem heldFor_setHeld (h : f.heldOf sh j = none) :
    (f.setHeld sh j amt).heldFor j = f.heldFor j + amt.toNat := by
  unfold heldOf at h
  cases sh <;> simp [heldFor, heldOf, setHeld, Function.update, h] <;> omega

theorem heldOf_setHeld_ne (h : k ≠ j) : (f.setHeld sh j amt).heldOf sh' k = f.heldOf sh' k := by
  unfold heldOf setHeld
  by_cases hs : sh' = sh
  · subst hs
    simp [Store.get_set_ne h]
  · simp [Function.update_of_ne hs]

theorem heldOf_setHeld_share (h : sh' ≠ sh) :
    (f.setHeld sh j amt).heldOf sh' k = f.heldOf sh' k := by
  simp [heldOf, setHeld, Function.update_of_ne h]

@[simp] theorem heldOf_setHeld_self : (f.setHeld sh j amt).heldOf sh j = some amt := by
  simp [heldOf, setHeld]

theorem heldFor_setHeld_ne (h : k ≠ j) : (f.setHeld sh j amt).heldFor k = f.heldFor k := by
  simp [heldFor, heldOf_setHeld_ne h]

section Pay

variable [Chain] {c : Ctx} {payee : Payee} {p : Posting} {f' : Funds} {text : String}

/-- A payment that succeeds moves its coins and is posted. -/
theorem pay_ok (h : f.pay c payee p = (true, f')) :
    ∃ b, f.bank.Pays p.amount.toNat b ∧ f' = { f with bank := b, journal := p :: f.journal } := by
  unfold pay at h
  split at h
  · next b hb =>
    simp only [Prod.mk.injEq, true_and] at h
    exact ⟨b, Bank.pay_ok hb, h.symm⟩
  · simp at h

/-- A payment that is refused changes nothing but the count of calls. -/
theorem pay_refused (h : f.pay c payee p = (false, f')) :
    f' = { f with bank := f.bank.called } := by
  unfold pay at h
  split at h
  · simp at h
  · next b hb =>
    simp only [Prod.mk.injEq, true_and] at h
    rw [← h, Bank.pay_refused hb]

theorem payOrFail_ok (h : f.payOrFail c payee p text = .ok f') :
    ∃ b, f.bank.Pays p.amount.toNat b ∧ f' = { f with bank := b, journal := p :: f.journal } := by
  unfold payOrFail at h
  split at h
  · next g hg =>
    simp only [Except.ok.injEq] at h
    exact h ▸ pay_ok hg
  · cases h

end Pay

theorem collect_ok {c : Ctx} {text : String} {f' : Funds} (h : f.collect c amt text = .ok f') :
    ∃ b, f' = { f with bank := b } ∧ b.balance = f.bank.balance + amt.toNat ∧
      b.balance + b.outside = f.bank.balance + f.bank.outside := by
  unfold collect at h
  split at h
  · next b hb =>
    simp only [Except.ok.injEq] at h
    exact ⟨b, h.symm, Bank.collect_eq_some hb⟩
  · cases h

/-- What a new posting adds to the fee accounted for. -/
theorem posted_cons {f' : Funds} {p : Posting} (h : f'.journal = p :: f.journal) :
    f'.posted k =
      f.posted k + if p.kind.spendsFee = true ∧ p.job = k then p.amount.toNat else 0 := by
  unfold posted
  rw [h, List.filter_cons]
  by_cases hp : p.kind.spendsFee = true ∧ p.job = k
  · simp [hp, Nat.add_comm]
  · simp only [Bool.and_eq_true, decide_eq_true_eq, hp, if_false, Nat.add_zero]

theorem poolCoins_setPools {pl : Pools} :
    (f.setPools pl).poolCoins = pl.treasury.toNat + pl.team.toNat := rfl

/-- The coins of the pools that `poolsOrZero` reads. -/
theorem poolCoins_eq : f.poolCoins = f.poolsOrZero.treasury.toNat + f.poolsOrZero.team.toNat := by
  unfold poolCoins poolsOrZero
  cases f.pools <;> rfl

/-- Replacing a miner replaces its stake. -/
theorem stakes_setMiner {m m' : Miner} (h : f.miners.get? m'.minerId = some m) :
    (f.setMiner m').stakes + m.stake.toNat = f.stakes + m'.stake.toNat :=
  Table.sum_put_of_some _ h

end Sums

end Funds

end Dendra.Jobs
