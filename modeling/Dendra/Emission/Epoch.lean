import Dendra.Lib.Run
import Dendra.Jobs.Chain
import Dendra.Lib.Word

/-!
# Emission from the Reserve

`x/emission/keeper`: the release of one epoch (`emission.go`), the epoch hook (`epoch.go`), the payouts of
the two claimable pools (`pay_work.go`, `pay_avail.go`), the parameters and the genesis.

The bank is the balance of the module account, the total supply and the coins that others sent to the
account. Each call is told whether the bank refuses its one transfer.
-/

namespace Dendra.Emission

open Word Jobs

/-! ## One release -/

structure Params where
  reserveReleaseBps : UInt64
  workSplitBps : UInt64
  availSplitBps : UInt64
  workGateBps : UInt64
  epochBlocks : UInt64
  deriving DecidableEq

/-- `DefaultEpochBlocks`: a year of blocks of one second. -/
def defaultEpochBlocks : UInt64 := 31536000

def Params.default : Params := ⟨2200, 5000, 2000, 15000, defaultEpochBlocks⟩

def Params.validate (p : Params) : Except String Unit :=
  if p.workSplitBps + p.availSplitBps > 10000 then
    .error "work_split_bps + avail_split_bps > 10000 (security receives the remainder)"
  else if p.reserveReleaseBps > 10000 then .error "reserve_release_bps > 10000"
  else if p.workGateBps > 100000 then
    .error "work_gate_bps > 100000 (10x the 1.5x economic work gate; beyond that the multiplier is anti-bubble nonsense and risks overflowing the work subsidy)"
  else if p.epochBlocks > 2 ^ 32 then
    .error "epoch_blocks > 2^32 (overflows the deadline computation and inverts the condition -> emission at every block)"
  else .ok ()

/-- The outcome of one epoch. -/
structure Release where
  released : UInt64
  work : UInt64
  avail : UInt64
  security : UInt64
  newReserve : UInt64

def mulBps (x bps : UInt64) : UInt64 := bpsOf x bps

/-- `EpochRelease`. -/
def epochRelease (reserve nonRecDemand : UInt64) (p : Params) : Release :=
  let release := mulBps reserve p.reserveReleaseBps
  let workPool := mulBps release p.workSplitBps
  let avail := mulBps release p.availSplitBps
  let security := release - workPool - avail
  let capWork := mulBps nonRecDemand p.workGateBps
  let work := if workPool > capWork then capWork else workPool
  let released := work + avail + security
  ⟨released, work, avail, security, reserve - released⟩

/-! ## The state -/

structure Bank where
  /-- the coins of the module account -/
  balance : Nat
  supply : Nat
  /-- what others sent to the module account so far -/
  received : Nat

/-- `deferReason…`. -/
inductive DeferReason
  | securityTransferFailed | unbackedAccounting
  deriving DecidableEq

/-- `emission_epoch` and `emission_epoch_deferred`. -/
inductive Event
  | epoch (height released avail security reserveLeft : UInt64)
  | deferred (height : UInt64) (reason : DeferReason) (expectedRelease expectedSecurity : UInt64)

structure State where
  params : Option Params
  reserve : Option UInt64
  workPool : Option UInt64
  availPool : Option UInt64
  securityDistributedTotal : Option UInt64
  lastEpoch : Option UInt64
  lastSupply : Option UInt64
  workPaidTotal : Option UInt64
  availPaidTotal : Option UInt64
  bank : Bank
  /-- the height of the last block -/
  height : Nat
  events : List Event

/-- `GenesisReserveU`. -/
def genesisReserveU : UInt64 := 3300000000000

/-- `addItem`. -/
def addItem (cur : Option UInt64) (amt : UInt64) : Option UInt64 := some (cur.getD 0 + amt)

/-! ## The epoch -/

/-- `deferEpoch`. -/
def deferEpoch (h : UInt64) (r : Release) (reason : DeferReason) (s : State) : State :=
  { s with
    lastEpoch := some h
    events := .deferred h reason r.released r.security :: s.events }

/-- What an epoch that can be honoured writes. -/
def completeEpoch (h curSupply : UInt64) (r : Release) (s : State) : State :=
  { s with
    workPool := addItem s.workPool r.work
    availPool := addItem s.availPool r.avail
    securityDistributedTotal := addItem s.securityDistributedTotal r.security
    reserve := some r.newReserve
    lastEpoch := some h
    lastSupply := some curSupply
    events := .epoch h r.released r.avail r.security r.newReserve :: s.events }

/-- What the module account has to hold: the Reserve and the two pools. -/
def required (reserve : UInt64) (s : State) : Nat :=
  reserve.toNat + (s.workPool.getD 0).toNat + (s.availPool.getD 0).toNat

/-- The supply that demand is measured from: the one noted at the last epoch, if one was. -/
def measuredFrom (s : State) (curSupply : UInt64) : UInt64 :=
  match s.lastSupply with
  | some last => if last = 0 then curSupply else last
  | none => curSupply

/-- The demand of an epoch: the drop in supply. -/
def demandOf (s : State) (curSupply : UInt64) : UInt64 :=
  let lastSupply := measuredFrom s curSupply
  if lastSupply > curSupply then lastSupply - curSupply else 0

/-- A due epoch with a Reserve to release from. The security tranche leaves first; an epoch without one
is completed only on an account that covers the counters. -/
def releaseEpoch (refused : Bool) (h reserve : UInt64) (ep : Params) (s : State) : State :=
  let curSupply := UInt64.ofNat s.bank.supply
  let r := epochRelease reserve (demandOf s curSupply) ep
  if r.security > 0 then
    if refused = true ∨ s.bank.balance < r.security.toNat then
      deferEpoch h r .securityTransferFailed s
    else
      completeEpoch h curSupply r
        { s with bank := { s.bank with balance := s.bank.balance - r.security.toNat } }
  else if s.bank.balance < required reserve s then deferEpoch h r .unbackedAccounting s
  else completeEpoch h curSupply r s

/-- The parameters of an epoch and its length; a stored length of zero disables it. -/
def epochParams (s : State) : Option (Params × UInt64) :=
  match s.params with
  | some pp => if pp.epochBlocks = 0 then none else some (pp, pp.epochBlocks)
  | none => some (.default, defaultEpochBlocks)

/-- `RunEpoch`, at the height of the block. -/
def runEpoch (refused : Bool) (s : State) : State :=
  let h := UInt64.ofNat s.height
  match epochParams s with
  | none => s
  | some (ep, epochBlocks) =>
    let last := s.lastEpoch.getD 0
    if h < last then { s with lastEpoch := some h }
    else if h - last < epochBlocks then s
    else
      let reserve := s.reserve.getD genesisReserveU
      if reserve = 0 then { s with lastEpoch := some h } else releaseEpoch refused h reserve ep s

/-! ## The payouts -/

section Payouts

variable [Chain]

/-- The address of the module account. -/
def modAddr : Addr := Chain.moduleAddress "emission".toList

/-- What a payout may send: no more than the pool has, nor than the account holds. -/
def payable (pool amt : UInt64) (s : State) : UInt64 :=
  let amt := if amt > pool then pool else amt
  if s.bank.balance < amt.toNat then UInt64.ofNat s.bank.balance else amt

/-- `SendCoinsFromModuleToAccount`: the module account may itself be the recipient. -/
def send (refused : Bool) (recipient : Addr) (amt : UInt64) (b : Bank) : Option Bank :=
  if refused = true ∨ b.balance < amt.toNat then none
  else if recipient = modAddr then some b
  else some { b with balance := b.balance - amt.toNat }

/-- `PayWork`: what was paid, and the state after it. -/
def payWork (refused : Bool) (recipient : Addr) (amt : UInt64) (s : State) :
    Except String (UInt64 × State) :=
  let pool := s.workPool.getD 0
  let amt := payable pool amt s
  if amt = 0 then .ok (0, s)
  else
    match send refused recipient amt s.bank with
    | none => .error "send"
    | some b =>
      .ok (amt, { s with
        bank := b
        workPool := some (pool - amt)
        workPaidTotal := addItem s.workPaidTotal amt })

/-- `PayAvail`, the twin of `PayWork`. -/
def payAvail (refused : Bool) (recipient : Addr) (amt : UInt64) (s : State) :
    Except String (UInt64 × State) :=
  let pool := s.availPool.getD 0
  let amt := payable pool amt s
  if amt = 0 then .ok (0, s)
  else
    match send refused recipient amt s.bank with
    | none => .error "send"
    | some b =>
      .ok (amt, { s with
        bank := b
        availPool := some (pool - amt)
        availPaidTotal := addItem s.availPaidTotal amt })

end Payouts

/-! ## Genesis -/

/-- The counters that a genesis of a running chain carries. -/
structure EmissionState where
  reserve : UInt64
  workPool : UInt64
  availPool : UInt64
  securityDistributedTotal : UInt64
  lastEpoch : UInt64
  lastSupply : UInt64
  workPaidTotal : UInt64
  availPaidTotal : UInt64

structure GenesisState where
  params : Params
  state : Option EmissionState

/-- What a genesis declares, in coins. -/
def GenesisState.declared (g : GenesisState) : Nat :=
  match g.state with
  | some e => e.reserve.toNat + e.workPool.toNat + e.availPool.toNat
  | none => genesisReserveU.toNat

/-- What is wrong with the counters of a genesis: their sum is no `uint64`, at which the code panics, or
the account does not hold it. -/
inductive Unbacked
  | outOfBounds | short

/-- `reserveIsBacked`. -/
def reserveIsBacked (g : GenesisState) (b : Bank) : Except Unbacked Unit :=
  if g.declared = 0 then .ok ()
  else if g.declared ≥ 2 ^ 64 then .error .outOfBounds
  else if b.balance < g.declared then .error .short
  else .ok ()

/-- What a genesis writes. -/
def GenesisState.start (g : GenesisState) (b : Bank) (height : Nat) : State :=
  let e := g.state.getD ⟨genesisReserveU, 0, 0, 0, 0, 0, 0, 0⟩
  { params := some g.params
    reserve := some e.reserve
    workPool := some e.workPool
    availPool := some e.availPool
    securityDistributedTotal := some e.securityDistributedTotal
    lastEpoch := some e.lastEpoch
    lastSupply := some e.lastSupply
    workPaidTotal := some e.workPaidTotal
    availPaidTotal := some e.availPaidTotal
    bank := b
    height := height
    events := [] }

/-- `InitGenesis`, on a chain whose first block has this height. An unbacked Reserve is let through only
by the operator's own switch. -/
def initGenesis (g : GenesisState) (allowUnbacked : Bool) (b : Bank) (height : Nat) :
    Except String State := do
  g.params.validate
  match reserveIsBacked g b with
  | .ok () => .ok (g.start b height)
  | .error .outOfBounds => .error "Uint64() out of bounds"
  | .error .short =>
    if allowUnbacked then .ok (g.start b height)
    else .error "emission: the counters this module must hold are not backed by the module account"

/-! ## Runs -/

/-- What can happen to the module: the hook of a block, a payout, an update of the parameters by the
authority, a burn of coins that others hold, coins sent to the module account. -/
inductive Action
  | runEpoch (refused : Bool)
  | payWork (refused : Bool) (recipient : Addr) (amt : UInt64)
  | payAvail (refused : Bool) (recipient : Addr) (amt : UInt64)
  | updateParams (p : Params)
  | burn (amt : Nat)
  | receive (amt : Nat)

section Runs

variable [Chain]

/-- What an action does; a call that fails changes nothing. -/
def Action.run (s : State) : Action → Except String State
  | .runEpoch refused => .ok (Emission.runEpoch refused { s with height := s.height + 1 })
  | .payWork refused recipient amt => (Emission.payWork refused recipient amt s).map Prod.snd
  | .payAvail refused recipient amt => (Emission.payAvail refused recipient amt s).map Prod.snd
  | .updateParams p => p.validate.map fun _ => { s with params := some p }
  | .burn amt =>
    if s.bank.supply < s.bank.balance + amt then .error "insufficient funds"
    else .ok { s with bank := { s.bank with supply := s.bank.supply - amt } }
  | .receive amt =>
    if s.bank.supply < s.bank.balance + amt then .error "insufficient funds"
    else .ok { s with
      bank :=
        { s.bank with balance := s.bank.balance + amt, received := s.bank.received + amt } }

/-- One step; heights are `int64`. -/
def Step (s : State) (a : Action) (s' : State) : Prop := a.run s = .ok s' ∧ s'.height < 2 ^ 63

end Runs

/-- The fixed supply of ten million, in `udndr`. -/
def maxSupply : Nat := 10 ^ 13

/-- A state that a genesis starts from. -/
def Genesis (s : State) : Prop :=
  ∃ g allowUnbacked b height, initGenesis g allowUnbacked b height = .ok s ∧ b.balance ≤ b.supply ∧
    b.supply ≤ maxSupply ∧ height < 2 ^ 63

end Dendra.Emission
