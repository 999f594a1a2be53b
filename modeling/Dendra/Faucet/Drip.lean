import Dendra.Lib.Run
import Dendra.Lib.Str

/-!
# The faucet

A request is authorised against three counters (`rateOk`): the last drip of its address, the hits of its IP and
those of all, over a day. What it charges is on disk before the transfer is sent. The transfer is judged by polling
the chain (`fund`), and when it is judged failed the address gets its cooldown back (`rateRefund`).

* `Server.step`: a request is decided, a transfer lands on the chain, a request ends with the judgement of its
  transfer, the process is restarted. Any of them may come between the authorisation of a request and its end.
* A request reads the clock before it takes the lock, so what it is decided with may be older than what another
  one was decided with.

Times are seconds. Only this program writes the state file, each time whole.
-/

namespace Dendra.Faucet

/-- `ADDR_COOLDOWN`, `IP_DAILY` and `DAILY_CAP`. -/
structure Limits where
  addrCooldown : Rat
  ipDaily : Nat
  dailyCap : Nat

/-- `_DAY`. -/
def day : Rat := 86400

/-- `_addr_last`, `_ip_hits` and `_global_hits`. -/
structure Counters where
  addrLast : Str → Option Rat
  ipHits : Str → Option (List Rat)
  globalHits : List Rat

def Counters.empty : Counters := ⟨fun _ => none, fun _ => none, []⟩

/-- The counters in memory and the state file, if there is one. -/
structure Store where
  mem : Counters
  file : Option Counters

/-- The hits less than a day old. -/
def recent (now : Rat) (ts : List Rat) : List Rat := ts.filter fun t => decide (now - t < day)

/-- What `_save_state` writes at `now`. -/
def stateAt (lim : Limits) (now : Rat) (c : Counters) : Counters where
  addrLast a := (c.addrLast a).filter fun t => decide (now - t < lim.addrCooldown)
  ipHits ip := (c.ipHits ip).map (recent now)
  globalHits := recent now c.globalHits

/-- `_load_state`, in a process that has just started. -/
def load (lim : Limits) (now : Rat) : Option Counters → Counters
  | none => .empty
  | some d =>
    { addrLast := fun a => (d.addrLast a).filter fun t => decide (now - t < lim.addrCooldown)
      ipHits := fun ip => ((d.ipHits ip).map (recent now)).filter fun kept => !kept.isEmpty
      globalHits := recent now d.globalHits }

/-! ## A request -/

inductive Reply
  | ok
  | cooldown
  | ipQuota
  | globalCap
  /-- The save raised. -/
  | unsaved
  deriving DecidableEq

/-- The counters with a drip in them; `hits` are the recent ones of the IP. -/
def Counters.charge (c : Counters) (addr ip : Str) (hits : List Rat) (now : Rat) : Counters where
  addrLast := Function.update c.addrLast addr (some now)
  ipHits := Function.update c.ipHits ip (some (hits ++ [now]))
  globalHits := c.globalHits ++ [now]

/-- The counters with the drip taken out, as `before` had them. -/
def Counters.restore (c before : Counters) (addr ip : Str) : Counters where
  addrLast := Function.update c.addrLast addr (before.addrLast addr)
  ipHits := Function.update c.ipHits ip (before.ipHits ip)
  globalHits := c.globalHits.dropLast

/-- `_rate_ok` of a request that read the clock at `now`. The save, at `wrote`, may fail. -/
def rateOk (lim : Limits) (addr ip : Str) (now wrote : Rat) (saved : Bool) (s : Store) : Reply × Store :=
  if now - (s.mem.addrLast addr).getD 0 < lim.addrCooldown then (.cooldown, s)
  else
    let hits := recent now ((s.mem.ipHits ip).getD [])
    if lim.ipDaily ≤ hits.length then (.ipQuota, s)
    else
      let c := { s.mem with globalHits := recent now s.mem.globalHits }
      if lim.dailyCap ≤ c.globalHits.length then (.globalCap, { s with mem := c })
      else
        let charged := c.charge addr ip hits now
        if saved then (.ok, ⟨charged, some (stateAt lim wrote charged)⟩)
        else (.unsaved, { s with mem := charged.restore s.mem addr ip })

/-- `_rate_refund`. -/
def rateRefund (lim : Limits) (addr : Str) (wrote : Rat) (saved : Bool) (s : Store) : Store :=
  let c := { s.mem with addrLast := Function.update s.mem.addrLast addr none }
  ⟨c, if saved then some (stateAt lim wrote c) else s.file⟩

/-! ## The transfer -/

/-- One query of `_wait_tx`: `dendrad` fails, or prints an answer with a code that can be read or not. -/
inductive Poll
  | failed
  | answer (code : Option Int)

/-- `_wait_tx`, on what its queries give. -/
def waitTx : Nat → List Poll → Bool
  | 0, _ => false
  | _, [] => false
  | _ + 1, .answer (some c) :: _ => decide (c = 0)
  | tries + 1, _ :: polls => waitTx tries polls

/-- How `fund` goes. -/
inductive Transfer
  | notSent
  | noHash
  | raised
  | sent (polls : List Poll)

/-- Whether `fund` reports the transfer as made. -/
def fund : Transfer → Bool
  | .sent polls => waitTx 20 polls
  | _ => false

/-! ## Runs -/

/-- A transfer that was authorised, by what its request read. -/
structure Attempt where
  addr : Str
  ip : Str
  stamp : Rat
  deriving DecidableEq

/-- A faucet. Transfers are counted in the order of their authorisation: `flying` are those of requests that have
not ended, `refunded` those judged failed, `landed` those on the chain. `last` is the latest reading of the clock
that the counters were looked at with. -/
structure Server where
  store : Store
  clock : Rat
  started : Rat
  last : Rat
  attempts : List Attempt
  flying : List Nat
  refunded : List Nat
  landed : List Nat

inductive Action
  /-- A request that read `now` is decided. -/
  | ask (addr ip : Str) (now wrote : Rat) (saved : Bool)
  /-- The transfer is included in a block. -/
  | land (i : Nat)
  /-- The request ends. -/
  | finish (i : Nat) (t : Transfer) (wrote : Rat) (saved : Bool)
  | restart (now : Rat)

namespace Server

def Init (s : Server) : Prop := ∃ t, s = ⟨⟨.empty, none⟩, t, t, t, [], [], [], []⟩

/-- A decided request, with the counters that it left. -/
def decided (s : Server) (store : Store) (now wrote : Rat) : Server :=
  { s with store := store, clock := wrote, last := max s.last now }

def step (lim : Limits) (s : Server) : Action → Option Server
  | .ask addr ip now wrote saved =>
    if s.started ≤ now ∧ now ≤ wrote ∧ s.clock ≤ wrote then
      match rateOk lim addr ip now wrote saved s.store with
      | (.ok, store) =>
        some { s.decided store now wrote with
          attempts := s.attempts ++ [⟨addr, ip, now⟩]
          flying := s.attempts.length :: s.flying }
      | (_, store) => some (s.decided store now wrote)
    else none
  | .land i => if i < s.attempts.length then some { s with landed := i :: s.landed } else none
  | .finish i t wrote saved =>
    if i ∈ s.flying ∧ s.clock ≤ wrote then
      match s.attempts[i]?, fund t with
      | some a, false =>
        some { s with
          store := rateRefund lim a.addr wrote saved s.store
          clock := wrote
          flying := s.flying.erase i
          refunded := i :: s.refunded }
      | _, _ => some { s with clock := wrote, flying := s.flying.erase i }
    else none
  | .restart now =>
    if s.clock ≤ now then
      some { s with
        store := { s.store with mem := load lim now s.store.file }
        clock := now
        started := now
        last := now
        flying := [] }
    else none

/-- The condition on a step: requests are decided in the order of their readings, a transfer that is judged failed
is not on the chain and never lands, and no later drip of its address stands when it is judged. -/
def Clean (s : Server) : Action → Prop
  | .ask _ _ now _ _ => s.last ≤ now
  | .land i => i ∉ s.refunded
  | .finish i t _ _ => fund t = false → i ∉ s.landed ∧ ∀ a, s.attempts[i]? = some a →
      ∀ stamp, s.store.mem.addrLast a.addr = some stamp → stamp = a.stamp
  | .restart _ => True

/-- What the limits promise. -/
structure Bounded (lim : Limits) (s : Server) : Prop where
  /-- Two drips that an address received were asked for a cooldown apart. -/
  cooldown : ∀ i k a b, i < k → i ∈ s.landed → k ∈ s.landed → s.attempts[i]? = some a → s.attempts[k]? = some b →
    a.addr = b.addr → a.stamp + lim.addrCooldown ≤ b.stamp
  /-- No IP attempts more in a day than its quota. -/
  perIp : ∀ ip x, s.attempts.countP (fun a => decide (a.ip = ip ∧ x ≤ a.stamp ∧ a.stamp < x + day)) ≤ lim.ipDaily
  /-- No more is attempted in a day than the cap. -/
  overall : ∀ x, s.attempts.countP (fun a => decide (x ≤ a.stamp ∧ a.stamp < x + day)) ≤ lim.dailyCap
  /-- A request whose save fails leaves the counters, but for hits that are a day old. -/
  unsaved : ∀ addr ip now wrote, (rateOk lim addr ip now wrote false s.store).1 ≠ .ok ∧
    (rateOk lim addr ip now wrote false s.store).2.file = s.store.file ∧
    (rateOk lim addr ip now wrote false s.store).2.mem.addrLast = s.store.mem.addrLast ∧
    (rateOk lim addr ip now wrote false s.store).2.mem.ipHits = s.store.mem.ipHits ∧
    ∀ t, now ≤ t → recent t (rateOk lim addr ip now wrote false s.store).2.mem.globalHits =
      recent t s.store.mem.globalHits

end Server

end Dendra.Faucet
