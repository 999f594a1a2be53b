import Dendra.Relay.Store
import Dendra.Lib.Bech32
import Dendra.Lib.Sha256

/-!
# Signed deposits

A deposit is `POST /<kind>/<key>`. Its writer is named by a signature over the canonical message, whose key must
derive the address of the operator that the registry's copy records for the miner of the key, or, for a request,
of the client that pays for its job. The replay guard writes, so it comes last.

* `canonicalMessage`, `messageHeight`: what is signed, and the height read back from it.
* `Guard.verify`: the replay guard. `beforeReplay`, `requestRefusal`, `verdict`: the stages of a verdict.
* `writer`: the address that a deposit is attributed to. `doPost`: the answer to a request.
-/

namespace Dendra.Relay

/-! ## The canonical message -/

def Kind.name : Kind → Str
  | .pub => "pub".toList
  | .req => "req".toList
  | .res => "res".toList
  | .reveal => "reveal".toList
  | .attest => "attest".toList

/-- `MAX_FIELD`. -/
def maxField : Nat := 65535

/-- `DOMAIN`. -/
def messageDomain : Str := "dendra/relay-write/v1".toList

/-- `_lp`: a field after its length. -/
def lp (x : List UInt8) : Option (List UInt8) :=
  if x.length > maxField then none else some (Sha256.bytes 4 x.length ++ x)

/-- `canonical_message`; `none` for its `ValueError`. -/
def canonicalMessage (kind key : Str) (body : Body) (miner : Str) (height : Int) : Option (List UInt8) :=
  if height < 0 ∨ height > 2 ^ 64 - 1 then none
  else do
    let domain ← lp messageDomain.utf8
    let kind ← lp kind.utf8
    let key ← lp key.utf8
    let miner ← lp miner.utf8
    return domain ++ kind ++ key ++ miner ++ Sha256.hash body ++ Sha256.bytes 8 height.toNat

/-- The number of big-endian bytes. -/
def ofBytes (bs : List UInt8) : Nat := bs.foldl (fun n b => 256 * n + b.toNat) 0

/-- `read_lp`: a field and what follows it. -/
def readLp (m : List UInt8) : Option (List UInt8 × List UInt8) :=
  let n := ofBytes (m.take 4)
  if m.length < 4 ∨ (m.drop 4).length < n then none else some ((m.drop 4).take n, (m.drop 4).drop n)

/-- `message_height`. -/
def messageHeight (m : List UInt8) : Option Nat := do
  let domain ← readLp m
  let kind ← readLp domain.2
  let key ← readLp kind.2
  let miner ← readLp key.2
  if miner.2.length ≠ 40 then none else return ofBytes (miner.2.drop 32)

/-! ## Documents -/

/-- What `json.loads` gives. -/
inductive Json
  | null
  | bool (b : Bool)
  | int (n : Int)
  | float
  | str (s : Str)
  | arr (l : List Json)
  | obj (l : List (Str × Json))

/-- A field of an object; of two of one name the last counts. -/
def Json.get? (name : Str) : Json → Option Json
  | .obj l => (Ordered.ofList l).get? name
  | _ => none

/-- The job of a document about `jid`. -/
def jobOf (jid : Str) (doc : Json) : Option Json :=
  match doc.get? "job".toList with
  | some (.obj l) =>
    match Json.get? "job_id".toList (.obj l) with
    | some (.str s) => if s = jid then some (.obj l) else none
    | _ => none
  | _ => none

/-- `job_fee_from_doc`. -/
def jobFeeFromDoc (jid : Str) (doc : Json) : Option Int :=
  match jobOf jid doc with
  | none => none
  | some job =>
    match job.get? "fee".toList with
    | none => some 0
    | some (.str s) => s.digits.map Int.ofNat
    | some (.int n) => if 0 ≤ n then some n else none
    | some _ => none

/-- `job_state_from_doc`. -/
def jobStateFromDoc (jid : Str) (doc : Json) : Option Str :=
  match jobOf jid doc with
  | none => none
  | some job =>
    match job.get? "state".toList with
    | none => some []
    | some (.str s) => some s
    | some _ => none

/-- A member's name. -/
def Json.member? : Json → Option Str
  | .str s => if s = [] then none else some s
  | _ => none

/-- `committee_from_doc`. -/
def committeeFromDoc (doc : Json) : Option (List Str) :=
  match doc with
  | .obj l =>
    match Json.get? "members".toList (.obj l) with
    | none => some []
    | some (.arr members) => members.mapM Json.member?
    | some _ => none
  | _ => none

/-! ## The replay guard -/

/-- `Antireplay`: the highest height of each key and the time of each digest. -/
structure Guard where
  high : Ordered (List UInt8) Nat
  seen : Ordered (List UInt8) Int

inductive Reason
  | malformed | invalidSignature | unreadableHeight
  | registryMute | unknownMiner | jobRegistryMute | unknownJob | foreignKey | foreignClient | staleKit
  | replay | heightRegression
  | priceUnset | feeUnreadable | jobStateUnreadable | jobNotOpen | underpaid
  | committeeUnreadable | unassignedMiner | notAttested
  deriving DecidableEq

/-- `_purge`: from the front, up to the first digest that is young. -/
def Guard.purge (cutoff : Int) (g : Guard) : Guard where
  high := g.high
  seen := ⟨g.seen.items.dropWhile fun e => decide (e.2 < cutoff),
    ((List.dropWhile_sublist _).map Prod.fst).nodup g.seen.nodup⟩

/-- What is recorded of a deposit that is accepted. -/
def Guard.record (now : Int) (key : List UInt8) (height : Nat) (digest : List UInt8) (g : Guard) : Guard where
  high := if (g.high.get? key).all fun h => decide (h < height) then g.high.set key height else g.high
  seen := g.seen.set digest now

/-- `Antireplay.verify` for a relay that does not know the chain's head. One reading of the clock stands for the
two that it makes. -/
def Guard.verify (retention now : Int) (key : List UInt8) (height : Nat) (digest : List UInt8) (g : Guard) :
    Guard × Option Reason :=
  if key = [] ∨ digest.length ≠ 32 then (g, some .malformed)
  else if (g.purge (now - retention)).seen.has digest then (g.purge (now - retention), some .replay)
  else if (g.high.get? key).any fun h => decide (height < h) then (g.purge (now - retention), some .heightRegression)
  else ((g.purge (now - retention)).record now key height digest, none)

/-! ## Requests -/

/-- A request as it arrives: its path with the query, its headers, and what its body gives. -/
structure Request where
  path : Str
  contentLength : Option Str
  token : Option Str
  pubkey : Option Str
  sig : Option Str
  miner : Option Str
  height : Option Str
  acct : Option Str
  seq : Option Str
  body : Body

/-- The libraries that the relay calls. `verifies` is the verification that `relay_carrier.verifier` makes for an
account and a sequence. -/
structure Library where
  int : Str → Option Int
  b64decode : Str → Option (List UInt8)
  loads : List UInt8 → Option Json
  ripemd160 : List UInt8 → List UInt8
  verifies : Str → Str → List UInt8 → List UInt8 → List UInt8 → Bool

/-- The relay's settings. -/
structure Settings where
  token : Str
  tokenPrev : Str
  /-- `DENDRA_RELAY_SIGN`: `enforce`, or `observe`. -/
  enforce : Bool
  maxBody : Nat
  attestRequire : Bool
  requestPrice : Option Int
  retention : Int
  retention_pos : 0 < retention

/-- What one verdict reads: the copies of the registries and the kit floor in force. -/
structure Reading where
  operators : Str → Option Str
  minersRead : Bool
  clients : Str → Option Str
  jobsRead : Bool
  kitFloor : Option Int

/-- What a request meets: the rate limit, the clock, what the verdict reads, what it reads again if the copy does
not know the miner, the documents of the chain's gateway, and the attestations held. -/
structure Surroundings where
  rateOk : Bool
  now : Int
  first : Reading
  again : Option Reading
  jobDoc : Str → Option (List UInt8)
  committeeDoc : Str → Option (List UInt8)
  attested : Str → Bool

/-- What a signed deposit carries. -/
structure Signed where
  pub : List UInt8
  sig : List UInt8
  miner : Str
  height : Int
  acct : Str
  seq : Str

/-- A header that is there and not empty. -/
def header (h : Option Str) : Option Str := h.filter fun s => decide (s ≠ [])

/-- The path's segments. -/
def route (path : Str) : List Str :=
  (Str.split (path.takeWhile fun a => decide (a ≠ '?')) '/').filter fun s => decide (s ≠ [])

def query (path : Str) : Str := (path.dropWhile fun a => decide (a ≠ '?')).drop 1

def kindOf (s : Str) : Option Kind := [Kind.pub, .req, .res, .reveal, .attest].find? fun k => decide (k.name = s)

/-- The kind and the key of a deposit. -/
def target : List Str → Option (Kind × Str)
  | [kind, key] => (kindOf kind).map fun k => (k, key)
  | _ => none

/-- `_miner_named_by_key`. -/
def minerNamedByKey (kind : Kind) (key : Str) : Option Str :=
  if kind = .pub ∨ kind = .attest then (if key = [] then none else some key)
  else (Str.splitLast "__".toList key).map Prod.snd

/-- `job_from_key`. -/
def jobFromKey (key miner : Str) : Option Str :=
  match Str.splitLast "__".toList key with
  | none => none
  | some (job, tail) => if job = [] ∨ tail ≠ miner then none else some job

/-- What follows the first `__`: `key.split("__", 1)[1]`. -/
def afterFirst : Str → Option Str
  | [] => none
  | a :: as => if "__".toList.isPrefixOf (a :: as) then some ((a :: as).drop 2) else afterFirst as

variable (lib : Library) (cfg : Settings) (out : Surroundings)

/-- The headers of a signed deposit; `none` if one is missing or malformed. -/
def signedOf (r : Request) : Option Signed := do
  let pub ← header r.pubkey
  let sig ← header r.sig
  let miner ← header r.miner
  let height ← header r.height
  let acct ← header r.acct
  let seq ← header r.seq
  return ⟨← lib.b64decode pub, ← lib.b64decode sig, miner, ← lib.int height, acct, seq⟩

/-- `declared_kit_version`. -/
def declaredKitVersion (body : Body) : Option Int :=
  match (lib.loads body).bind (Json.get? "kit_version".toList) with
  | some (.int v) => if 0 ≤ v then some v else none
  | _ => none

/-- `address_from_pubkey`. -/
def addressFromPubkey (pub : List UInt8) (hrp : Str) : Option Str :=
  if pub.length = 33 ∧ (pub.head? = some 2 ∨ pub.head? = some 3) then
    some (Bech32.encode hrp (lib.ripemd160 (Sha256.hash pub)))
  else none

/-- `expected[:expected.rfind("1")]`. -/
def hrpOf (expected : Str) : Str :=
  match Str.splitLast ['1'] expected with
  | some (hrp, _) => hrp
  | none => expected.dropLast

/-! ## The verdict -/

/-- `_operator_authority` and `_client_authority`: the address that has to sign. -/
def authority (rd : Reading) (kind : Kind) (key miner : Str) : Except Reason Str :=
  if kind = .req then
    match jobFromKey key miner with
    | none => .error .malformed
    | some job =>
      match rd.clients job with
      | some client => .ok client
      | none => .error (if rd.jobsRead then .unknownJob else .jobRegistryMute)
  else
    match rd.operators miner with
    | some operator => .ok operator
    | none => .error (if rd.minersRead then .unknownMiner else .registryMute)

/-- The kit floor is armed, and the body declares no kit or one below it. -/
def staleKit (rd : Reading) (body : Body) : Bool :=
  rd.kitFloor.any fun floor => (declaredKitVersion lib body).all fun v => decide (v < floor)

/-- `_verdict` up to its replay guard: the message, its height and the address that signed. -/
def beforeReplay (rd : Reading) (kind : Kind) (key : Str) (body : Body) (s : Signed) :
    Except Reason (List UInt8 × Nat × Str) :=
  if s.pub.length ≠ 33 ∨ s.sig = [] then .error .malformed
  else match canonicalMessage kind.name key body s.miner s.height with
    | none => .error .malformed
    | some message =>
      if lib.verifies s.acct s.seq s.pub message s.sig = false then .error .invalidSignature
      else match messageHeight message with
        | none => .error .unreadableHeight
        | some height =>
          match authority rd kind key s.miner with
          | .error e => .error e
          | .ok expected =>
            match addressFromPubkey lib s.pub (hrpOf expected) with
            | none => .error .malformed
            | some derived =>
              if derived ≠ expected then .error (if kind = .req then .foreignClient else .foreignKey)
              else if kind ≠ .req ∧ staleKit lib rd body = true then .error .staleKit
              else .ok (message, height, expected)

/-- `_request_refusal`. -/
def requestRefusal (key : Str) : Option Reason :=
  match cfg.requestPrice, Str.splitLast "__".toList key with
  | none, _ => some .priceUnset
  | _, none => some .malformed
  | some price, some (jid, mid) =>
    match ((out.jobDoc jid).bind lib.loads).bind (jobFeeFromDoc jid) with
    | none => some .feeUnreadable
    | some fee =>
      match ((out.jobDoc jid).bind lib.loads).bind (jobStateFromDoc jid) with
      | none => some .jobStateUnreadable
      | some state =>
        if state ≠ "open".toList then some .jobNotOpen
        else if fee < price then some .underpaid
        else match ((out.committeeDoc jid).bind lib.loads).bind committeeFromDoc with
          | none => some .committeeUnreadable
          | some members =>
            if members.contains mid = false then some .unassignedMiner
            else if cfg.attestRequire = true ∧ out.attested mid = false then some .notAttested
            else none

/-- The checks of a request, inside the replay stage and before its guard (`PaidBeforeReplay`). -/
def paidRefusal (kind : Kind) (key : Str) : Option Reason :=
  if kind = .req then requestRefusal lib cfg out key else none

/-- `_verdict`. -/
def verdict (rd : Reading) (kind : Kind) (key : Str) (body : Body) (s : Signed) (g : Guard) :
    Guard × Except Reason Str :=
  match beforeReplay lib rd kind key body s with
  | .error e => (g, .error e)
  | .ok (message, height, address) =>
    match paidRefusal lib cfg out kind key with
    | some e => (g, .error e)
    | none =>
      match g.verify cfg.retention out.now s.pub height (Sha256.hash message) with
      | (g', some e) => (g', .error e)
      | (g', none) => (g', .ok address)

/-- The address of a verdict; an empty one names nobody. -/
def attributedTo : Except Reason Str → Option Str
  | .ok a => if a = [] then none else some a
  | .error _ => none

/-- `_verify_write_request`: the verdict, made again if the copy did not know the miner and was read again. -/
def writer (kind : Kind) (key : Str) (body : Body) (r : Request) (g : Guard) : Guard × Option Str :=
  match signedOf lib r with
  | none => (g, none)
  | some s =>
    if minerNamedByKey kind key ≠ some s.miner then (g, none)
    else
      let v := verdict lib cfg out out.first kind key body s g
      match v.2, out.again with
      | .error .unknownMiner, some rd =>
        let w := verdict lib cfg out rd kind key body s v.1
        (w.1, attributedTo w.2)
      | result, _ => (v.1, attributedTo result)

/-! ## The answer -/

inductive Answer
  | refused (status : Nat)
  /-- The handler raises. -/
  | raised
  /-- The store is called. -/
  | put (kind : Kind) (key : Str) (body : Body)

/-- `_authed`. -/
def authed (token : Option Str) : Bool :=
  decide (cfg.token = []) || decide (token.getD [] = cfg.token) ||
    (decide (cfg.tokenPrev ≠ []) && decide (token.getD [] = cfg.tokenPrev))

/-- The number of bytes to read: `int(Content-Length or 0)`. -/
def lengthOf (r : Request) : Option Int :=
  match header r.contentLength with
  | none => some 0
  | some s => lib.int s

/-- The token stands in for a signature. -/
def tokenFallback (kind : Kind) (token : Option Str) : Bool :=
  if cfg.enforce = true ∧ kind ≠ .req then decide (cfg.token ≠ []) && authed cfg token else authed cfg token

/-- The attestation gate of `do_POST`. -/
def gateCloses (kind : Kind) (key : Str) : Bool :=
  cfg.attestRequire && decide (kind = .req) &&
    !((afterFirst key).any fun mid => decide (mid ≠ []) && out.attested mid)

/-- `do_POST`. -/
def doPost (r : Request) (g : Guard) : Guard × Answer :=
  let at? := target (route r.path)
  if out.rateOk = false then (g, .refused 429)
  else if at? = none ∧ authed cfg r.token = false then (g, .refused 401)
  else if query r.path ≠ [] then (g, .refused 400)
  else match lengthOf lib r with
    | none => (g, .raised)
    | some n =>
      if n < 0 ∨ n > cfg.maxBody then (g, .refused 413)
      else match at? with
        | none => (g, .refused 404)
        | some (kind, key) =>
          let body := r.body.take n.toNat
          let w := writer lib cfg out kind key body r g
          if w.2 = none ∧ tokenFallback cfg kind r.token = false then (w.1, .refused 401)
          else if gateCloses cfg out kind key = true then (w.1, .refused 403)
          else (w.1, .put kind key body)

end Dendra.Relay
