import Dendra.Lib.Sha256
import Dendra.Lib.Bech32
import Dendra.Jobs.System

/-!
# The application

The fixed functions as the application of `chain/app` has them: SHA-256, bech32 with the account
prefix `dendra`, module addresses that are truncated hashes of the module's name, and governance as
the authority. The runs that show a defect, or that a hypothesis can be met, run on them.

* `runAll`: a list of steps, each checked against a guard.
* `reachable_runAll`: what it returns is reachable.
-/

namespace Dendra.Jobs

def accountPrefix : Str := "dendra".toList

/-- `NewBech32Codec(AccountAddressPrefix).StringToBytes`. -/
def stringToBytes (s : Str) : Option Addr :=
  if Str.trimSpace s = [] then none
  else
    (Bech32.decode s).bind fun (hrp, bz) =>
      if hrp ≠ accountPrefix ∨ bz = [] ∨ bz.length > 255 then none else some bz

/-- `NewBech32Codec(AccountAddressPrefix).BytesToString`. -/
def bytesToString (bz : Addr) : Str := if bz = [] then [] else Bech32.encode accountPrefix bz

/-- `authtypes.NewModuleAddress`. -/
def newModuleAddress (name : Str) : Addr := (Sha256.hash (Str.utf8 name)).take 20

/-- The application. No run below shows a VRF proof, and every string that it compares without case
is hexadecimal. -/
instance application : Chain where
  sha256 := Sha256.hash
  bech32 := Bech32.encode
  bech32_eq := Bech32.encode_eq
  decodeBech32 s := (Bech32.decode s).map Prod.snd
  addrBytes := stringToBytes
  addrString := bytesToString
  authority := newModuleAddress "gov".toList
  moduleAddress := newModuleAddress
  vrfVerify _ _ _ := none
  equalFold a b := decide (a.map Char.toLower = b.map Char.toLower)

/-! ## Runs -/

section Runs

variable [Chain] (guard : State → Ctx × Action → Bool)

/-- Run a list of steps, as long as each meets the guard. -/
def runAll : List (Ctx × Action) → State → Except Err State
  | [], s => .ok s
  | a :: l, s => do
    ensure (guard s a = true) .plain "guard"
    let s ← a.2.run a.1 s
    runAll l s

variable {guard}

theorem reachable_runAll {ok : State → Ctx × Action → Prop}
    (hok : ∀ s a, guard s a = true → ok s a) (l : List (Ctx × Action)) {s s' : State}
    (hs : Reachable ok s) (h : runAll guard l s = .ok s') : Reachable ok s' := by
  induction l generalizing s with
  | nil =>
    cases h
    exact hs
  | cons a l ih =>
    simp only [runAll, bind_ok, ensure_ok] at h
    obtain ⟨-, hg, s₁, h₁, h⟩ := h
    exact ih (.step hs (hok s a hg) h₁) h

/-- Does the run go through, to a state that passes the test? -/
def endsIn (guard : State → Ctx × Action → Bool) (test : State → Bool) (l : List (Ctx × Action))
    (s : State) : Bool :=
  match runAll guard l s with
  | .ok s => test s
  | .error _ => false

theorem exists_reachable {ok : State → Ctx × Action → Prop} {test : State → Bool}
    (hok : ∀ s a, guard s a = true → ok s a) {l : List (Ctx × Action)} {s : State}
    (hs : Reachable ok s) (h : endsIn guard test l s = true) :
    ∃ s', Reachable ok s' ∧ test s' = true := by
  unfold endsIn at h
  split at h
  · next s' hr => exact ⟨s', reachable_runAll hok l hs hr, h⟩
  · cases h

/-- A run from a state. -/
theorem exists_run {test : State → Bool} {l : List (Ctx × Action)} {s : State}
    (h : endsIn guard test l s = true) :
    ∃ s', Reach (· = s) Step (fun s a => guard s a = true) s' ∧ test s' = true := by
  have hrun : ∀ (l : List (Ctx × Action)) {s₁ s' : State},
      Reach (· = s) Step (fun s a => guard s a = true) s₁ → runAll guard l s₁ = .ok s' →
      Reach (· = s) Step (fun s a => guard s a = true) s' := by
    intro l
    induction l with
    | nil =>
      intro s₁ s' hs h
      cases h
      exact hs
    | cons a l ih =>
      intro s₁ s' hs h
      simp only [runAll, bind_ok, ensure_ok] at h
      obtain ⟨-, hg, s₂, h₂, h⟩ := h
      exact ih (.step hs hg h₂) h
  unfold endsIn at h
  split at h
  · next s' hr => exact ⟨s', hrun l (.init rfl) hr, h⟩
  · cases h

omit [Chain] in
theorem eq_ok_of_toOption {ε α : Type} {r : Except ε α} {a : α} (h : a ∈ r.toOption) :
    r = .ok a := by
  cases r with
  | error e => cases h
  | ok b => exact congrArg Except.ok (Option.some.inj h)

omit [Chain] in
theorem exists_ok {ε α : Type} {r : Except ε α} (h : r.isOk = true) : ∃ a, r = .ok a := by
  cases r with
  | error e => cases h
  | ok a => exact ⟨a, rfl⟩

/-- The state that a message leaves, or the one before it. -/
def outcome (r : Except Err State) (s : State) : State :=
  match r with
  | .ok s' => s'
  | .error _ => s

omit [Chain] in
theorem eq_ok_outcome {r : Except Err State} {s : State} (h : r.isOk = true) :
    r = .ok (outcome r s) := by
  cases r with
  | ok s' => rfl
  | error e => cases h

end Runs

/-- A block at a height, with no seed and with every bank call let through. -/
def quietBlock (height : Nat) (h : height < 2 ^ 62) : Ctx where
  height := height
  height_lt := h
  unixNano := 0
  appHash := []
  blockHash := none
  vrfSeed := none
  vrfContributors := none
  vrfPower := none
  refuses _ := false
  modelActive _ := true
  expectedWeights _ := none
  payWork _ _ := none
  availPool := none

/-! ## Five miners -/

/-- The address and the miner id of five accounts, whose bytes are all ones, all twos, and so on. -/
def accounts : List (Str × Str) := [
  ("dendra1qyqszqgpqyqszqgpqyqszqgpqyqszqgpg56jm2".toList, "dm1cnck7c5pdxuhd5y6kx5vf6".toList),
  ("dendra1qgpqyqszqgpqyqszqgpqyqszqgpqyqszesuhsu".toList, "dm1cvnmzmvv6wr8nxksh9q4hs".toList),
  ("dendra1qvpsxqcrqvpsxqcrqvpsxqcrqvpsxqcrcqak6a".toList, "dm1mf5shvpj2xq7wv9uh9mz0h".toList),
  ("dendra1qszqgpqyqszqgpqyqszqgpqyqszqgpqycs6nap".toList, "dm1za6p79hpxnyt45kkkd0hyd".toList),
  ("dendra1q5zs2pg9q5zs2pg9q5zs2pg9q5zs2pg9eqmjhq".toList, "dm1dhr8gkl68ydausuyf9l6n0".toList)]

/-- The address of an account that is no miner. -/
def client : Str := "dendra1pyysjzgfpyysjzgfpyysjzgfpyysjzgf8u0rc0".toList

/-- The bytes of these addresses: all nines for the client, and those of the accounts. -/
def decoded : List (Str × Addr) :=
  (client, List.replicate 20 9) ::
    accounts.zipIdx.map fun (a, i) => (a.1, List.replicate 20 (UInt8.ofNat (i + 1)))

theorem stringToBytes_decoded : ∀ a ∈ decoded, stringToBytes a.1 = some a.2 := by
  decide +kernel

theorem decode_of_stringToBytes {s : Str} {bz : Addr} (h : stringToBytes s = some bz) :
    (Bech32.decode s).map Prod.snd = some bz := by
  unfold stringToBytes at h
  split at h
  · cases h
  · obtain ⟨⟨hrp, bz'⟩, hd, h⟩ := Option.bind_eq_some_iff.1 h
    dsimp only at h
    split at h
    · cases h
    · cases h
      rw [hd]
      rfl

/-- A decoder, which has these addresses in a table. -/
def lookup (f : Str → Option Addr) (s : Str) : Option Addr :=
  match decoded.find? fun a => decide (a.1 = s) with
  | some a => some a.2
  | none => f s

theorem lookup_eq {f : Str → Option Addr} (hf : ∀ a ∈ decoded, f a.1 = some a.2) : lookup f = f := by
  funext s
  unfold lookup
  split
  · next a h =>
    have ha : a.1 = s := by simpa using List.find?_some h
    rw [← hf a (List.mem_of_find?_eq_some h), ha]
  · rfl

/-- Each id is the one that its address derives. -/
theorem accounts_derived :
    ∀ a ∈ accounts, (stringToBytes a.1).bind deriveMinerID = some a.2 := by
  rw [← lookup_eq stringToBytes_decoded]
  decide +kernel

/-- The account of the jobs module. -/
def jobsAddress : Addr := [93, 154, 23, 203, 112, 185, 115, 58, 173, 192, 115, 164, 76, 33, 136, 157, 51, 50, 88, 116]

theorem newModuleAddress_jobs : newModuleAddress "jobs".toList = jobsAddress := by decide +kernel

def lookupModule (name : Str) : Addr := if name = "jobs".toList then jobsAddress else newModuleAddress name

theorem lookupModule_eq : lookupModule = newModuleAddress := by
  funext name
  unfold lookupModule
  split
  · next h => rw [h, newModuleAddress_jobs]
  · rfl

/-- The application with these tables. A bech32 string is long to decode in the kernel, and every run decodes the
addresses of its accounts: a run is computed here. -/
@[reducible] def tabled : Chain :=
  { application with
    decodeBech32 := lookup fun s => (Bech32.decode s).map Prod.snd
    addrBytes := lookup stringToBytes
    moduleAddress := lookupModule }

theorem application_eq_tabled : application = tabled := by
  unfold tabled
  rw [lookup_eq stringToBytes_decoded, lookupModule_eq,
    lookup_eq fun a ha => decode_of_stringToBytes (stringToBytes_decoded a ha)]
  rfl

/-- The registration of an account that is its own operator, with a bond of 1000. -/
def enrolment (a : Str × Str) : MsgCreateMiner :=
  ⟨a.1, a.2, [], [], 1000, [], []⟩

/-- Its record. -/
def enrolledMiner (a : Str × Str) : Miner := ⟨a.2, a.1, [], 1000, a.1, 0, 0, [], []⟩

/-- The state after that registration. -/
def enrolled (c : Ctx) (s : State) (a : Str × Str) : State :=
  { s with
    funds :=
      { s.funds with
        bank := ⟨s.funds.bank.balance + 1000, s.funds.bank.outside - 1000, s.funds.bank.calls + 1⟩
        miners := s.funds.miners.put (enrolledMiner a) }
    registry :=
      { s.registry with registeredHeight := s.registry.registeredHeight.set a.2 c.h64 } }

/-- A registration that every check lets through. -/
theorem createMiner_ok {c : Ctx} {s : State} (msg : MsgCreateMiner) {bz : Addr} {f : Funds}
    (hbz : Chain.addrBytes msg.creator = some bz) (hid : deriveMinerID bz = some msg.minerId)
    (hnone : s.miner msg.minerId = none) (hmin : s.params.minStake ≤ msg.stake)
    (hf : s.funds.collect c msg.stake "bond" = .ok f) (henc : msg.encPubkey = [])
    (hvrf : msg.vrfPubkey = []) : ∃ m, m = ⟨msg.minerId, if msg.operator = [] then msg.creator else
      msg.operator, msg.region, msg.stake, msg.creator, 0, 0, msg.encPubkey, msg.vrfPubkey⟩ ∧
      createMiner c msg s = .ok { s with
        funds := f.setMiner m
        registry := { s.registry with
          registeredHeight := s.registry.registeredHeight.set msg.minerId c.h64 } } := by
  refine ⟨_, rfl, ?_⟩
  simp only [createMiner, bind_ok, ensure_ok, require_ok, pure_ok, signer]
  exact ⟨bz, hbz, _, hid, (), rfl, (), hnone, (), hmin, f, hf, (), .inl henc, (), .inl hvrf, rfl⟩

theorem createMiner_enrolment {c : Ctx} {s : State} {a : Str × Str} (ha : a ∈ accounts)
    (hnone : s.miner a.2 = none) (hmin : s.params.minStake ≤ 1000)
    (hpay : 1000 ≤ s.funds.bank.outside) (hc : c.refuses s.funds.bank.calls = false) :
    createMiner c (enrolment a) s = .ok (enrolled c s a) := by
  obtain ⟨bz, hbz, hid⟩ := Option.bind_eq_some_iff.1 (accounts_derived a ha)
  have hcoll : s.funds.bank.collect c 1000 = some
      ⟨s.funds.bank.balance + 1000, s.funds.bank.outside - 1000, s.funds.bank.calls + 1⟩ := by
    rw [Bank.collect, if_neg]
    · rfl
    · rw [hc]
      simpa using hpay
  have hf : s.funds.collect c 1000 "bond" = .ok { s.funds with bank :=
      ⟨s.funds.bank.balance + 1000, s.funds.bank.outside - 1000, s.funds.bank.calls + 1⟩ } := by
    rw [Funds.collect, hcoll]
  obtain ⟨m, rfl, h⟩ := createMiner_ok (enrolment a) hbz hid hnone hmin hf rfl rfl
  exact h

/-- A block of a height that is given as a numeral, which is below the end of the range. -/
abbrev blockAt (h : Nat) : Ctx := quietBlock (h % 2 ^ 62) (Nat.mod_lt h (by decide))

/-- A chain in whose first block the five accounts registered. -/
def village (p : Params) : State := accounts.foldl (enrolled (blockAt 1)) (genesis p 0 1000000)

theorem village_params (p : Params) : (village p).params = p := rfl

section Village

variable {ok : State → Ctx × Action → Prop} {p : Params}

theorem reachable_enrolled (hmin : p.minStake ≤ 1000)
    (hok : ∀ s c msg, s.params = p → ok s (c, .createMiner msg)) (l : List (Str × Str)) {s : State}
    (hs : Reachable ok s) (hl : ∀ a ∈ l, a ∈ accounts) (hn : (l.map Prod.snd).Nodup)
    (hp : s.params = p) (hfresh : ∀ a ∈ l, s.miner a.2 = none)
    (hpay : 1000 * l.length ≤ s.funds.bank.outside) : Reachable ok (l.foldl (enrolled (blockAt 1)) s) := by
  induction l generalizing s with
  | nil => exact hs
  | cons a l ih =>
    rw [List.map_cons, List.nodup_cons] at hn
    rw [List.length_cons] at hpay
    have hstep : Step s (blockAt 1, .createMiner (enrolment a)) (enrolled (blockAt 1) s a) :=
      createMiner_enrolment (hl a (.head _)) (hfresh a (.head _)) (hp ▸ hmin) (by omega) rfl
    refine ih (.step hs (hok s (blockAt 1) (enrolment a) hp) hstep) (fun b hb => hl b (.tail _ hb)) hn.2 hp
      (fun b hb => ?_) ?_
    · have hne : b.2 ≠ a.2 := fun e => hn.1 (e ▸ List.mem_map_of_mem hb)
      have e : (s.funds.miners.put (enrolledMiner a)).get? b.2 = s.funds.miners.get? b.2 :=
        Table.get?_put_ne hne
      exact e.trans (hfresh b (.tail _ hb))
    · show 1000 * l.length ≤ s.funds.bank.outside - 1000
      omega

/-- The village is reached by five registrations. -/
theorem reachable_village (hp : p.validate = .ok ()) (hmin : p.minStake ≤ 1000)
    (hok : ∀ s c msg, s.params = p → ok s (c, .createMiner msg)) : Reachable ok (village p) :=
  reachable_enrolled hmin hok accounts (.init ⟨p, 0, 1000000, hp, rfl⟩) (fun _ h => h) (by decide)
    rfl (fun _ _ => rfl) (show 1000 * accounts.length ≤ 1000000 by decide)

end Village

/-! ## What the runs are made of -/

/-- The address and the miner id of the `i`-th account. -/
def nameOf (i : Nat) : Str := (accounts.getD i ([], [])).1

def idOf (i : Nat) : Str := (accounts.getD i ([], [])).2

/-- The job of the runs. -/
def ticket : Str := "job".toList

/-- The address of the authority. -/
def governance : Str := bytesToString (newModuleAddress "gov".toList)

/-- The client opens the job. -/
def opening (fee : UInt64) : Action := .openJob ⟨client, ticket, fee⟩

/-- The `i`-th miner anchors an answer under a key of the job. -/
def anchors (i : Nat) (role : String) (result : String) : Action :=
  .createCommit ⟨nameOf i, ticket ++ commitKeySep ++ role.toList ++ idOf i, [], result.toList, [], [], []⟩

/-- Audit mode: half of the jobs are drawn, and half of a payment is retained. -/
def auditMode : Params :=
  { Params.default with
    verificationMode := 1
    auditSampleBps := 5000
    disputeWindow := 10
    disputeBond := 100
    committeeRevealDelay := 1
    auditResolveTimeout := 20
    holdBps := 5000 }

theorem validate_auditMode [Chain] : auditMode.validate = .ok () := by
  simp only [Params.validate, Params.validateMode, Params.validateMode1, Params.validateEpoch14,
    Params.validateEpoch15, bind_unit_ok, refuse_ok]
  simp [auditMode, Params.default, Params.effectiveAuditFloor]
  decide

/-- A job of 100 coins in audit mode, up to its settlement. -/
def served : List (Ctx × Action) :=
  [(blockAt 2, opening 100), (blockAt 3, .endBlock), (blockAt 4, anchors 2 "" "1"),
    (blockAt 5, .settleSemantic ⟨client, ticket⟩)]

/-- A run that is not restricted. -/
abbrev free (_ : State) (_ : Ctx × Action) : Bool := true

end Dendra.Jobs
