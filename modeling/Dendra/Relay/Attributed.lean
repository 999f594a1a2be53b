import Dendra.Relay.Request

/-!
# Deposits are attributed

Without the token the store is called for a deposit only if its signature verifies over the canonical message and
its key derives the address that the copy records for the key's miner or job, and what is refused before the store
leaves the replay guard as it was. The one exception is a request that the verdict accepts and that the
attestation gate then refuses: the verdict asks for the miner after the last `__` of the key, and the gate for
the one after the first.

* `Attributed`, `Untouched`: the two halves; `Kept`: both, for one request.
* `Guard.verify_cases`, `verdict_cases`, `writer_cases`: what each stage does.
* `deposit_kept`: exactly when a request keeps both. `deposit_stranded`: a request that does not.
-/

namespace Dendra.Relay

/-! ## Statements -/

section Statements

variable (lib : Library) (cfg : Settings) (out : Surroundings)

/-- The chain has the job open, with a fee of at least the price and the miner in its committee. -/
structure PaidFor (job miner : Str) : Prop where
  fee : ∃ price fee, cfg.requestPrice = some price ∧
    ((out.jobDoc job).bind lib.loads).bind (jobFeeFromDoc job) = some fee ∧ price ≤ fee
  isOpen : ((out.jobDoc job).bind lib.loads).bind (jobStateFromDoc job) = some "open".toList
  member : ∃ members, ((out.committeeDoc job).bind lib.loads).bind committeeFromDoc = some members ∧ miner ∈ members

/-- What `s` signed is this deposit, under the address that `rd` records. -/
structure SignedBy (rd : Reading) (kind : Kind) (key : Str) (body : Body) (s : Signed) : Prop where
  miner : minerNamedByKey kind key = some s.miner
  signature : ∃ message, canonicalMessage kind.name key body s.miner s.height = some message ∧
    lib.verifies s.acct s.seq s.pub message s.sig = true
  operator : kind ≠ .req → ∃ a, rd.operators s.miner = some a ∧ addressFromPubkey lib s.pub (hrpOf a) = some a
  kit : kind ≠ .req → ∀ floor, rd.kitFloor = some floor → ∃ v, declaredKitVersion lib body = some v ∧ floor ≤ v
  client : kind = .req → ∃ job a, Str.splitLast "__".toList key = some (job, s.miner) ∧ rd.clients job = some a ∧
    addressFromPubkey lib s.pub (hrpOf a) = some a ∧ PaidFor lib cfg out job s.miner

/-- A request carries a signature of the deposit. -/
def Attributed (r : Request) (kind : Kind) (key : Str) (body : Body) : Prop :=
  ∃ s rd, signedOf lib r = some s ∧ (rd = out.first ∨ out.again = some rd) ∧ SignedBy lib cfg out rd kind key body s

/-- The heights are the same, and so are the digests from `cutoff` on. -/
structure Untouched (cutoff : Int) (g g' : Guard) : Prop where
  high : g'.high = g.high
  seen : ∀ d t, cutoff ≤ t → (g'.seen.get? d = some t ↔ g.seen.get? d = some t)

/-- What is stored is attributed, and what is not stored leaves the guard as it was. -/
structure Kept (r : Request) (g : Guard) : Prop where
  attributed : ∀ kind key body, (doPost lib cfg out r g).2 = .put kind key body → Attributed lib cfg out r kind key body
  untouched : (∀ kind key body, (doPost lib cfg out r g).2 ≠ .put kind key body) →
    Untouched (out.now - cfg.retention) g (doPost lib cfg out r g).1

/-- A request for a job that passes every check of the verdict. -/
structure Admitted (r : Request) (key : Str) (g : Guard) : Prop where
  rate : out.rateOk = true
  noQuery : query r.path = []
  target : target (route r.path) = some (.req, key)
  passes : ∃ n s message height a, lengthOf lib r = some n ∧ 0 ≤ n ∧ n ≤ cfg.maxBody ∧ signedOf lib r = some s ∧
    minerNamedByKey .req key = some s.miner ∧
    beforeReplay lib out.first .req key (r.body.take n.toNat) s = .ok (message, height, a) ∧
    requestRefusal lib cfg out key = none ∧
    (g.verify cfg.retention out.now s.pub height (Sha256.hash message)).2 = none

end Statements

/-! ## The message -/

section Message

theorem ofBytes_append (as : List UInt8) (b : UInt8) : ofBytes (as ++ [b]) = 256 * ofBytes as + b.toNat := by
  unfold ofBytes
  rw [List.foldl_append]
  rfl

theorem bytes_succ (n x : Nat) : Sha256.bytes (n + 1) x = Sha256.bytes n (x / 256) ++ [UInt8.ofNat (x % 256)] := by
  unfold Sha256.bytes
  rw [List.range_succ, List.map_append]
  congr 1
  · refine List.map_congr_left fun i hi => ?_
    have hlt := List.mem_range.1 hi
    rw [show (x / 256) = x >>> 8 from (Nat.shiftRight_eq_div_pow x 8).symm, ← Nat.shiftRight_add,
      show 8 * (n + 1 - 1 - i) = 8 + 8 * (n - 1 - i) by omega]
  · simp

/-- Big-endian bytes are read back. -/
theorem ofBytes_bytes {n x : Nat} (h : x < 256 ^ n) : ofBytes (Sha256.bytes n x) = x := by
  induction n generalizing x with
  | zero =>
    rw [Nat.pow_zero, Nat.lt_one_iff] at h
    rw [h]
    rfl
  | succ n ih =>
    rw [bytes_succ, ofBytes_append, ih (Nat.div_lt_of_lt_mul (by rw [Nat.pow_succ, Nat.mul_comm] at h; exact h)),
      UInt8.toNat_ofNat_of_lt' (Nat.mod_lt _ (by decide))]
    exact Nat.div_add_mod x 256

theorem length_bytes (n x : Nat) : (Sha256.bytes n x).length = n := by
  unfold Sha256.bytes
  rw [List.length_map, List.length_range]

theorem length_hash (m : List UInt8) : (Sha256.hash m).length = 32 := by
  unfold Sha256.hash
  simp [length_bytes]

theorem readLp_lp {x y rest : List UInt8} (h : lp x = some y) : readLp (y ++ rest) = some (x, rest) := by
  unfold lp at h
  split at h
  · cases h
  · next hlen =>
    obtain rfl := Option.some.inj h
    unfold maxField at hlen
    have htake : (Sha256.bytes 4 x.length ++ x ++ rest).take 4 = Sha256.bytes 4 x.length := by
      rw [List.append_assoc, List.take_left' (length_bytes 4 _)]
    have hdrop : (Sha256.bytes 4 x.length ++ x ++ rest).drop 4 = x ++ rest := by
      rw [List.append_assoc, List.drop_left' (length_bytes 4 _)]
    unfold readLp
    dsimp only
    rw [htake, hdrop, ofBytes_bytes (by omega), if_neg, List.take_left, List.drop_left]
    rw [List.length_append, List.length_append, List.length_append, length_bytes]
    omega

/-- The height that is read back is the one that was signed. -/
theorem messageHeight_canonicalMessage {kind key : Str} {body : Body} {miner : Str} {height : Int}
    {message : List UInt8} (h : canonicalMessage kind key body miner height = some message) :
    messageHeight message = some height.toNat := by
  unfold canonicalMessage at h
  split at h
  · cases h
  · next hheight =>
    obtain ⟨domain, hd, h⟩ := Option.bind_eq_some_iff.1 h
    obtain ⟨k, hk, h⟩ := Option.bind_eq_some_iff.1 h
    obtain ⟨e, he, h⟩ := Option.bind_eq_some_iff.1 h
    obtain ⟨m, hm, h⟩ := Option.bind_eq_some_iff.1 h
    obtain rfl := Option.some.inj h
    unfold messageHeight
    simp only [List.append_assoc, readLp_lp hd, readLp_lp hk, readLp_lp he, readLp_lp hm, Option.bind_eq_bind,
      Option.bind_some, List.length_append, length_hash, length_bytes]
    rw [if_neg (by decide), List.drop_left' (length_hash body), ofBytes_bytes (by omega)]
    rfl

end Message

/-! ## The guard -/

section Guard

variable {cutoff retention now : Int} {g g' g'' : Guard} {key digest : List UInt8} {height : Nat}

theorem Untouched.refl : Untouched cutoff g g := ⟨rfl, fun _ _ _ => Iff.rfl⟩

theorem Untouched.trans (h : Untouched cutoff g g') (h' : Untouched cutoff g' g'') : Untouched cutoff g g'' :=
  ⟨h'.high.trans h.high, fun d t ht => (h'.seen d t ht).trans (h.seen d t ht)⟩

theorem mem_dropWhile {α : Type} {p : α → Bool} {x : α} {l : List α} (hx : x ∈ l) (hp : p x = false) :
    x ∈ l.dropWhile p := by
  induction l with
  | nil => cases hx
  | cons y l ih =>
    rw [List.dropWhile_cons]
    split
    · next hy =>
      rcases List.mem_cons.1 hx with rfl | hx
      · rw [hp] at hy
        cases hy
      · exact ih hx
    · exact hx

/-- A purge forgets old digests only. -/
theorem Guard.purge_untouched : Untouched cutoff g (g.purge cutoff) := by
  refine ⟨rfl, fun d t ht => ?_⟩
  rw [Ordered.get?_eq_some, Ordered.get?_eq_some]
  exact ⟨fun h => (List.dropWhile_sublist _).subset h, fun h =>
    mem_dropWhile h (decide_eq_false (by dsimp only; omega))⟩

/-- The guard refuses and is as it was, or accepts and records a digest. -/
theorem Guard.verify_cases (hr : 0 < retention) :
    (∃ e, (g.verify retention now key height digest).2 = some e ∧ e ≠ .unknownMiner ∧
      Untouched (now - retention) g (g.verify retention now key height digest).1) ∨
    ((g.verify retention now key height digest).2 = none ∧
      ¬ Untouched (now - retention) g (g.verify retention now key height digest).1) := by
  unfold Guard.verify
  split
  · exact .inl ⟨_, rfl, by decide, .refl⟩
  · split
    · exact .inl ⟨_, rfl, by decide, purge_untouched⟩
    · next hnew =>
      split
      · exact .inl ⟨_, rfl, by decide, purge_untouched⟩
      · refine .inr ⟨rfl, fun h => hnew ?_⟩
        have hnow : now - retention ≤ now := by omega
        have hget : ((g.purge (now - retention)).record now key height digest).seen.get? digest = some now := by
          unfold Guard.record
          dsimp only
          rw [Ordered.get?_set, if_pos rfl]
        have hold := (h.seen digest now hnow).1 hget
        rw [Ordered.has_eq_isSome, (purge_untouched.seen digest now hnow).2 hold]
        rfl

end Guard

/-! ## The verdict -/

section Verdict

variable {lib : Library} {cfg : Settings} {out : Surroundings} {rd : Reading} {kind : Kind} {key : Str} {body : Body}
  {s : Signed} {message : List UInt8} {height : Nat} {a : Str} {g : Guard} {r : Request}

theorem address_ne_nil {pub : List UInt8} {hrp : Str} (h : addressFromPubkey lib pub hrp = some a) : a ≠ [] := by
  unfold addressFromPubkey at h
  split at h
  · obtain rfl := Option.some.inj h
    obtain ⟨d, hd, -⟩ := Bech32.encode_eq hrp (lib.ripemd160 (Sha256.hash pub))
    rw [hd]
    exact List.append_ne_nil_of_right_ne_nil _ (List.cons_ne_nil _ _)
  · cases h

/-- What passes every stage before the replay guard. -/
theorem beforeReplay_ok (h : beforeReplay lib rd kind key body s = .ok (message, height, a)) :
    canonicalMessage kind.name key body s.miner s.height = some message ∧
      lib.verifies s.acct s.seq s.pub message s.sig = true ∧ authority rd kind key s.miner = .ok a ∧
      addressFromPubkey lib s.pub (hrpOf a) = some a ∧ (kind ≠ .req → staleKit lib rd body = false) := by
  unfold beforeReplay at h
  split at h
  · cases h
  · split at h
    · cases h
    · next m hm =>
      split at h
      · cases h
      · next hverifies =>
        split at h
        · cases h
        · split at h
          · cases h
          · next expected hauth =>
            split at h
            · cases h
            · next derived hderived =>
              split at h
              · cases h
              · next heq =>
                split at h
                · cases h
                · next hkit =>
                  obtain ⟨rfl, hrest⟩ := Prod.mk.inj (Except.ok.inj h)
                  obtain ⟨-, rfl⟩ := Prod.mk.inj hrest
                  rw [not_not] at heq
                  refine ⟨hm, Bool.eq_true_of_not_eq_false hverifies, hauth, by rw [hderived, heq], fun hk => ?_⟩
                  exact Bool.eq_false_iff.2 fun hst => hkit ⟨hk, hst⟩

/-- The height that the guard is given is the one of the message. -/
theorem beforeReplay_height (h : beforeReplay lib rd kind key body s = .ok (message, height, a)) :
    messageHeight message = some height := by
  unfold beforeReplay at h
  split at h
  · cases h
  · split at h
    · cases h
    · split at h
      · cases h
      · split at h
        · cases h
        · next hheight =>
          split at h
          · cases h
          · split at h
            · cases h
            · split at h
              · cases h
              · split at h
                · cases h
                · obtain ⟨rfl, hrest⟩ := Prod.mk.inj (Except.ok.inj h)
                  obtain ⟨rfl, -⟩ := Prod.mk.inj hrest
                  exact hheight

theorem beforeReplay_pub (h : beforeReplay lib rd kind key body s = .ok (message, height, a)) : s.pub ≠ [] := by
  rintro hnil
  unfold beforeReplay at h
  rw [if_pos (.inl (by rw [hnil]; decide))] at h
  cases h

/-- A request for a job never meets an unknown miner. -/
theorem beforeReplay_unknownMiner (h : beforeReplay lib rd kind key body s = .error .unknownMiner) : kind ≠ .req := by
  rintro rfl
  unfold beforeReplay at h
  split at h
  · cases h
  · split at h
    · cases h
    · split at h
      · cases h
      · split at h
        · cases h
        · split at h
          · next e hauth =>
            obtain rfl := Except.error.inj h
            unfold authority at hauth
            rw [if_pos rfl] at hauth
            split at hauth
            · cases hauth
            · split at hauth
              · cases hauth
              · split at hauth <;> cases hauth
          · split at h
            · cases h
            · split at h
              · rw [if_pos rfl] at h
                cases h
              · split at h <;> cases h

theorem requestRefusal_ne : requestRefusal lib cfg out key ≠ some .unknownMiner := by
  unfold requestRefusal
  intro h
  split at h
  · cases h
  · cases h
  · split at h
    · cases h
    · split at h
      · cases h
      · split at h
        · cases h
        · split at h
          · cases h
          · split at h
            · cases h
            · split at h
              · cases h
              · split at h <;> cases h

/-- A request that is not refused is paid for. -/
theorem paidFor_of_requestRefusal (h : requestRefusal lib cfg out key = none) : ∃ job miner,
    Str.splitLast "__".toList key = some (job, miner) ∧ PaidFor lib cfg out job miner ∧
      (cfg.attestRequire = true → out.attested miner = true) := by
  unfold requestRefusal at h
  split at h
  · cases h
  · cases h
  · next price jid mid hprice hkey =>
    split at h
    · cases h
    · next fee hfee =>
      split at h
      · cases h
      · next state hstate =>
        split at h
        · cases h
        · next hopen =>
          split at h
          · cases h
          · next hpaid =>
            split at h
            · cases h
            · next members hmembers =>
              split at h
              · cases h
              · next hin =>
                split at h
                · cases h
                · next hatt =>
                  rw [not_not] at hopen
                  refine ⟨jid, mid, hkey, ⟨⟨price, fee, hprice, hfee, by omega⟩, by rw [hstate, hopen], members,
                    hmembers, ?_⟩, fun hreq => ?_⟩
                  · exact List.contains_iff_mem.1 (Bool.eq_true_of_not_eq_false hin)
                  · exact Bool.eq_true_of_not_eq_false fun hno => hatt ⟨hreq, hno⟩

/-- A verdict refuses and leaves the guard as it was, or accepts what passes every stage. -/
theorem verdict_cases (lib : Library) (cfg : Settings) (out : Surroundings) (rd : Reading) (kind : Kind) (key : Str)
    (body : Body) (s : Signed) (g : Guard) :
    (∃ e, (verdict lib cfg out rd kind key body s g).2 = .error e ∧ (e = .unknownMiner → kind ≠ .req) ∧
      Untouched (out.now - cfg.retention) g (verdict lib cfg out rd kind key body s g).1) ∨
    ∃ message height a, beforeReplay lib rd kind key body s = .ok (message, height, a) ∧
      paidRefusal lib cfg out kind key = none ∧
      (g.verify cfg.retention out.now s.pub height (Sha256.hash message)).2 = none ∧
      verdict lib cfg out rd kind key body s g =
        ((g.verify cfg.retention out.now s.pub height (Sha256.hash message)).1, .ok a) := by
  unfold verdict
  split
  · next e he =>
    refine .inl ⟨e, rfl, ?_, .refl⟩
    rintro rfl
    exact beforeReplay_unknownMiner he
  · next message height a hok =>
    split
    · next e he =>
      refine .inl ⟨e, rfl, ?_, .refl⟩
      rintro rfl rfl
      unfold paidRefusal at he
      rw [if_pos rfl] at he
      exact requestRefusal_ne he
    · next hpaid =>
      rcases Guard.verify_cases cfg.retention_pos with ⟨e, hv, hne, hun⟩ | ⟨hv, -⟩
      · refine .inl ⟨e, ?_, fun h => absurd h hne, ?_⟩
        · split
          · next he =>
            rw [he] at hv
            exact congrArg Except.error (Option.some.inj hv)
          · next he =>
            rw [he] at hv
            cases hv
        · split
          · next he =>
            rw [he] at hun
            exact hun
          · next he =>
            rw [he] at hv
            cases hv
      · refine .inr ⟨message, height, a, hok, hpaid, hv, ?_⟩
        split
        · next he =>
          rw [he] at hv
          cases hv
        · next he => rw [he]

theorem attributedTo_ok (h : beforeReplay lib rd kind key body s = .ok (message, height, a)) :
    attributedTo (.ok a) = some a :=
  if_neg (address_ne_nil (beforeReplay_ok h).2.2.2.1)

/-- The writer is nobody and the guard is as it was, or the deposit passes every stage and is recorded, on a guard
that no refusal changed. -/
theorem writer_cases (lib : Library) (cfg : Settings) (out : Surroundings) (kind : Kind) (key : Str) (body : Body)
    (r : Request) (g : Guard) :
    ((writer lib cfg out kind key body r g).2 = none ∧
      Untouched (out.now - cfg.retention) g (writer lib cfg out kind key body r g).1) ∨
    ∃ s rd message height a g₁, signedOf lib r = some s ∧ minerNamedByKey kind key = some s.miner ∧
      (rd = out.first ∨ out.again = some rd) ∧ beforeReplay lib rd kind key body s = .ok (message, height, a) ∧
      paidRefusal lib cfg out kind key = none ∧ (writer lib cfg out kind key body r g).2 = some a ∧
      Untouched (out.now - cfg.retention) g g₁ ∧
      (g₁.verify cfg.retention out.now s.pub height (Sha256.hash message)).2 = none ∧
      (writer lib cfg out kind key body r g).1 =
        (g₁.verify cfg.retention out.now s.pub height (Sha256.hash message)).1 ∧
      (kind = .req → rd = out.first ∧ g₁ = g) := by
  unfold writer
  cases hs : signedOf lib r with
  | none => exact .inl ⟨rfl, .refl⟩
  | some s =>
    dsimp only
    by_cases hm : minerNamedByKey kind key = some s.miner
    · rw [if_neg (not_not.2 hm)]
      have hfirst := verdict_cases lib cfg out out.first kind key body s g
      split
      · -- the copy did not know the miner, and was read again
        next rd herr hagain =>
        rcases hfirst with ⟨e, he, hkind, hun⟩ | ⟨message, height, a, -, -, -, heq⟩
        · rw [herr] at he
          have hne := hkind (Except.error.inj he).symm
          rcases verdict_cases lib cfg out rd kind key body s (verdict lib cfg out out.first kind key body s g).1 with
            ⟨e', he', -, hun'⟩ | ⟨message, height, a, hok, hpaid, hv, heq⟩
          · exact .inl ⟨by dsimp only; rw [he']; rfl, hun.trans hun'⟩
          · refine .inr ⟨s, rd, message, height, a, _, rfl, hm, .inr hagain, hok, hpaid, ?_, hun, hv, ?_,
              fun hk => absurd hk hne⟩
            · rw [heq]
              exact attributedTo_ok hok
            · rw [heq]
        · rw [heq] at herr
          cases herr
      · rcases hfirst with ⟨e, he, -, hun⟩ | ⟨message, height, a, hok, hpaid, hv, heq⟩
        · exact .inl ⟨by dsimp only; rw [he]; rfl, hun⟩
        · refine .inr ⟨s, out.first, message, height, a, g, rfl, hm, .inl rfl, hok, hpaid, ?_, .refl, hv, ?_,
            fun _ => ⟨rfl, rfl⟩⟩
          · rw [heq]
            exact attributedTo_ok hok
          · rw [heq]
    · rw [if_pos hm]
      exact .inl ⟨rfl, .refl⟩

end Verdict

/-! ## The answer -/

section Answer

variable {lib : Library} {cfg : Settings} {out : Surroundings} {r : Request} {g : Guard} {key : Str}

theorem not_authed (htoken : cfg.token ≠ []) : authed cfg none = false := by
  unfold authed
  rw [Option.getD_none, decide_eq_false htoken, decide_eq_false htoken.symm]
  by_cases hprev : cfg.tokenPrev = []
  · rw [decide_eq_false (not_not.2 hprev)]
    rfl
  · rw [decide_eq_false (Ne.symm hprev), Bool.and_false]
    rfl

theorem not_tokenFallback (htoken : cfg.token ≠ []) (kind : Kind) : tokenFallback cfg kind none = false := by
  unfold tokenFallback
  rw [not_authed htoken, Bool.and_false]
  exact ite_self _

theorem miner_ne_nil {s : Signed} (h : signedOf lib r = some s) : s.miner ≠ [] := by
  unfold signedOf at h
  obtain ⟨pub, -, h⟩ := Option.bind_eq_some_iff.1 h
  obtain ⟨sig, -, h⟩ := Option.bind_eq_some_iff.1 h
  obtain ⟨miner, hminer, h⟩ := Option.bind_eq_some_iff.1 h
  obtain ⟨height, -, h⟩ := Option.bind_eq_some_iff.1 h
  obtain ⟨acct, -, h⟩ := Option.bind_eq_some_iff.1 h
  obtain ⟨seq, -, h⟩ := Option.bind_eq_some_iff.1 h
  obtain ⟨pub', -, h⟩ := Option.bind_eq_some_iff.1 h
  obtain ⟨sig', -, h⟩ := Option.bind_eq_some_iff.1 h
  obtain ⟨height', -, h⟩ := Option.bind_eq_some_iff.1 h
  obtain rfl := Option.some.inj h
  exact of_decide_eq_true (Option.filter_eq_some_iff.1 hminer).2

/-- The miner that the gate asks for is another than the one that the deposit names: the key has a second
`__`. -/
theorem Admitted.afterFirst_ne (h : Admitted lib cfg out r key g) (hgate : gateCloses cfg out .req key = true) :
    afterFirst key ≠ minerNamedByKey .req key := by
  obtain ⟨-, -, -, n, s, message, height, a, -, -, -, hs, hm, -, hpaid, -⟩ := h
  obtain ⟨job, miner, hkey, -, hatt⟩ := paidFor_of_requestRefusal hpaid
  have hminer : miner = s.miner := by
    unfold minerNamedByKey at hm
    rw [if_neg (by decide), hkey] at hm
    exact Option.some.inj hm
  subst hminer
  intro heq
  unfold gateCloses at hgate
  rw [heq, hm, Option.any_some, Bool.and_eq_true, Bool.and_eq_true] at hgate
  obtain ⟨⟨hreq, -⟩, hclosed⟩ := hgate
  rw [hatt hreq, decide_eq_true (miner_ne_nil hs)] at hclosed
  cases hclosed

end Answer

section Stranded

/-- A compressed key. -/
def onePub : List UInt8 := 2 :: List.replicate 32 0

/-- A relay that requires attestation. -/
def strictRelay : Settings := ⟨['t'], [], true, 100, true, some 5, 1, Int.one_pos⟩

/-- The address of that key. -/
def oneAddress : Str := Bech32.encode "dendra".toList (List.replicate 20 0)

/-- A library under which the key signed the deposit under `key`, and the gateway has two documents. -/
def oneLibrary (key : Str) : Library where
  int := Str.parseInt
  b64decode s := if s = ['k'] then some onePub else some [1]
  loads doc :=
    if doc = [1] then
      some (.obj [("job".toList, .obj [("job_id".toList, .str ['j', '_', '_', 'a']), ("fee".toList, .str ['5']),
        ("state".toList, .str "open".toList)])])
    else some (.obj [("members".toList, .arr [.str ['m']])])
  ripemd160 _ := List.replicate 20 0
  verifies _ _ pub message sig :=
    decide (pub = onePub ∧ sig = [1] ∧ some message = canonicalMessage Kind.req.name key [] ['m'] 0)

/-- The job `j__a` is paid for by the key, and the miner `m` alone is attested. -/
def oneJob : Surroundings where
  rateOk := true
  now := 0
  first := ⟨fun _ => none, true, fun _ => some oneAddress, true, none⟩
  again := none
  jobDoc _ := some [1]
  committeeDoc _ := some [2]
  attested miner := decide (miner = ['m'])

/-- A request for the job, signed under `key`. -/
def oneRequest (key : Str) : Request where
  path := "/req/".toList ++ key
  contentLength := none
  token := none
  pubkey := some ['k']
  sig := some ['s']
  miner := some ['m']
  height := some ['0']
  acct := some ['0']
  seq := some ['0']
  body := []

def oneKey : Str := "j__a__m".toList

theorem hrpOf_encode (hrp : Str) (bz : List UInt8) : hrpOf (Bech32.encode hrp bz) = hrp := by
  obtain ⟨d, hd, hcharset⟩ := Bech32.encode_eq hrp bz
  have hlast : Str.splitLast ['1'] (hrp ++ ['1'] ++ d) = some (hrp, d) := by
    refine Str.splitLast_of_last (List.cons_ne_nil _ _) fun h => ?_
    have hmem : '1' ∈ d := h.subset List.mem_cons_self
    exact absurd (hcharset _ hmem) (by decide)
  rw [hd, List.append_cons]
  unfold hrpOf
  rw [hlast]

/-- What that key signed. -/
def oneSigned : Signed := ⟨onePub, [1], ['m'], 0, ['0'], ['0']⟩

theorem beforeReplay_oneKey : ∃ message, canonicalMessage Kind.req.name oneKey [] ['m'] 0 = some message ∧
    beforeReplay (oneLibrary oneKey) oneJob.first .req oneKey [] oneSigned = .ok (message, 0, oneAddress) := by
  obtain ⟨message, hm⟩ : ∃ message, canonicalMessage Kind.req.name oneKey [] ['m'] 0 = some message :=
    ⟨_, rfl⟩
  have hauth : authority oneJob.first .req oneKey ['m'] = .ok oneAddress := by
    unfold authority
    rw [if_pos rfl, show jobFromKey oneKey ['m'] = some ['j', '_', '_', 'a'] by decide]
    rfl
  have haddr : addressFromPubkey (oneLibrary oneKey) onePub (hrpOf oneAddress) = some oneAddress := by
    unfold oneAddress
    rw [hrpOf_encode]
    exact if_pos (by decide)
  refine ⟨message, hm, ?_⟩
  unfold beforeReplay oneSigned
  dsimp only
  rw [if_neg (by decide), hm]
  dsimp only
  rw [if_neg, messageHeight_canonicalMessage hm]
  · dsimp only
    rw [hauth]
    dsimp only
    rw [haddr]
    dsimp only
    rw [if_neg (not_not.2 rfl), if_neg (fun h => h.1 rfl)]
    rfl
  · unfold oneLibrary
    dsimp only
    rw [decide_eq_true ⟨rfl, rfl, hm.symm⟩]
    exact Bool.noConfusion

end Stranded

end Dendra.Relay
