import Dendra.Relay.Attributed
import Dendra.Relay.Accounting
import Dendra.Lib.Run

/-!
# Deposits that are sent again

The replay guard records the digest of a deposit before the store is asked, and lives in memory; the store is on
disk. A copy of a deposit is refused while the guard holds its digest, or once a later height of its key was
accepted.

* `Guard.Grows`: no height goes down and no digest that is young is lost, whatever a request is answered.
* `NodeInv`: the guard knows what was accepted since the start. `copy_changes_nothing`: in every run, a copy that
  the guard still knows changes nothing; `copy_replaces`: a copy sent again after a restart.
* `resend_answered`: exactly when a deposit that is sent again is answered as the store answers it;
  `resend_refused`: the same request twice.
-/

namespace Dendra.Relay

/-! ## The guard over time -/

/-- Every height is at least what it was, and every digest from `cutoff` on is held, at its time or later. -/
structure Guard.Grows (cutoff : Int) (g g' : Guard) : Prop where
  high : ∀ k H, g.high.get? k = some H → ∃ H', g'.high.get? k = some H' ∧ H ≤ H'
  seen : ∀ d t, cutoff ≤ t → g.seen.get? d = some t → ∃ t', t ≤ t' ∧ g'.seen.get? d = some t'

section Grows

variable {cutoff retention now : Int} {g g' g'' : Guard} {key digest : List UInt8} {height : Nat}

theorem Untouched.grows (h : Untouched cutoff g g') : g.Grows cutoff g' where
  high k H hH := ⟨H, by rw [h.high, hH], le_refl H⟩
  seen d t ht hd := ⟨t, le_refl t, (h.seen d t ht).2 hd⟩

theorem Guard.Grows.trans (h : g.Grows cutoff g') (h' : g'.Grows cutoff g'') : g.Grows cutoff g'' where
  high k H hH := by
    obtain ⟨H₁, h₁, hle₁⟩ := h.high k H hH
    obtain ⟨H₂, h₂, hle₂⟩ := h'.high k H₁ h₁
    exact ⟨H₂, h₂, hle₁.trans hle₂⟩
  seen d t ht hd := by
    obtain ⟨t₁, hle₁, h₁⟩ := h.seen d t ht hd
    obtain ⟨t₂, hle₂, h₂⟩ := h'.seen d t₁ (ht.trans hle₁) h₁
    exact ⟨t₂, hle₁.trans hle₂, h₂⟩

/-- What the guard accepts it did not hold, at no lower height, and then it holds it. -/
theorem Guard.verify_accepts (h : (g.verify retention now key height digest).2 = none) :
    (g.purge (now - retention)).seen.has digest = false ∧ (∀ H, g.high.get? key = some H → H ≤ height) ∧
      g.verify retention now key height digest = ((g.purge (now - retention)).record now key height digest, none) := by
  unfold Guard.verify at h ⊢
  split at h
  · cases h
  · next hshape =>
    split at h
    · cases h
    · next hnew =>
      split at h
      · cases h
      · next hhigh =>
        rw [if_neg hshape, if_neg hnew, if_neg hhigh]
        refine ⟨Bool.eq_false_iff.2 hnew, fun H hH => ?_, rfl⟩
        rw [hH, Option.any_some, decide_eq_true_eq] at hhigh
        omega

theorem Guard.record_grows (hnew : g.seen.has digest = false) (hhigh : ∀ H, g.high.get? key = some H → H ≤ height) :
    g.Grows cutoff (g.record now key height digest) where
  high k H hH := by
    unfold Guard.record
    dsimp only
    split
    · by_cases hk : k = key
      · subst hk
        exact ⟨height, by rw [Ordered.get?_set, if_pos rfl], hhigh H hH⟩
      · exact ⟨H, by rw [Ordered.get?_set, if_neg hk, hH], le_refl H⟩
    · exact ⟨H, hH, le_refl H⟩
  seen d t _ hd := by
    have hne : d ≠ digest := by
      rintro rfl
      rw [Ordered.has_eq_isSome, hd] at hnew
      cases hnew
    refine ⟨t, le_refl t, ?_⟩
    unfold Guard.record
    dsimp only
    rw [Ordered.get?_set, if_neg hne, hd]

/-- What is recorded is held. -/
theorem Guard.record_holds (now : Int) (digest : List UInt8) (hhigh : ∀ H, g.high.get? key = some H → H ≤ height) :
    (g.record now key height digest).seen.get? digest = some now ∧
      (g.record now key height digest).high.get? key = some height := by
  unfold Guard.record
  dsimp only
  refine ⟨by rw [Ordered.get?_set, if_pos rfl], ?_⟩
  split
  · rw [Ordered.get?_set, if_pos rfl]
  · next hno =>
    cases hget : g.high.get? key with
    | none =>
      rw [hget] at hno
      exact absurd rfl hno
    | some H =>
      rw [hget, Option.all_some, decide_eq_true_eq] at hno
      have := hhigh H hget
      rw [show H = height by omega]

theorem Guard.verify_grows (h : (g.verify retention now key height digest).2 = none) :
    g.Grows (now - retention) (g.verify retention now key height digest).1 := by
  obtain ⟨hnew, hhigh, heq⟩ := verify_accepts h
  rw [heq]
  exact purge_untouched.grows.trans (record_grows hnew hhigh)

end Grows

/-! ## A deposit at the node -/

/-- The message that a request carries to the guard. -/
structure Carries (lib : Library) (r : Request) (pub : List UInt8) (height : Nat) (digest : List UInt8) : Prop where
  signed : ∃ kind key n s message, target (route r.path) = some (kind, key) ∧ lengthOf lib r = some n ∧
    signedOf lib r = some s ∧ s.pub = pub ∧
    canonicalMessage kind.name key (r.body.take n.toNat) s.miner s.height = some message ∧
    messageHeight message = some height ∧ Sha256.hash message = digest

section Deposit

variable {lib : Library} {cfg : Settings} {out : Surroundings} {r : Request} {g : Guard}

/-- A request carries one message. -/
theorem Carries.unique {pub pub' : List UInt8} {height height' : Nat} {digest digest' : List UInt8}
    (h : Carries lib r pub height digest) (h' : Carries lib r pub' height' digest') :
    pub = pub' ∧ height = height' ∧ digest = digest' := by
  obtain ⟨kind, key, n, s, message, ht, hn, hs, rfl, hm, hh, rfl⟩ := h.signed
  obtain ⟨kind', key', n', s', message', ht', hn', hs', rfl, hm', hh', rfl⟩ := h'.signed
  rw [ht] at ht'
  obtain ⟨rfl, rfl⟩ := Prod.mk.inj (Option.some.inj ht')
  rw [hn] at hn'
  obtain rfl := Option.some.inj hn'
  rw [hs] at hs'
  obtain rfl := Option.some.inj hs'
  rw [hm] at hm'
  obtain rfl := Option.some.inj hm'
  rw [hh] at hh'
  exact ⟨rfl, Option.some.inj hh', rfl⟩

/-- Without the token the guard grows, and a deposit is stored only if the guard accepted its message, on a guard
that no refusal changed. -/
theorem doPost_guard (lib : Library) (out : Surroundings) (g : Guard) (htoken : cfg.token ≠ []) (hnone : r.token = none) :
    g.Grows (out.now - cfg.retention) (doPost lib cfg out r g).1 ∧
      ∀ kind key body, (doPost lib cfg out r g).2 = .put kind key body → ∃ pub height digest g₁,
        Carries lib r pub height digest ∧ Untouched (out.now - cfg.retention) g g₁ ∧
        (g₁.verify cfg.retention out.now pub height digest).2 = none ∧
        (doPost lib cfg out r g).1 = (g₁.verify cfg.retention out.now pub height digest).1 := by
  unfold doPost
  dsimp only
  split
  · exact ⟨Untouched.refl.grows, by rintro _ _ _ ⟨⟩⟩
  · split
    · exact ⟨Untouched.refl.grows, by rintro _ _ _ ⟨⟩⟩
    · split
      · exact ⟨Untouched.refl.grows, by rintro _ _ _ ⟨⟩⟩
      · split
        · exact ⟨Untouched.refl.grows, by rintro _ _ _ ⟨⟩⟩
        · next n hn =>
          split
          · exact ⟨Untouched.refl.grows, by rintro _ _ _ ⟨⟩⟩
          · split
            · exact ⟨Untouched.refl.grows, by rintro _ _ _ ⟨⟩⟩
            · next kind key htarget =>
              rcases writer_cases lib cfg out kind key (r.body.take n.toNat) r g with
                ⟨hw, hun⟩ | ⟨s, rd, message, height, a, g₁, hs, -, -, hok, -, hw, hun, hv, heq, -⟩
              · rw [if_pos ⟨hw, by rw [hnone]; exact not_tokenFallback htoken kind⟩]
                exact ⟨hun.grows, by rintro _ _ _ ⟨⟩⟩
              · rw [if_neg fun h => by rw [hw] at h; cases h.1]
                have hgrows : g.Grows (out.now - cfg.retention) (writer lib cfg out kind key (r.body.take n.toNat) r g).1 := by
                  rw [heq]
                  exact hun.grows.trans (Guard.verify_grows hv)
                split
                · exact ⟨hgrows, by rintro _ _ _ ⟨⟩⟩
                · refine ⟨hgrows, fun kind' key' body' _ => ⟨s.pub, height, _, g₁, ⟨kind, key, n, s, message, htarget, hn,
                    hs, rfl, (beforeReplay_ok hok).1, ?_, rfl⟩, hun, hv, heq⟩⟩
                  exact beforeReplay_height hok

end Deposit

/-! ## Requests that pass -/

/-- A request that every stage of the verdict accepts but, it may be, the guard: its deposit, its signature, its
message and the address that signed. -/
structure Passes (lib : Library) (cfg : Settings) (out : Surroundings) (r : Request) (kind : Kind) (key : Str)
    (body : Body) (s : Signed) (message : List UInt8) (height : Nat) : Prop where
  rate : out.rateOk = true
  noQuery : query r.path = []
  target : target (route r.path) = some (kind, key)
  length : ∃ n, lengthOf lib r = some n ∧ 0 ≤ n ∧ n ≤ cfg.maxBody ∧ body = r.body.take n.toNat
  signed : signedOf lib r = some s
  named : minerNamedByKey kind key = some s.miner
  attributed : ∃ rd a, (rd = out.first ∨
    (beforeReplay lib out.first kind key body s = .error .unknownMiner ∧ out.again = some rd)) ∧
    beforeReplay lib rd kind key body s = .ok (message, height, a)
  paid : paidRefusal lib cfg out kind key = none
  gateOpen : gateCloses cfg out kind key = false

section Passes

variable {lib : Library} {cfg : Settings} {out : Surroundings} {r : Request} {g : Guard} {kind : Kind} {key : Str}
  {body : Body} {s : Signed} {message : List UInt8} {height : Nat} {rd : Reading} {a : Str}

theorem verdict_of_ok (hok : beforeReplay lib rd kind key body s = .ok (message, height, a))
    (hpaid : paidRefusal lib cfg out kind key = none) :
    (verdict lib cfg out rd kind key body s g).1 =
        (g.verify cfg.retention out.now s.pub height (Sha256.hash message)).1 ∧
      attributedTo (verdict lib cfg out rd kind key body s g).2 =
        if (g.verify cfg.retention out.now s.pub height (Sha256.hash message)).2 = none then some a else none := by
  unfold verdict
  rw [hok]
  dsimp only
  rw [hpaid]
  dsimp only
  split
  · next he =>
    rw [he]
    exact ⟨rfl, rfl⟩
  · next he =>
    rw [he]
    exact ⟨rfl, (attributedTo_ok hok).trans (if_pos rfl).symm⟩

/-- The guard decides on a request that passes every other stage. -/
theorem Passes.writer (h : Passes lib cfg out r kind key body s message height) :
    (writer lib cfg out kind key body r g).1 =
        (g.verify cfg.retention out.now s.pub height (Sha256.hash message)).1 ∧
      ((writer lib cfg out kind key body r g).2 = none ↔
        (g.verify cfg.retention out.now s.pub height (Sha256.hash message)).2 ≠ none) := by
  obtain ⟨rd, a, hrd, hok⟩ := h.attributed
  obtain ⟨hguard, hwriter⟩ := verdict_of_ok (g := g) hok h.paid
  have hiff : (attributedTo (verdict lib cfg out rd kind key body s g).2 = none ↔
      (g.verify cfg.retention out.now s.pub height (Sha256.hash message)).2 ≠ none) := by
    rw [hwriter]
    split
    · next hv => simp [hv]
    · next hv => simp [hv]
  unfold Relay.writer
  rw [h.signed]
  dsimp only
  rw [if_neg (not_not.2 h.named)]
  rcases hrd with rfl | ⟨herr, hagain⟩
  · split
    · next rd' he hagain =>
      -- the guard never refuses a miner
      unfold verdict at he
      rw [hok] at he
      dsimp only at he
      rw [h.paid] at he
      dsimp only at he
      split at he
      · next e hv =>
        obtain rfl := Except.error.inj he
        rcases Guard.verify_cases cfg.retention_pos with ⟨e', he', hne, -⟩ | ⟨hnone, -⟩
        · rw [hv] at he'
          exact absurd (Option.some.inj he').symm hne
        · rw [hv] at hnone
          cases hnone
      · cases he
    · exact ⟨hguard, hiff⟩
  · have hfirst : verdict lib cfg out out.first kind key body s g = (g, .error .unknownMiner) := by
      unfold verdict
      rw [herr]
    rw [hfirst, hagain]
    exact ⟨hguard, hiff⟩

/-- The guard decides whether the store is called. -/
theorem Passes.doPost (h : Passes lib cfg out r kind key body s message height) (htoken : cfg.token ≠ [])
    (hnone : r.token = none) : doPost lib cfg out r g =
      ((g.verify cfg.retention out.now s.pub height (Sha256.hash message)).1,
        if (g.verify cfg.retention out.now s.pub height (Sha256.hash message)).2 = none then .put kind key body
        else .refused 401) := by
  obtain ⟨n, hn, h0, hmax, rfl⟩ := h.length
  obtain ⟨hguard, hwriter⟩ := h.writer (g := g)
  unfold Relay.doPost
  dsimp only
  rw [if_neg (by rw [h.rate]; exact Bool.noConfusion), if_neg (by rw [h.target]; rintro ⟨⟨⟩, -⟩),
    if_neg (not_not.2 h.noQuery), hn]
  dsimp only
  rw [if_neg (by omega), h.target]
  dsimp only
  by_cases hv : (g.verify cfg.retention out.now s.pub height (Sha256.hash message)).2 = none
  · rw [if_neg fun hw => hwriter.1 hw.1 hv, if_neg (by rw [h.gateOpen]; exact Bool.noConfusion), hguard, if_pos hv]
  · rw [if_pos ⟨hwriter.2 hv, by rw [hnone]; exact not_tokenFallback htoken kind⟩, hguard, if_neg hv]

/-- A message that the guard holds is refused. -/
theorem Passes.refused (h : Passes lib cfg out r kind key body s message height) (htoken : cfg.token ≠ [])
    (hnone : r.token = none) (hheld : (g.purge (out.now - cfg.retention)).seen.has (Sha256.hash message) = true) :
    (Relay.doPost lib cfg out r g).2 = .refused 401 := by
  rw [h.doPost htoken hnone]
  refine if_neg fun hv => ?_
  rw [(Guard.verify_accepts hv).1] at hheld
  cases hheld

/-- The guard accepts a message that it does not hold, at no lower height. -/
theorem Passes.verify (h : Passes lib cfg out r kind key body s message height)
    (hmark : ∀ H, g.high.get? s.pub = some H → H ≤ height) :
    (g.verify cfg.retention out.now s.pub height (Sha256.hash message)).2 = none ↔
      (g.purge (out.now - cfg.retention)).seen.has (Sha256.hash message) = false := by
  obtain ⟨rd, a, -, hok⟩ := h.attributed
  constructor
  · exact fun hv => (Guard.verify_accepts hv).1
  · intro hnew
    unfold Guard.verify
    rw [if_neg (not_or.2 ⟨beforeReplay_pub hok, not_not.2 (length_hash message)⟩),
      if_neg (by rw [hnew]; exact Bool.noConfusion), if_neg]
    cases hget : g.high.get? s.pub with
    | none => exact Bool.noConfusion
    | some H =>
      rw [Option.any_some, decide_eq_true_eq]
      have := hmark H hget
      omega

end Passes

/-! ## The node -/

/-- The rank of a record and what the disk does. -/
structure Course where
  n : Nat
  removed : Str → Bool
  diskOk : Bool

/-- A relay with its store. `accepted` and `ever` are history: the requests that the store was called for, since
the start with their times, and ever. -/
structure Node where
  guard : Guard
  store : State
  clock : Int
  accepted : List (Request × Int)
  ever : List Request

/-- What the store's outcome is answered with. -/
def statusOf : Outcome → Nat
  | .ok => 200
  | .conflict => 409
  | .full => 507
  | .unavailable => 503

section Node

variable (lib : Library) (cfg : Settings) (store : Config)

/-- `do_POST` and `_put`. -/
def respond (out : Surroundings) (c : Course) (r : Request) (s : Node) : Node × Option Nat :=
  match doPost lib cfg out r s.guard with
  | (g, .refused status) => ({ s with guard := g, clock := out.now }, some status)
  | (g, .raised) => ({ s with guard := g, clock := out.now }, none)
  | (g, .put kind key body) =>
    let w := put store kind key body out.now c.n c.removed c.diskOk s.store
    (⟨g, w.1, out.now, (r, out.now) :: s.accepted, r :: s.ever⟩, some (statusOf w.2))

inductive NodeAction
  | deposit (out : Surroundings) (c : Course) (r : Request)
  | restart (now : Int) (removed : Str → Bool) (listing : Kind → List (Str × Record))

/-- A request without the token, or a restart: the guard is empty again and the store is read back. -/
inductive NodeStep : Node → NodeAction → Node → Prop
  | deposit {s : Node} {out : Surroundings} {c : Course} {r : Request} (hclock : s.clock ≤ out.now)
      (htoken : r.token = none) : NodeStep s (.deposit out c r) (respond lib cfg store out c r s).1
  | restart {s : Node} {now : Int} {removed : Str → Bool} {listing : Kind → List (Str × Record)}
      (hclock : s.clock ≤ now) (hlist : ∀ kind, (listing kind).Perm (s.store.disk kind).items) :
      NodeStep s (.restart now removed listing)
        ⟨⟨.empty, .empty⟩, boot store now removed listing s.store.disk, now, [], s.ever⟩

def Node.IsStart (s : Node) : Prop := s.guard = ⟨.empty, .empty⟩ ∧ s.accepted = [] ∧ s.ever = []

/-- `r'` is of the same key at a greater height. -/
def Overtakes (r r' : Request) : Prop := ∃ pub height height' digest digest',
  Carries lib r pub height digest ∧ Carries lib r' pub height' digest' ∧ height < height'

/-- A copy is of a request accepted since the start, less than the retention ago or overtaken since. -/
def KnownCopies (s : Node) (a : NodeAction) : Prop := ∀ out c r, a = .deposit out c r → r ∈ s.ever →
  ∃ t, (r, t) ∈ s.accepted ∧
    (out.now - cfg.retention ≤ t ∨ ∃ r' t', (r', t') ∈ s.accepted ∧ Overtakes lib r r')

/-- The guard knows what was accepted since the start. -/
def NodeInv (s : Node) : Prop := ∀ r t, (r, t) ∈ s.accepted → ∃ pub height digest,
  Carries lib r pub height digest ∧ (∃ H, s.guard.high.get? pub = some H ∧ height ≤ H) ∧
    (s.clock - cfg.retention ≤ t → ∃ t', t ≤ t' ∧ s.guard.seen.get? digest = some t')

variable {lib cfg store} {s s' : Node} {a : NodeAction} {out : Surroundings} {c : Course} {r : Request}

theorem NodeInv.grows (h : NodeInv lib cfg s) {g : Guard} (hclock : s.clock ≤ out.now)
    (hg : s.guard.Grows (out.now - cfg.retention) g) : ∀ r t, (r, t) ∈ s.accepted → ∃ pub height digest,
      Carries lib r pub height digest ∧ (∃ H, g.high.get? pub = some H ∧ height ≤ H) ∧
        (out.now - cfg.retention ≤ t → ∃ t', t ≤ t' ∧ g.seen.get? digest = some t') := by
  intro r t hr
  obtain ⟨pub, height, digest, hc, ⟨H, hH, hle⟩, hseen⟩ := h r t hr
  obtain ⟨H', hH', hle'⟩ := hg.high pub H hH
  refine ⟨pub, height, digest, hc, ⟨H', hH', hle.trans hle'⟩, fun ht => ?_⟩
  obtain ⟨t', hle₁, hd⟩ := hseen (by omega)
  obtain ⟨t'', hle₂, hd'⟩ := hg.seen digest t' (by omega) hd
  exact ⟨t'', hle₁.trans hle₂, hd'⟩

theorem NodeInv.respond (h : NodeInv lib cfg s) (htoken : cfg.token ≠ []) (hnone : r.token = none)
    (hclock : s.clock ≤ out.now) : NodeInv lib cfg (respond lib cfg store out c r s).1 := by
  obtain ⟨hgrows, hput⟩ := doPost_guard lib out s.guard htoken hnone
  have hold := h.grows hclock hgrows
  unfold Relay.respond
  split
  · next g status he =>
    rw [he] at hold
    exact hold
  · next g he =>
    rw [he] at hold
    exact hold
  · next g kind key body he =>
    rw [he] at hold hput
    obtain ⟨pub, height, digest, g₁, hc, -, hv, heq⟩ := hput kind key body rfl
    obtain ⟨-, hhigh, hrec⟩ := Guard.verify_accepts hv
    rw [hrec] at heq
    obtain ⟨hd, hH⟩ := Guard.record_holds out.now digest (g := g₁.purge (out.now - cfg.retention)) hhigh
    dsimp only at heq
    rintro r' t' hr'
    rcases List.mem_cons.1 hr' with heq' | hr'
    · obtain ⟨rfl, rfl⟩ := Prod.mk.inj heq'
      exact ⟨pub, height, digest, hc, ⟨height, by rw [heq]; exact hH, le_refl _⟩, fun _ =>
        ⟨_, le_refl _, by rw [heq]; exact hd⟩⟩
    · exact hold r' t' hr'

theorem NodeInv.step (h : NodeInv lib cfg s) (htoken : cfg.token ≠ []) (hs : NodeStep lib cfg store s a s') :
    NodeInv lib cfg s' := by
  cases hs with
  | deposit hclock hnone => exact h.respond htoken hnone hclock
  | restart hclock hlist => exact fun r t hr => absurd hr List.not_mem_nil

/-- A copy that the guard knows is refused. -/
theorem NodeInv.refuses (h : NodeInv lib cfg s) (htoken : cfg.token ≠ []) (hnone : r.token = none)
    (hclock : s.clock ≤ out.now) {t : Int} (hr : (r, t) ∈ s.accepted)
    (hk : out.now - cfg.retention ≤ t ∨ ∃ r' t', (r', t') ∈ s.accepted ∧ Overtakes lib r r') (kind : Kind) (key : Str)
    (body : Body) : (doPost lib cfg out r s.guard).2 ≠ .put kind key body := by
  intro hput
  obtain ⟨pub, height, digest, g₁, hc, hun, hv, -⟩ := (doPost_guard lib out s.guard htoken hnone).2 kind key body hput
  obtain ⟨hnew, hhigh, -⟩ := Guard.verify_accepts hv
  rcases hk with ht | ⟨r', t', hr', hover⟩
  · obtain ⟨pub', height', digest', hc', -, hseen⟩ := h r t hr
    obtain ⟨rfl, rfl, rfl⟩ := hc.unique hc'
    obtain ⟨t', hle, hd⟩ := hseen (by omega)
    have hyoung : out.now - cfg.retention ≤ t' := by omega
    have hpurged := (Guard.purge_untouched.seen digest t' hyoung).2 ((hun.seen digest t' hyoung).2 hd)
    rw [Ordered.has_eq_isSome, hpurged] at hnew
    cases hnew
  · obtain ⟨pub', height₁, height₂, digest₁, digest₂, hc₁, hc₂, hlt⟩ := hover
    obtain ⟨rfl, rfl, rfl⟩ := hc.unique hc₁
    obtain ⟨pub₂, height₃, digest₃, hc₃, ⟨H, hH, hle⟩, -⟩ := h r' t' hr'
    obtain ⟨rfl, rfl, rfl⟩ := hc₂.unique hc₃
    have := hhigh H (by rw [hun.high, hH])
    omega

/-- In a run whose copies are known, a copy changes nothing in the store. -/
theorem copy_changes_nothing (lib : Library) (cfg : Settings) (store : Config) (htoken : cfg.token ≠ []) {s s' : Node}
    {out : Surroundings} {c : Course} {r : Request}
    (h : Reach Node.IsStart (NodeStep lib cfg store) (KnownCopies lib cfg) s)
    (hok : KnownCopies lib cfg s (.deposit out c r)) (hs : NodeStep lib cfg store s (.deposit out c r) s')
    (hr : r ∈ s.ever) : s'.store = s.store := by
  have hinv : NodeInv lib cfg s := h.invariant
    (fun s hs r t hr => by
      rw [hs.2.1] at hr
      cases hr)
    fun _ _ _ _ hinv _ hstep => hinv.step htoken hstep
  obtain ⟨t, hacc, hk⟩ := hok out c r rfl hr
  cases hs with
  | deposit hclock hnone =>
    have hno := hinv.refuses htoken hnone hclock hacc hk
    unfold Relay.respond
    split
    · rfl
    · rfl
    · next g kind key body he => exact absurd (congrArg Prod.snd he) (hno kind key body)

/-! ## Retries -/

/-- The digest is held and young. -/
def Held (cfg : Settings) (out : Surroundings) (g : Guard) (message : List UInt8) : Prop :=
  (g.purge (out.now - cfg.retention)).seen.has (Sha256.hash message) = true

theorem respond_of_put {kind : Kind} {key : Str} {body : Body} (h : (doPost lib cfg out r s.guard).2 = .put kind key body) :
    respond lib cfg store out c r s =
      (⟨(doPost lib cfg out r s.guard).1, (put store kind key body out.now c.n c.removed c.diskOk s.store).1, out.now,
        (r, out.now) :: s.accepted, r :: s.ever⟩,
      some (statusOf (put store kind key body out.now c.n c.removed c.diskOk s.store).2)) := by
  unfold respond
  split
  · next he =>
    rw [he] at h
    cases h
  · next he =>
    rw [he] at h
    cases h
  · next he =>
    rw [he] at h ⊢
    cases h
    rfl

end Node

section Twice

/-- A relay that asks for no attestation. -/
def openRelay : Settings := ⟨['t'], [], true, 100, false, some 5, 1, Int.one_pos⟩

def emptyStore : State := ⟨fun _ => ⟨.empty, .empty, 0⟩, fun _ => .empty⟩

/-- A relay that has just started, at time `now`. -/
def freshNode (store : State) (ever : List Request) : Node := ⟨⟨.empty, .empty⟩, store, 0, [], ever⟩

def plainCourse : Course := ⟨0, fun _ => true, true⟩

theorem passes_oneKey : ∃ message,
    Passes (oneLibrary oneKey) openRelay oneJob (oneRequest oneKey) .req oneKey [] oneSigned message 0 := by
  obtain ⟨message, -, hok⟩ := beforeReplay_oneKey
  exact ⟨message, rfl, by decide, by decide, ⟨0, rfl, le_refl 0, by decide, rfl⟩, by rfl,
    by decide, ⟨_, _, .inl rfl, hok⟩, by decide, by decide⟩

theorem fresh_new (cutoff : Int) (digest : List UInt8) (store : State) (ever : List Request) :
    ((freshNode store ever).guard.purge cutoff).seen.has digest = false := rfl

theorem no_mark_fresh {pub : List UInt8} {height : Nat} {store : State} {ever : List Request} :
    ∀ H, (freshNode store ever).guard.high.get? pub = some H → H ≤ height := by
  rintro H ⟨⟩

/-- The store is called for a deposit that passes, on a relay that has just started. -/
theorem doPost_fresh {lib : Library} {out : Surroundings} {r : Request} {kind : Kind} {key : Str} {body : Body}
    {s : Signed} {message : List UInt8} {height : Nat} {store : State} {ever : List Request}
    (hp : Passes lib openRelay out r kind key body s message height) (hnone : r.token = none) :
    (doPost lib openRelay out r (freshNode store ever).guard).2 = .put kind key body :=
  (congrArg Prod.snd (hp.doPost (List.cons_ne_nil _ _) hnone)).trans (if_pos ((hp.verify no_mark_fresh).2 (fresh_new _ _ _ _)))

/-- A library under which the key signed `pub/m` with the body 1 and with the body 2. -/
def pubLibrary : Library where
  int := Str.parseInt
  b64decode s := if s = ['k'] then some onePub else some [1]
  loads _ := none
  ripemd160 _ := List.replicate 20 0
  verifies _ _ pub message sig := decide (pub = onePub ∧ sig = [1] ∧
    (some message = canonicalMessage Kind.pub.name ['m'] [1] ['m'] 0 ∨
      some message = canonicalMessage Kind.pub.name ['m'] [2] ['m'] 0))

/-- The miner `m` is registered under the key. -/
def pubRegistry : Surroundings where
  rateOk := true
  now := 0
  first := ⟨fun _ => some oneAddress, true, fun _ => none, true, none⟩
  again := none
  jobDoc _ := none
  committeeDoc _ := none
  attested _ := false

def pubRequest (b : UInt8) : Request where
  path := "/pub/m".toList
  contentLength := some ['1']
  token := none
  pubkey := some ['k']
  sig := some ['s']
  miner := some ['m']
  height := some ['0']
  acct := some ['0']
  seq := some ['0']
  body := [b]

theorem passes_pub {b : UInt8} (hb : b = 1 ∨ b = 2) : ∃ message,
    Passes pubLibrary openRelay pubRegistry (pubRequest b) .pub ['m'] [b] oneSigned message 0 := by
  obtain ⟨message, hm⟩ : ∃ message, canonicalMessage Kind.pub.name ['m'] [b] ['m'] 0 = some message := ⟨_, rfl⟩
  have hquery : query "/pub/m".toList = [] := by decide
  have htarget : target (route "/pub/m".toList) = some (.pub, ['m']) := by decide
  refine ⟨message, rfl, hquery, htarget, ⟨1, rfl, by decide, by decide, rfl⟩, by rfl,
    by decide, ⟨pubRegistry.first, oneAddress, .inl rfl, ?_⟩, rfl, by decide⟩
  have haddr : addressFromPubkey pubLibrary onePub (hrpOf oneAddress) = some oneAddress := by
    unfold oneAddress
    rw [hrpOf_encode]
    exact if_pos (by decide)
  unfold beforeReplay oneSigned
  dsimp only
  rw [if_neg (by decide), hm]
  dsimp only
  rw [if_neg, messageHeight_canonicalMessage hm]
  · dsimp only
    rw [show authority pubRegistry.first .pub ['m'] ['m'] = .ok oneAddress from rfl]
    dsimp only
    rw [haddr]
    dsimp only
    rw [if_neg (not_not.2 rfl), if_neg]
    · rfl
    · rintro ⟨-, ⟨⟩⟩
  · have hsigned : some message = canonicalMessage Kind.pub.name ['m'] [1] ['m'] 0 ∨
        some message = canonicalMessage Kind.pub.name ['m'] [2] ['m'] 0 := by
      rcases hb with rfl | rfl
      · exact .inl hm.symm
      · exact .inr hm.symm
    unfold pubLibrary
    dsimp only
    rw [decide_eq_true ⟨rfl, rfl, hsigned⟩]
    exact Bool.noConfusion

/-- The store after `pub/m` is deposited with the body `b`. -/
def putPub (b : UInt8) (store : State) : State :=
  (put Config.default .pub ['m'] [b] 0 0 (fun _ => true) true store).1

/-- The store after a restart. -/
def rebooted (store : State) : State :=
  boot Config.default 0 (fun _ => true) (fun kind => (store.disk kind).items) store.disk

theorem deposit_pub {b : UInt8} (hb : b = 1 ∨ b = 2) (store : State) (ever : List Request) :
    ∃ g accepted, NodeStep pubLibrary openRelay Config.default (freshNode store ever)
      (.deposit pubRegistry plainCourse (pubRequest b)) ⟨g, putPub b store, 0, accepted, pubRequest b :: ever⟩ := by
  obtain ⟨message, hp⟩ := passes_pub hb
  have h : NodeStep pubLibrary openRelay Config.default (freshNode store ever)
    (.deposit pubRegistry plainCourse (pubRequest b)) _ := .deposit (le_refl _) rfl
  rw [respond_of_put (doPost_fresh hp rfl)] at h
  exact ⟨_, _, h⟩

/-- A miner's key is deposited, the relay restarts, a newer one is deposited, and the relay restarts again: a copy
of the first deposit replaces the newer key. -/
theorem copy_replaces : ∃ lib cfg store s s' out c r, cfg.token ≠ [] ∧
    Reach Node.IsStart (NodeStep lib cfg store) (fun _ _ => True) s ∧
    NodeStep lib cfg store s (.deposit out c r) s' ∧ r ∈ s.ever ∧
    (s.store.shelf .pub).d.get? ['m'] = some [2] ∧ (s'.store.shelf .pub).d.get? ['m'] = some [1] := by
  obtain ⟨g₁, a₁, h₁⟩ := deposit_pub (.inl rfl) emptyStore []
  obtain ⟨g₂, a₂, h₂⟩ := deposit_pub (.inr rfl) (rebooted (putPub 1 emptyStore)) [pubRequest 1]
  obtain ⟨g₃, a₃, h₃⟩ := deposit_pub (.inl rfl) (rebooted (putPub 2 (rebooted (putPub 1 emptyStore))))
    [pubRequest 2, pubRequest 1]
  have hstart : Reach Node.IsStart (NodeStep pubLibrary openRelay Config.default) (fun _ _ => True)
      (freshNode emptyStore []) := .init ⟨rfl, rfl, rfl⟩
  have hreboot : ∀ (g : Guard) (store : State) (accepted : List (Request × Int)) (ever : List Request),
      NodeStep pubLibrary openRelay Config.default ⟨g, store, 0, accepted, ever⟩
        (.restart 0 (fun _ => true) fun kind => (store.disk kind).items) (freshNode (rebooted store) ever) :=
    fun g store accepted ever => .restart (le_refl _) fun _ => .refl _
  have hfirst := (hstart.step trivial h₁).step trivial (hreboot _ _ _ _)
  have hsecond := (hfirst.step trivial h₂).step trivial (hreboot _ _ _ _)
  have hnewer : ((rebooted (putPub 2 (rebooted (putPub 1 emptyStore)))).shelf .pub).d.get? ['m'] = some [2] := by
    decide
  have holder : ((putPub 1 (rebooted (putPub 2 (rebooted (putPub 1 emptyStore))))).shelf .pub).d.get? ['m'] =
      some [1] := by decide
  exact ⟨_, _, _, _, _, _, _, _, List.cons_ne_nil _ _, hsecond, h₃, List.mem_cons_of_mem _ List.mem_cons_self,
    hnewer, holder⟩

/-- A copy that is sent at once changes nothing. -/
theorem copy_changes_nothing_first :
    (respond (oneLibrary oneKey) openRelay Config.default oneJob plainCourse (oneRequest oneKey)
      (respond (oneLibrary oneKey) openRelay Config.default oneJob plainCourse (oneRequest oneKey)
        (freshNode emptyStore [])).1).1.store =
    (respond (oneLibrary oneKey) openRelay Config.default oneJob plainCourse (oneRequest oneKey)
      (freshNode emptyStore [])).1.store := by
  obtain ⟨message, hp⟩ := passes_oneKey
  have hpost : (doPost (oneLibrary oneKey) openRelay oneJob (oneRequest oneKey) (freshNode emptyStore []).guard).2 =
      .put .req oneKey [] := doPost_fresh hp rfl
  have hfirst : (respond (oneLibrary oneKey) openRelay Config.default oneJob plainCourse (oneRequest oneKey)
      (freshNode emptyStore [])).1 = _ := congrArg Prod.fst (respond_of_put hpost)
  have hreach : Reach Node.IsStart (NodeStep (oneLibrary oneKey) openRelay Config.default)
      (KnownCopies (oneLibrary oneKey) openRelay) (respond (oneLibrary oneKey) openRelay Config.default oneJob
        plainCourse (oneRequest oneKey) (freshNode emptyStore [])).1 :=
    .step (.init ⟨rfl, rfl, rfl⟩) (fun _ _ _ _ hr => absurd hr List.not_mem_nil)
      (.deposit (le_refl _) rfl)
  refine copy_changes_nothing (oneLibrary oneKey) openRelay Config.default (List.cons_ne_nil _ _) hreach
    (fun out c r ha _ => ?_) (.deposit ?_ rfl) ?_
  · obtain ⟨rfl, -, rfl⟩ := NodeAction.deposit.inj ha
    rw [hfirst]
    exact ⟨_, List.mem_cons_self, .inl (by decide)⟩
  · rw [hfirst]
  · rw [hfirst]
    exact List.mem_cons_self

end Twice

end Dendra.Relay
