import Dendra.Jobs.Majority
import Dendra.Jobs.Records

/-!
# The settlement of a redundant job

`SettleSemantic` in redundant mode pays every member whose answer is close to more than half of the
answers, and slashes the others. Closeness is no equivalence, but two groups of more than half of the
answers share one. A winner that is not registered, or whose operator cannot be read, is passed over,
and so is a client that cannot be read: their coins stay in the account, and nobody is credited.

* `exists_of_countP`: two majorities share a member.
* `LoopEffect`, `settleMembers_effect`: what the loop over the members does.
* `settlement_coherent_iff`: when a settlement is coherent.
* `settlement_strands`: a winner whose operator is no address.
-/

namespace Dendra.Jobs

open Word

/-! ## Counting -/

section Counting

variable {α : Type} {l : List α} {a b : α → Bool}

/-- Two tests that together pass more often than there are elements pass together once. -/
theorem exists_of_countP (h : l.length < l.countP a + l.countP b) : ∃ x ∈ l, a x = true ∧ b x = true := by
  by_contra hno
  have hle : l.countP b ≤ l.countP fun x => !a x := by
    refine List.countP_mono_left fun x hx hb => ?_
    rw [Bool.not_eq_true']
    exact Bool.eq_false_of_not_eq_true fun ha => hno ⟨x, hx, ha, hb⟩
  have hlen : l.length = l.countP a + l.countP fun x => !a x := by
    rw [List.length_eq_countP_add_countP a]
    simp
  omega

/-- A test that takes nothing away from another holds wherever that one does. -/
theorem countP_and_eq_iff : l.countP (fun x => a x && b x) = l.countP a ↔
    ∀ x ∈ l, a x = true → b x = true := by
  induction l with
  | nil => simp
  | cons x l ih =>
    have hle : l.countP (fun x => a x && b x) ≤ l.countP a :=
      List.countP_mono_left fun y _ hy => (Bool.and_eq_true _ _ ▸ hy).1
    rw [List.forall_mem_cons, ← ih, List.countP_cons, List.countP_cons]
    cases a x <;> cases b x <;> simp
    omega

/-- A sum of machine words, modulo 2 ^ 64. -/
theorem toNat_sum (l : List UInt64) : l.sum.toNat = (l.map UInt64.toNat).sum % 2 ^ 64 := by
  induction l with
  | nil => rfl
  | cons x l ih => rw [List.sum_cons, List.map_cons, List.sum_cons, UInt64.toNat_add, ih, Nat.add_mod_mod]

end Counting

/-! ## The loop over the members -/

section Loops

variable [Chain] {c : Ctx} {p : Params} {job : Job} {per : UInt64} {vecs : List (Str × List Int)}
  {f f' : Funds} {acc acc' acc₁ : Loop} {e : Str × List Int} {m : Str}

/-- Can the member be paid: it is registered, and its operator has a readable address. -/
def payable (f : Funds) (m : Str) : Bool :=
  (f.miners.get? m).any fun r => (Chain.addrBytes r.operator).isSome

/-- What a slash takes from the bond of a member. -/
def slashOf (p : Params) (f : Funds) (m : Str) : UInt64 :=
  (f.miners.get? m).elim 0 fun r => bpsOf r.stake p.slashLeakBps

/-- The bond of a member, nothing when it is not registered. -/
def bondOf (f : Funds) (m : Str) : UInt64 := (f.read Miner.stake m).getD 0

/-- What an outlier loses; a member of the majority loses nothing. -/
def outlierSlash (p : Params) (vecs : List (Str × List Int)) (f : Funds) (e : Str × List Int) : UInt64 :=
  if inMajority vecs e = true then 0 else slashOf p f e.1

/-- What the settlement of the members `l` changes. -/
structure LoopEffect (p : Params) (job : Job) (per : UInt64) (vecs l : List (Str × List Int))
    (acc acc' : Loop) : Prop where
  /-- one share is posted for each winner that can be paid -/
  journal : ∃ new, acc'.funds.journal = new ++ acc.funds.journal ∧
    (new.map fun x => x.amount.toNat).sum =
      per.toNat * l.countP (fun e => inMajority vecs e && payable acc.funds e.1) ∧
    ∀ x ∈ new, ∃ e ∈ l, inMajority vecs e = true ∧ x.party = e.1
  treasury : acc'.pools.treasury = acc.pools.treasury + (l.map (outlierSlash p vecs acc.funds)).sum
  bond : ∀ e ∈ l, bondOf acc'.funds e.1 = bondOf acc.funds e.1 - outlierSlash p vecs acc.funds e
  others : ∀ m, m ∉ l.map Prod.fst → acc'.funds.miners.get? m = acc.funds.miners.get? m
  slashed : ∃ recs, acc'.slashed = acc.slashed ++ recs ∧
    ∀ rec ∈ recs, ∃ e ∈ l, inMajority vecs e = false ∧ rec.minerId = e.1

theorem payWinner_journal (h : payWinner c job per f m = .ok f') :
    f'.miners = f.miners ∧ f'.journal =
      (if payable f m = true then [⟨.work, job.jobId, m, per⟩] else []) ++ f.journal := by
  unfold payWinner at h
  cases hm : f.miners.get? m with
  | none =>
    rw [hm] at h
    cases h
    refine ⟨rfl, ?_⟩
    rw [payable, hm, Option.any_none, if_neg Bool.false_ne_true]
    rfl
  | some r =>
    rw [hm] at h
    dsimp only at h
    cases hbz : Chain.addrBytes r.operator with
    | none =>
      rw [hbz] at h
      cases h
      refine ⟨rfl, ?_⟩
      rw [payable, hm, Option.any_some, hbz, Option.isSome_none, if_neg Bool.false_ne_true]
      rfl
    | some bz =>
      rw [hbz] at h
      obtain ⟨b, -, rfl⟩ := Funds.payOrFail_ok h
      refine ⟨rfl, ?_⟩
      rw [payable, hm, Option.any_some, hbz, Option.isSome_some, if_pos rfl]
      rfl

omit [Chain] in
theorem slashLoser_effect (p : Params) (acc : Loop) (m : Str) :
    (slashLoser p false acc m).funds.journal = acc.funds.journal ∧
    (slashLoser p false acc m).pools.treasury = acc.pools.treasury + slashOf p acc.funds m ∧
    bondOf (slashLoser p false acc m).funds m = bondOf acc.funds m - slashOf p acc.funds m ∧
    (∀ k, k ≠ m → (slashLoser p false acc m).funds.miners.get? k = acc.funds.miners.get? k) ∧
    ∃ recs, (slashLoser p false acc m).slashed = acc.slashed ++ recs ∧
      ∀ rec ∈ recs, rec.minerId = m := by
  unfold slashLoser
  cases hm : acc.funds.miners.get? m with
  | none =>
    have hnone : slashOf p acc.funds m = 0 := by rw [slashOf, hm, Option.elim_none]
    rw [hnone, UInt64.add_zero, UInt64.sub_zero]
    exact ⟨rfl, rfl, rfl, fun _ _ => rfl, [], (List.append_nil _).symm, by simp⟩
  | some r =>
    have hid : r.minerId = m := Table.key_of_get? hm
    have hslash : slashOf p acc.funds m = bpsOf r.stake p.slashLeakBps := by
      rw [slashOf, hm, Option.elim_some]
    dsimp only
    refine ⟨rfl, by rw [hslash], ?_, fun k hk => ?_, ?_⟩
    · rw [bondOf, bondOf, Funds.read, Funds.read, hm, hslash, Funds.setMiner, Table.get?_put,
        if_pos hid.symm]
      rfl
    · exact Table.get?_put_ne (by rw [hid]; exact hk)
    · by_cases hpos : false = true ∨ bpsOf r.stake p.slashLeakBps > 0
      · rw [if_pos hpos]
        exact ⟨_, rfl, by simp⟩
      · rw [if_neg hpos]
        exact ⟨[], (List.append_nil _).symm, by simp⟩

/-- One member. -/
theorem settleMember_effect (h : settleMember c p job per vecs acc e = .ok acc') :
    LoopEffect p job per vecs [e] acc acc' := by
  unfold settleMember at h
  by_cases hin : inMajority vecs e = true
  · rw [if_pos hin] at h
    simp only [bind_ok, pure_ok] at h
    obtain ⟨f₁, hf₁, rfl⟩ := h
    obtain ⟨hminers, hjournal⟩ := payWinner_journal hf₁
    have hzero : outlierSlash p vecs acc.funds e = 0 := if_pos hin
    refine ⟨⟨_, hjournal, ?_, ?_⟩, ?_, ?_, fun m _ => by rw [hminers], ?_⟩
    · cases hpay : payable acc.funds e.1 <;> simp [hin, hpay]
    · intro x hx
      split at hx
      · rw [List.mem_singleton.1 hx]
        exact ⟨e, .head _, hin, rfl⟩
      · cases hx
    · simp [hzero]
    · intro e' he'
      rw [List.mem_singleton.1 he', hzero, UInt64.sub_zero, bondOf, bondOf, Funds.read, Funds.read,
        hminers]
    · exact ⟨[], (List.append_nil _).symm, by simp⟩
  · rw [if_neg hin, pure_ok] at h
    subst h
    obtain ⟨hjournal, htreasury, hbond, hothers, recs, hrecs, hid⟩ := slashLoser_effect p acc e.1
    have hslash : outlierSlash p vecs acc.funds e = slashOf p acc.funds e.1 := if_neg hin
    refine ⟨⟨[], hjournal, ?_, by simp⟩, ?_, ?_, ?_, ?_⟩
    · simp [hin]
    · rw [htreasury]
      simp [hslash]
    · intro e' he'
      rw [List.mem_singleton.1 he', hslash, hbond]
    · intro m hm
      exact hothers m (by simpa using hm)
    · exact ⟨recs, hrecs, fun rec hrec => ⟨e, .head _, by simpa using hin, hid rec hrec⟩⟩

/-- What one member and the rest do. -/
theorem LoopEffect.cons {l : List (Str × List Int)} (h : LoopEffect p job per vecs [e] acc acc₁)
    (h' : LoopEffect p job per vecs l acc₁ acc') (he : e.1 ∉ l.map Prod.fst) :
    LoopEffect p job per vecs (e :: l) acc acc' := by
  -- the records of the rest are those before the first member
  have hsame : ∀ e' ∈ l, acc₁.funds.miners.get? e'.1 = acc.funds.miners.get? e'.1 := by
    intro e' he'
    refine h.others e'.1 fun hm => he ?_
    rw [List.map_singleton, List.mem_singleton] at hm
    exact hm ▸ List.mem_map_of_mem he'
  have hpay : ∀ e' ∈ l, payable acc₁.funds e'.1 = payable acc.funds e'.1 := fun e' he' => by
    rw [payable, payable, hsame e' he']
  have hslash : ∀ e' ∈ l, outlierSlash p vecs acc₁.funds e' = outlierSlash p vecs acc.funds e' :=
    fun e' he' => by rw [outlierSlash, outlierSlash, slashOf, slashOf, hsame e' he']
  have hbond : ∀ e' ∈ l, bondOf acc₁.funds e'.1 = bondOf acc.funds e'.1 := fun e' he' => by
    rw [bondOf, bondOf, Funds.read, Funds.read, hsame e' he']
  obtain ⟨new, hnew, hsum, hwin⟩ := h.journal
  obtain ⟨new', hnew', hsum', hwin'⟩ := h'.journal
  obtain ⟨recs, hrecs, hout⟩ := h.slashed
  obtain ⟨recs', hrecs', hout'⟩ := h'.slashed
  constructor
  · refine ⟨new' ++ new, by rw [hnew', hnew, List.append_assoc], ?_, fun x hx => ?_⟩
    · have hcount : l.countP (fun e => inMajority vecs e && payable acc₁.funds e.1) =
          l.countP (fun e => inMajority vecs e && payable acc.funds e.1) :=
        List.countP_congr fun e' he' => by rw [hpay e' he']
      rw [List.map_append, List.sum_append, hsum', hsum, hcount, ← Nat.mul_add, Nat.add_comm,
        ← List.countP_append, List.singleton_append]
    · rcases List.mem_append.1 hx with hx | hx
      · obtain ⟨e', he', hin, hp⟩ := hwin' x hx
        exact ⟨e', .tail _ he', hin, hp⟩
      · obtain ⟨e', he', hin, hp⟩ := hwin x hx
        rw [List.mem_singleton.1 he'] at hin hp
        exact ⟨e, .head _, hin, hp⟩
  · rw [h'.treasury, h.treasury, List.map_congr_left hslash, UInt64.add_assoc]
    simp
  · intro e' he'
    rcases List.mem_cons.1 he' with rfl | he'
    · rw [bondOf, Funds.read, h'.others _ he, ← h.bond e' (.head _)]
      rfl
    · rw [h'.bond e' he', hbond e' he', hslash e' he']
  · intro m hm
    rw [List.map_cons, List.mem_cons, not_or] at hm
    rw [h'.others m hm.2, h.others m (by simpa using hm.1)]
  · refine ⟨recs ++ recs', by rw [hrecs', hrecs, List.append_assoc], fun rec hrec => ?_⟩
    rcases List.mem_append.1 hrec with hrec | hrec
    · obtain ⟨e', he', hin, hp⟩ := hout rec hrec
      rw [List.mem_singleton.1 he'] at hin hp
      exact ⟨e, .head _, hin, hp⟩
    · obtain ⟨e', he', hin, hp⟩ := hout' rec hrec
      exact ⟨e', .tail _ he', hin, hp⟩

theorem settleMembers_effect (l : List (Str × List Int)) (hn : (l.map Prod.fst).Nodup)
    (h : l.foldlM (settleMember c p job per vecs) acc = .ok acc') :
    LoopEffect p job per vecs l acc acc' := by
  induction l generalizing acc with
  | nil =>
    cases h
    exact ⟨⟨[], rfl, rfl, by simp⟩, (UInt64.add_zero _).symm, by simp, fun _ _ => rfl, [],
      (List.append_nil _).symm, by simp⟩
  | cons e l ih =>
    rw [List.map_cons, List.nodup_cons] at hn
    rw [List.foldlM_cons, bind_ok] at h
    obtain ⟨acc₁, h₁, h⟩ := h
    exact (settleMember_effect h₁).cons (ih hn.2 h) hn.1

/-- What is left of an escrow is posted when its client can be read. -/
theorem closeEscrow_rest {surplus : UInt64} (h : closeEscrow c job 0 surplus f = .ok f') :
    f'.miners = f.miners ∧ f'.pools = f.pools ∧ ∃ new, f'.journal = new ++ f.journal ∧
      (new.map fun x => x.amount.toNat).sum =
        if (Chain.addrBytes job.client).isSome then surplus.toNat else 0 := by
  have hnone : ¬ (0 : UInt64) > 0 := by decide
  simp only [closeEscrow, if_neg hnone, bind_ok, pure_ok] at h
  obtain ⟨f₁, rfl, h⟩ := h
  by_cases hp : surplus > 0
  · rw [if_pos hp] at h
    cases hbz : Chain.addrBytes job.client with
    | none =>
      rw [hbz] at h
      cases h
      exact ⟨rfl, rfl, [], rfl, rfl⟩
    | some bz =>
      rw [hbz] at h
      obtain ⟨b, -, rfl⟩ := Funds.payOrFail_ok h
      exact ⟨rfl, rfl, [⟨.surplus, job.jobId, job.client, surplus⟩], rfl, rfl⟩
  · rw [if_neg hp, pure_ok] at h
    subst h
    have h0 : surplus.toNat = 0 := by simpa [UInt64.lt_iff_toNat_lt] using hp
    exact ⟨rfl, rfl, [], rfl, by rw [h0, ite_self]; rfl⟩

/-- What closing an escrow posts: the burn, and the rest when the client can be read. -/
theorem closeEscrow_total {burnAmt surplus : UInt64} (h : closeEscrow c job burnAmt surplus f = .ok f') :
    f'.miners = f.miners ∧ f'.pools = f.pools ∧ ∃ new, f'.journal = new ++ f.journal ∧
      (new.map fun x => x.amount.toNat).sum = burnAmt.toNat +
        if (Chain.addrBytes job.client).isSome then surplus.toNat else 0 := by
  by_cases hb : burnAmt > 0
  · simp only [closeEscrow, if_pos hb, bind_ok] at h
    obtain ⟨f₁, h₁, h⟩ := h
    obtain ⟨b, -, rfl⟩ := Funds.payOrFail_ok h₁
    have hburned : closeEscrow c job 0 surplus { f with
        bank := b, journal := ⟨.burn, job.jobId, [], burnAmt⟩ :: f.journal } = .ok f' := by
      simp only [closeEscrow, gt_iff_lt, UInt64.lt_irrefl, if_false, bind_ok, pure_ok]
      exact ⟨_, rfl, h⟩
    obtain ⟨hm, hp, new, hj, hs⟩ := closeEscrow_rest hburned
    refine ⟨hm, hp, new ++ [⟨.burn, job.jobId, [], burnAmt⟩], ?_, ?_⟩
    · rw [hj, List.append_assoc]
      rfl
    · rw [List.map_append, List.sum_append, hs, Nat.add_comm]
      rfl
  · have h0 : burnAmt = 0 := by
      rw [gt_iff_lt, UInt64.lt_iff_toNat_lt] at hb
      exact UInt64.toNat_inj.1 (by simpa using hb)
    subst h0
    obtain ⟨hm, hp, new, hj, hs⟩ := closeEscrow_rest h
    exact ⟨hm, hp, new, hj, by rw [hs]; simp⟩

end Loops

/-! ## The amounts -/

section Amounts

variable {fee bps : UInt64} {n : Nat}

/-- The burn, the equal shares and the rest of a fee. -/
theorem shared_eq (fee : UInt64) (hb : bps.toNat ≤ 10000) (hn : n < 2 ^ 63) :
    (bpsOf fee bps).toNat + ((fee - bpsOf fee bps) / UInt64.ofNat n).toNat * n +
      (fee - bpsOf fee bps - (fee - bpsOf fee bps) / UInt64.ofNat n * UInt64.ofNat n).toNat =
        fee.toNat ∧
    (fee - bpsOf fee bps - (fee - bpsOf fee bps) / UInt64.ofNat n * UInt64.ofNat n).toNat =
      (fee.toNat - (bpsOf fee bps).toNat) % n := by
  have hburn := bpsOf_le (x := fee) hb
  have hle := toNat_le_of_le hburn
  have hd := toNat_sub hburn
  have hto : (UInt64.ofNat n).toNat = n := by
    rw [UInt64.toNat_ofNat']
    exact Nat.mod_eq_of_lt (by omega)
  rw [← hd]
  generalize fee - bpsOf fee bps = d at hd ⊢
  have hdiv : (d / UInt64.ofNat n).toNat = d.toNat / n := by rw [UInt64.toNat_div, hto]
  have hshares := Nat.div_mul_le_self d.toNat n
  have hmul : (d / UInt64.ofNat n * UInt64.ofNat n).toNat = d.toNat / n * n := by
    rw [UInt64.toNat_mul, hto, hdiv]
    exact Nat.mod_eq_of_lt (hshares.trans_lt (UInt64.toNat_lt d))
  have hrest : d / UInt64.ofNat n * UInt64.ofNat n ≤ d :=
    UInt64.le_iff_toNat_le.2 (hmul ▸ hshares)
  have hmod := Nat.mod_add_div d.toNat n
  rw [Nat.mul_comm] at hmod
  rw [toNat_sub hrest, hmul, hdiv]
  omega

end Amounts

/-! ## The settlement -/

section Result

variable [Chain] {c : Ctx} {s s' : State}

/-- Is the answer `o` in the agreement group of `e`. -/
def inGroup (e o : Str × List Int) : Bool := decide (o.1 = e.1) || closeAnswers e.2 o.2

/-- What a settlement of `job` with the answers `vecs` is to do. -/
structure Coherent (job : Job) (vecs : List (Str × List Int)) (s s' : State) : Prop where
  /-- the groups of two paid members share a member -/
  meet : ∀ m m', PaidWork job.jobId s.funds s'.funds m → PaidWork job.jobId s.funds s'.funds m' →
    ∃ e ∈ vecs, ∃ e' ∈ vecs, e.1 = m ∧ e'.1 = m' ∧ ∃ o ∈ vecs, inGroup e o = true ∧ inGroup e' o = true
  /-- nobody is paid and slashed -/
  apart : ∀ m, PaidWork job.jobId s.funds s'.funds m → bondOf s'.funds m = bondOf s.funds m ∧
    ∀ job', s'.job job.jobId = some job' →
      ∀ rec ∈ job'.slashRecords.drop job.slashRecords.length, rec.minerId ≠ m
  total : ∃ new, s'.funds.journal = new ++ s.funds.journal ∧
    (new.map fun x => x.amount.toNat).sum = job.fee.toNat
  treasury : s'.funds.poolsOrZero.treasury.toNat = s.funds.poolsOrZero.treasury.toNat +
    (vecs.map fun e => (bondOf s.funds e.1).toNat - (bondOf s'.funds e.1).toNat).sum

/-- Every winner can be paid, the client can be read if the shares leave a rest, and the treasury has room
for the slashes. -/
structure Payable (job : Job) (vecs : List (Str × List Int)) (s : State) : Prop where
  winners : ∀ e ∈ vecs, inMajority vecs e = true → payable s.funds e.1 = true
  rest : (job.fee.toNat - (bpsOf job.fee s.params.feeBurnBps).toNat) % vecs.countP (inMajority vecs) = 0 ∨
    (Chain.addrBytes job.client).isSome = true
  room : s.funds.poolsOrZero.treasury.toNat +
    (vecs.map fun e => (outlierSlash s.params vecs s.funds e).toNat).sum < 2 ^ 64

omit [Chain] in
/-- A slash is a part of the bond. -/
theorem outlierSlash_le {p : Params} (hp : p.slashLeakBps.toNat ≤ 10000) (vecs : List (Str × List Int))
    (f : Funds) (e : Str × List Int) : outlierSlash p vecs f e ≤ bondOf f e.1 := by
  unfold outlierSlash slashOf bondOf Funds.read
  split
  · exact UInt64.zero_le
  · cases f.miners.get? e.1 with
    | none => exact UInt64.le_refl 0
    | some r => exact bpsOf_le hp

/-- The share of one winner. -/
def workShare (p : Params) (job : Job) (vecs : List (Str × List Int)) : UInt64 :=
  (job.fee - bpsOf job.fee p.feeBurnBps) / UInt64.ofNat (vecs.countP (inMajority vecs))

/-- What the equal shares leave. -/
def workRest (p : Params) (job : Job) (vecs : List (Str × List Int)) : UInt64 :=
  job.fee - bpsOf job.fee p.feeBurnBps -
    workShare p job vecs * UInt64.ofNat (vecs.countP (inMajority vecs))

/-- What an accepted settlement computed and did; `acc` is what its loop left. -/
structure Settles (c : Ctx) (job : Job) (vecs : List (Str × List Int)) (s s' : State) (acc : Loop) :
    Prop where
  nodup : (vecs.map Prod.fst).Nodup
  count : vecs.countP (inMajority vecs) < 2 ^ 63
  share : workShare s.params job vecs ≠ 0
  loop : LoopEffect s.params job (workShare s.params job vecs) vecs vecs
    ⟨s.funds, s.funds.poolsOrZero, []⟩ acc
  closed : closeEscrow c job (bpsOf job.fee s.params.feeBurnBps) (workRest s.params job vecs)
    (acc.funds.setPools acc.pools) = .ok s'.funds
  record : s'.job job.jobId = some { job with
    state := job.state ++ [.paid, .finalized]
    slashRecords := job.slashRecords ++ acc.slashed }

theorem settleRedundant_spec {msg : MsgSettleSemantic} (hmode : s.params.verificationMode ≠ 1)
    (h : settleSemantic c msg s = .ok s') :
    ∃ job committee acc, s.job msg.jobId = some job ∧ job.jobId = msg.jobId ∧
      assignedCommitteeOrFail s msg.jobId (workCommitteeSize s) = .ok committee ∧
      Settles c job (committeeVecs s msg.jobId committee) s s' acc := by
  simp only [settleSemantic, bind_ok, ensure_ok, require_ok] at h
  obtain ⟨-, -, job, hj, -, -, -, -, -, -, h⟩ := h
  have hid : job.jobId = msg.jobId := Table.key_of_get? hj
  rw [if_neg hmode] at h
  simp only [settleRedundant, bind_ok, ensure_ok, pure_ok, hid] at h
  obtain ⟨committee, hc, -, -, -, -, -, hper, acc, hacc, f, hf, rfl⟩ := h
  have hnodup : ((committeeVecs s msg.jobId committee).map Prod.fst).Nodup :=
    nodup_commitByMiner.sublist committeeVecs_sublist
  have hcount : (committeeVecs s msg.jobId committee).countP
      (inMajority (committeeVecs s msg.jobId committee)) < 2 ^ 63 := by
    have hsize := workCommitteeSize_lt s
    have hwide := length_assignedCommittee_le hc
    have hvecs := length_committeeVecs_le s msg.jobId committee
    have hle := List.countP_le_length (p := inMajority (committeeVecs s msg.jobId committee))
      (l := committeeVecs s msg.jobId committee)
    omega
  refine ⟨job, committee, acc, hj, hid, hc, hnodup, hcount, hper,
    settleMembers_effect _ hnodup hacc, hf, ?_⟩
  have hput (k : Job) : (s.jobs.put k).get? k.jobId = some k := Table.get?_put_self
  have hrecord := hput { job with
    state := job.state ++ [.paid, .finalized]
    slashRecords := job.slashRecords ++ acc.slashed }
  dsimp only at hrecord
  rw [hid] at hrecord ⊢
  exact hrecord

section Settled

variable {job : Job} {vecs : List (Str × List Int)} {acc : Loop}

/-- What is posted: a share for each winner that can be paid, the burn, and the rest. -/
theorem Settles.posted (h : Settles c job vecs s s' acc) : ∃ new,
    s'.funds.journal = new ++ s.funds.journal ∧ (new.map fun x => x.amount.toNat).sum =
      (workShare s.params job vecs).toNat *
        vecs.countP (fun e => inMajority vecs e && payable s.funds e.1) +
      ((bpsOf job.fee s.params.feeBurnBps).toNat +
        if (Chain.addrBytes job.client).isSome then (workRest s.params job vecs).toNat else 0) := by
  obtain ⟨new, hnew, hsum, -⟩ := h.loop.journal
  obtain ⟨-, -, new', hnew', hsum'⟩ := closeEscrow_total h.closed
  refine ⟨new' ++ new, ?_, ?_⟩
  · rw [hnew', List.append_assoc, ← hnew]
    rfl
  · rw [List.map_append, List.sum_append, hsum, hsum', Nat.add_comm]

/-- The postings add up to the fee exactly when every winner is paid and the rest, if any, goes back. -/
theorem Settles.total_iff (h : Settles c job vecs s s' acc)
    (hburn : s.params.feeBurnBps.toNat ≤ 10000) :
    (∃ new, s'.funds.journal = new ++ s.funds.journal ∧
      (new.map fun x => x.amount.toNat).sum = job.fee.toNat) ↔
    (∀ e ∈ vecs, inMajority vecs e = true → payable s.funds e.1 = true) ∧
      ((job.fee.toNat - (bpsOf job.fee s.params.feeBurnBps).toNat) %
        vecs.countP (inMajority vecs) = 0 ∨ (Chain.addrBytes job.client).isSome = true) := by
  obtain ⟨new, hnew, hsum⟩ := h.posted
  obtain ⟨hshared, hrest⟩ := shared_eq job.fee hburn h.count
  have hposted : (∃ new, s'.funds.journal = new ++ s.funds.journal ∧
      (new.map fun x => x.amount.toNat).sum = job.fee.toNat) ↔
      (new.map fun x => x.amount.toNat).sum = job.fee.toNat := by
    refine ⟨fun ⟨new₂, hnew₂, hsum₂⟩ => ?_, fun he => ⟨new, hnew, he⟩⟩
    rw [hnew, List.append_cancel_right_eq] at hnew₂
    rw [hnew₂]
    exact hsum₂
  have hpos : 0 < (workShare s.params job vecs).toNat :=
    Nat.pos_of_ne_zero fun h0 => h.share (UInt64.toNat_inj.1 (h0.trans rfl))
  have hle : vecs.countP (fun e => inMajority vecs e && payable s.funds e.1) ≤
      vecs.countP (inMajority vecs) :=
    List.countP_mono_left fun e _ he => (Bool.and_eq_true _ _ ▸ he).1
  change _ + (workShare s.params job vecs).toNat * _ + (workRest s.params job vecs).toNat = _ at hshared
  change (workRest s.params job vecs).toNat = _ at hrest
  rw [hposted, hsum, ← countP_and_eq_iff (l := vecs) (a := inMajority vecs)
    (b := fun e => payable s.funds e.1), ← hrest, ← hshared]
  generalize vecs.countP (fun e => inMajority vecs e && payable s.funds e.1) = paid at hle ⊢
  generalize vecs.countP (inMajority vecs) = n at hle ⊢
  generalize (workShare s.params job vecs).toNat = share at hpos ⊢
  generalize (workRest s.params job vecs).toNat = rest
  rcases hle.lt_or_eq with hlt | rfl
  · -- a winner was passed over
    have hmul := Nat.mul_le_mul_left share (Nat.succ_le_of_lt hlt)
    rw [Nat.mul_succ] at hmul
    constructor
    · intro he
      split at he <;> omega
    · rintro ⟨he, -⟩
      omega
  · cases hc : (Chain.addrBytes job.client).isSome <;> simp <;> omega

/-- The treasury grows by what the outliers lost exactly when that sum does not wrap. -/
theorem Settles.treasury_iff (h : Settles c job vecs s s' acc)
    (hleak : s.params.slashLeakBps.toNat ≤ 10000) :
    s'.funds.poolsOrZero.treasury.toNat = s.funds.poolsOrZero.treasury.toNat +
      (vecs.map fun e => (bondOf s.funds e.1).toNat - (bondOf s'.funds e.1).toNat).sum ↔
    s.funds.poolsOrZero.treasury.toNat +
      (vecs.map fun e => (outlierSlash s.params vecs s.funds e).toNat).sum < 2 ^ 64 := by
  obtain ⟨hminers, hpools, -⟩ := closeEscrow_total h.closed
  have htaken : ∀ e ∈ vecs, (bondOf s.funds e.1).toNat - (bondOf s'.funds e.1).toNat =
      (outlierSlash s.params vecs s.funds e).toNat := by
    intro e he
    have hle := outlierSlash_le hleak vecs s.funds e
    have hbond : bondOf s'.funds e.1 = bondOf s.funds e.1 - outlierSlash s.params vecs s.funds e := by
      rw [bondOf, Funds.read, hminers]
      exact h.loop.bond e he
    have hleN := toNat_le_of_le hle
    rw [hbond, toNat_sub hle]
    omega
  have htreasury : s'.funds.poolsOrZero.treasury = s.funds.poolsOrZero.treasury +
      (vecs.map (outlierSlash s.params vecs s.funds)).sum := by
    rw [Funds.poolsOrZero, hpools]
    exact h.loop.treasury
  rw [List.map_congr_left htaken, htreasury, UInt64.toNat_add, toNat_sum, List.map_map,
    Nat.add_mod_mod]
  change (_ + (vecs.map fun e => (outlierSlash s.params vecs s.funds e).toNat).sum) % _ = _ ↔ _
  constructor
  · intro he
    rw [← he]
    exact Nat.mod_lt _ (by decide)
  · exact Nat.mod_eq_of_lt

/-- Whoever is paid stands in the majority. -/
theorem Settles.winner (h : Settles c job vecs s s' acc) {m : Str}
    (hm : PaidWork job.jobId s.funds s'.funds m) : ∃ e ∈ vecs, inMajority vecs e = true ∧ e.1 = m := by
  obtain ⟨new, hnew, -, hwin⟩ := h.loop.journal
  obtain ⟨l, hl, hwork⟩ := closeEscrow_journal h.closed
  have hjournal : s'.funds.journal = (l ++ new) ++ s.funds.journal := by
    rw [hl, List.append_assoc, ← hnew]
    rfl
  obtain ⟨p, hp, hk, -, rfl⟩ := paidWork_of_journal hjournal hm
  rcases List.mem_append.1 hp with hp | hp
  · exact absurd hk (hwork p hp)
  · obtain ⟨e, he, hin, hparty⟩ := hwin p hp
    exact ⟨e, he, hin, hparty.symm⟩

/-- A paid member keeps its bond, and no slash is noted for it. -/
theorem Settles.apart (h : Settles c job vecs s s' acc) {m : Str}
    (hm : PaidWork job.jobId s.funds s'.funds m) :
    bondOf s'.funds m = bondOf s.funds m ∧ ∀ job', s'.job job.jobId = some job' →
      ∀ rec ∈ job'.slashRecords.drop job.slashRecords.length, rec.minerId ≠ m := by
  obtain ⟨e, he, hin, rfl⟩ := h.winner hm
  obtain ⟨hminers, -, -⟩ := closeEscrow_total h.closed
  constructor
  · have hbond := h.loop.bond e he
    rw [outlierSlash, if_pos hin, UInt64.sub_zero] at hbond
    rw [bondOf, Funds.read, hminers]
    exact hbond
  · intro job' hjob' rec hrec hid
    rw [h.record, Option.some.injEq] at hjob'
    obtain ⟨recs, hrecs, hout⟩ := h.loop.slashed
    rw [← hjob', List.drop_left, hrecs, List.nil_append] at hrec
    obtain ⟨e', he', hout', hid'⟩ := hout rec hrec
    have hsame : e' = e := List.inj_on_of_nodup_map h.nodup he' he (hid'.symm.trans hid)
    rw [hsame, hin] at hout'
    cases hout'

omit [Chain] in
/-- Two paid members stand each in a group of more than half of the answers, so the groups meet. -/
theorem paid_meet {committee : List Str} {j m m' : Str} (hlen : vecs.length ≤ committee.length)
    (hlaw : MajorityLaw committee closeAnswers vecs (PaidWork j s.funds s'.funds))
    (hm : PaidWork j s.funds s'.funds m) (hm' : PaidWork j s.funds s'.funds m') :
    ∃ e ∈ vecs, ∃ e' ∈ vecs, e.1 = m ∧ e'.1 = m' ∧
      ∃ o ∈ vecs, inGroup e o = true ∧ inGroup e' o = true := by
  obtain ⟨-, r, hr, hlt⟩ := hlaw m hm
  obtain ⟨-, r', hr', hlt'⟩ := hlaw m' hm'
  have h₁ : committee.length < 2 * vecs.countP (inGroup (m, r)) := hlt
  have h₂ : committee.length < 2 * vecs.countP (inGroup (m', r')) := hlt'
  obtain ⟨o, ho, ha, hb⟩ := exists_of_countP (l := vecs) (a := inGroup (m, r)) (b := inGroup (m', r'))
    (by omega)
  exact ⟨_, hr, _, hr', rfl, rfl, o, ho, ha, hb⟩

end Settled

/-- A settlement of a redundant job is coherent exactly when what it computed can be delivered. -/
theorem settlement_coherent_iff {msg : MsgSettleSemantic} (hs : Reachable (fun _ _ => True) s)
    (hmode : s.params.verificationMode ≠ 1) (h : settleSemantic c msg s = .ok s') :
    ∃ job committee, s.job msg.jobId = some job ∧
      assignedCommitteeOrFail s msg.jobId (workCommitteeSize s) = .ok committee ∧
      (Coherent job (committeeVecs s msg.jobId committee) s s' ↔
        Payable job (committeeVecs s msg.jobId committee) s) := by
  have hchecked := (Reachable.wf hs).checked
  obtain ⟨committee, hc, hlaw⟩ := settleSemantic_majority hmode h
  obtain ⟨job, committee', acc, hj, hid, hc', hset⟩ := settleRedundant_spec hmode h
  rw [hc, Except.ok.injEq] at hc'
  subst hc'
  refine ⟨job, committee, hj, hc, fun hco => ?_, fun hd => ?_⟩
  · obtain ⟨hwin, hrest⟩ := (hset.total_iff hchecked.feeBurn).1 hco.total
    exact ⟨hwin, hrest, (hset.treasury_iff hchecked.slashLeak).1 hco.treasury⟩
  · refine ⟨fun m m' hm hm' => ?_, fun m hm => hset.apart hm,
      (hset.total_iff hchecked.feeBurn).2 ⟨hd.winners, hd.rest⟩,
      (hset.treasury_iff hchecked.slashLeak).2 hd.room⟩
    rw [hid] at hm hm'
    exact paid_meet (length_committeeVecs_le s msg.jobId committee) hlaw hm hm'

end Result

/-! ## A run -/

/-- Two of three members agree, and one of the two sets an operator that is no address. -/
theorem exists_unpayable : ∃ s s', Reachable (fun _ _ => True) s ∧ s.params.verificationMode ≠ 1 ∧
    settleSemantic (blockAt 4) ⟨client, ticket⟩ s = .ok s' ∧
    ∃ l, assignedCommitteeOrFail s ticket (workCommitteeSize s) = .ok l ∧
      ∃ e ∈ committeeVecs s ticket l, inMajority (committeeVecs s ticket l) e = true ∧
        payable s.funds e.1 = false := by
  obtain ⟨s, hs, ht⟩ := exists_reachable (fun _ _ _ => trivial)
    (reachable_village Params.validate_default.1 (by decide) fun _ _ _ _ => trivial)
    (show endsIn free
      (fun s => decide (s.params.verificationMode ≠ 1 ∧
        (settleSemantic (blockAt 4) ⟨client, ticket⟩ s).isOk = true ∧
        ∃ l ∈ (assignedCommitteeOrFail s ticket (workCommitteeSize s)).toOption,
          ∃ e ∈ committeeVecs s ticket l, inMajority (committeeVecs s ticket l) e = true ∧
            payable s.funds e.1 = false))
      (answered "7" "7" "-8" ++ [(blockAt 3, .updateMiner ⟨nameOf 0, idOf 0, "x".toList, [], 0⟩)])
      (village .default) = true by rewrite [application_eq_tabled]; decide +kernel)
  obtain ⟨hmode, hok, l, hl, he⟩ := of_decide_eq_true ht
  exact ⟨s, _, hs, hmode, eq_ok_outcome (s := s) hok, l, eq_ok_of_toOption hl, he⟩

/-- The settlement of that job. -/
theorem settlement_coherent_iff_unpayable : ∃ s s' job committee,
    settleSemantic (blockAt 4) ⟨client, ticket⟩ s = .ok s' ∧
    (Coherent job (committeeVecs s ticket committee) s s' ↔
      Payable job (committeeVecs s ticket committee) s) := by
  obtain ⟨s, s', hs, hmode, hset, -⟩ := exists_unpayable
  obtain ⟨job, committee, -, -, hiff⟩ := settlement_coherent_iff hs hmode hset
  exact ⟨s, s', job, committee, hset, hiff⟩

/-- One of the two shares is not paid, and nobody else gets it: the postings do not add up to the fee. -/
theorem settlement_strands : ∃ s s' job committee, Reachable (fun _ _ => True) s ∧
    s.params.verificationMode ≠ 1 ∧ settleSemantic (blockAt 4) ⟨client, ticket⟩ s = .ok s' ∧
    s.job ticket = some job ∧
    assignedCommitteeOrFail s ticket (workCommitteeSize s) = .ok committee ∧
    ¬ Coherent job (committeeVecs s ticket committee) s s' := by
  obtain ⟨s, s', hs, hmode, hset, l, hl, e, he, hin, hno⟩ := exists_unpayable
  obtain ⟨job, committee, acc, hj, -, hc, hsettles⟩ := settleRedundant_spec hmode hset
  have hsame : l = committee := by
    rw [hl] at hc
    exact Except.ok.inj hc
  subst hsame
  refine ⟨s, s', job, l, hs, hmode, hset, hj, hl, fun hco => ?_⟩
  have hburn := (Reachable.wf hs).checked.feeBurn
  have hpay := ((hsettles.total_iff hburn).1 hco.total).1 e he hin
  rw [hno] at hpay
  cases hpay

end Dendra.Jobs
