import Dendra.Jobs.Audit
import Dendra.Jobs.Msg.Settle

/-!
# The life of one job

What the module knows of one job, and how one step of the module can change it. A `View` is a job
seen alone: its record, its purse (what is retained and posted on its account), its entries in the
lottery and expiry queues, its audit jury, and, of the rest of the module, who answered it and who
is registered. `Life e v v'` is one change of it; its label `e` carries what a later argument asks of
the step.

The invariants of a job's life are proved here once, over `Life`; that the module's messages and
end of block only make such changes is `Jobs/Progress`.

* `Sound`: a job that is not settled has nothing retained, posted or queued.
* `Life.sound`: every change keeps it.
-/

namespace Dendra.Jobs

open Word

/-! ## What is known of one job -/

/-- The money on account of one job. -/
structure Purse where
  held : Share → Option UInt64
  postings : List Posting
  warrants : List Warrant
  queued : Bool
  /-- since when the fee is retained -/
  since : Option UInt64

namespace Purse

/-- What is retained. -/
def retained (q : Purse) : Nat :=
  ((q.held .fee).getD 0).toNat + ((q.held .burn).getD 0).toNat +
    ((q.held .validator).getD 0).toNat + ((q.held .team).getD 0).toNat +
    ((q.held .treasury).getD 0).toNat

/-- What was paid out of the fee. -/
def spent (l : List Posting) : Nat :=
  ((l.filter fun p => p.kind.spendsFee).map fun p => p.amount.toNat).sum

/-- The fee, as far as it is accounted for. -/
def accounted (q : Purse) : Nat := spent q.postings + q.retained

/-- What left the escrow, to be paid or to be retained. -/
def drawn (q : Purse) : Nat :=
  ((q.postings.filter fun p => p.kind.drawsEscrow).map fun p => p.amount.toNat).sum + q.retained

theorem spent_append (l l' : List Posting) : spent (l ++ l') = spent l + spent l' := by
  simp [spent]

theorem spent_eq_zero {l : List Posting} (h : ∀ p ∈ l, p.kind.spendsFee = false) : spent l = 0 := by
  rw [spent, List.filter_eq_nil_iff.2 fun p hp => by simp [h p hp]]
  rfl

/-- Nothing is retained, nothing was paid out of a fee, and no release is queued. -/
structure Empty (q : Purse) : Prop where
  held : ∀ sh, q.held sh = none
  accounted : q.accounted = 0
  queued : q.queued = false

/-- A retention is released or refunded. -/
structure Effect (w : Way) (q q' : Purse) : Prop where
  held : ∀ sh, q'.held sh = q.held sh ∨ q'.held sh = none
  accounted : q'.accounted = q.accounted
  postings : ∃ l, q'.postings = l ++ q.postings ∧ (∀ p ∈ l, (p.kind = .heldFee → w = .release) ∧
    p.kind.drawsEscrow = p.kind.spendsFee) ∧
    ∀ a, q.held .fee = some a → q'.held .fee = some a ∨ a = 0 ∨
      ∃ p ∈ l, p.amount = a ∧ p.kind.movesFee = true
  warrants : q'.warrants = q.warrants
  queued : q'.queued = true → q.queued = true ∨ w = .release
  since : ∀ a, q'.held .fee = some a → a ≠ 0 → q'.since = q.since

theorem Effect.refl (w : Way) (q : Purse) : Effect w q q :=
  ⟨fun _ => .inl rfl, rfl, ⟨[], rfl, by simp, fun _ h => .inl h⟩, rfl, .inl, fun _ _ _ => rfl⟩

theorem Effect.empty {w : Way} {q q' : Purse} (h : Effect w q q') (hq : q.Empty)
    (hw : w = .refund) : q'.Empty where
  held sh := (h.held sh).elim (fun e => e.trans (hq.held sh)) id
  accounted := h.accounted.trans hq.accounted
  queued := by
    rw [Bool.eq_false_iff]
    intro hq'
    rcases h.queued hq' with e | e
    · rw [hq.queued] at e; cases e
    · rw [hw] at e; cases e

theorem Effect.trans {w : Way} {q q' q'' : Purse} (h : Effect w q q') (h' : Effect w q' q'') :
    Effect w q q'' where
  held sh := by
    rcases h'.held sh with e | e
    · rw [e]; exact h.held sh
    · exact .inr e
  accounted := h'.accounted.trans h.accounted
  postings := by
    obtain ⟨l, hl, hp, hf⟩ := h.postings
    obtain ⟨l', hl', hp', hf'⟩ := h'.postings
    refine ⟨l' ++ l, by rw [hl', hl, List.append_assoc], fun p hm => ?_, fun a ha => ?_⟩
    · rcases List.mem_append.1 hm with hm | hm
      · exact hp' p hm
      · exact hp p hm
    · rcases hf a ha with ha' | h0 | ⟨p, hm, e⟩
      · rcases hf' a ha' with ha'' | h0 | ⟨p, hm, e⟩
        · exact .inl ha''
        · exact .inr (.inl h0)
        · exact .inr (.inr ⟨p, List.mem_append_left _ hm, e⟩)
      · exact .inr (.inl h0)
      · exact .inr (.inr ⟨p, List.mem_append_right _ hm, e⟩)
  warrants := h'.warrants.trans h.warrants
  queued hq := by
    rcases h'.queued hq with hq | hq
    · exact h.queued hq
    · exact .inr hq
  since a ha h0 := by
    have ha' : q'.held .fee = some a := by
      rcases h'.held .fee with e | e
      · exact e.symm.trans ha
      · rw [ha] at e
        cases e
    exact (h'.since a ha h0).trans (h.since a ha' h0)

/-- A retention that is released or refunded was drawn from the escrow before. -/
theorem Effect.drawn {w : Way} {q q' : Purse} (h : Effect w q q') : q'.drawn = q.drawn := by
  obtain ⟨l, hl, hk, -⟩ := h.postings
  have hacc := h.accounted
  have hnew : (l.filter fun p => p.kind.drawsEscrow) = l.filter fun p => p.kind.spendsFee :=
    List.filter_congr fun p hp => (hk p hp).2
  simp only [Purse.accounted, spent, Purse.drawn, hl, List.filter_append, List.map_append,
    List.sum_append, hnew] at hacc ⊢
  omega

end Purse

/-- One job, seen alone. -/
@[ext] structure View where
  job : Option Job
  purse : Purse
  /-- the heights of its entries in the lottery's queue -/
  audits : Set Int
  /-- the heights of its appointments -/
  expiry : Set Int
  /-- picked by the lottery, and waiting for a jury -/
  selected : Bool
  /-- its anchored audit jury -/
  seats : List Str
  /-- who anchored an answer that parses -/
  answers : Set Str
  /-- who is registered -/
  miners : Set Str

namespace View

/-- Nothing of this job holds the miner. -/
def Free (v : View) (m : Str) : Prop :=
  ∀ job, v.job = some job → job.minerId = m →
    v.purse.held .fee = none ∧ (jobIsDisputed job.state = true → jobIsResolved job.state = true)

/-- The lottery or an audit may still decide the job. -/
def Undecided (v : View) : Prop :=
  v.audits.Nonempty ∨ v.selected = true ∨ v.seats ≠ []

end View

/-- What does not draw on the escrow spends no fee. -/
theorem Kind.spendsFee_of_drawsEscrow {k : Kind} (h : k.drawsEscrow = false) :
    k.spendsFee = false := by
  cases k <;> first | rfl | exact h

/-- What spends a fee draws on the escrow. -/
theorem Kind.drawsEscrow_of_spendsFee {k : Kind} (h : k.spendsFee = true) :
    k.drawsEscrow = k.spendsFee := by
  cases k <;> first | rfl | cases h

/-! ## How it can change -/

/-- The grounds of a release that the module's rules admit. -/
def Warrant.Genuine : Warrant → Prop
  | .passedOver required decentralized draw bps =>
    (required = true → decentralized = true) ∧ ¬ draw < bps
  | .vindicated p valid voters validVotes seats =>
    auditVindicateDecision p valid voters validVotes seats = true
  | .agreed answered agree total => answered = true ∧ ¬ agree * 2 < total ∧ agree * 2 ≠ total
  | .authority => True
  | .silent | .unfounded => False

/-- What a later argument asks of a change. -/
inductive Label
  /-- a job is opened by this client -/
  | opening (client : Str)
  /-- a settlement under these parameters of a job with this fee; can its operator be paid? -/
  | settle (p : Params) (fee : UInt64) (payable : Bool)
  /-- an appointment is dropped without a refund -/
  | drop (job : Option Job)
  /-- a jury is summoned under these parameters -/
  | summon (p : Params)
  /-- a dispute is opened; is the primary of the job registered, if it has one to slash? -/
  | dispute (registered : Bool)
  | plain

/-- The marks that the redundant mode appends. -/
def Mark.redundant (m : Mark) : Prop := m = .paid ∨ m = .settled ∨ m = .finalized ∨ m = .verified

/-- The marks that close an instance, beside `resolved`. -/
def Mark.closing (m : Mark) : Prop :=
  m = .resolved ∨ m = .adjudicated ∨ m = .clawed ∨ m = .quorum ∨ m = .vindicated ∨ m = .unwound

/-- `job'` is `job` with more marks; what the marks leave alone did not change. -/
structure Job.Extends (job : Job) (marks : List Mark) (job' : Job) : Prop where
  jobId : job'.jobId = job.jobId
  client : job'.client = job.client
  minerId : job'.minerId = job.minerId
  fee : job'.fee = job.fee
  state : job'.state = job.state ++ marks
  bond : jobIsDisputed job'.state = false →
    job'.disputeBond = job.disputeBond ∨ job'.disputeBond = 0

/-- The release of a retention at the close of an instance is founded: on a genuine ground, unless
the primary has no answer or nothing was left to decide. -/
def View.Founded (v : View) (job : Job) (w : Warrant) : Prop :=
  w.Genuine ∨ job.minerId ∉ v.answers ∨ ¬ v.Undecided

/-- One change of a job. -/
inductive Life : Label → View → View → Prop
  /-- other things happen: answers are anchored, miners come, and miners that nothing holds leave -/
  | quiet {v : View} {A M : Set Str} (hA : v.answers ⊆ A) (hM : ∀ m ∈ v.miners, m ∈ M ∨ v.Free m) :
    Life .plain v { v with answers := A, miners := M }
  /-- it is opened -/
  | opened {v : View} {j : Job} {E : Set Int} (hv : v.job = none) (hs : j.state = [])
    (hb : j.disputeBond = 0) (hE : j.fee > 0 → E.Nonempty) :
    Life (.opening j.client) v { v with job := some j, expiry := E }
  /-- the redundant mode tallies or pays it -/
  | marked {v : View} {job job' : Job} {marks : List Mark} {l : List Posting}
    (hj : v.job = some job) (hp : jobIsPaid job.state = false) (hx : job.Extends marks job')
    (hm : ∀ m ∈ marks, m.redundant) (hl : ∀ p ∈ l, p.kind ≠ .heldFee)
    (hs : (∀ p ∈ l, p.kind.drawsEscrow = false) ∨
      jobIsPaid job'.state = true ∧ jobEscrowReturned job.state = false) :
    Life .plain v
      { v with job := some job', purse := { v.purse with postings := l ++ v.purse.postings } }
  /-- the optimistic mode settles it -/
  | settled {v : View} {job k : Job} {p : Params} {payable : Bool} {q : Purse} {h : Int}
    (hj : v.job = some job) (hp : jobIsPaid job.state = false)
    (hs : k.state = job.state ++ [.paid, .optimistic]) (hfee : k.fee = job.fee)
    (hb : k.disputeBond = job.disputeBond) (hne : k.minerId ≠ [])
    (ha : k.minerId ∈ v.answers) (hr : k.minerId ∈ v.miners)
    (hq : q.queued = v.purse.queued) (hw : q.warrants = v.purse.warrants)
    (hl : ∃ l, q.postings = l ++ v.purse.postings ∧ ∀ p ∈ l, p.kind ≠ .heldFee)
    (hheld : (splitFee p job.fee).held ≠ 0 → q.held .fee ≠ none)
    (hacc : p.Bounded → payable = true ∨ (splitFee p job.fee).immediate = 0 →
      (∀ sh, v.purse.held sh = none) → q.accounted = v.purse.accounted + job.fee.toNat)
    (hret : jobEscrowReturned job.state = false) (hc : k.client = job.client) :
    Life (.settle p job.fee payable) v
      { v with job := some k, purse := q, audits := insert h v.audits }
  /-- an appointment that finds nothing to do is dropped -/
  | dropped {v : View} {h : Int} (hd : ∀ job, v.job = some job → job.state ≠ [] ∨ job.fee = 0) :
    Life (.drop v.job) v { v with expiry := v.expiry \ {h} }
  /-- an appointment is put off -/
  | retried {v : View} {h h' : Int} :
    Life .plain v { v with expiry := insert h' (v.expiry \ {h}) }
  /-- its escrow goes back -/
  | expired {v : View} {job job' : Job} {h : Int} {p : Posting} (hj : v.job = some job)
    (hs : job.state = []) (hx : job.Extends [.expired, .refunded] job') (hp : p.kind = .escrow) :
    Life .plain v
      { v with
        job := some job'
        expiry := v.expiry \ {h}
        purse := { v.purse with postings := p :: v.purse.postings } }
  /-- it is disputed -/
  | disputed {v : View} {job job' : Job} {b : Bool} (hj : v.job = some job)
    (hp : jobIsPaid job.state = true) (hx : job.Extends [.disputed] job')
    (hb : b = true → jobIsOptimistic job.state = true → job.minerId ∈ v.miners) : Life (.dispute b) v { v with job := some job' }
  /-- the lottery has nothing to draw for it -/
  | undrawn {v : View} {h : Int}
    (hd : ∀ job, v.job = some job → jobIsPaid job.state = false ∨ jobIsResolved job.state = true) :
    Life .plain v { v with audits := v.audits \ {h} }
  /-- its draw is put off -/
  | deferred {v : View} {h k : Int} {b : Bool} (hh : h ∈ v.audits)
    (hsel : v.selected = true → b = true) :
    Life .plain v { v with audits := insert k (v.audits \ {h}), selected := b }
  /-- the lottery passes it over -/
  | passed {v : View} {job : Job} {h : Int} {q : Purse} {w : Warrant} (hh : h ∈ v.audits)
    (hj : v.job = some job) (hp : jobIsPaid job.state = true) (hsel : v.selected = false)
    (hw : w.Genuine)
    (he : Purse.Effect .release { v.purse with warrants := w :: v.purse.warrants } q) :
    Life .plain v { v with audits := v.audits \ {h}, purse := q }
  /-- the lottery sends it to a jury -/
  | summoned {v : View} {job job' : Job} {h : Int} {marks : List Mark} {p : Params}
    {seats : List Str} (hh : h ∈ v.audits) (hj : v.job = some job)
    (hp : jobIsPaid job.state = true) (hx : job.Extends marks job')
    (hm : ∀ m ∈ marks, m = .disputed) (hd : jobIsDisputed job'.state = true)
    (hseats : 0 < effectiveSlashFloor p → seats ≠ []) :
    Life (.summon p) v
      { v with job := some job', audits := v.audits \ {h}, selected := false, seats := seats }
  /-- its instance is closed -/
  | closed {v : View} {job job' : Job} {marks : List Mark} {way : Way} {q : Purse}
    {ws : List Warrant} (hj : v.job = some job) (hnr : jobIsResolved job.state = false)
    (hx : job.Extends marks job') (hm : ∀ m ∈ marks, m.closing) (hr : .resolved ∈ marks)
    (hopt : way = .release → jobIsOptimistic job.state = true ∧ ∃ w ∈ ws, v.Founded job w)
    (he : Purse.Effect way { v.purse with warrants := ws ++ v.purse.warrants } q) :
    Life .plain v { v with job := some job', purse := q, selected := false, seats := [] }
  /-- a release that was queued is tried again -/
  | rereleased {v : View} {q : Purse} (hq : v.purse.queued = true)
    (he : Purse.Effect .release v.purse q) : Life .plain v { v with purse := q }
  /-- a queued release that has no job is forgotten -/
  | unqueued {v : View} (hv : v.job = none) :
    Life .plain v { v with purse := { v.purse with queued := false } }

/-! ## Marks -/

section Marks

variable {st : JobState} {marks : List Mark}

theorem jobIsPaid_append : jobIsPaid (st ++ marks) = (jobIsPaid st || jobIsPaid marks) := by
  simp only [jobIsPaid, List.contains_append]
  cases List.contains st .paid <;> cases List.contains st .settled <;> simp

theorem jobIsDisputed_append :
    jobIsDisputed (st ++ marks) = (jobIsDisputed st || jobIsDisputed marks) := List.contains_append ..

theorem jobIsResolved_append :
    jobIsResolved (st ++ marks) = (jobIsResolved st || jobIsResolved marks) := List.contains_append ..

theorem jobIsOptimistic_append :
    jobIsOptimistic (st ++ marks) = (jobIsOptimistic st || jobIsOptimistic marks) :=
  List.contains_append ..

theorem jobEscrowReturned_append :
    jobEscrowReturned (st ++ marks) = (jobEscrowReturned st || jobEscrowReturned marks) :=
  List.contains_append ..

theorem jobIsPaid_eq_false (h : ∀ m ∈ marks, m ≠ .paid ∧ m ≠ .settled) :
    jobIsPaid marks = false := by
  simp only [jobIsPaid, Bool.or_eq_false_iff, List.contains_eq_mem, decide_eq_false_iff_not]
  exact ⟨fun hm => (h _ hm).1 rfl, fun hm => (h _ hm).2 rfl⟩

theorem contains_eq_false_of_forall {m : Mark} (h : ∀ m' ∈ marks, m' ≠ m) :
    marks.contains m = false := by
  simp only [List.contains_eq_mem, decide_eq_false_iff_not]
  exact fun hm => h _ hm rfl

theorem Mark.redundant.ne {m : Mark} (h : m.redundant) :
    m ≠ .optimistic ∧ m ≠ .disputed ∧ m ≠ .resolved ∧ m ≠ .refunded := by
  rcases h with rfl | rfl | rfl | rfl <;> decide

theorem Mark.closing.ne {m : Mark} (h : m.closing) :
    m ≠ .paid ∧ m ≠ .settled ∧ m ≠ .optimistic ∧ m ≠ .disputed ∧ m ≠ .refunded := by
  rcases h with rfl | rfl | rfl | rfl | rfl | rfl <;> decide

end Marks

namespace Job.Extends

variable {job job' : Job} {marks : List Mark} (hx : job.Extends marks job')

include hx

theorem isPaid (h : jobIsPaid job.state = true) : jobIsPaid job'.state = true := by
  rw [hx.state, jobIsPaid_append, h, Bool.true_or]

theorem isResolved_of_mem (h : .resolved ∈ marks) : jobIsResolved job'.state = true := by
  rw [hx.state, jobIsResolved_append, jobIsResolved, jobIsResolved, List.contains_iff_mem.2 h,
    Bool.or_true]

theorem optimistic_eq (h : ∀ m ∈ marks, m ≠ .optimistic) :
    jobIsOptimistic job'.state = jobIsOptimistic job.state := by
  rw [hx.state, jobIsOptimistic_append]
  simp only [jobIsOptimistic, contains_eq_false_of_forall h, Bool.or_false]

theorem resolved_eq (h : ∀ m ∈ marks, m ≠ .resolved) :
    jobIsResolved job'.state = jobIsResolved job.state := by
  rw [hx.state, jobIsResolved_append]
  simp only [jobIsResolved, contains_eq_false_of_forall h, Bool.or_false]

theorem disputed_eq (h : ∀ m ∈ marks, m ≠ .disputed) :
    jobIsDisputed job'.state = jobIsDisputed job.state := by
  rw [hx.state, jobIsDisputed_append]
  simp only [jobIsDisputed, contains_eq_false_of_forall h, Bool.or_false]

theorem paid_eq (h : ∀ m ∈ marks, m ≠ .paid ∧ m ≠ .settled) :
    jobIsPaid job'.state = jobIsPaid job.state := by
  rw [hx.state, jobIsPaid_append, jobIsPaid_eq_false h, Bool.or_false]

end Job.Extends

/-! ## What holds through a life -/

/-- The job is settled. -/
def View.Settled (v : View) : Prop := ∃ job, v.job = some job ∧ jobIsPaid job.state = true

/-- A job that is not settled has nothing retained, posted or queued; a job under optimistic
settlement has an answer of its primary; a job that is not disputed holds no bond. -/
structure View.Sound (v : View) : Prop where
  unsettled : ¬ v.Settled → v.purse.Empty ∧ v.audits = ∅ ∧ v.selected = false
  optimistic : ∀ job, v.job = some job → jobIsOptimistic job.state = true →
    jobIsPaid job.state = true ∧ job.minerId ≠ [] ∧ job.minerId ∈ v.answers
  undisputed : ∀ job, v.job = some job → jobIsDisputed job.state = false → job.disputeBond = 0

section Sound

variable {e : Label} {v v' : View}

/-- A change of one record keeps the second half of `Sound`. -/
theorem View.Sound.optimistic_of_extends (hv : v.Sound) {job job' : Job} {marks : List Mark}
    (hj : v.job = some job) (hx : job.Extends marks job') (hm : ∀ m ∈ marks, m ≠ .optimistic) :
    ∀ k, some job' = some k → jobIsOptimistic k.state = true →
      jobIsPaid k.state = true ∧ k.minerId ≠ [] ∧ k.minerId ∈ v.answers := by
  intro k hk ho
  cases hk
  rw [hx.optimistic_eq hm] at ho
  obtain ⟨hp, hne, ha⟩ := hv.optimistic job hj ho
  rw [hx.minerId]
  exact ⟨hx.isPaid hp, hne, ha⟩

/-- So does it the third. -/
theorem View.Sound.undisputed_of_extends (hv : v.Sound) {job job' : Job} {marks : List Mark}
    (hj : v.job = some job) (hx : job.Extends marks job') :
    ∀ k, some job' = some k → jobIsDisputed k.state = false → k.disputeBond = 0 := by
  intro k hk hd
  cases hk
  have hd' : jobIsDisputed job.state = false := by
    rw [hx.state, jobIsDisputed_append, Bool.or_eq_false_iff] at hd
    exact hd.1
  rcases hx.bond hd with e | e
  · rw [e]
    exact hv.undisputed job hj hd'
  · exact e

/-- What is not settled has no entry in the lottery's queue. -/
theorem View.Sound.settled_of_mem (hv : v.Sound) {h : Int} (hh : h ∈ v.audits) : v.Settled := by
  by_contra hn
  rw [(hv.unsettled hn).2.1] at hh
  exact hh

theorem Life.sound (h : Life e v v') (hv : v.Sound) : v'.Sound := by
  cases h with
  | quiet hA hM =>
    refine ⟨hv.unsettled, fun job hj ho => ?_, hv.undisputed⟩
    obtain ⟨hp, hne, ha⟩ := hv.optimistic job hj ho
    exact ⟨hp, hne, hA ha⟩
  | @opened v job E hn hs hb hE =>
    have hns : ¬ v.Settled := fun ⟨k, hk, _⟩ => by rw [hn] at hk; cases hk
    refine ⟨fun _ => hv.unsettled hns, fun k hk ho => ?_, fun k hk _ => ?_⟩
    · cases hk
      rw [hs] at ho
      cases ho
    · cases hk
      exact hb
  | @marked v job job' marks l hj hp hx hm hl hs =>
    refine ⟨fun hn => ?_, hv.optimistic_of_extends hj hx fun m hmm => (hm m hmm).ne.1,
      hv.undisputed_of_extends hj hx⟩
    have hns : ¬ v.Settled := by
      rintro ⟨k, hk, hpk⟩
      rw [hj] at hk
      cases hk
      rw [hp] at hpk
      cases hpk
    obtain ⟨hq, ha, hsel⟩ := hv.unsettled hns
    have hl0 : ∀ p ∈ l, p.kind.spendsFee = false := by
      rcases hs with hs | hs
      · exact fun p hp => Kind.spendsFee_of_drawsEscrow (hs p hp)
      · exact absurd ⟨job', rfl, hs.1⟩ hn
    refine ⟨⟨hq.held, ?_, hq.queued⟩, ha, hsel⟩
    have hacc := hq.accounted
    rw [Purse.accounted] at hacc ⊢
    rw [Purse.spent_append, Purse.spent_eq_zero hl0, Nat.zero_add]
    exact hacc
  | @settled v job job' p payable q h hj hp hs hfee hb hne ha hr hq hw hl hheld hacc =>
    have hpaid : jobIsPaid job'.state = true := by
      rw [hs, jobIsPaid_append]
      exact Bool.or_true _
    refine ⟨fun hn => absurd ⟨job', rfl, hpaid⟩ hn, fun k hk _ => ?_, fun k hk hd => ?_⟩
    · cases hk
      exact ⟨hpaid, hne, ha⟩
    · cases hk
      rw [hs, jobIsDisputed_append, Bool.or_eq_false_iff] at hd
      rw [hb]
      exact hv.undisputed job hj hd.1
  | dropped hd => exact ⟨hv.unsettled, hv.optimistic, hv.undisputed⟩
  | retried => exact ⟨hv.unsettled, hv.optimistic, hv.undisputed⟩
  | @expired v job job' h p hj hs hx hp =>
    have hm : ∀ m ∈ [Mark.expired, .refunded], m ≠ .optimistic := by decide
    refine ⟨fun hn => ?_, hv.optimistic_of_extends hj hx hm, hv.undisputed_of_extends hj hx⟩
    have hns : ¬ v.Settled := by
      rintro ⟨k, hk, hpk⟩
      rw [hj] at hk
      cases hk
      rw [hs] at hpk
      cases hpk
    obtain ⟨hq, ha, hsel⟩ := hv.unsettled hns
    refine ⟨⟨hq.held, ?_, hq.queued⟩, ha, hsel⟩
    have hp0 : ∀ x ∈ [p], x.kind.spendsFee = false := by simp [hp, Kind.spendsFee]
    have hacc := hq.accounted
    rw [Purse.accounted] at hacc ⊢
    show Purse.spent ([p] ++ v.purse.postings) + _ = 0
    rw [Purse.spent_append, Purse.spent_eq_zero hp0, Nat.zero_add]
    exact hacc
  | @disputed v job job' b hj hp hx hb =>
    refine ⟨fun hn => absurd ⟨job', rfl, hx.isPaid hp⟩ hn,
      hv.optimistic_of_extends hj hx (by decide), hv.undisputed_of_extends hj hx⟩
  | @undrawn v h hd =>
    refine ⟨fun hn => ?_, hv.optimistic, hv.undisputed⟩
    obtain ⟨hq, ha, hsel⟩ := hv.unsettled hn
    exact ⟨hq, by simp [ha], hsel⟩
  | deferred hh hsel =>
    exact ⟨fun hn => absurd (hv.settled_of_mem hh) hn, hv.optimistic, hv.undisputed⟩
  | @passed v job h q w hh hj hp hsel hw he =>
    exact ⟨fun hn => absurd ⟨job, hj, hp⟩ hn, hv.optimistic, hv.undisputed⟩
  | @summoned v job job' h marks p seats hh hj hp hx hm hd hseats =>
    refine ⟨fun hn => absurd ⟨job', rfl, hx.isPaid hp⟩ hn,
      hv.optimistic_of_extends hj hx fun m hmm => by rw [hm m hmm]; decide,
      hv.undisputed_of_extends hj hx⟩
  | @closed v job job' marks way q ws hj hnr hx hm hr hopt he =>
    refine ⟨fun hn => ?_, hv.optimistic_of_extends hj hx fun m hmm => (hm m hmm).ne.2.2.1,
      hv.undisputed_of_extends hj hx⟩
    have hns : ¬ v.Settled := by
      rintro ⟨k, hk, hpk⟩
      rw [hj] at hk
      cases hk
      exact hn ⟨job', rfl, hx.isPaid hpk⟩
    obtain ⟨hq, ha, -⟩ := hv.unsettled hns
    cases way with
    | refund => exact ⟨he.empty ⟨hq.held, hq.accounted, hq.queued⟩ rfl, ha, rfl⟩
    | release =>
      have hpaid := (hv.optimistic job hj (hopt rfl).1).1
      exact absurd ⟨job, hj, hpaid⟩ hns
  | @rereleased v q hq he =>
    refine ⟨fun hn => ?_, hv.optimistic, hv.undisputed⟩
    have := (hv.unsettled hn).1.queued
    rw [hq] at this
    cases this
  | unqueued hn =>
    refine ⟨fun hns => ?_, hv.optimistic, hv.undisputed⟩
    obtain ⟨hq, ha, hsel⟩ := hv.unsettled hns
    exact ⟨⟨hq.held, hq.accounted, rfl⟩, ha, hsel⟩

end Sound

end Dendra.Jobs
