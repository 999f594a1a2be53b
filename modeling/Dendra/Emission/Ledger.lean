import Dendra.Emission.Backing

/-!
# The ledger of the emission

`x/emission/keeper/genesis.go`: `ExportGenesis`, and a chain that is exported and started again. What has left
the module is counted beside what it still promises.

* `State.accounted`: the Reserve, the two pools, what was paid out of each and the security tranches.
* `Booked`: every counter is there, and together they fit a word. `Moves.booked`: one move.
* `emission_conserved`: of a new chain, the counters always add up to the genesis Reserve.
* `exported_again`: an export of a backed chain is accepted as a genesis, and gives its counters back.
-/

namespace Dendra.Emission

open Word Jobs

/-! ## Export -/

/-- `ExportGenesis`. A counter that was never written is exported as 0. -/
def exportGenesis (s : State) : Except String GenesisState :=
  match s.params with
  | none => .error "params"
  | some p =>
    .ok ⟨p, some {
      reserve := s.reserve.getD 0
      workPool := s.workPool.getD 0
      availPool := s.availPool.getD 0
      securityDistributedTotal := s.securityDistributedTotal.getD 0
      lastEpoch := s.lastEpoch.getD 0
      lastSupply := s.lastSupply.getD 0
      workPaidTotal := s.workPaidTotal.getD 0
      availPaidTotal := s.availPaidTotal.getD 0 }⟩

/-- A step of the chain, or its export, from which it starts again at any height. The accounts keep their
coins. -/
inductive Move
  | act (a : Action)
  | restart (allowUnbacked : Bool) (height : Nat)

/-- What a move leaves. -/
def Moves [Chain] (s : State) (m : Move) (s' : State) : Prop :=
  match m with
  | .act a => Step s a s'
  | .restart allowUnbacked height =>
    height < 2 ^ 63 ∧ ∃ g, exportGenesis s = .ok g ∧ initGenesis g allowUnbacked s.bank height = .ok s'

/-! ## What is accounted for -/

/-- What has left the module. -/
def State.spent (s : State) : Nat :=
  (s.securityDistributedTotal.getD 0).toNat + (s.workPaidTotal.getD 0).toNat + (s.availPaidTotal.getD 0).toNat

/-- What the counters promise, and what has left. -/
def State.accounted (s : State) : Nat := s.book + s.spent

/-- No counter is missing. -/
structure State.Written (s : State) : Prop where
  reserve : s.reserve.isSome
  workPool : s.workPool.isSome
  availPool : s.availPool.isSome
  security : s.securityDistributedTotal.isSome
  lastEpoch : s.lastEpoch.isSome
  lastSupply : s.lastSupply.isSome
  workPaid : s.workPaidTotal.isSome
  availPaid : s.availPaidTotal.isSome

/-- A chain whose counters are all there and fit a word together, under accepted parameters. -/
structure Booked (s : State) : Prop where
  inv : Inv s
  params : ∃ p, s.params = some p ∧ p.validate = .ok ()
  written : s.Written
  word : s.accounted < 2 ^ 64

/-- What a move keeps: the account of the coins, and their backing. -/
structure Conserves (s s' : State) : Prop where
  accounted : s'.accounted = s.accounted
  covered : s.book ≤ s.bank.balance → s'.book ≤ s'.bank.balance

section Moves

variable {s s' : State}

theorem toNat_addItem {cur : Option UInt64} {amt : UInt64} (h : (cur.getD 0).toNat + amt.toNat < 2 ^ 64) :
    ((addItem cur amt).getD 0).toNat = (cur.getD 0).toNat + amt.toNat := by
  rw [addItem, Option.getD_some, UInt64.toNat_add]
  exact Nat.mod_eq_of_lt h

/-- The hook moves coins between the counters, and out of the account what it says it distributed. -/
theorem Ran.conserves (h : Inv s) (hword : s.accounted < 2 ^ 64) (hr : Ran s s') : Conserves s s' := by
  cases hr with
  | idle => exact ⟨rfl, id⟩
  | skipped => exact ⟨rfl, id⟩
  | deferred r reason => exact ⟨rfl, id⟩
  | completed hep hlast hdue hsupply hr hpaid =>
    obtain ⟨hparts, hreserve⟩ := h.release_sound hep hr hpaid
    simp only [State.accounted, State.book, State.spent, required] at hword
    constructor
    · simp only [State.accounted, State.book, State.spent, required, completeEpoch, Option.getD_some]
      rw [toNat_addItem (by omega), toNat_addItem (by omega), toNat_addItem (by omega)]
      omega
    · intro hcovered
      simp only [State.book, required] at hcovered
      simp only [State.book, required, completeEpoch, Option.getD_some]
      rw [toNat_addItem (by omega), toNat_addItem (by omega)]
      omega

theorem Ran.written (h : s.Written) (hr : Ran s s') : s'.Written := by
  cases hr with
  | idle => exact h
  | skipped => exact { h with lastEpoch := rfl }
  | deferred r reason => exact { h with lastEpoch := rfl }
  | completed hep hlast hdue hsupply hr hpaid =>
    exact ⟨rfl, rfl, rfl, rfl, rfl, rfl, h.workPaid, h.availPaid⟩

theorem Ran.params (hr : Ran s s') : s'.params = s.params := by
  cases hr <;> rfl

theorem Booked.hook (h : Booked s) (hinv : Inv s) (hr : Ran s s') : Booked s' ∧ Conserves s s' := by
  have hkeep := hr.conserves hinv h.word
  exact ⟨⟨hr.inv hinv, by rw [hr.params]; exact h.params, hr.written h.written, hkeep.accounted ▸ h.word⟩, hkeep⟩

section Calls

variable [Chain] {refused : Bool} {recipient : Addr} {amt paid : UInt64}

/-- A transfer takes the coins from the account, unless they are sent to the account itself. -/
theorem send_cases {b b' : Bank} (h : send refused recipient amt b = some b') :
    amt.toNat ≤ b.balance ∧ (b' = b ∨ b' = { b with balance := b.balance - amt.toNat }) := by
  unfold send at h
  split at h
  · cases h
  · next hsend =>
    rw [not_or, not_lt] at hsend
    refine ⟨hsend.2, ?_⟩
    split at h
    · exact .inl (Option.some.inj h).symm
    · exact .inr (Option.some.inj h).symm

/-- A payout moves what it paid from a pool to the total paid, wherever the coins go. -/
theorem Booked.pays (h : Booked s) {b : Bank} {work avail workPaid availPaid : Option UInt64}
    (hsend : send refused recipient paid s.bank = some b)
    (hs' : s' = { s with
      bank := b
      workPool := work
      availPool := avail
      workPaidTotal := workPaid
      availPaidTotal := availPaid })
    (hwritten : s'.Written) (hbook : s'.book + paid.toNat = s.book) (hspent : s'.spent = s.spent + paid.toNat) :
    Booked s' ∧ Conserves s s' := by
  obtain ⟨hpaid, hb⟩ := send_cases hsend
  have hsupply : b.supply = s.bank.supply := by rcases hb with rfl | rfl <;> rfl
  have hbalance : b.balance ≤ s.bank.balance ∧ s.bank.balance ≤ b.balance + paid.toNat := by
    rcases hb with rfl | rfl
    · exact ⟨le_rfl, Nat.le_add_right _ _⟩
    · exact ⟨Nat.sub_le _ _, (Nat.sub_add_cancel hpaid).ge⟩
  have haccounted : s'.accounted = s.accounted := by
    rw [State.accounted, State.accounted, hspent]
    omega
  have hle : s'.book ≤ s.book := by omega
  have hinv : Inv s' := by
    subst hs'
    exact ⟨h.inv.params, (hbalance.1.trans h.inv.held).trans hsupply.ge, hsupply.le.trans h.inv.supply,
      hle.trans_lt h.inv.book, h.inv.height, h.inv.past⟩
  refine ⟨⟨hinv, ?_, hwritten, haccounted ▸ h.word⟩, haccounted, fun hcovered => ?_⟩
  · subst hs'
    exact h.params
  · subst hs'
    simp only at hbook ⊢
    omega

theorem Booked.payWork (h : Booked s) (hpay : payWork refused recipient amt s = .ok (paid, s')) :
    Booked s' ∧ Conserves s s' := by
  obtain ⟨hpaid, ⟨-, rfl⟩ | ⟨-, b, hsend, rfl⟩⟩ := payWork_spec hpay
  · exact ⟨h, rfl, id⟩
  · have hle : paid ≤ s.workPool.getD 0 := hpaid ▸ payable_le _ _ _
    have hpool := toNat_sub hle
    have hle := toNat_le_of_le hle
    have hword := h.word
    simp only [State.accounted, State.book, State.spent, required] at hword
    refine h.pays hsend rfl { h.written with workPool := rfl, workPaid := rfl } ?_ ?_
    · simp only [State.book, required, Option.getD_some]
      omega
    · simp only [State.spent]
      rw [toNat_addItem (by omega)]
      omega

theorem Booked.payAvail (h : Booked s) (hpay : payAvail refused recipient amt s = .ok (paid, s')) :
    Booked s' ∧ Conserves s s' := by
  obtain ⟨hpaid, ⟨-, rfl⟩ | ⟨-, b, hsend, rfl⟩⟩ := payAvail_spec hpay
  · exact ⟨h, rfl, id⟩
  · have hle : paid ≤ s.availPool.getD 0 := hpaid ▸ payable_le _ _ _
    have hpool := toNat_sub hle
    have hle := toNat_le_of_le hle
    have hword := h.word
    simp only [State.accounted, State.book, State.spent, required] at hword
    refine h.pays hsend rfl { h.written with availPool := rfl, availPaid := rfl } ?_ ?_
    · simp only [State.book, required, Option.getD_some]
      omega
    · simp only [State.spent]
      rw [toNat_addItem (by omega)]
      omega

theorem Booked.step (h : Booked s) {a : Action} (hs : Step s a s') : Booked s' ∧ Conserves s s' := by
  cases a with
  | runEpoch refused =>
    obtain ⟨hinv, hran⟩ := hook_ran h.inv hs
    have hnext : Booked { s with height := s.height + 1 } := ⟨hinv, h.params, { h.written with }, h.word⟩
    obtain ⟨hbooked, hkeep⟩ := hnext.hook hinv hran
    exact ⟨hbooked, hkeep.accounted, hkeep.covered⟩
  | payWork refused recipient amt =>
    have hrun := hs.1
    simp only [Action.run] at hrun
    cases hpay : Emission.payWork refused recipient amt s with
    | error e =>
      rw [hpay] at hrun
      cases hrun
    | ok r =>
      rw [hpay, Except.map, Except.ok.injEq] at hrun
      subst hrun
      exact h.payWork hpay
  | payAvail refused recipient amt =>
    have hrun := hs.1
    simp only [Action.run] at hrun
    cases hpay : Emission.payAvail refused recipient amt s with
    | error e =>
      rw [hpay] at hrun
      cases hrun
    | ok r =>
      rw [hpay, Except.map, Except.ok.injEq] at hrun
      subst hrun
      exact h.payAvail hpay
  | updateParams p =>
    have hinv : Inv s' := by
      rcases step_cases h.inv (a := .updateParams p) id hs with ⟨hinv, hran⟩ | hgood
      · exact hran.inv hinv
      · exact hgood.inv
    have hrun := hs.1
    simp only [Action.run] at hrun
    cases hp : p.validate with
    | error e =>
      rw [hp] at hrun
      cases hrun
    | ok u =>
      rw [hp, Except.map, Except.ok.injEq] at hrun
      subst hrun
      exact ⟨⟨hinv, ⟨p, rfl, hp⟩, { h.written with }, h.word⟩, rfl, id⟩
  | burn amt =>
    have hinv : Inv s' := by
      rcases step_cases h.inv (a := .burn amt) id hs with ⟨hinv, hran⟩ | hgood
      · exact hran.inv hinv
      · exact hgood.inv
    have hrun := hs.1
    simp only [Action.run] at hrun
    split at hrun
    · cases hrun
    · rw [Except.ok.injEq] at hrun
      subst hrun
      exact ⟨⟨hinv, h.params, { h.written with }, h.word⟩, rfl, id⟩
  | receive amt =>
    have hinv : Inv s' := by
      rcases step_cases h.inv (a := .receive amt) id hs with ⟨hinv, hran⟩ | hgood
      · exact hran.inv hinv
      · exact hgood.inv
    have hrun := hs.1
    simp only [Action.run] at hrun
    split at hrun
    · cases hrun
    · rw [Except.ok.injEq] at hrun
      subst hrun
      exact ⟨⟨hinv, h.params, { h.written with }, h.word⟩, rfl, fun hle => hle.trans (Nat.le_add_right _ _)⟩

end Calls

/-! ## Starting again -/

/-- What an export starts again from is the state, at another height and with no event. -/
theorem Booked.export (h : Booked s) : ∃ g, exportGenesis s = .ok g ∧ g.params.validate = .ok () ∧
    g.declared = s.book ∧ ∀ height, g.start s.bank height = { s with height := height, events := [] } := by
  obtain ⟨p, hp, hvalid⟩ := h.params
  obtain ⟨hreserve, hwork, havail, hsec, hepoch, hsupply, hworkPaid, havailPaid⟩ := h.written
  obtain ⟨params, reserve, workPool, availPool, security, lastEpoch, lastSupply, workPaid, availPaid, bank, height,
    events⟩ := s
  obtain ⟨reserve, rfl⟩ := Option.isSome_iff_exists.1 hreserve
  obtain ⟨workPool, rfl⟩ := Option.isSome_iff_exists.1 hwork
  obtain ⟨availPool, rfl⟩ := Option.isSome_iff_exists.1 havail
  obtain ⟨security, rfl⟩ := Option.isSome_iff_exists.1 hsec
  obtain ⟨lastEpoch, rfl⟩ := Option.isSome_iff_exists.1 hepoch
  obtain ⟨lastSupply, rfl⟩ := Option.isSome_iff_exists.1 hsupply
  obtain ⟨workPaid, rfl⟩ := Option.isSome_iff_exists.1 hworkPaid
  obtain ⟨availPaid, rfl⟩ := Option.isSome_iff_exists.1 havailPaid
  simp only at hp
  subst hp
  exact ⟨_, rfl, hvalid, rfl, fun _ => rfl⟩

theorem Booked.restarted (h : Booked s) {height : Nat} (hheight : height < 2 ^ 63) :
    Booked { s with height := height, events := [] } :=
  ⟨⟨h.inv.params, h.inv.held, h.inv.supply, h.inv.book, hheight, fun _ he => by cases he⟩, h.params,
    { h.written with }, h.word⟩

theorem Moves.booked [Chain] (h : Booked s) {m : Move} (hm : Moves s m s') : Booked s' ∧ Conserves s s' := by
  cases m with
  | act a => exact h.step hm
  | restart allowUnbacked height =>
    obtain ⟨hheight, g, hg, hinit⟩ := hm
    obtain ⟨g', hg', -, -, hstart⟩ := h.export
    obtain rfl : g' = g := Except.ok.inj (hg'.symm.trans hg)
    obtain ⟨rfl, -, -⟩ := initGenesis_spec hinit
    rw [hstart]
    exact ⟨h.restarted hheight, rfl, id⟩

/-! ## Over a run -/

/-- A genesis without counters: a new chain. -/
def Bootstrap (s : State) : Prop :=
  ∃ p allowUnbacked b height, initGenesis ⟨p, none⟩ allowUnbacked b height = .ok s ∧ b.balance ≤ b.supply ∧
    b.supply ≤ maxSupply ∧ height < 2 ^ 63

theorem Bootstrap.genesis (h : Bootstrap s) : Genesis s := by
  obtain ⟨p, allowUnbacked, b, height, h⟩ := h
  exact ⟨_, allowUnbacked, b, height, h⟩

theorem Bootstrap.booked (h : Bootstrap s) : Booked s ∧ s.accounted = genesisReserveU.toNat := by
  have hinv := (h.genesis.kept 0).inv
  obtain ⟨p, allowUnbacked, b, height, hinit, -⟩ := h
  obtain ⟨rfl, hvalid, -⟩ := initGenesis_spec hinit
  have haccounted : ((⟨p, none⟩ : GenesisState).start b height).accounted = genesisReserveU.toNat := rfl
  refine ⟨⟨hinv, ⟨p, rfl, hvalid⟩, ⟨rfl, rfl, rfl, rfl, rfl, rfl, rfl, rfl⟩, ?_⟩, haccounted⟩
  rw [haccounted]
  decide

/-- The states of a chain that started as `init` says, through any number of restarts. -/
def Continued [Chain] (init : State → Prop) : State → Prop := Reach init Moves fun _ _ => True

/-- The Reserve, the pools, what was paid out of them and what was distributed always add up to the Reserve of a
new chain. -/
theorem emission_conserved [Chain] (h : Continued Bootstrap s) : s.accounted = genesisReserveU.toNat := by
  refine (h.invariant (P := fun s => Booked s ∧ s.accounted = genesisReserveU.toNat)
    (fun _ h => h.booked) fun s m s' _ ih _ hm => ?_).2
  obtain ⟨hbooked, hkeep⟩ := Moves.booked ih.1 hm
  exact ⟨hbooked, hkeep.accounted.trans ih.2⟩

/-- A new chain, at the first block of which the account holds the Reserve. -/
def Backed (s : State) : Prop :=
  ∃ p b height, initGenesis ⟨p, none⟩ false b height = .ok s ∧ b.balance ≤ b.supply ∧
    b.supply ≤ maxSupply ∧ height < 2 ^ 63

theorem Backed.bootstrap (h : Backed s) : Bootstrap s := by
  obtain ⟨p, b, height, h⟩ := h
  exact ⟨p, false, b, height, h⟩

theorem reserveIsBacked_of_le {g : GenesisState} {b : Bank} (hword : g.declared < 2 ^ 64)
    (h : g.declared ≤ b.balance) : reserveIsBacked g b = .ok () := by
  unfold reserveIsBacked
  split
  · rfl
  · rw [if_neg (not_le.2 hword), if_neg (not_lt.2 h)]

theorem Backed.covered (h : Backed s) : s.book ≤ s.bank.balance := by
  obtain ⟨p, b, height, hinit, -⟩ := h
  obtain ⟨rfl, hvalid, -⟩ := initGenesis_spec hinit
  rw [book_start]
  have hdeclared : (⟨p, none⟩ : GenesisState).declared = 3300000000000 := rfl
  rw [hdeclared]
  by_contra hshort
  have hback : reserveIsBacked ⟨p, none⟩ b = .error .short := by
    unfold reserveIsBacked
    rw [hdeclared, if_neg (by decide), if_neg (by decide)]
    exact if_pos (not_le.1 hshort)
  unfold initGenesis at hinit
  simp only at hvalid
  rw [hvalid, hback] at hinit
  cases hinit

/-- Whenever a chain that started backed is exported, the export is accepted as the genesis of its next chain
without the operator's switch, and every counter and parameter is what it was. -/
theorem exported_again [Chain] (h : Continued Backed s) (height : Nat) : ∃ g, exportGenesis s = .ok g ∧
    initGenesis g false s.bank height = .ok { s with height := height, events := [] } := by
  obtain ⟨hbooked, hcovered⟩ := h.invariant (P := fun s => Booked s ∧ s.book ≤ s.bank.balance)
    (fun _ h => ⟨h.bootstrap.booked.1, h.covered⟩) fun s m s' _ ih _ hm => by
      obtain ⟨hbooked, hkeep⟩ := Moves.booked ih.1 hm
      exact ⟨hbooked, hkeep.covered ih.2⟩
  obtain ⟨g, hg, hvalid, hdeclared, hstart⟩ := hbooked.export
  refine ⟨g, hg, ?_⟩
  unfold initGenesis
  rw [hvalid, reserveIsBacked_of_le (hdeclared ▸ hbooked.inv.book) (hdeclared ▸ hcovered), ← hstart]
  rfl

end Moves

/-! ## A new chain -/

/-- A new chain, one block before its first epoch. -/
def birth : State :=
  GenesisState.start ⟨{ Params.default with epochBlocks := 10 }, none⟩ ⟨3300000000000, 10000000000000, 0⟩ 9

theorem backed_birth : Backed birth :=
  ⟨{ Params.default with epochBlocks := 10 }, ⟨3300000000000, 10000000000000, 0⟩, 9, rfl, by decide, by decide,
    by decide⟩

/-- Its first epoch. -/
def firstEpoch : State := runEpoch false { birth with height := 10 }

theorem continued_firstEpoch {init : State → Prop} (h : init birth) : Continued init firstEpoch :=
  .step (a := .act (.runEpoch false)) (.init h) trivial ⟨rfl, by decide⟩

theorem emission_conserved_first : firstEpoch.accounted = genesisReserveU.toNat ∧
    firstEpoch.reserve = some 2937000000000 ∧ firstEpoch.spent = 217800000000 :=
  ⟨emission_conserved (continued_firstEpoch backed_birth.bootstrap), by decide, by decide⟩

theorem exported_again_first : ∃ g, exportGenesis firstEpoch = .ok g ∧
    initGenesis g false firstEpoch.bank 1 = .ok { firstEpoch with height := 1, events := [] } :=
  exported_again (continued_firstEpoch backed_birth) 1

end Dendra.Emission
