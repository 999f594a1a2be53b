import Mathlib
import Dendra.Faucet.Drip

/-!
# The bounds of the faucet

While requests are decided in the order in which they read the clock, no IP and not all together attempt more in a
day than their limits. While moreover a transfer that is judged failed is one that never lands, and no later drip of
its address stands when it is judged, two drips that an address receives are a cooldown apart.

* `Standing`: a table of last drips that stands for the transfers that were not refunded, up to a time from which
  their cooldowns are over.
* `Inv`: memory and file, with the recent hits equal to those of the transfers; `Inv.step`.
* `faucet_bounded`: the result. `drip_twice`: a transfer that lands after it was judged failed.
-/

namespace Dendra.Faucet

/-! ## Hits -/

section Hits

variable {now n m x : Rat} {ts us : List Rat} {cap : Nat}

theorem mem_recent {t : Rat} : t ∈ recent now ts ↔ t ∈ ts ∧ now - t < day := by
  unfold recent
  rw [List.mem_filter, decide_eq_true_iff]

theorem recent_append : recent now (ts ++ us) = recent now ts ++ recent now us := List.filter_append ..

/-- What was dropped earlier is not recent later. -/
theorem recent_recent (h : m ≤ n) : recent n (recent m ts) = recent n ts := by
  unfold recent
  rw [List.filter_filter]
  refine List.filter_congr fun t _ => ?_
  rw [Bool.and_eq_left_iff_imp, decide_eq_true_iff, decide_eq_true_iff]
  intro ht
  linarith

/-- The hits of a day that begins at `x`. -/
def inDay (x : Rat) (ts : List Rat) : Nat := ts.countP fun t => decide (x ≤ t ∧ t < x + day)

/-- Hits that lie in one day with `now` are recent at `now`. -/
theorem inDay_le_recent (hn : now < x + day) : inDay x ts ≤ (recent now ts).length := by
  unfold inDay recent
  rw [← List.countP_eq_length_filter]
  refine List.countP_mono_left fun t _ ht => ?_
  rw [decide_eq_true_iff] at ht ⊢
  linarith [ht.1]

/-- A hit that finds room keeps every day under the cap. -/
theorem inDay_append (h : ∀ x, inDay x ts ≤ cap) (hroom : (recent now ts).length < cap) (x : Rat) :
    inDay x (ts ++ [now]) ≤ cap := by
  have hadd : inDay x (ts ++ [now]) = inDay x ts + inDay x [now] := List.countP_append ..
  rw [hadd]
  by_cases hx : x ≤ now ∧ now < x + day
  · have hone : inDay x [now] = 1 := by
      unfold inDay
      rw [List.countP_singleton, if_pos (decide_eq_true hx)]
    have : inDay x ts ≤ (recent now ts).length := inDay_le_recent hx.2
    omega
  · have hnone : inDay x [now] = 0 := by
      unfold inDay
      rw [List.countP_singleton, if_neg (by simpa using hx)]
    have := h x
    omega

end Hits

/-! ## Transfers -/

/-- The stamps of the transfers of an IP. -/
def stampsOf (ip : Str) (l : List Attempt) : List Rat := (l.filter fun a => decide (a.ip = ip)).map Attempt.stamp

theorem stampsOf_append_self (ip addr : Str) (now : Rat) (l : List Attempt) :
    stampsOf ip (l ++ [⟨addr, ip, now⟩]) = stampsOf ip l ++ [now] := by
  simp [stampsOf]

theorem stampsOf_append_other {ip ip' : Str} (h : ip' ≠ ip) (addr : Str) (now : Rat) (l : List Attempt) :
    stampsOf ip (l ++ [⟨addr, ip', now⟩]) = stampsOf ip l := by
  simp [stampsOf, h]

/-- For each transfer that was not refunded, its cooldown is over at `bound`, or the table has a drip of its
address that is not older. -/
def Standing (lim : Limits) (attempts : List Attempt) (refunded : List Nat) (bound : Rat) (last : Str → Option Rat) :
    Prop :=
  ∀ i a, i ∉ refunded → attempts[i]? = some a →
    a.stamp + lim.addrCooldown ≤ bound ∨ ∃ t, last a.addr = some t ∧ a.stamp ≤ t

section Standing

variable {lim : Limits} {attempts : List Attempt} {refunded : List Nat} {bound bound' now : Rat}
  {last : Str → Option Rat} {addr ip : Str}

theorem Standing.mono (h : Standing lim attempts refunded bound last) (hb : bound ≤ bound') :
    Standing lim attempts refunded bound' last :=
  fun i a hi ha => (h i a hi ha).imp_left fun hle => hle.trans hb

/-- Entries are dropped when their cooldown is over. -/
theorem Standing.prune (h : Standing lim attempts refunded bound last) (hb : bound ≤ now) :
    Standing lim attempts refunded now fun a => (last a).filter fun t => decide (now - t < lim.addrCooldown) := by
  intro i a hi ha
  obtain hover | ⟨t, ht, hle⟩ := h i a hi ha
  · exact .inl (hover.trans hb)
  · by_cases hkeep : now - t < lim.addrCooldown
    · refine .inr ⟨t, ?_, hle⟩
      dsimp only
      rw [ht, Option.filter_some, if_pos (decide_eq_true hkeep)]
    · exact .inl (by linarith)

/-- A drip is entered. -/
theorem Standing.charge (h : Standing lim attempts refunded bound last) (hb : bound ≤ now)
    (hstamps : ∀ a ∈ attempts, a.stamp ≤ now) :
    Standing lim (attempts ++ [⟨addr, ip, now⟩]) refunded now (Function.update last addr (some now)) := by
  intro i a hi ha
  by_cases haddr : a.addr = addr
  · refine .inr ⟨now, by rw [haddr, Function.update_self], ?_⟩
    obtain hold | hnew := List.mem_append.1 (List.mem_of_getElem? ha)
    · exact hstamps a hold
    · rw [List.mem_singleton.1 hnew]
  · have hold : attempts[i]? = some a := by
      by_cases hlt : i < attempts.length
      · rwa [List.getElem?_append_left hlt] at ha
      · rw [List.getElem?_append_right (not_lt.1 hlt)] at ha
        have := List.mem_of_getElem? ha
        rw [List.mem_singleton.1 this] at haddr
        exact absurd rfl haddr
    rw [Function.update_of_ne haddr]
    exact (h i a hi hold).imp_left fun hle => hle.trans hb

end Standing

/-- The counters have the recent hits of the transfers, from `bound` on. -/
structure Hits (attempts : List Attempt) (bound : Rat) (c : Counters) : Prop where
  ip : ∀ ip n, bound ≤ n → recent n (stampsOf ip attempts) = recent n ((c.ipHits ip).getD [])
  all : ∀ n, bound ≤ n → recent n (attempts.map Attempt.stamp) = recent n c.globalHits

section Hits

variable {lim : Limits} {attempts : List Attempt} {bound bound' now : Rat} {c : Counters} {addr ip : Str}

theorem Hits.mono (h : Hits attempts bound c) (hb : bound ≤ bound') : Hits attempts bound' c where
  ip ip n hn := h.ip ip n (hb.trans hn)
  all n hn := h.all n (hb.trans hn)

theorem Hits.stateAt (h : Hits attempts bound c) (hb : bound ≤ now) : Hits attempts now (stateAt lim now c) where
  ip ip n hn := by
    rw [h.ip ip n (hb.trans hn)]
    unfold Faucet.stateAt
    dsimp only
    cases c.ipHits ip with
    | none => rfl
    | some ts => exact (recent_recent hn).symm
  all n hn := (h.all n (hb.trans hn)).trans (recent_recent hn).symm

theorem Hits.load {file : Option Counters} (h : Hits attempts bound (file.getD .empty)) (hb : bound ≤ now) :
    Hits attempts now (load lim now file) := by
  cases file with
  | none => exact h.mono hb
  | some d =>
    refine ⟨fun ip n hn => ?_, fun n hn => (h.all n (hb.trans hn)).trans (recent_recent hn).symm⟩
    rw [h.ip ip n (hb.trans hn)]
    unfold Faucet.load
    dsimp only [Option.getD_some]
    cases d.ipHits ip with
    | none => rfl
    | some ts =>
      rw [Option.map_some, Option.filter_some, Option.getD_some, ← recent_recent hn]
      cases hkept : recent now ts with
      | nil => rfl
      | cons t kept => rfl

/-- A drip is entered. -/
theorem Hits.charge (h : Hits attempts bound c) (hb : bound ≤ now) :
    Hits (attempts ++ [⟨addr, ip, now⟩]) now
      (Counters.charge { c with globalHits := recent now c.globalHits } addr ip
        (recent now ((c.ipHits ip).getD [])) now) where
  ip ip' n hn := by
    unfold Counters.charge
    dsimp only
    by_cases hip : ip' = ip
    · subst hip
      rw [stampsOf_append_self, recent_append, h.ip ip' n (hb.trans hn), Function.update_self, Option.getD_some,
        recent_append, recent_recent hn]
    · rw [stampsOf_append_other (Ne.symm hip), h.ip ip' n (hb.trans hn), Function.update_of_ne hip]
  all n hn := by
    unfold Counters.charge
    dsimp only
    rw [List.map_append, recent_append, recent_append, h.all n (hb.trans hn), recent_recent hn]
    rfl

end Hits

theorem Standing.load {lim : Limits} {attempts : List Attempt} {refunded : List Nat} {bound now : Rat}
    {file : Option Counters} (h : Standing lim attempts refunded bound (file.getD .empty).addrLast) (hb : bound ≤ now) :
    Standing lim attempts refunded now (load lim now file).addrLast := by
  cases file with
  | none => exact h.mono hb
  | some d => exact h.prune hb

/-! ## A request -/

/-- The counters read the same from `now` on, and the file is the same. -/
structure Kept (now : Rat) (s s' : Store) : Prop where
  file : s'.file = s.file
  addrLast : s'.mem.addrLast = s.mem.addrLast
  ipHits : s'.mem.ipHits = s.mem.ipHits
  globalHits : ∀ t, now ≤ t → recent t s'.mem.globalHits = recent t s.mem.globalHits

/-- A request is refused and nothing is lost, or it had room and is charged, in memory and on disk. -/
theorem rateOk_cases (lim : Limits) (addr ip : Str) (now wrote : Rat) (saved : Bool) (s : Store) :
    ((rateOk lim addr ip now wrote saved s).1 ≠ .ok ∧ Kept now s (rateOk lim addr ip now wrote saved s).2) ∨
    saved = true ∧ lim.addrCooldown ≤ now - (s.mem.addrLast addr).getD 0 ∧
      (recent now ((s.mem.ipHits ip).getD [])).length < lim.ipDaily ∧
      (recent now s.mem.globalHits).length < lim.dailyCap ∧
      ∃ c, c = Counters.charge { s.mem with globalHits := recent now s.mem.globalHits } addr ip
          (recent now ((s.mem.ipHits ip).getD [])) now ∧
        rateOk lim addr ip now wrote saved s = (.ok, ⟨c, some (stateAt lim wrote c)⟩) := by
  unfold rateOk
  dsimp only
  split
  · exact .inl ⟨(fun h => by cases h), rfl, rfl, rfl, fun _ _ => rfl⟩
  · next hcool =>
    split
    · exact .inl ⟨(fun h => by cases h), rfl, rfl, rfl, fun _ _ => rfl⟩
    · next hip =>
      split
      · exact .inl ⟨(fun h => by cases h), rfl, rfl, rfl, fun _ ht => recent_recent ht⟩
      · next hcap =>
        cases saved with
        | true => exact .inr ⟨rfl, not_lt.1 hcool, not_le.1 hip, not_le.1 hcap, _, rfl, rfl⟩
        | false =>
          refine .inl ⟨(fun h => by cases h), rfl, ?_, ?_, fun t ht => ?_⟩
          · exact (Function.update_idem ..).trans (Function.update_eq_self ..)
          · exact (Function.update_idem ..).trans (Function.update_eq_self ..)
          · have hpop : (recent now s.mem.globalHits ++ [now]).dropLast = recent now s.mem.globalHits :=
              List.dropLast_concat
            exact (congrArg (recent t) hpop).trans (recent_recent ht)

/-! ## The invariant -/

namespace Server

variable {lim : Limits} {s s' : Server} {a : Action}

structure Inv (lim : Limits) (s : Server) : Prop where
  order : s.last ≤ s.clock
  stamps : ∀ a ∈ s.attempts, a.stamp ≤ s.last
  nodup : s.flying.Nodup
  flying : ∀ i ∈ s.flying, i < s.attempts.length ∧ i ∉ s.refunded
  refunded : ∀ i ∈ s.refunded, i < s.attempts.length
  landed : ∀ i ∈ s.landed, i ∉ s.refunded
  apart : ∀ i k a b, i < k → i ∉ s.refunded → k ∉ s.refunded → s.attempts[i]? = some a → s.attempts[k]? = some b →
    a.addr = b.addr → a.stamp + lim.addrCooldown ≤ b.stamp
  memStanding : Standing lim s.attempts s.refunded s.last s.store.mem.addrLast
  memHits : Hits s.attempts s.last s.store.mem
  fileStanding : Standing lim s.attempts s.refunded s.clock (s.store.file.getD .empty).addrLast
  fileHits : Hits s.attempts s.clock (s.store.file.getD .empty)
  perIp : ∀ ip x, inDay x (stampsOf ip s.attempts) ≤ lim.ipDaily
  overall : ∀ x, inDay x (s.attempts.map Attempt.stamp) ≤ lim.dailyCap

theorem Inv.start (h : Init s) : Inv lim s := by
  obtain ⟨t, rfl⟩ := h
  refine ⟨le_refl t, ?_, List.nodup_nil, ?_, ?_, ?_, ?_, ?_, ⟨fun _ _ _ => rfl, fun _ _ => rfl⟩, ?_,
    ⟨fun _ _ _ => rfl, fun _ _ => rfl⟩, fun _ _ => Nat.zero_le _, fun _ => Nat.zero_le _⟩
  · intro a ha
    cases ha
  · intro i hi
    cases hi
  · intro i hi
    cases hi
  · intro i hi
    cases hi
  · intro i k a b _ _ _ ha
    cases ha
  · intro i a _ ha
    cases ha
  · intro i a _ ha
    cases ha

/-- A request that is refused. -/
theorem Inv.refused (h : Inv lim s) {store : Store} {now wrote : Rat} (hkept : Kept now s.store store)
    (hlast : s.last ≤ now) (hnow : now ≤ wrote) (hclock : s.clock ≤ wrote) : Inv lim (s.decided store now wrote) := by
  have hmax : max s.last now = now := max_eq_right hlast
  refine ⟨hmax.trans_le hnow, fun a ha => (h.stamps a ha).trans (le_max_left _ _), h.nodup, h.flying, h.refunded,
    h.landed, h.apart, ?_, ?_, ?_, ?_, h.perIp, h.overall⟩
  · unfold decided
    dsimp only
    rw [hkept.addrLast]
    exact h.memStanding.mono (le_max_left _ _)
  · unfold decided
    dsimp only
    rw [hmax]
    refine ⟨fun ip n hn => ?_, fun n hn => ?_⟩
    · rw [hkept.ipHits]
      exact h.memHits.ip ip n (hlast.trans hn)
    · rw [hkept.globalHits n hn]
      exact h.memHits.all n (hlast.trans hn)
  · unfold decided
    dsimp only
    rw [hkept.file]
    exact h.fileStanding.mono hclock
  · unfold decided
    dsimp only
    rw [hkept.file]
    exact h.fileHits.mono hclock

/-- A request that is authorised. -/
theorem Inv.authorised (h : Inv lim s) {addr ip : Str} {now wrote : Rat} {c : Counters} (hlast : s.last ≤ now)
    (hnow : now ≤ wrote) (hcool : lim.addrCooldown ≤ now - (s.store.mem.addrLast addr).getD 0)
    (hip : (recent now ((s.store.mem.ipHits ip).getD [])).length < lim.ipDaily)
    (hcap : (recent now s.store.mem.globalHits).length < lim.dailyCap)
    (hc : c = Counters.charge { s.store.mem with globalHits := recent now s.store.mem.globalHits } addr ip
      (recent now ((s.store.mem.ipHits ip).getD [])) now) :
    Inv lim { s.decided ⟨c, some (stateAt lim wrote c)⟩ now wrote with
      attempts := s.attempts ++ [⟨addr, ip, now⟩]
      flying := s.attempts.length :: s.flying } := by
  have hmax : max s.last now = now := max_eq_right hlast
  have hlen : s.attempts.length < (s.attempts ++ [(⟨addr, ip, now⟩ : Attempt)]).length := by simp
  have hstamps : ∀ a ∈ s.attempts, a.stamp ≤ now := fun a ha => (h.stamps a ha).trans hlast
  have hstanding : Standing lim (s.attempts ++ [⟨addr, ip, now⟩]) s.refunded now c.addrLast := by
    subst hc
    exact h.memStanding.charge hlast hstamps
  have hhits : Hits (s.attempts ++ [⟨addr, ip, now⟩]) now c := by
    subst hc
    exact h.memHits.charge hlast
  unfold decided
  refine ⟨hmax.trans_le hnow, ?_, ?_, ?_, fun i hi => (h.refunded i hi).trans hlen, h.landed, ?_, ?_, ?_,
    hstanding.prune hnow, hhits.stateAt hnow, ?_, ?_⟩
  · intro a ha
    dsimp only
    rw [hmax]
    obtain hold | hnew := List.mem_append.1 ha
    · exact hstamps a hold
    · rw [List.mem_singleton.1 hnew]
  · exact List.nodup_cons.2 ⟨fun hi => lt_irrefl _ (h.flying _ hi).1, h.nodup⟩
  · intro i hi
    obtain rfl | hold := List.mem_cons.1 hi
    · exact ⟨hlen, fun hr => lt_irrefl _ (h.refunded _ hr)⟩
    · exact ⟨(h.flying i hold).1.trans hlen, (h.flying i hold).2⟩
  · intro i k a b hik hi hk ha hb hab
    dsimp only at hi hk ha hb
    obtain hlt | heq : k < s.attempts.length ∨ k = s.attempts.length := by
      obtain ⟨hk', -⟩ := List.getElem?_eq_some_iff.1 hb
      rw [List.length_append, List.length_singleton] at hk'
      omega
    · rw [List.getElem?_append_left hlt] at hb
      rw [List.getElem?_append_left (hik.trans hlt)] at ha
      exact h.apart i k a b hik hi hk ha hb hab
    · subst heq
      rw [List.getElem?_append_left hik] at ha
      rw [List.getElem?_concat_length] at hb
      obtain rfl := Option.some.inj hb
      obtain hover | ⟨t, ht, hle⟩ := h.memStanding i a hi ha
      · exact hover.trans hlast
      · rw [hab] at ht
        dsimp only at ht
        rw [ht, Option.getD_some] at hcool
        dsimp only
        linarith
  · dsimp only
    rw [hmax]
    exact hstanding
  · dsimp only
    rw [hmax]
    exact hhits
  · intro ip' x
    dsimp only
    by_cases hip' : ip' = ip
    · subst hip'
      rw [stampsOf_append_self]
      refine inDay_append (h.perIp ip') ?_ x
      rwa [h.memHits.ip ip' now hlast]
    · rw [stampsOf_append_other (Ne.symm hip')]
      exact h.perIp ip' x
  · intro x
    dsimp only
    rw [List.map_append]
    refine inDay_append h.overall ?_ x
    rwa [h.memHits.all now hlast]

/-- A request whose transfer was made ends. -/
theorem Inv.finished (h : Inv lim s) {i : Nat} {wrote : Rat} (hclock : s.clock ≤ wrote) :
    Inv lim { s with clock := wrote, flying := s.flying.erase i } where
  order := h.order.trans hclock
  stamps := h.stamps
  nodup := h.nodup.erase i
  flying k hk := h.flying k (List.mem_of_mem_erase hk)
  refunded := h.refunded
  landed := h.landed
  apart := h.apart
  memStanding := h.memStanding
  memHits := h.memHits
  fileStanding := h.fileStanding.mono hclock
  fileHits := h.fileHits.mono hclock
  perIp := h.perIp
  overall := h.overall

/-- The drip that a refund takes out is the last one of its address, so that the cooldowns of the others are over. -/
theorem Inv.standing_refund (h : Inv lim s) {i : Nat} {a : Attempt} (hi : i ∈ s.flying) (ha : s.attempts[i]? = some a)
    (hown : ∀ stamp, s.store.mem.addrLast a.addr = some stamp → stamp = a.stamp) :
    Standing lim s.attempts (i :: s.refunded) s.last (Function.update s.store.mem.addrLast a.addr none) := by
  intro k b hk hb
  rw [List.mem_cons, not_or] at hk
  by_cases hab : b.addr = a.addr
  · refine .inl ?_
    obtain hover | ⟨t, ht, hle⟩ := h.memStanding k b hk.2 hb
    · exact hover
    · rw [hab] at ht
      have hstamp := h.stamps a (List.mem_of_getElem? ha)
      have hbstamp := h.stamps b (List.mem_of_getElem? hb)
      have hta := hown t ht
      obtain hlt | hgt := Nat.lt_or_gt_of_ne hk.1
      · exact (h.apart k i b a hlt hk.2 (h.flying i hi).2 hb ha hab).trans hstamp
      · have := h.apart i k a b hgt (h.flying i hi).2 hk.2 ha hb hab.symm
        linarith
  · rw [Function.update_of_ne hab]
    exact h.memStanding k b hk.2 hb

/-- A request whose transfer was judged failed ends. -/
theorem Inv.refunds (h : Inv lim s) {i : Nat} {a : Attempt} {wrote : Rat} {saved : Bool} (hi : i ∈ s.flying)
    (ha : s.attempts[i]? = some a) (hclock : s.clock ≤ wrote) (hland : i ∉ s.landed)
    (hown : ∀ stamp, s.store.mem.addrLast a.addr = some stamp → stamp = a.stamp) :
    Inv lim { s with
      store := rateRefund lim a.addr wrote saved s.store
      clock := wrote
      flying := s.flying.erase i
      refunded := i :: s.refunded } := by
  have hstanding := h.standing_refund hi ha hown
  have hhits : Hits s.attempts s.last
      { s.store.mem with addrLast := Function.update s.store.mem.addrLast a.addr none } := ⟨h.memHits.ip, h.memHits.all⟩
  have hlast : s.last ≤ wrote := h.order.trans hclock
  have hweak : ∀ k, k ∉ i :: s.refunded → k ∉ s.refunded := fun k hk hr => hk (List.mem_cons_of_mem i hr)
  refine ⟨hlast, h.stamps, h.nodup.erase i, fun k hk => ?_, fun k hk => ?_, fun k hk hr => ?_,
    fun k l b c hkl hk hl => h.apart k l b c hkl (hweak k hk) (hweak l hl), hstanding, hhits, ?_, ?_, h.perIp, h.overall⟩
  · obtain ⟨hne, hmem⟩ := (List.Nodup.mem_erase_iff h.nodup).1 hk
    refine ⟨(h.flying k hmem).1, fun hr => ?_⟩
    obtain heq | hold := List.mem_cons.1 hr
    · exact hne heq
    · exact (h.flying k hmem).2 hold
  · obtain rfl | hold := List.mem_cons.1 hk
    · exact (h.flying k hi).1
    · exact h.refunded k hold
  · obtain rfl | hold := List.mem_cons.1 hr
    · exact hland hk
    · exact h.landed k hk hold
  · cases saved with
    | true => exact hstanding.prune hlast
    | false => exact fun k b hk hb => (h.fileStanding.mono hclock) k b (hweak k hk) hb
  · cases saved with
    | true => exact hhits.stateAt hlast
    | false => exact h.fileHits.mono hclock

theorem Inv.step (h : Inv lim s) (hok : Clean s a) (hs : s.step lim a = some s') : Inv lim s' := by
  cases a with
  | ask addr ip now wrote saved =>
    simp only [Server.step] at hs
    split at hs
    · next hguard =>
      obtain ⟨-, hnow, hclock⟩ := hguard
      obtain ⟨hno, hkept⟩ | ⟨-, hcool, hip, hcap, c, hc, hr⟩ := rateOk_cases lim addr ip now wrote saved s.store
      · generalize rateOk lim addr ip now wrote saved s.store = r at hno hkept hs
        obtain ⟨reply, store⟩ := r
        cases reply with
        | ok => exact absurd rfl hno
        | _ => exact Option.some.inj hs ▸ h.refused hkept hok hnow hclock
      · rw [hr] at hs
        exact Option.some.inj hs ▸ h.authorised hok hnow hcool hip hcap hc
    · cases hs
  | land i =>
    simp only [Server.step] at hs
    split at hs
    · obtain rfl := Option.some.inj hs
      refine ⟨h.order, h.stamps, h.nodup, h.flying, h.refunded, fun k hk => ?_, h.apart, h.memStanding, h.memHits,
        h.fileStanding, h.fileHits, h.perIp, h.overall⟩
      obtain rfl | hold := List.mem_cons.1 hk
      · exact hok
      · exact h.landed k hold
    · cases hs
  | finish i t wrote saved =>
    simp only [Server.step] at hs
    split at hs
    · next hguard =>
      split at hs
      · next b hb hf =>
        obtain ⟨hland, hown⟩ := hok hf
        exact Option.some.inj hs ▸ h.refunds hguard.1 hb hguard.2 hland (hown b hb)
      · exact Option.some.inj hs ▸ h.finished hguard.2
    · cases hs
  | restart now =>
    simp only [Server.step] at hs
    split at hs
    · next hclock =>
      obtain rfl := Option.some.inj hs
      exact ⟨le_refl now, fun a ha => (h.stamps a ha).trans (h.order.trans hclock), List.nodup_nil, nofun, h.refunded,
        h.landed, h.apart, h.fileStanding.load hclock, h.fileHits.load hclock, h.fileStanding.mono hclock,
        h.fileHits.mono hclock, h.perIp, h.overall⟩
    · cases hs

theorem Inv.bounded (h : Inv lim s) : Bounded lim s where
  cooldown i k a b hik hi hk := h.apart i k a b hik (h.landed i hi) (h.landed k hk)
  perIp ip x := by
    refine le_of_eq_of_le ?_ (h.perIp ip x)
    unfold inDay stampsOf
    rw [List.countP_map, List.countP_filter]
    refine List.countP_congr fun a _ => ?_
    simp [and_comm]
  overall x := by
    refine le_of_eq_of_le ?_ (h.overall x)
    unfold inDay
    rw [List.countP_map]
    rfl
  unsaved addr ip now wrote := by
    obtain ⟨hno, hkept⟩ | ⟨hsaved, -⟩ := rateOk_cases lim addr ip now wrote false s.store
    · exact ⟨hno, hkept.file, hkept.addrLast, hkept.ipHits, hkept.globalHits⟩
    · cases hsaved

end Server

/-! ## The result -/

/-- Where requests are decided in the order of their readings, no transfer that was judged failed lands, and no
later drip of an address stands when one is judged failed, the limits are kept in every state. -/
theorem faucet_bounded (lim : Limits) {s : Server}
    (h : Reach Server.Init (fun s a s' => s.step lim a = some s') Server.Clean s) : s.Bounded lim :=
  have hinv : Server.Inv lim s := h.invariant (fun _ hs => .start hs) fun _ _ _ _ hi hok hs => hi.step hok hs
  hinv.bounded

/-- A faucet that starts at second 100000, with one drip for each address in a day. -/
def newFaucet : Server := ⟨⟨.empty, none⟩, 100000, 100000, 100000, [], [], [], []⟩

def oneADay : Limits := ⟨86400, 5, 2000⟩

/-- A drip that lands. -/
theorem faucet_bounded_first : ∃ s : Server, s.landed = [0] ∧ s.Bounded oneADay := by
  obtain ⟨s, hs, hfacts⟩ := (Option.any_eq_true _ _).1 (by decide +kernel :
    Option.any (fun s : Server => decide (s.attempts.length = 1 ∧ s.refunded = [] ∧ s.landed = []))
      (newFaucet.step oneADay (.ask ['a'] [] 100000 100000 true)) = true)
  obtain ⟨hlen, hrefunded, hlanded⟩ := of_decide_eq_true hfacts
  have hland : s.step oneADay (.land 0) = some { s with landed := 0 :: s.landed } := if_pos (by omega)
  refine ⟨{ s with landed := 0 :: s.landed }, congrArg (0 :: ·) hlanded,
    faucet_bounded oneADay (.step (.step (.init ⟨100000, rfl⟩) (le_refl _) hs) ?_ hland)⟩
  exact fun h => List.not_mem_nil (hrefunded ▸ h)

/-- A transfer that is not seen in twenty queries and lands afterwards. The address gets a second one a second
later. -/
theorem drip_twice : ∃ s, Reach Server.Init (fun s a s' => s.step oneADay a = some s') (fun _ _ => True) s ∧
    ¬ s.Bounded oneADay := by
  obtain ⟨s, hs, hfacts⟩ := (Option.any_eq_true _ _).1 (by decide +kernel :
    Option.any (fun s : Server => decide (s.landed = [1, 0] ∧ s.attempts = [⟨['a'], [], 100000⟩, ⟨['a'], [], 100001⟩]))
      ([Action.ask ['a'] [] 100000 100000 true, .finish 0 (.sent (List.replicate 20 .failed)) 100000 true, .land 0,
        .ask ['a'] [] 100001 100001 true, .land 1].foldlM (Server.step oneADay) newFaucet) = true)
  obtain ⟨hlanded, hattempts⟩ := of_decide_eq_true hfacts
  refine ⟨s, .foldlM (.init ⟨100000, rfl⟩) (fun _ _ _ => trivial) hs, fun hb => ?_⟩
  have := hb.cooldown 0 1 ⟨['a'], [], 100000⟩ ⟨['a'], [], 100001⟩ Nat.one_pos (by simp [hlanded]) (by simp [hlanded])
    (by rw [hattempts]; rfl) (by rw [hattempts]; rfl) rfl
  exact absurd this (by decide +kernel)

end Dendra.Faucet
