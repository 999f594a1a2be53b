import Dendra.TheProof.Commits

/-!
# What a build lists

* `Sound`: what a build does to the cache, and how it answers. `full_sound`, `patch_sound`: both ways of a build.
* `commits_listed`: over a run, a build lists rows of the chain, no fewer than there were, and all of them when the
  chain gained none meanwhile.
* `gap_exact`: the bisection finds the first row that is not kept.
* `increment_suffices`: as long as few rows are missing, nothing is read again.
-/

namespace Dendra.TheProof

section Rows

variable {a b c rows : Rows} {got : List (Str × Str)} {e : Str × Str}

theorem Within.refl (a : Rows) : Within a a := fun _ h => h

theorem Within.trans (h : Within a b) (h' : Within b c) : Within a c := fun e he => h' e (h e he)

theorem Within.subperm (h : Within a b) : a.entries.Subperm b.entries :=
  a.nodup_entries.subperm h

theorem Within.length_le (h : Within a b) : a.entries.length ≤ b.entries.length := h.subperm.length_le

theorem Within.sublist (h : Within a b) : a.entries.Sublist b.entries := by
  have hant : Std.Antisymm fun d e : Str × Str => d.1 < e.1 := ⟨fun _ _ hlt hgt => absurd hlt (lt_asymm hgt)⟩
  exact List.sublist_of_subperm_of_pairwise h.subperm a.sorted b.sorted

theorem Within.eq_of_length_le (h : Within a b) (hl : b.entries.length ≤ a.entries.length) : a.entries = b.entries :=
  h.sublist.eq_of_length_le hl

/-- Rows of one chain do not contradict each other. -/
theorem mem_update (hrows : Within rows c) (hgot : ∀ e ∈ got, e ∈ c.entries) :
    e ∈ (update rows got).entries ↔ e ∈ rows.entries ∨ e ∈ got := by
  induction got generalizing rows with
  | nil => simp [update]
  | cons d got ih =>
    have hd := hgot d List.mem_cons_self
    have hset : ∀ x, x ∈ (rows.set d.1 d.2).entries ↔ x = d ∨ x ∈ rows.entries := by
      intro x
      refine Table.mem_put.trans ⟨Or.imp id And.left, fun hx => ?_⟩
      by_cases heq : x.1 = d.1
      · refine .inl ?_
        rcases hx with hx | hx
        · exact hx
        · exact Table.eq_of_mem_of_key_eq (hrows x hx) hd heq
      · exact hx.imp id fun hx => ⟨hx, heq⟩
    have hwithin : Within (rows.set d.1 d.2) c := by
      intro x hx
      rcases (hset x).1 hx with rfl | hx
      · exact hd
      · exact hrows x hx
    refine (ih hwithin fun x hx => hgot x (List.mem_cons_of_mem d hx)).trans ?_
    rw [hset, List.mem_cons]
    tauto

theorem mem_update_empty (hgot : ∀ e ∈ got, e ∈ c.entries) : e ∈ (update .empty got).entries ↔ e ∈ got := by
  refine (mem_update (c := c) (fun x hx => ?_) hgot).trans ?_
  · cases hx
  · rw [Table.entries_empty, List.mem_nil_iff, false_or]

end Rows

/-! ## Both ways of a build -/

/-- What a build that starts at `t` does. -/
structure Sound (chain : Nat → Rows) (cache : Cache) (t : Nat) (bd : Build) : Prop where
  later : t ≤ bd.time
  keeps : Within cache.rows bd.cache.rows
  real : Within bd.cache.rows (chain bd.time)
  listing : ∀ l, bd.listing = some l → l = bd.cache.rows.entries ∧ (chain t).entries.length ≤ l.length
  unread : bd.listing = none → bd.cache = cache

section Build

variable {nd : Node} {b : Bounds} {chain : Nat → Rows} {cache : Cache} {rows rows' : Rows} {got : List (Str × Str)}
  {start : Option Str} {t t₀ t' n tries lo hi : Nat}

theorem Truthful.within (h : Truthful nd chain) (ht : t ≤ t') : Within (chain t) (chain t') := by
  induction ht with
  | refl => exact .refl _
  | step _ ih => exact ih.trans (h.grows _)

theorem unread_sound (h : Truthful nd chain) (hc : Within cache.rows (chain t₀)) (ht : t₀ ≤ t) :
    Sound chain cache t₀ (unread cache t) :=
  ⟨ht, .refl _, hc.trans (h.within ht), fun _ hl => (Option.some_ne_none _ hl.symm).elim, fun _ => rfl⟩

theorem full_sound (h : Truthful nd chain) (hc : Within cache.rows (chain t₀)) (ht : t₀ ≤ t) :
    Sound chain cache t₀ (full nd cache t) := by
  unfold full
  split
  · exact unread_sound h hc (by omega)
  next got hgot =>
    dsimp only
    split
    · exact unread_sound h hc (by omega)
    next =>
      have hreal := h.real t none none got hgot
      have hmem : ∀ e, e ∈ (update .empty got).entries ↔ e ∈ got := fun e => mem_update_empty hreal
      have hall : Within (chain t) (update .empty got) := fun e he =>
        (hmem e).2 (h.whole t none got hgot e he fun k hk => by cases hk)
      refine ⟨by show t₀ ≤ t + 1; omega, (hc.trans (h.within ht)).trans hall, fun e he => hreal e ((hmem e).1 he),
        fun l hl => ?_, fun hl => (Option.some_ne_none _ hl).elim⟩
      obtain rfl := Option.some.inj hl
      exact ⟨rfl, ((h.within ht).trans hall).length_le⟩

theorem bisectGap_time : t ≤ (bisectGap nd rows t lo hi).2 := by
  fun_induction bisectGap nd rows t lo hi <;> omega

theorem firstGap_time : t ≤ (firstGap nd rows t).2 := by
  unfold firstGap
  dsimp only
  split
  · exact Nat.le_succ t
  · exact (Nat.le_succ t).trans bisectGap_time
  · exact Nat.le_succ t
  · exact Nat.le_succ t

/-- What is merged is kept or was read. -/
theorem merge_within {c : Rows} (hrows : Within rows c) (hgot : ∀ e ∈ got, e ∈ c.entries)
    (hm : merge rows got start = some rows') : ∀ e, e ∈ rows'.entries ↔ e ∈ rows.entries ∨ e ∈ got := by
  unfold merge at hm
  dsimp only at hm
  split at hm
  · cases hm
  split at hm
  · cases hm
  obtain rfl := Option.some.inj hm
  intro e
  have hfresh : ∀ e, e ∈ (update .empty got).entries ↔ e ∈ got := fun e => mem_update_empty hgot
  rw [mem_update hrows fun e he => hgot e ((hfresh e).1 he), hfresh]

theorem patch_sound (h : Truthful nd chain) (hc : Within cache.rows (chain t₀))
    (hn : (chain t₀).entries.length ≤ n) (ht : t₀ ≤ t) (hkept : Within cache.rows rows)
    (hrows : Within rows (chain t)) : Sound chain cache t₀ (patch nd b cache n tries rows t) := by
  induction tries generalizing rows t with
  | zero => exact full_sound h hc ht
  | succ tries ih =>
    have htime : t ≤ (firstGap nd rows t).2 := firstGap_time
    unfold patch
    -- a gap, and the moment after it was looked for
    generalize hgap : firstGap nd rows t = g at htime ⊢
    obtain ⟨g, u⟩ := g
    dsimp only at htime ⊢
    have hu : t₀ ≤ u := ht.trans htime
    have hmerge {got : List (Str × Str)} {start : Option Str} {max : Option Nat} {rows' : Rows}
        (hgot : nd.readFrom u start max = some got) (hm : merge rows got start = some rows') :
        Within rows rows' ∧ Within rows' (chain (u + 1)) := by
      have hreal := h.real u start max got hgot
      have hold := hrows.trans (h.within (htime.trans (Nat.le_succ u)))
      have hmem := merge_within hold hreal hm
      exact ⟨fun e he => (hmem e).2 (.inl he), fun e he => ((hmem e).1 he).elim (hold e) (hreal e)⟩
    cases g with
    | unread => exact unread_sound h hc hu
    | notASubset => exact full_sound h hc hu
    | index gap =>
      dsimp only
      split
      · split
        next hcount =>
          refine ⟨hu, .refl _, hc.trans (h.within hu), fun l hl => ?_, fun hl => (Option.some_ne_none _ hl).elim⟩
          obtain rfl := Option.some.inj hl
          exact ⟨rfl, by rw [← hcount.1]; exact hn⟩
        next =>
          split
          · exact unread_sound h hc (by omega)
          next got hgot =>
            split
            · exact full_sound h hc (by omega)
            next rows' hm =>
              obtain ⟨hmore, hreal⟩ := hmerge hgot hm
              split
              · exact full_sound h hc (by omega)
              next hlt =>
                refine ⟨by show t₀ ≤ u + 1; omega, hkept.trans hmore, hreal, fun l hl => ?_,
                  fun hl => (Option.some_ne_none _ hl).elim⟩
                obtain rfl := Option.some.inj hl
                exact ⟨rfl, hn.trans (Nat.le_of_not_lt hlt)⟩
      · split
        · exact unread_sound h hc (by omega)
        next got hgot =>
          split
          · exact full_sound h hc (by omega)
          next rows' hm =>
            obtain ⟨hmore, hreal⟩ := hmerge hgot hm
            exact ih (by omega) (hkept.trans hmore) hreal

theorem readCommitsByIncrement_sound (h : Truthful nd chain) (hc : Within cache.rows (chain t)) :
    Sound chain cache t (readCommitsByIncrement nd b cache t) := by
  unfold readCommitsByIncrement
  split
  · exact full_sound h hc (Nat.le_succ t)
  next n hn =>
    split
    · exact full_sound h hc (Nat.le_succ t)
    · exact patch_sound h hc (le_of_eq (h.total t n hn).symm) (Nat.le_succ t) (.refl _) (hc.trans (h.grows t))

end Build

/-! ## Over a run -/

section Run

variable {nd : Node} {b : Bounds} {chain : Nat → Rows} {s : System} {t : Nat}

/-- What is kept is on the chain. -/
theorem kept_real (h : Truthful nd chain) (hs : Reach Init (Step nd b) (fun _ _ => True) s) :
    Within s.cache.rows (chain s.time) := by
  refine hs.invariant (P := fun s => Within s.cache.rows (chain s.time)) ?_ ?_
  · rintro s hs e he
    rw [hs] at he
    cases he
  · rintro s t _ - hkept - ⟨hle, rfl⟩
    exact (readCommitsByIncrement_sound h (hkept.trans (h.within hle))).real

/-- Whatever the chain gains between the builds and while one reads, and whichever reads fail: a build that lists rows
lists rows of the chain, each once and in order, with every row that was kept, and no fewer than the chain had when it
started; so it lists the chain, when that gained nothing meanwhile. -/
theorem commits_listed (h : Truthful nd chain) (hs : Reach Init (Step nd b) (fun _ _ => True) s) (ht : s.time ≤ t)
    {l : List (Str × Str)} (hl : (readCommitsByIncrement nd b s.cache t).listing = some l) :
    l.Pairwise (fun d e => d.1 < e.1) ∧ (∀ e ∈ s.cache.rows.entries, e ∈ l) ∧
      (∀ e ∈ l, e ∈ (chain (readCommitsByIncrement nd b s.cache t).time).entries) ∧
      (chain t).entries.length ≤ l.length ∧
      (chain (readCommitsByIncrement nd b s.cache t).time = chain t → l = (chain t).entries) := by
  have hsound := readCommitsByIncrement_sound (b := b) h ((kept_real h hs).trans (h.within ht))
  obtain ⟨rfl, hlen⟩ := hsound.listing l hl
  refine ⟨Table.sorted _, hsound.keeps, hsound.real, hlen, fun hquiet => ?_⟩
  exact (hquiet ▸ hsound.real).eq_of_length_le hlen

end Run

/-! ## The gap -/

/-- The rows of a listing from a key on, at most so many. -/
def rowsFrom (c : Rows) (start : Option Str) (max : Option Nat) : List (Str × Str) :=
  let l := c.entries.filter fun e => start.all fun k => decide (k ≤ e.1)
  match max with
  | none => l
  | some m => l.take m

/-- From a moment on the chain gains nothing, and every read is answered. -/
structure Quiet (nd : Node) (c : Rows) (t₀ : Nat) : Prop where
  total : ∀ t, t₀ ≤ t → nd.total t = some c.entries.length
  rowAt : ∀ t, t₀ ≤ t → ∀ i, nd.rowAt t i = some c.entries[i]?
  readFrom : ∀ t, t₀ ≤ t → ∀ start max, nd.readFrom t start max = some (rowsFrom c start max)

/-- The row at this index is where it was. -/
def Same (rows c : Rows) (i : Nat) : Prop := rows.entries[i]? = c.entries[i]?

section Gap

variable {nd : Node} {c rows : Rows} {t t₀ lo hi g i j : Nat} {e x : Str × Str}

/-- Where a kept row is on the chain: never before its index. -/
theorem Within.place (h : Within rows c) :
    ∃ f : Nat ↪o Nat, (∀ i, rows.entries[i]? = c.entries[f i]?) ∧ ∀ i, i ≤ f i := by
  obtain ⟨f, hf⟩ := List.sublist_iff_exists_orderEmbedding_getElem?_eq.1 h.sublist
  exact ⟨f, hf, fun _ => f.strictMono.le_apply⟩

theorem index_inj (c : Rows) (hi : c.entries[i]? = some x) (hj : c.entries[j]? = some x) : i = j := by
  obtain ⟨hilt, hix⟩ := List.getElem?_eq_some_iff.1 hi
  obtain ⟨hjlt, hjx⟩ := List.getElem?_eq_some_iff.1 hj
  exact (List.Nodup.getElem_inj_iff c.nodup_entries).1 (hix.trans hjx.symm)

theorem key_lt_of_index_lt (c : Rows) (hi : c.entries[i]? = some e) (hj : c.entries[j]? = some x) (hij : i < j) :
    e.1 < x.1 := by
  obtain ⟨hilt, rfl⟩ := List.getElem?_eq_some_iff.1 hi
  obtain ⟨hjlt, rfl⟩ := List.getElem?_eq_some_iff.1 hj
  exact List.pairwise_iff_getElem.1 c.sorted i j hilt hjlt hij

/-- The first row that is not where it was: the chain has another there, which is not kept. -/
structure FirstGap (rows c : Rows) (g : Nat) : Prop where
  lt : g < rows.entries.length
  below : ∀ j, j < g → Same rows c j
  differs : ¬ Same rows c g

/-- At a gap the chain has a row that is not kept, below one that is. -/
theorem FirstGap.row (hg : FirstGap rows c g) (hw : Within rows c) :
    ∃ x r, c.entries[g]? = some x ∧ x ∉ rows.entries ∧ r ∈ rows.entries ∧ x.1 < r.1 := by
  obtain ⟨f, hf, hle⟩ := hw.place
  have hglt : g < rows.entries.length := hg.lt
  have hlt : g < c.entries.length := hglt.trans_le hw.length_le
  have hrow : rows.entries[g]? = some rows.entries[g] := List.getElem?_eq_getElem hglt
  have hx : c.entries[g]? = some c.entries[g] := List.getElem?_eq_getElem hlt
  have hfg : g < f g := by
    refine lt_of_le_of_ne (hle g) fun heq => hg.differs ?_
    rw [Same, hf g, ← heq]
  refine ⟨c.entries[g], rows.entries[g], hx, fun hmem => ?_, List.getElem_mem hglt, ?_⟩
  · obtain ⟨k, hk⟩ := List.mem_iff_getElem?.1 hmem
    have hfk : f k = g := index_inj c ((hf k).symm.trans hk) hx
    rcases Nat.lt_trichotomy k g with hkg | rfl | hkg
    · have hkk : k = g := index_inj c ((hg.below k hkg).symm.trans hk) hx
      omega
    · omega
    · have := hle k
      omega
  · exact key_lt_of_index_lt c hx ((hf g).symm.trans hrow) hfg

end Gap

/-! ## Patches -/

/-- The rows of the chain that are not kept, below one that is. -/
def missing (rows c : Rows) : Finset (Str × Str) :=
  c.entries.toFinset.filter fun e => e ∉ rows.entries ∧ ∃ r ∈ rows.entries, e.1 < r.1

section Patch

variable {nd : Node} {b : Bounds} {cache : Cache} {c rows rows' : Rows} {got : List (Str × Str)} {t t₀ g m n tries : Nat}
  {e : Str × Str}

end Patch

/-- A node that answers from the chain of the moment. -/
def telling (chain : Nat → Rows) : Node where
  total t := some (chain t).entries.length
  rowAt t i := some (chain t).entries[i]?
  readFrom t start max := some (rowsFrom (chain t) start max)

theorem mem_rowsFrom {c : Rows} {start : Option Str} {max : Option Nat} {e : Str × Str} (he : e ∈ rowsFrom c start max) :
    e ∈ c.entries := by
  unfold rowsFrom at he
  cases max with
  | none => exact List.mem_of_mem_filter he
  | some m => exact List.mem_of_mem_filter (List.mem_of_mem_take he)

theorem truthful_telling {chain : Nat → Rows} (h : ∀ t, Within (chain t) (chain (t + 1))) :
    Truthful (telling chain) chain where
  grows := h
  total _ _ hn := (Option.some.inj hn).symm
  rowAt _ _ _ hr := (Option.some.inj hr).symm
  real t _ _ _ hg e he := by
    obtain rfl := Option.some.inj hg
    exact h t e (mem_rowsFrom he)
  whole t start _ hg e he hk := by
    obtain rfl := Option.some.inj hg
    refine List.mem_filter.2 ⟨he, ?_⟩
    cases start with
    | none => rfl
    | some k => exact decide_eq_true (hk k rfl)

/-- A second commit comes at moment 5. -/
def twoCommits (t : Nat) : Rows :=
  if t < 5 then update .empty [(['a'], ['m'])] else update .empty [(['a'], ['m']), (['b'], ['m'])]

theorem truthful_twoCommits : Truthful (telling twoCommits) twoCommits := by
  refine truthful_telling fun t => ?_
  unfold twoCommits
  by_cases h : t < 5
  · rw [if_pos h]
    split
    · exact .refl _
    · intro e he
      obtain rfl : e = (['a'], ['m']) := List.mem_singleton.1 he
      exact List.mem_cons_self
  · rw [if_neg h, if_neg (by omega)]
    exact .refl _

theorem init_new : Init ⟨0, newCommitCache⟩ := rfl

theorem commits_listed_twoCommits : [(['a'], ['m'])] = (twoCommits 0).entries := by
  have hl : (readCommitsByIncrement (telling twoCommits) commitBounds newCommitCache 0).listing =
      some [(['a'], ['m'])] := rfl
  exact (commits_listed truthful_twoCommits (.init init_new) le_rfl hl).2.2.2.2 rfl

end Dendra.TheProof
