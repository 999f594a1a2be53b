import Dendra.Lib.Str

/-!
# The shape of a commit key

`types/commit_key.go`: a commit is stored under a flat string, `<jobId>__<minerId>` or a role
variant of it (`__verdict`, `__redo`, `__redo__verdict` between the two), or the epoch marker
`e<N>__reveals__<minerId>`, which names no job.

* `parseCommitKey_eq_some`: what a key that parses to a job looks like.
* `parseCommitKey_commitKey`: the key of a job, a role and a miner parses back.
-/

namespace Dendra.Jobs

/-- The genre of a commit key, decided by the key itself and by nothing else. -/
inductive CommitKeyKind
  | primary | verdict | redo | redoVerdict | epochMarker
  deriving DecidableEq, Repr

def commitKeySep : Str := "__".toList

def commitRoleVerdict : Str := "verdict".toList

def commitRoleRedo : Str := "redo".toList

def commitRoleReveals : Str := "reveals".toList

def epochMarkerPrefix : Str := "e".toList

/-- The longest decimal form of a `uint64`. -/
def epochMaxDigits : Nat := 20

/-- The decomposition of a commit key. -/
structure ParsedCommitKey where
  kind : CommitKeyKind
  jobId : Str
  minerId : Str
  epoch : Nat
  deriving DecidableEq

/-- Does this key name a job that must exist? -/
def ParsedCommitKey.jobScoped (k : ParsedCommitKey) : Bool :=
  match k.kind with
  | .primary | .verdict | .redo | .redoVerdict => true
  | .epochMarker => false

/-- The epoch of `e<N>__reveals`, in its one canonical spelling. -/
def parseEpochMarkerBase (base : Str) : Option Nat := do
  let rest ← Str.cutSuffix base (commitKeySep ++ commitRoleReveals)
  let digits ← Str.cutPrefix rest epochMarkerPrefix
  if digits = [] ∨ Str.byteLen digits > epochMaxDigits then none
  else
    let ep ← Str.parseUint digits
    if Str.formatUint ep ≠ digits then none else some ep

/-- The role cut off the end of a base: the kind, and the base without it. -/
def cutRole (base : Str) : CommitKeyKind × Str :=
  let (kind, base) :=
    match Str.cutSuffix base (commitKeySep ++ commitRoleVerdict) with
    | some s => (CommitKeyKind.verdict, s)
    | none => (.primary, base)
  match Str.cutSuffix base (commitKeySep ++ commitRoleRedo) with
  | some s => (if kind = .verdict then .redoVerdict else .redo, s)
  | none => (kind, base)

/-- Decompose a commit key; `none` when the key is not a shape this chain serves. -/
def parseCommitKey (key : Str) : Option ParsedCommitKey :=
  match Str.splitLast commitKeySep key with
  | none => none
  | some (base, minerId) =>
    if base = [] ∨ minerId = [] then none
    else
      match parseEpochMarkerBase base with
      | some ep => some ⟨.epochMarker, [], minerId, ep⟩
      | none =>
        let (kind, jobId) := cutRole base
        if jobId = [] ∨ Str.contains jobId commitKeySep then none
        else some ⟨kind, jobId, minerId, 0⟩

/-! ## The keys that parse -/

/-- A job id: not empty, and without the separator (what `OpenJob` checks). -/
def WfJobId (j : Str) : Prop := j ≠ [] ∧ Str.contains j commitKeySep = false

instance (j : Str) : Decidable (WfJobId j) := inferInstanceAs (Decidable (_ ∧ _))

/-- The tail of a key: not empty, without the separator, and not starting inside one. -/
def WfTail (m : Str) : Prop := m ≠ [] ∧ ¬ commitKeySep <:+: '_' :: m

/-- What stands between the job id and the last separator. -/
def CommitKeyKind.role : CommitKeyKind → Str
  | .primary => []
  | .verdict => commitKeySep ++ commitRoleVerdict
  | .redo => commitKeySep ++ commitRoleRedo
  | .redoVerdict => commitKeySep ++ commitRoleRedo ++ (commitKeySep ++ commitRoleVerdict)
  | .epochMarker => commitKeySep ++ commitRoleReveals

/-- The key of a job, a role and a miner. -/
def commitKey (kind : CommitKeyKind) (j m : Str) : Str := j ++ kind.role ++ commitKeySep ++ m

theorem commitKeySep_ne_nil : commitKeySep ≠ [] := by decide

theorem WfJobId.not_infix {j : Str} (h : WfJobId j) : ¬ commitKeySep <:+: j := by
  simpa [Str.contains] using h.2

/-- No word behind a separator ends a job id. -/
theorem WfJobId.not_suffix {j : Str} (h : WfJobId j) (w : Str) : ¬ commitKeySep ++ w <:+ j :=
  fun hs => h.not_infix ((List.prefix_append _ w).isInfix.trans hs.isInfix)

theorem WfJobId.ne_append {j : Str} (h : WfJobId j) (a w : Str) : j ≠ a ++ (commitKeySep ++ w) :=
  fun e => h.not_suffix w ⟨a, e.symm⟩

theorem cutRole_eq {base j : Str} {kind : CommitKeyKind} (h : cutRole base = (kind, j)) :
    base = j ++ kind.role ∧ kind ≠ .epochMarker := by
  unfold cutRole at h
  cases hv : Str.cutSuffix base (commitKeySep ++ commitRoleVerdict) with
  | some s =>
    rw [Str.cutSuffix_eq_some] at hv
    subst hv
    cases hr : Str.cutSuffix s (commitKeySep ++ commitRoleRedo) with
    | some t =>
      rw [Str.cutSuffix_eq_some] at hr
      subst hr
      simp only [Str.cutSuffix_append, if_true, Prod.mk.injEq] at h
      obtain ⟨rfl, rfl⟩ := h
      simp [CommitKeyKind.role]
    | none =>
      simp only [Str.cutSuffix_append, hr, Prod.mk.injEq] at h
      obtain ⟨rfl, rfl⟩ := h
      simp [CommitKeyKind.role]
  | none =>
    simp only [hv] at h
    cases hr : Str.cutSuffix base (commitKeySep ++ commitRoleRedo) with
    | some t =>
      rw [Str.cutSuffix_eq_some] at hr
      subst hr
      simp only [Str.cutSuffix_append, Prod.mk.injEq] at h
      obtain ⟨rfl, rfl⟩ := h
      simp [CommitKeyKind.role]
    | none =>
      simp only [hr, Prod.mk.injEq] at h
      obtain ⟨rfl, rfl⟩ := h
      simp [CommitKeyKind.role]

/-- A key that parses to a job is the key of that job, its role and its miner. -/
theorem parseCommitKey_eq_some {key : Str} {k : ParsedCommitKey} (h : parseCommitKey key = some k)
    (hk : k.jobScoped = true) :
    key = commitKey k.kind k.jobId k.minerId ∧ WfJobId k.jobId ∧ WfTail k.minerId ∧
      k.kind ≠ .epochMarker := by
  unfold parseCommitKey at h
  cases hs : Str.splitLast commitKeySep key with
  | none => simp [hs] at h
  | some bm =>
    obtain ⟨base, m⟩ := bm
    obtain ⟨rfl, hlast⟩ := Str.splitLast_eq_some commitKeySep_ne_nil hs
    simp only [hs] at h
    split at h
    · cases h
    · next hne =>
      split at h
      · simp only [Option.some.injEq] at h
        subst h
        cases hk
      · rcases hc : cutRole base with ⟨kind, j⟩
        simp only [hc] at h
        split at h
        · cases h
        · next hj =>
          simp only [Option.some.injEq] at h
          subst h
          obtain ⟨rfl, hkind⟩ := cutRole_eq hc
          rw [not_or] at hne hj
          exact ⟨rfl, ⟨hj.1, by simpa using hj.2⟩, ⟨hne.2, hlast⟩, hkind⟩

/-! ## The keys that parse back -/

section RoundTrip

variable {j m : Str} {kind : CommitKeyKind}

/-- A suffix ends in the last character. -/
theorem getLast?_of_suffix {a s t : Str} (ha : a ≠ []) (ht : t ≠ []) (h : a <:+ s ++ t) :
    a.getLast? = t.getLast? := by
  obtain ⟨r, hr⟩ := h
  rw [← List.getLast?_append_of_ne_nil r ha, hr, List.getLast?_append_of_ne_nil s ht]

theorem cutSuffix_role_eq_none {w : Str} (hw : w ≠ []) (ht : kind.role ≠ [])
    (h : w.getLast? ≠ kind.role.getLast?) : Str.cutSuffix (j ++ kind.role) w = none :=
  Str.cutSuffix_eq_none.2 fun hs => h (getLast?_of_suffix hw ht hs)

theorem cutRole_append (hj : WfJobId j) (hk : kind ≠ .epochMarker) :
    cutRole (j ++ kind.role) = (kind, j) := by
  have hv : Str.cutSuffix j (commitKeySep ++ commitRoleVerdict) = none :=
    Str.cutSuffix_eq_none.2 (hj.not_suffix _)
  have hr : Str.cutSuffix j (commitKeySep ++ commitRoleRedo) = none :=
    Str.cutSuffix_eq_none.2 (hj.not_suffix _)
  unfold cutRole
  cases kind with
  | epochMarker => exact absurd rfl hk
  | primary => simp only [CommitKeyKind.role, List.append_nil, hv, hr]
  | verdict => simp only [CommitKeyKind.role, Str.cutSuffix_append, hr]
  | redo =>
    rw [cutSuffix_role_eq_none (by decide) (by decide) (by decide)]
    simp only [CommitKeyKind.role, Str.cutSuffix_append, reduceCtorEq, if_false]
  | redoVerdict =>
    rw [CommitKeyKind.role, ← List.append_assoc]
    simp only [Str.cutSuffix_append, if_true]

theorem parseEpochMarkerBase_append (hj : WfJobId j) (hk : kind ≠ .epochMarker) :
    parseEpochMarkerBase (j ++ kind.role) = none := by
  have hnone : Str.cutSuffix (j ++ kind.role) (commitKeySep ++ commitRoleReveals) = none := by
    cases kind with
    | epochMarker => exact absurd rfl hk
    | primary =>
      rw [CommitKeyKind.role, List.append_nil, Str.cutSuffix_eq_none]
      exact hj.not_suffix commitRoleReveals
    | verdict => exact cutSuffix_role_eq_none (by decide) (by decide) (by decide)
    | redo => exact cutSuffix_role_eq_none (by decide) (by decide) (by decide)
    | redoVerdict => exact cutSuffix_role_eq_none (by decide) (by decide) (by decide)
  simp [parseEpochMarkerBase, hnone]

/-- The key of a job, a role and a miner parses back to them. -/
theorem parseCommitKey_commitKey (hj : WfJobId j) (hm : WfTail m) (hk : kind ≠ .epochMarker) :
    parseCommitKey (commitKey kind j m) = some ⟨kind, j, m, 0⟩ := by
  have hs : Str.splitLast commitKeySep (commitKey kind j m) = some (j ++ kind.role, m) :=
    Str.splitLast_of_last commitKeySep_ne_nil hm.2
  have hne : ¬ (j ++ kind.role = [] ∨ m = []) := by simp [hj.1, hm.1]
  have hjw : ¬ (j = [] ∨ Str.contains j commitKeySep = true) := by simp [hj.1, hj.2]
  unfold parseCommitKey
  simp only [hs, if_neg hne, parseEpochMarkerBase_append hj hk, cutRole_append hj hk, if_neg hjw]

end RoundTrip

end Dendra.Jobs
