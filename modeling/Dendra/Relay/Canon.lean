import Dendra.Relay.Attributed

/-!
# The canonical message

What a signed deposit signs: the domain, the kind, the key and the miner, each after its length, the digest of the
body and the height. A decoder reads it back.

* `canonical`, `decoder`: the code, for arguments of any type. `layout`: the bytes of what was decoded.
* `readLp_eq_some`, `decoder_eq_some`: what is read is what lies there, and nothing else is accepted.
* `canonical_unambiguous`: the message says what was signed.
-/

namespace Dendra.Relay

/-! ## The code -/

/-- An argument. -/
inductive Arg
  | bytes (b : List UInt8)
  | text (s : Str)
  | int (n : Int)
  | bool (b : Bool)
  | other

/-- `_to_bytes`. -/
def Arg.toBytes : Arg → Option (List UInt8)
  | .bytes b => some b
  | .text s => some s.utf8
  | _ => none

/-- `canonical_message`; `none` for its `ValueError`. -/
def canonical (kind key body miner height : Arg) : Option (List UInt8) :=
  match height with
  | .int h =>
    if h < 0 ∨ h > 2 ^ 64 - 1 then none
    else do
      let body ← body.toBytes
      let domain ← lp messageDomain.utf8
      let kind ← kind.toBytes.bind lp
      let key ← key.toBytes.bind lp
      let miner ← miner.toBytes.bind lp
      return domain ++ kind ++ key ++ miner ++ Sha256.hash body ++ Sha256.bytes 8 h.toNat
  | _ => none

/-- What `decoder` returns. -/
structure Decoded where
  domain : List UInt8
  kind : List UInt8
  key : List UInt8
  miner : List UInt8
  bodyDigest : List UInt8
  height : Nat

/-- `decoder`; `none` for its `ValueError`. -/
def decoder (m : List UInt8) : Option Decoded := do
  let domain ← readLp m
  let kind ← readLp domain.2
  let key ← readLp kind.2
  let miner ← readLp key.2
  if miner.2.length ≠ 40 then none
  else return ⟨domain.1, kind.1, key.1, miner.1, miner.2.take 32, ofBytes (miner.2.drop 32)⟩

/-- The message that the relay's verdict builds. -/
theorem canonicalMessage_eq (kind key : Str) (body : Body) (miner : Str) (height : Int) :
    canonicalMessage kind key body miner height =
      canonical (.text kind) (.text key) (.bytes body) (.text miner) (.int height) := rfl

/-- `message_height` is the last that is decoded. -/
theorem messageHeight_eq (m : List UInt8) : messageHeight m = (decoder m).map Decoded.height := by
  unfold messageHeight decoder
  cases readLp m with
  | none => rfl
  | some domain =>
    cases hkind : readLp domain.2 with
    | none => simp [hkind]
    | some kind =>
      cases hkey : readLp kind.2 with
      | none => simp [hkind, hkey]
      | some key =>
        cases hminer : readLp key.2 with
        | none => simp [hkind, hkey, hminer]
        | some miner =>
          simp only [Option.bind_eq_bind, Option.bind_some, hkind, hkey, hminer]
          split <;> rfl

/-! ## The layout -/

/-- A field after its length. -/
def field (x : List UInt8) : List UInt8 := Sha256.bytes 4 x.length ++ x

def layout (d : Decoded) : List UInt8 :=
  field d.domain ++ field d.kind ++ field d.key ++ field d.miner ++ d.bodyDigest ++ Sha256.bytes 8 d.height

/-- The widths that the layout gives its fields. -/
structure Decoded.Fits (d : Decoded) : Prop where
  domain : d.domain.length < 2 ^ 32
  kind : d.kind.length < 2 ^ 32
  key : d.key.length < 2 ^ 32
  miner : d.miner.length < 2 ^ 32
  bodyDigest : d.bodyDigest.length = 32
  height : d.height < 2 ^ 64

section Layout

variable {m x y rest bs : List UInt8} {d : Decoded} {n : Nat}

theorem ofBytes_lt (bs : List UInt8) : ofBytes bs < 256 ^ bs.length := by
  induction bs using List.reverseRecOn with
  | nil => exact Nat.one_pos
  | append_singleton bs b ih =>
    rw [ofBytes_append, List.length_append, List.length_singleton, Nat.pow_succ]
    have := b.toNat_lt
    omega

/-- Big-endian bytes are those of the number that they read as. -/
theorem bytes_ofBytes (h : bs.length = n) : Sha256.bytes n (ofBytes bs) = bs := by
  subst h
  induction bs using List.reverseRecOn with
  | nil => rfl
  | append_singleton bs b ih =>
    have hlt := b.toNat_lt
    have hdiv : ofBytes (bs ++ [b]) / 256 = ofBytes bs := by
      rw [ofBytes_append]
      omega
    have hmod : ofBytes (bs ++ [b]) % 256 = b.toNat := by
      rw [ofBytes_append]
      omega
    rw [List.length_append, List.length_singleton, bytes_succ, hdiv, hmod, ih, UInt8.ofNat_toNat]

/-- A field is read where it lies after its length. -/
theorem readLp_eq_some : readLp m = some (x, rest) ↔ x.length < 2 ^ 32 ∧ m = field x ++ rest := by
  unfold readLp
  dsimp only
  constructor
  · intro h
    split at h
    · cases h
    · next hlen =>
      rw [not_or, not_lt, not_lt] at hlen
      obtain ⟨rfl, rfl⟩ := Prod.mk.inj (Option.some.inj h)
      have htake : (m.take 4).length = 4 := by
        rw [List.length_take]
        omega
      have hx : ((m.drop 4).take (ofBytes (m.take 4))).length = ofBytes (m.take 4) := by
        rw [List.length_take]
        omega
      refine ⟨?_, ?_⟩
      · have := ofBytes_lt (m.take 4)
        rw [htake] at this
        omega
      · rw [field, hx, bytes_ofBytes htake, List.append_assoc, List.take_append_drop, List.take_append_drop]
  · rintro ⟨hx, rfl⟩
    have htake : (field x ++ rest).take 4 = Sha256.bytes 4 x.length := by
      rw [field, List.append_assoc, List.take_left' (length_bytes 4 _)]
    have hdrop : (field x ++ rest).drop 4 = x ++ rest := by
      rw [field, List.append_assoc, List.drop_left' (length_bytes 4 _)]
    rw [htake, hdrop, ofBytes_bytes (by omega), if_neg, List.take_left, List.drop_left]
    rw [field, List.length_append, List.length_append, List.length_append, length_bytes]
    omega

/-- The decoder accepts the layouts, and reads of each what it is the layout of. -/
theorem decoder_eq_some : decoder m = some d ↔ d.Fits ∧ m = layout d := by
  unfold decoder
  constructor
  · intro h
    obtain ⟨⟨domain, r₁⟩, hdomain, h⟩ := Option.bind_eq_some_iff.1 h
    obtain ⟨⟨kind, r₂⟩, hkind, h⟩ := Option.bind_eq_some_iff.1 h
    obtain ⟨⟨key, r₃⟩, hkey, h⟩ := Option.bind_eq_some_iff.1 h
    obtain ⟨⟨miner, r₄⟩, hminer, h⟩ := Option.bind_eq_some_iff.1 h
    dsimp only at hkind hkey hminer h
    split at h
    · cases h
    · next hlen =>
      rw [not_not] at hlen
      obtain rfl := Option.some.inj h
      rw [readLp_eq_some] at hdomain hkind hkey hminer
      obtain ⟨hdomain, rfl⟩ := hdomain
      obtain ⟨hkind, rfl⟩ := hkind
      obtain ⟨hkey, rfl⟩ := hkey
      obtain ⟨hminer, rfl⟩ := hminer
      have hdrop : (r₄.drop 32).length = 8 := by
        rw [List.length_drop, hlen]
      refine ⟨⟨hdomain, hkind, hkey, hminer, ?_, ?_⟩, ?_⟩
      · rw [List.length_take, hlen]
        rfl
      · have := ofBytes_lt (r₄.drop 32)
        rw [hdrop] at this
        omega
      · rw [layout, bytes_ofBytes hdrop]
        simp only [List.append_assoc, List.take_append_drop]
  · rintro ⟨hd, rfl⟩
    have hlen : (d.bodyDigest ++ Sha256.bytes 8 d.height).length = 40 := by
      rw [List.length_append, hd.bodyDigest, length_bytes]
    have hdomain : readLp (layout d) = some (d.domain, field d.kind ++ (field d.key ++ (field d.miner ++
        (d.bodyDigest ++ Sha256.bytes 8 d.height)))) :=
      readLp_eq_some.2 ⟨hd.domain, by simp only [layout, List.append_assoc]⟩
    simp only [hdomain, readLp_eq_some.2 ⟨hd.kind, rfl⟩, readLp_eq_some.2 ⟨hd.key, rfl⟩,
      readLp_eq_some.2 ⟨hd.miner, rfl⟩, Option.bind_eq_bind, Option.bind_some]
    have hheight : d.height < 256 ^ 8 := hd.height
    rw [if_neg (not_not.2 hlen), List.take_left' hd.bodyDigest, List.drop_left' hd.bodyDigest,
      ofBytes_bytes hheight]
    rfl

theorem layout_injective {d' : Decoded} (hd : d.Fits) (hd' : d'.Fits) (h : layout d = layout d') : d = d' :=
  Option.some.inj ((decoder_eq_some.2 ⟨hd, rfl⟩).symm.trans (decoder_eq_some.2 ⟨hd', h⟩))

theorem lp_eq_some : lp x = some y ↔ x.length ≤ maxField ∧ y = field x := by
  unfold lp
  split
  · next h => exact ⟨nofun, fun h' => absurd h'.1 (not_le.2 h)⟩
  · next h => exact ⟨fun h' => ⟨not_lt.1 h, (Option.some.inj h').symm⟩, fun h' => congrArg some h'.2.symm⟩

end Layout

/-! ## The message -/

section Message

variable {kind key body miner height kind' key' body' miner' height' : Arg} {m : List UInt8}

/-- A message is the layout of the bytes of its arguments. -/
theorem canonical_eq_some (h : canonical kind key body miner height = some m) :
    ∃ (k e b i : List UInt8) (n : Nat), kind.toBytes = some k ∧ key.toBytes = some e ∧ body.toBytes = some b ∧
      miner.toBytes = some i ∧ height = .int n ∧
      (Decoded.mk messageDomain.utf8 k e i (Sha256.hash b) n).Fits ∧
      m = layout ⟨messageDomain.utf8, k, e, i, Sha256.hash b, n⟩ := by
  unfold canonical at h
  split at h
  · next n =>
    split at h
    · cases h
    · next hn =>
      obtain ⟨b, hb, h⟩ := Option.bind_eq_some_iff.1 h
      obtain ⟨domain, hdomain, h⟩ := Option.bind_eq_some_iff.1 h
      obtain ⟨kf, hkf, h⟩ := Option.bind_eq_some_iff.1 h
      obtain ⟨ef, hef, h⟩ := Option.bind_eq_some_iff.1 h
      obtain ⟨mf, hmf, h⟩ := Option.bind_eq_some_iff.1 h
      obtain ⟨k, hk, hkf⟩ := Option.bind_eq_some_iff.1 hkf
      obtain ⟨e, he, hef⟩ := Option.bind_eq_some_iff.1 hef
      obtain ⟨i, hi, hmf⟩ := Option.bind_eq_some_iff.1 hmf
      obtain ⟨hdlen, rfl⟩ := lp_eq_some.1 hdomain
      obtain ⟨hklen, rfl⟩ := lp_eq_some.1 hkf
      obtain ⟨helen, rfl⟩ := lp_eq_some.1 hef
      obtain ⟨hilen, rfl⟩ := lp_eq_some.1 hmf
      unfold maxField at hdlen hklen helen hilen
      refine ⟨k, e, b, i, n.toNat, hk, he, hb, hi, ?_, ⟨?_, ?_, ?_, ?_, length_hash b, ?_⟩, (Option.some.inj h).symm⟩
      · rw [Int.toNat_of_nonneg (by omega)]
      all_goals dsimp only; omega
  · cases h

/-- **The canonical message is unambiguous.** The decoder gives back what was signed; two accepted inputs with one
message are the same bytes, if their bodies do not collide; a message that is decoded is the layout of what was
decoded; and the height is read back. -/
theorem canonical_unambiguous :
    (∀ kind key body miner height m, canonical kind key body miner height = some m →
      ∃ (k e b i : List UInt8) (n : Nat), kind.toBytes = some k ∧ key.toBytes = some e ∧ body.toBytes = some b ∧
        miner.toBytes = some i ∧ height = .int n ∧
        decoder m = some ⟨messageDomain.utf8, k, e, i, Sha256.hash b, n⟩ ∧ messageHeight m = some n) ∧
    (∀ kind key body miner height kind' key' body' miner' height' m,
      canonical kind key body miner height = some m → canonical kind' key' body' miner' height' = some m →
      (∀ b b', body.toBytes = some b → body'.toBytes = some b' → Sha256.hash b = Sha256.hash b' → b = b') →
        kind.toBytes = kind'.toBytes ∧ key.toBytes = key'.toBytes ∧ body.toBytes = body'.toBytes ∧
          miner.toBytes = miner'.toBytes ∧ height = height') ∧
    (∀ m d, decoder m = some d → m = layout d ∧ d.bodyDigest.length = 32) := by
  refine ⟨fun kind key body miner height m h => ?_, fun kind key body miner height kind' key' body' miner' height' m
    h h' hash => ?_, fun m d h => ?_⟩
  · obtain ⟨k, e, b, i, n, hk, he, hb, hi, hn, hfits, rfl⟩ := canonical_eq_some h
    have hdec := decoder_eq_some.2 ⟨hfits, rfl⟩
    exact ⟨k, e, b, i, n, hk, he, hb, hi, hn, hdec, by rw [messageHeight_eq, hdec]; rfl⟩
  · obtain ⟨k, e, b, i, n, hk, he, hb, hi, rfl, hfits, rfl⟩ := canonical_eq_some h
    obtain ⟨k', e', b', i', n', hk', he', hb', hi', rfl, hfits', hlayout⟩ := canonical_eq_some h'
    obtain ⟨-, rfl, rfl, rfl, hbody, rfl⟩ := Decoded.mk.inj (layout_injective hfits hfits' hlayout)
    obtain rfl := hash b b' hb hb' hbody
    exact ⟨hk.trans hk'.symm, he.trans he'.symm, hb.trans hb'.symm, hi.trans hi'.symm, rfl⟩
  · obtain ⟨hfits, hm⟩ := decoder_eq_some.1 h
    exact ⟨hm, hfits.bodyDigest⟩

end Message

end Dendra.Relay
