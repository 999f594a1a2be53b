import Dendra.Lib.Str

/-!
# What the jobs keeper is given

* `Chain`: the functions of the application that no block changes: the hash, the bech32 encoding,
  the address codec, the module addresses and the verification of VRF proofs.
* `Ctx`: what one message or one end of block sees of the world around the module: the height and
  the block's seeds, and the answers of the bank, the emission module and the model registry. A
  bank call may be refused for any reason, so the refusals are given by an arbitrary predicate on
  the number of the call.
-/

namespace Dendra.Jobs

/-- The bytes of an account address. -/
abbrev Addr : Type := List UInt8

/-- The characters of the data part of a bech32 string. -/
def bech32Charset : Str := "qpzry9x8gf2tvdw0s3jn54khce6mua7l".toList

/-- The fixed functions of the application. -/
class Chain where
  /-- `sha256.Sum256`, 32 bytes -/
  sha256 : List UInt8 → List UInt8
  /-- `bech32.ConvertAndEncode` -/
  bech32 : Str → List UInt8 → Str
  /-- a bech32 string is its prefix, a `1` and characters of the charset -/
  bech32_eq : ∀ hrp bz, ∃ d, bech32 hrp bz = hrp ++ '1' :: d ∧ ∀ a ∈ d, a ∈ bech32Charset
  /-- `bech32.DecodeAndConvert`, any prefix -/
  decodeBech32 : Str → Option (List UInt8)
  /-- `addressCodec.StringToBytes` -/
  addrBytes : Str → Option Addr
  /-- `addressCodec.BytesToString` -/
  addrString : Addr → Str
  /-- the address of the module authority (governance) -/
  authority : Addr
  /-- `authtypes.NewModuleAddress` -/
  moduleAddress : Str → Addr
  /-- `vrf.Verify` of a key, an input and a proof: the output, when the proof is valid -/
  vrfVerify : List UInt8 → List UInt8 → List UInt8 → Option (List UInt8)
  /-- `strings.EqualFold` -/
  equalFold : Str → Str → Bool

/-- The account of the jobs module. -/
def moduleAddr [Chain] : Addr := Chain.moduleAddress "jobs".toList

/-- What one message or one end of block sees of the world around the module. -/
structure Ctx where
  height : Nat
  /-- heights are `int64`; no chain comes near the end of that range -/
  height_lt : height < 2 ^ 62
  unixNano : Int
  /-- the application hash of the header -/
  appHash : List UInt8
  /-- the block hash recorded for this height -/
  blockHash : Option (List UInt8)
  /-- the decentralised seed recorded for this height, its contributors and their power -/
  vrfSeed : Option (List UInt8)
  vrfContributors : Option UInt64
  vrfPower : Option UInt64
  /-- is bank call number `n` refused? -/
  refuses : Nat → Bool
  /-- `modelRegistryKeeper.IsActive` and `.ExpectedWeights` -/
  modelActive : Str → Bool
  expectedWeights : Str → Option Str
  /-- `emissionKeeper.PayWork` and `.AvailPoolBalance` -/
  payWork : Addr → UInt64 → Option UInt64
  availPool : Option UInt64

namespace Ctx

variable (c : Ctx)

/-- The height as an `int64`. -/
def h : Int := c.height

/-- `uint64(h)`. -/
def h64 : UInt64 := UInt64.ofNat c.height

theorem h_nonneg : 0 ≤ c.h := Int.natCast_nonneg _

theorem h_lt : c.h < 2 ^ 62 := by
  have := c.height_lt
  simp only [h]
  omega

@[simp] theorem toNat_h64 : c.h64.toNat = c.height := by
  have := c.height_lt
  simp only [h64, UInt64.toNat_ofNat']
  omega

end Ctx

/-! ## Miner identities -/

section MinerId

variable [Chain]

def MinerIDHRP : Str := "dm".toList

def MinerIDDomain : Str := "dendra/miner-id/v1".toList

def MinerIDPayloadLen : Nat := 10

/-- The identifier of the one miner an address may register. -/
def deriveMinerID (addrBytes : Addr) : Option Str :=
  if addrBytes = [] then none
  else
    let sum := Chain.sha256 (Str.utf8 MinerIDDomain ++ addrBytes)
    some (Chain.bech32 MinerIDHRP (sum.take MinerIDPayloadLen))

/-- A character of a derived miner id. -/
def IsIdChar (a : Char) : Prop := a ∈ "dm1".toList ++ bech32Charset

/-- What derivation gives: nonempty, of bech32 characters only. -/
def WfMinerId (m : Str) : Prop := m ≠ [] ∧ ∀ a ∈ m, IsIdChar a

theorem deriveMinerID_wf {a : Addr} {m : Str} (h : deriveMinerID a = some m) : WfMinerId m := by
  unfold deriveMinerID at h
  split at h
  · cases h
  · obtain ⟨d, hd, hchars⟩ := Chain.bech32_eq MinerIDHRP
      ((Chain.sha256 (Str.utf8 MinerIDDomain ++ a)).take MinerIDPayloadLen)
    simp only [Option.some.injEq] at h
    rw [← h, hd]
    refine ⟨by simp [MinerIDHRP], fun x hx => ?_⟩
    simp only [IsIdChar, MinerIDHRP, List.mem_append, List.mem_cons] at hx ⊢
    rcases hx with hx | rfl | hx
    · exact .inl (by revert hx; simp; tauto)
    · exact .inl (by simp)
    · exact .inr (hchars x hx)

end MinerId

theorem WfMinerId.not_mem {m : Str} (h : WfMinerId m) {a : Char} (ha : ¬ IsIdChar a) : a ∉ m :=
  fun hm => ha (h.2 a hm)

/-- No separator character and no blank occurs in a derived miner id. -/
theorem WfMinerId.underscore {m : Str} (h : WfMinerId m) : '_' ∉ m :=
  h.not_mem (by unfold IsIdChar; decide)

theorem WfMinerId.comma {m : Str} (h : WfMinerId m) : ',' ∉ m :=
  h.not_mem (by unfold IsIdChar; decide)

theorem isSpace_of_isIdChar {a : Char} (h : IsIdChar a) : Str.isSpace a = false := by
  have hall : ("dm1".toList ++ bech32Charset).all (fun b => !Str.isSpace b) = true := by decide
  simpa using List.all_eq_true.1 hall a h

theorem WfMinerId.trimSpace {m : Str} (h : WfMinerId m) : Str.trimSpace m = m :=
  Str.trimSpace_of_forall fun a ha => isSpace_of_isIdChar (h.2 a ha)

end Dendra.Jobs
