import Quarlcoin.Chain.Model
import Quarlcoin.Primitives.Identity
/-!
# Blocks

`CBlock` as it travels. The hash function of `HashWriter`, `CHash256` and `Hash` is one
function of byte strings, and it is a parameter.
-/

namespace Quarlcoin

open Arith Codec Serialize BlockHeader

/-- `CBlock`, without the flags it keeps in memory. -/
structure Block where
  header : BlockHeader
  vtx : List Transaction
  deriving DecidableEq

def serBlockHeader (header : BlockHeader) : List UInt8 :=
  serInt32 header.nVersion ++ (serUint256 header.hashPrevBlock ++ (serUint256 header.hashMerkleRoot ++
    (serUInt32 header.nTime ++ (serUInt32 header.nBits ++ serUInt32 header.nNonce))))

def unserBlockHeader : Stream BlockHeader := do
  let nVersion ← unserInt32
  let hashPrevBlock ← unserUint256
  let hashMerkleRoot ← unserUint256
  let nTime ← unserUInt32
  let nBits ← unserUInt32
  let nNonce ← unserUInt32
  pure { nVersion, hashPrevBlock, hashMerkleRoot, nTime, nBits, nNonce }

def serBlock (allowWitness : Bool) (block : Block) : List UInt8 :=
  serBlockHeader block.header ++ serVector (serializeTransaction allowWitness) block.vtx

/-- The hash of two hashes, as the Merkle trees take it. -/
def hashPair (hash : List UInt8 → Uint256) (a b : Uint256) : Uint256 :=
  hash (serUint256 a ++ serUint256 b)

namespace Transaction

variable (hash : List UInt8 → Uint256) (tx : Transaction)

def getHash : Uint256 := hash (serializeTransaction false tx)

def getWitnessHash : Uint256 :=
  if hasWitness tx.vin then hash (serializeTransaction true tx) else tx.getHash hash

end Transaction

theorem lawful_unserBlockHeader : Lawful serBlockHeader unserBlockHeader fun _ => True := by
  refine lawful_unserInt32.total nVersion fun _ => ?_
  refine lawful_unserUint256.total hashPrevBlock fun _ => ?_
  refine lawful_unserUint256.total hashMerkleRoot fun _ => ?_
  refine lawful_unserUInt32.total nTime fun _ => ?_
  refine lawful_unserUInt32.total nBits fun _ => ?_
  refine lawful_unserUInt32.last nNonce ?_ fun _ _ => by simp
  rintro _ ⟨⟨⟨⟨⟨-, rfl⟩, rfl⟩, rfl⟩, rfl⟩, rfl⟩
  exact ⟨trivial, rfl⟩

end Quarlcoin
