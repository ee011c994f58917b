import Quarlcoin.Pow.Model
/-!
# The chain of headers — the model

Headers, the work a header claims, and the entry the block index keeps for
one. The hash of a header is a parameter of everything that reads it.
-/

namespace Quarlcoin

open Arith BaseUint

/-- `CBlockHeader`. -/
structure BlockHeader where
  nVersion : Int32
  hashPrevBlock : Uint256
  hashMerkleRoot : Uint256
  nTime : UInt32
  nBits : UInt32
  nNonce : UInt32
  deriving DecidableEq

namespace BlockHeader

def null : BlockHeader where
  nVersion := 0
  hashPrevBlock := 0
  hashMerkleRoot := 0
  nTime := 0
  nBits := 0
  nNonce := 0

def getBlockTime (header : BlockHeader) : Int64 := Pow.getBlockTime header.nTime

end BlockHeader

def maxFutureBlockTime : Int64 := 2 * 60 * 60

/-- `GetBitsProof`: the expected number of hashes behind a target. -/
def getBitsProof (bits : UInt32) : ArithUint256 :=
  let bnTarget := setCompact bits
  if bnTarget.fNegative || bnTarget.fOverflow || bnTarget.value.equalTo 0 then zero
  else
    -- the divisor is not zero, so the exception of the division is not reached
    ((bnTarget.value.complement.div (bnTarget.value.add (ofUInt64 1))).getD zero).add (ofUInt64 1)

def getBlockProof (header : BlockHeader) : ArithUint256 := getBitsProof header.nBits

/-- `CBlockIndex` of an accepted header. Heights above the range of `int` are not reached. -/
structure BlockIndex where
  /-- `GetBlockHeader()`. -/
  header : BlockHeader
  nHeight : ℕ
  nChainWork : ArithUint256
  /-- `GetMedianTimePast()`. -/
  medianTimePast : Int64

def mainGenesis : BlockIndex where
  header :=
    { nVersion := 1
      hashPrevBlock := 0
      hashMerkleRoot := 0x8b62345f8f81e8215ebfc4875a69e2a02376061d78c30de06a48c63fcbee53c1
      nTime := 1785762002
      nBits := 0x1d00ffff
      nNonce := 4012788493 }
  nHeight := 0
  nChainWork := getBitsProof 0x1d00ffff
  medianTimePast := 1785762002

end Quarlcoin
