import Mathlib.Data.Int.Notation
import Quarlcoin.Arith.Model
/-!
# The chain parameters

The fields of `Consensus::Params` and `CChainParams` that the modelled code reads, and the
three parameter sets of `kernel/chainparams.cpp` when no option overrides them.
-/

namespace Quarlcoin

open Arith

namespace Consensus

/-- `Consensus::Params::ASERTAnchor`: the block the difficulty is measured
from. -/
structure AsertAnchor where
  nHeight : Int32
  nBits : UInt32
  nTime : UInt32

structure Params where
  hashGenesisBlock : Uint256
  nSubsidyHalvingInterval : ℤ
  bip34Height : ℤ
  bip34Hash : Uint256
  bip65Height : ℤ
  bip66Height : ℤ
  powLimit : Uint256
  enforceBIP94 : Bool
  fPowNoRetargeting : Bool
  nPowTargetSpacing : Int64
  nASERTHalfLife : Int64
  asertAnchor : AsertAnchor
  nMinimumChainWork : Uint256

end Consensus

/-- `HeadersSyncParams`, with the initializers of its members. -/
structure HeadersSyncParams where
  /-- Distance in blocks between header commitments. -/
  commitmentPeriod : ℕ := 0
  /-- Headers to accumulate on top of one before it is released. -/
  redownloadBufferSize : ℕ := 0

/-- `CChainParams`. -/
structure ChainParams where
  consensus : Consensus.Params
  headersSync : HeadersSyncParams := {}

/-- The networks of `util/chaintype.h`. -/
inductive ChainType where
  | main
  | testnet
  | regtest
  deriving DecidableEq

def mainParams : ChainParams where
  consensus :=
    { hashGenesisBlock := 0x2f5ec90129e2cb5bbc26a2e972898e7b22a635344f0cf524117021bbb46cb321
      nSubsidyHalvingInterval := 840000
      bip34Height := 1
      bip34Hash := 0
      bip65Height := 1
      bip66Height := 1
      powLimit := 0x00000000ffff0000000000000000000000000000000000000000000000000000
      enforceBIP94 := false
      fPowNoRetargeting := false
      nPowTargetSpacing := 150
      nASERTHalfLife := 12 * 60 * 60
      asertAnchor := { nHeight := 0, nBits := 0x1d00ffff, nTime := 1785762002 }
      nMinimumChainWork := 0 }

def testNetParams : ChainParams where
  consensus :=
    { hashGenesisBlock := 0x23fa0a7b116b80b5ddb89d00d91ed8f51783f75bc4658eace7db1c37741ba75a
      nSubsidyHalvingInterval := 840000
      bip34Height := 1
      bip34Hash := 0
      bip65Height := 1
      bip66Height := 1
      powLimit := 0x00000000ffff0000000000000000000000000000000000000000000000000000
      enforceBIP94 := false
      fPowNoRetargeting := false
      nPowTargetSpacing := 150
      nASERTHalfLife := 12 * 60 * 60
      asertAnchor := { nHeight := 0, nBits := 0x1d00ffff, nTime := 1785760200 }
      nMinimumChainWork := 0 }

def regTestParams : ChainParams where
  consensus :=
    { hashGenesisBlock := 0x94bc8cee75d4e4ffe6f5abb2ba8d4ca6b3c2bf8dadf56ad8d994530e9d005866
      nSubsidyHalvingInterval := 150
      bip34Height := 1
      bip34Hash := 0
      bip65Height := 1
      bip66Height := 1
      powLimit := 0x7fffff0000000000000000000000000000000000000000000000000000000000
      enforceBIP94 := false
      fPowNoRetargeting := true
      nPowTargetSpacing := 150
      nASERTHalfLife := 12 * 60 * 60
      asertAnchor := { nHeight := 0, nBits := 0x207fffff, nTime := 1785758400 }
      nMinimumChainWork := 0 }

/-- `CreateChainParams`, without options. -/
def createChainParams : ChainType → ChainParams
  | .main => mainParams
  | .testnet => testNetParams
  | .regtest => regTestParams

end Quarlcoin
