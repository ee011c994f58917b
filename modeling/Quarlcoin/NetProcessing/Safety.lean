import Quarlcoin.Common.Outcome
import Quarlcoin.NetProcessing.Model
/-!
# Headers messages — when handling them aborts

Of the assertions a `headers` message can reach, three never fail on a tree of headers. The
fourth fails for every message that starts a sync on a network without its parameters.
-/

namespace Quarlcoin

open Arith Quarlcoin.Pow List BaseUint Prod

namespace NetProcessing

variable (getHash getPoWHash : BlockHeader → Uint256) (params : ChainParams) (opts : Options)

/-- A message that makes the node start a header sync: full, with valid work, connected to a known
block, and without enough work. -/
structure StartsSync (node : Node) (msg : HeadersMessage) : Prop where
  handled : msg.loadingBlocks = false
  full : msg.headers.length = opts.maxHeadersResult
  pow : hasValidProofOfWork getPoWHash params msg.headers = true
  continuous : checkHeadersAreContinuous getHash msg.headers = true
  noBan : node.peer.noBan = false
  unknown : ∀ last ∈ msg.headers.getLast?,
    isAncestorOfBestHeaderOrTip node.chainman (getHash last) = false
  lowWork : ∃ first ∈ msg.headers.head?, ∃ chainStart ∈
    node.chainman.lookupBlockIndex first.hashPrevBlock,
      (chainStart.nChainWork.add (calculateClaimedHeadersWork msg.headers)).lt
        (getAntiDoSWorkThreshold opts node.chainman) = true

variable {getHash getPoWHash} {params} {opts}

/-! ## The assertions that hold -/

section

variable {m : ChainstateManager} {genesis : Uint256}

section

variable (h : m.WellFormed genesis)
include h

theorem activeContains_genesis : m.activeContains genesis = true := by
  obtain ⟨root, hroot, hzero⟩ := h.root
  rw [ChainstateManager.activeContains, hroot]
  simp [hzero, h.active]

/-- **The walk ends on the active chain**, if not before: it goes down one
height at a step, and the genesis block is active. -/
theorem directFetchWalk_ne_none (wanted : Uint256 → Bool) {fuel : ℕ}
    {hash : Uint256} {entry : IndexEntry} (hentry : m.blockIndex hash = some entry)
    (hfuel : entry.nHeight < fuel) (toFetch : ℕ) :
    directFetchWalk m wanted fuel toFetch (some hash) ≠ none := by
  induction fuel generalizing hash entry toFetch with
  | zero => omega
  | succ fuel ih =>
    rw [directFetchWalk]
    split
    · exact Option.some_ne_none _
    rename_i hstop
    have hne : hash ≠ genesis := by
      rintro rfl
      exact hstop (.inl (activeContains_genesis h))
    obtain ⟨parent, prev, hpprev, hprev, hheight⟩ := h.linked hash entry hentry hne
    rw [hentry, Option.bind_some, hpprev]
    exact ih hprev (by omega) _

theorem activeTip_known : ∃ tip, m.activeTip = some tip := by
  have hne : m.vChain ≠ [] := by
    intro hnil
    have := h.active
    rw [hnil] at this
    exact absurd this (by simp)
  obtain ⟨tip, htip⟩ := h.known (m.vChain.getLast hne) (getLast_mem hne)
  refine ⟨tip, ?_⟩
  rw [ChainstateManager.activeTip, getLast?_eq_some_getLast hne]
  exact htip

theorem headersDirectFetchBlocks_ok (msg : HeadersMessage)
    {hash : Uint256} {last : IndexEntry} (hlast : m.blockIndex hash = some last) :
    headersDirectFetchBlocks params m msg hash last = .ok () := by
  obtain ⟨tip, htip⟩ := activeTip_known h
  rw [headersDirectFetchBlocks, htip]
  dsimp only
  split
  · split
    · rename_i hwalk
      exact absurd hwalk (directFetchWalk_ne_none h msg.wanted hlast (Nat.lt_succ_self _) 0)
    · rfl
  · rfl

end

theorem maybePunishNodeForBlock_headersSync (peer : Peer) (viaCompactBlock : Bool)
    (result : BlockValidationResult) :
    (maybePunishNodeForBlock peer viaCompactBlock result).headersSync = peer.headersSync := by
  cases result <;> simp only [maybePunishNodeForBlock, misbehaving] <;> split <;> rfl

/-- A peer with no header sync, where none can be made. -/
def Peer.Unsynced (params : ChainParams) (peer : Peer) : Prop :=
  params.headersSync.commitmentPeriod = 0 → peer.headersSync = none

structure Node.Sound (params : ChainParams) (node : Node) : Prop where
  tree : node.chainman.WellFormed params.consensus.hashGenesisBlock
  unsynced : node.peer.Unsynced params

/-- **Headers handed to validation do not abort the node**, and leave a tree
again. -/
theorem acceptHeaders_ok {node : Node} (h : node.Sound params) (msg : HeadersMessage)
    {headers : List BlockHeader} (hne : headers ≠ []) (viaCompactBlock : Bool) (E : Fault → Prop) :
    Ensures (acceptHeaders getHash getPoWHash params node msg headers viaCompactBlock) E
      (Node.Sound params) := by
  have hwf := @acceptEach_wellFormed getHash getPoWHash params.consensus node.chainman msg.now true
    none headers h.tree
  unfold acceptHeaders processNewBlockHeaders
  rcases heq : acceptEach getHash getPoWHash params.consensus msg.now true node.chainman none headers
    with ⟨m, e | pindexLast⟩
  · rw [heq] at hwf
    exact ⟨hwf, fun hzero => (maybePunishNodeForBlock_headersSync ..).trans (h.unsynced hzero)⟩
  obtain ⟨hash, entry, rfl, hentry⟩ := acceptEach_known
    (fun _ hnone => absurd hnone (Option.not_mem_none _)) (congrArg snd heq)
    fun hnil => absurd hnil hne
  rw [heq] at hwf hentry
  dsimp only at hentry ⊢
  rw [Option.bind_some, hentry, Option.map_some]
  dsimp only
  rw [headersDirectFetchBlocks_ok hwf msg hentry]
  exact ⟨hwf, h.unsynced⟩

end

/-! ## Starting a header sync -/

theorem new_eq_none_iff (chainStart : BlockIndex) (work : ArithUint256) (msg : HeadersMessage) :
    HeadersSync.new params.consensus params.headersSync chainStart work msg.hasher msg.now
      msg.randrange = none ↔ params.headersSync.commitmentPeriod = 0 := by
  unfold HeadersSync.new
  split
  · exact ⟨fun h => absurd h (Option.some_ne_none _), fun h => absurd h (by omega)⟩
  · exact ⟨fun _ => by omega, fun _ => rfl⟩

section

variable {node : Node} {msg : HeadersMessage} {chainStart : BlockIndex} {headers : List BlockHeader}
  {alreadyValidatedWork viaCompactBlock : Bool}

variable (opts) in
def lowWork (m : ChainstateManager) (chainStart : BlockIndex) (headers : List BlockHeader) : Bool :=
  (chainStart.nChainWork.add (calculateClaimedHeadersWork headers)).lt
    (getAntiDoSWorkThreshold opts m)

/-- **`TryLowWorkHeadersSync` fails only where a sync is started** whose parameters are not set.
-/
theorem tryLowWorkHeadersSync_spec (peer : Peer) :
    Ensures (tryLowWorkHeadersSync getHash params opts node.chainman peer chainStart msg headers)
      (fun e => e = .commitmentPeriod ∧ params.headersSync.commitmentPeriod = 0 ∧
        headers.length = opts.maxHeadersResult ∧
        lowWork opts node.chainman chainStart headers = true)
      fun p => p.1 = peer ∨ p.2 = true ∧ 0 < params.headersSync.commitmentPeriod := by
  unfold tryLowWorkHeadersSync
  dsimp only
  split
  · rename_i hlow
    split_ifs with hfull
    · split
      · rename_i hnew
        exact ⟨rfl, (new_eq_none_iff ..).1 hnew, hfull, hlow⟩
      · rename_i sync hnew
        refine .inr ⟨rfl, Nat.pos_of_ne_zero fun hzero => ?_⟩
        rw [(new_eq_none_iff ..).2 hzero] at hnew
        cases hnew
    · exact .inl rfl
  · exact .inl rfl

/-- **Headers that connect abort the node only by starting a header sync**
whose parameters are not set. -/
theorem processConnecting_spec (h : node.Sound params) (hne : headers ≠ []) :
    Ensures (processConnecting getHash getPoWHash params opts node msg chainStart headers
        alreadyValidatedWork viaCompactBlock)
      (fun e => e = .commitmentPeriod ∧ params.headersSync.commitmentPeriod = 0 ∧
        headers.length = opts.maxHeadersResult ∧ node.peer.noBan = false ∧
        lowWork opts node.chainman chainStart headers = true ∧ ∀ last ∈ headers.getLast?,
          isAncestorOfBestHeaderOrTip node.chainman (getHash last) = false)
      (Node.Sound params) := by
  unfold processConnecting
  dsimp only
  split_ifs with hskip
  · exact acceptHeaders_ok h msg hne viaCompactBlock _
  simp only [Bool.or_eq_true, not_or, Bool.not_eq_true] at hskip
  have htry := @tryLowWorkHeadersSync_spec getHash params opts node msg chainStart headers
    node.peer
  split
  · rename_i heq
    obtain ⟨rfl, hzero, hfull, hlow⟩ := htry.of_eq_error heq
    refine ⟨rfl, hzero, hfull, hskip.2, hlow, fun last hlast => ?_⟩
    have hknown := hskip.1.2
    rwa [Option.mem_def.1 hlast] at hknown
  · rename_i peer heq
    rcases htry.of_eq_ok heq with hsame | ⟨-, hpos⟩
    · exact ⟨h.tree, fun hzero => congrArg Peer.headersSync hsame ▸ h.unsynced hzero⟩
    · exact ⟨h.tree, fun hzero => absurd hzero hpos.ne'⟩
  · rename_i peer heq
    rcases htry.of_eq_ok heq with rfl | ⟨hfalse, -⟩
    · exact acceptHeaders_ok h msg hne viaCompactBlock _
    · cases hfalse

/-! ## A message -/

/-- A header sync in progress is not made where its parameters are not set. -/
theorem isContinuationOfLowWorkHeadersSync_none {peer : Peer} (h : peer.headersSync = none)
    (headers : List BlockHeader) :
    isContinuationOfLowWorkHeadersSync getHash opts peer headers = (peer, headers, false) := by
  rw [isContinuationOfLowWorkHeadersSync, h]

theorem checkHeadersPoW_cases (headers : List BlockHeader) (peer : Peer) :
    checkHeadersPoW getHash getPoWHash params headers peer = (misbehaving peer, false) ∨
      (hasValidProofOfWork getPoWHash params headers = true ∧
        checkHeadersAreContinuous getHash headers = true ∧
        checkHeadersPoW getHash getPoWHash params headers peer = (peer, true)) := by
  unfold checkHeadersPoW
  split
  · exact .inl rfl
  rename_i hpow
  split
  · exact .inl rfl
  · rename_i hcont
    exact .inr ⟨not_not.1 hpow, not_not.1 hcont, rfl⟩

/-- **A message aborts the node only by starting a header sync** whose
parameters are not set. -/
theorem processMessage_spec (h : node.Sound params) :
    Ensures (processMessage getHash getPoWHash params opts node msg)
      (fun e => e = .commitmentPeriod ∧ params.headersSync.commitmentPeriod = 0 ∧
        StartsSync getHash getPoWHash params opts node msg) (Node.Sound params) := by
  unfold processMessage
  split
  · exact h
  rename_i hloading
  split
  · exact ⟨h.tree, h.unsynced⟩
  unfold processHeadersMessage
  split
  · exact ⟨h.tree, fun _ => rfl⟩
  rcases @checkHeadersPoW_cases getHash getPoWHash params msg.headers node.peer
    with heq | ⟨hpow, hcont, heq⟩
  · rw [heq]
    exact ⟨h.tree, h.unsynced⟩
  rw [heq]
  dsimp only
  have hsame : params.headersSync.commitmentPeriod = 0 →
      isContinuationOfLowWorkHeadersSync getHash opts node.peer msg.headers =
        (node.peer, msg.headers, false) :=
    fun hzero => isContinuationOfLowWorkHeadersSync_none (h.unsynced hzero) _
  split
  · rename_i peer _ hsync
    refine ⟨h.tree, fun hzero => ?_⟩
    obtain rfl := (mk.inj (hsync.symm.trans (hsame hzero))).1
    exact h.unsynced hzero
  rename_i peer first headers already hsync
  have hsound : Node.Sound params { node with peer := peer } := by
    refine ⟨h.tree, fun hzero => ?_⟩
    obtain rfl := (mk.inj (hsync.symm.trans (hsame hzero))).1
    exact h.unsynced hzero
  split
  · exact hsound
  rename_i chainStart hstart
  refine (processConnecting_spec hsound (cons_ne_nil _ _)).mono ?_ fun _ hnext => hnext
  rintro e ⟨rfl, hzero, hfull, hnoBan, hlow, hknown⟩
  obtain ⟨rfl, hrest⟩ := mk.inj (hsync.symm.trans (hsame hzero))
  obtain ⟨hheaders, -⟩ := mk.inj hrest
  refine ⟨rfl, hzero, by simpa using hloading, hheaders ▸ hfull, hpow, hcont, hnoBan,
    hheaders ▸ hknown, first, ?_, chainStart, hstart, ?_⟩
  · rw [← hheaders]
    rfl
  · rw [← hheaders]
    exact hlow

theorem processMessage_of_startsSync (hpeer : node.peer.headersSync = none)
    (hzero : params.headersSync.commitmentPeriod = 0)
    (hs : StartsSync getHash getPoWHash params opts node msg) :
    processMessage getHash getPoWHash params opts node msg = .error .commitmentPeriod := by
  obtain ⟨first, hfirst, chainStart, hstart, hlow⟩ := hs.lowWork
  obtain ⟨headers, hheaders⟩ : ∃ headers, msg.headers = first :: headers :=
    ⟨msg.headers.tail, eq_cons_of_mem_head? hfirst⟩
  have hcheck : checkHeadersPoW getHash getPoWHash params msg.headers node.peer =
      (node.peer, true) := by
    rw [checkHeadersPoW, hs.pow, hs.continuous]
    rfl
  have hknown : (msg.headers.getLast?.any fun last =>
      isAncestorOfBestHeaderOrTip node.chainman (getHash last)) = false := by
    cases hlast : msg.headers.getLast? with
    | none => rfl
    | some last => exact hs.unknown last hlast
  have htry : tryLowWorkHeadersSync getHash params opts node.chainman node.peer chainStart msg
      msg.headers = .error .commitmentPeriod := by
    rw [tryLowWorkHeadersSync, if_pos hlow, if_pos hs.full, (new_eq_none_iff ..).2 hzero]
  rw [processMessage, hs.handled, if_neg Bool.false_ne_true, if_neg (by rw [hs.full]; omega),
    processHeadersMessage, if_neg (by rw [hheaders]; simp), hcheck]
  dsimp only
  rw [isContinuationOfLowWorkHeadersSync_none hpeer]
  rw [hheaders] at hknown htry ⊢
  dsimp only
  rw [Option.mem_def.1 hstart]
  dsimp only
  rw [processConnecting, hknown, hs.noBan, if_neg (by simp), htry]

end

/-! ## A run -/

section

variable {node : Node} {events : List Event}

/-- A message that starts a header sync is among the events. -/
def StartsIn (getHash getPoWHash : BlockHeader → Uint256) (params : ChainParams) (opts : Options)
    (node : Node) (events : List Event) : Prop :=
  ∃ before msg after node', events = before ++ .headers msg :: after ∧
    handleAll getHash getPoWHash params opts node before = .ok node' ∧
    StartsSync getHash getPoWHash params opts node' msg

theorem handleAll_cons (event : Event) :
    handleAll getHash getPoWHash params opts node (event :: events) =
      (handle getHash getPoWHash params opts node event).bind fun node' =>
        handleAll getHash getPoWHash params opts node' events := by
  rfl

/-- **A run aborts only at a message that starts a header sync** whose
parameters are not set. -/
theorem handleAll_spec (h : node.Sound params)
    (hchain : ∀ m, .chain m ∈ events → m.WellFormed params.consensus.hashGenesisBlock) :
    Ensures (handleAll getHash getPoWHash params opts node events)
      (fun e => e = .commitmentPeriod ∧ params.headersSync.commitmentPeriod = 0 ∧
        StartsIn getHash getPoWHash params opts node events) (Node.Sound params) := by
  induction events generalizing node with
  | nil => exact h
  | cons event events ih =>
    have hstep : Ensures (handle getHash getPoWHash params opts node event)
        (fun e => e = .commitmentPeriod ∧ params.headersSync.commitmentPeriod = 0 ∧
          ∃ msg, event = .headers msg ∧ StartsSync getHash getPoWHash params opts node msg)
        (Node.Sound params) := by
      cases event with
      | chain m => exact ⟨hchain m (by simp), h.unsynced⟩
      | headers msg =>
        exact (processMessage_spec h).mono (fun e he => ⟨he.1, he.2.1, msg, rfl, he.2.2⟩)
          fun _ hnext => hnext
    rw [handleAll_cons]
    cases heq : handle getHash getPoWHash params opts node event with
    | error e =>
      obtain ⟨rfl, hzero, msg, rfl, hs⟩ := hstep.of_eq_error heq
      exact ⟨rfl, hzero, [], msg, events, node, rfl, rfl, hs⟩
    | ok node' =>
      refine (ih (hstep.of_eq_ok heq) fun m hm => hchain m (by simp [hm])).mono ?_
        fun _ hnext => hnext
      rintro e ⟨rfl, hzero, before, msg, after, last, rfl, hrun, hs⟩
      refine ⟨rfl, hzero, event :: before, msg, after, last, rfl, ?_, hs⟩
      rw [handleAll_cons, heq]
      exact hrun

theorem handleAll_of_startsIn (h : node.Sound params)
    (hchain : ∀ m, .chain m ∈ events → m.WellFormed params.consensus.hashGenesisBlock)
    (hzero : params.headersSync.commitmentPeriod = 0)
    (hs : StartsIn getHash getPoWHash params opts node events) :
    handleAll getHash getPoWHash params opts node events = .error .commitmentPeriod := by
  obtain ⟨before, msg, after, node', rfl, hrun, hmsg⟩ := hs
  have hsound : node'.Sound params :=
    (handleAll_spec h fun m hm => hchain m (by simp [hm])).of_eq_ok hrun
  have hfault : handle getHash getPoWHash params opts node' (.headers msg) =
      .error .commitmentPeriod := processMessage_of_startsSync (hsound.unsynced hzero) hzero hmsg
  rw [handleAll, foldlM_append, ← handleAll, hrun, ok_bind, ← handleAll, handleAll_cons, hfault]
  rfl

/-- **When a node survives the headers a peer sends it**: if the network has set the parameters of
the sync, or as long as no message starts one. -/
theorem handleAll_ok_iff (getHash getPoWHash : BlockHeader → Uint256) (params : ChainParams)
    (opts : Options) (node : Node) (events : List Event)
    (htree : node.chainman.WellFormed params.consensus.hashGenesisBlock)
    (hpeer : node.peer.headersSync = none)
    (hchain : ∀ m, .chain m ∈ events → m.WellFormed params.consensus.hashGenesisBlock) :
    ((∃ node', handleAll getHash getPoWHash params opts node events = .ok node') ↔
      0 < params.headersSync.commitmentPeriod ∨
        ¬ StartsIn getHash getPoWHash params opts node events) ∧
    (0 < params.headersSync.commitmentPeriod → ∀ chainStart work msg, ∃ C s,
      HeadersSync.new params.consensus params.headersSync chainStart work
        (HeadersMessage.hasher msg) msg.now msg.randrange = some (C, s) ∧
      s.downloadState = .presync) := by
  have hsound : node.Sound params := ⟨htree, fun _ => hpeer⟩
  refine ⟨⟨?_, ?_⟩, fun hpos chainStart work msg => ?_⟩
  · rintro ⟨node', hok⟩
    refine Classical.or_iff_not_imp_left.2 fun hzero hs => ?_
    rw [handleAll_of_startsIn hsound hchain (by omega) hs] at hok
    exact absurd hok (by simp)
  · intro h
    cases hrun : handleAll getHash getPoWHash params opts node events with
    | ok node' => exact ⟨node', rfl⟩
    | error e =>
      obtain ⟨-, hzero, hs⟩ := (handleAll_spec hsound hchain).of_eq_error hrun
      exact absurd hs (h.resolve_left (by omega))
  · rw [HeadersSync.new, if_pos hpos]
    exact ⟨_, _, rfl, rfl⟩

end

/-! ## A full message of easy headers -/

/-- The genesis block by its own hash, other headers by their Merkle root. -/
def rootHash (header : BlockHeader) : Uint256 :=
  if header = mainGenesis.header then mainParams.consensus.hashGenesisBlock
  else header.hashMerkleRoot

/-- A header at the lowest difficulty of the main network. -/
def rootHeader (hashPrevBlock hash : Uint256) (nTime : UInt32) : BlockHeader where
  nVersion := 4
  hashPrevBlock := hashPrevBlock
  hashMerkleRoot := hash
  nTime := nTime
  nBits := 0x1d00ffff
  nNonce := 0

variable (hash : Uint256)

/-- How many blocks a hash is after the genesis block, where hashes count up from it. -/
def blocksAfter : ℕ := (hash - mainParams.consensus.hashGenesisBlock).toNat

/-- The entry of such a block, on schedule and at the lowest difficulty. -/
def chainEntry : IndexEntry where
  header :=
    if blocksAfter hash = 0 then mainGenesis.header
    else rootHeader (hash - 1) hash (1785762002 + 150 * (blocksAfter hash).toUInt32)
  pprev := if blocksAfter hash = 0 then none else some (hash - 1)
  nHeight := blocksAfter hash
  nChainWork := ofUInt64 ((blocksAfter hash + 1).toUInt64 * 4295032833)

/-- The main network after `n` such blocks. -/
def chainOf (n : ℕ) : ChainstateManager where
  blockIndex hash := if blocksAfter hash ≤ n then some (chainEntry hash) else none
  failedValid _ := false
  bestHeader := some (mainParams.consensus.hashGenesisBlock + BitVec.ofNat 256 n)
  vChain := (List.range (n + 1)).map fun i =>
    mainParams.consensus.hashGenesisBlock + BitVec.ofNat 256 i

/-- A header on the genesis block, with `n` more to follow it. -/
def easyHeaders (n : ℕ) : List BlockHeader :=
  rootHeader mainParams.consensus.hashGenesisBlock 2 1785762152 ::
    List.replicate n (rootHeader 2 2 1785762152)

def easyMessage : HeadersMessage where
  headers := easyHeaders 1999
  now := 1786212002
  randrange _ := 0
  hasher _ := 0
  wanted _ := true

/-- A node of the main network with 3000 blocks and a peer it knows nothing of. -/
def easyNode : Node where
  chainman := chainOf 3000
  peer := {}

def defaultOptions : Options where
  minimumChainWork := zero

variable {n : ℕ} {hash : Uint256}

theorem blocksAfter_add (hn : n < 2 ^ 256) :
    blocksAfter (mainParams.consensus.hashGenesisBlock + BitVec.ofNat 256 n) = n := by
  rw [blocksAfter, BitVec.add_comm, BitVec.add_sub_cancel]
  exact Nat.mod_eq_of_lt hn

theorem blocksAfter_sub_one (h : blocksAfter hash ≠ 0) :
    blocksAfter (hash - 1) + 1 = blocksAfter hash := by
  unfold blocksAfter at *
  bv_omega

theorem eq_genesis_of_blocksAfter (h : blocksAfter hash = 0) :
    hash = mainParams.consensus.hashGenesisBlock := by
  unfold blocksAfter at h
  bv_omega

theorem chainOf_blockIndex (h : blocksAfter hash ≤ n) :
    (chainOf n).blockIndex hash = some (chainEntry hash) := if_pos h

theorem chainOf_wellFormed (hn : n < 2 ^ 256) :
    (chainOf n).WellFormed mainParams.consensus.hashGenesisBlock := by
  have hzero : blocksAfter mainParams.consensus.hashGenesisBlock = 0 := by decide
  refine ⟨⟨_, chainOf_blockIndex (by omega), hzero⟩, fun hash entry hentry hne => ?_,
    by simp [chainOf], fun hash hhash => ?_⟩
  · have hpos : blocksAfter hash ≠ 0 := fun h0 => hne (eq_genesis_of_blocksAfter h0)
    have hprev := blocksAfter_sub_one hpos
    have hle : blocksAfter hash ≤ n := by
      by_contra hlt
      exact absurd (hentry.symm.trans (if_neg hlt)) (by simp)
    rw [chainOf_blockIndex hle] at hentry
    obtain rfl := Option.some.inj hentry
    exact ⟨hash - 1, _, if_neg hpos, chainOf_blockIndex (by omega), hprev.symm⟩
  · obtain ⟨i, hi, rfl⟩ := mem_map.1 hhash
    rw [mem_range] at hi
    exact ⟨_, chainOf_blockIndex (by rw [blocksAfter_add (by omega)]; omega)⟩

theorem continuousFrom_replicate {header : BlockHeader}
    (h : header.hashPrevBlock = getHash header) (n : ℕ) :
    continuousFrom getHash (getHash header) (List.replicate n header) = true := by
  induction n with
  | zero => rfl
  | succ n ih =>
    rw [replicate_succ, continuousFrom, if_neg (by simp [h])]
    exact ih

theorem mem_easyHeaders {header : BlockHeader} (h : header ∈ easyHeaders n) :
    header.nBits = 0x1d00ffff ∧ rootHash header = 2 := by
  rcases mem_cons.1 h with rfl | hrest
  · decide
  · rw [eq_of_mem_replicate hrest]
    decide

theorem continuous_easyHeaders (n : ℕ) :
    checkHeadersAreContinuous rootHash (easyHeaders n) = true := by
  have hhash : rootHash (rootHeader mainParams.consensus.hashGenesisBlock 2 1785762152) =
      rootHash (rootHeader 2 2 1785762152) := by decide
  rw [checkHeadersAreContinuous, easyHeaders, continuousFrom, hhash]
  exact continuousFrom_replicate (by decide) n

theorem toNat_easyWork (n : ℕ) (hn : n < 2 ^ 64) :
    (calculateClaimedHeadersWork (easyHeaders n)).toNat = (n + 1) * 4295032833 := by
  have hproof : (getBitsProof 0x1d00ffff).toNat = 4295032833 := by decide +kernel
  have heach : ∀ prev hash time, (getBlockProof (rootHeader prev hash time)).toNat = 4295032833 :=
    fun _ _ _ => hproof
  rw [calculateClaimedHeadersWork, toNat_chainWork, claimedWork, easyHeaders]
  simp only [map_cons, map_replicate, sum_cons, sum_replicate_nat, heach, toNat_zero]
  omega

theorem easyMessage_starts :
    StartsSync rootHash (fun _ => 1) mainParams defaultOptions easyNode easyMessage := by
  have hstart : blocksAfter mainParams.consensus.hashGenesisBlock ≤ 3000 := by decide
  have hfar : ¬ blocksAfter 2 ≤ 3000 := by decide
  have hunknown : (chainOf 3000).blockIndex 2 = none := by simp only [chainOf, if_neg hfar]
  refine
    { handled := rfl
      full := length_cons.trans (congrArg (· + 1) length_replicate)
      pow := ?_
      continuous := continuous_easyHeaders 1999
      noBan := rfl
      unknown := fun last hlast => ?_
      lowWork := ⟨_, rfl, _, congrArg _ (chainOf_blockIndex hstart), ?_⟩ }
  · have hpow : checkProofOfWorkImpl 1 0x1d00ffff mainParams.consensus = true := by decide +kernel
    rw [hasValidProofOfWork, all_eq_true]
    intro header hheader
    rw [(mem_easyHeaders hheader).1]
    exact hpow
  · rw [(mem_easyHeaders (mem_of_getLast? hlast)).2, isAncestorOfBestHeaderOrTip, easyNode,
      hunknown]
  · have htotal : (calculateClaimedHeadersWork easyMessage.headers).toNat = 2000 * 4295032833 :=
      toNat_easyWork 1999 (by omega)
    rw [lt_iff, toNat_add, htotal]
    decide +kernel

/-- **The main network's node aborts.** It has 3000 blocks and is sent 2000
valid headers at the lowest difficulty on its genesis block. -/
theorem easyMessage_aborts :
    handleAll rootHash (fun _ => 1) mainParams defaultOptions easyNode [.headers easyMessage] =
      .error .commitmentPeriod := by
  rw [handleAll_cons, handle, processMessage_of_startsSync rfl rfl easyMessage_starts]
  rfl

/-- With the parameters of the header sync set, it does not. -/
theorem easyMessage_survived : ∃ node', handleAll rootHash (fun _ => 1)
      { mainParams with headersSync := { commitmentPeriod := 600, redownloadBufferSize := 14000 } }
      defaultOptions easyNode [.headers easyMessage] = .ok node' :=
  (handleAll_ok_iff _ _ _ _ _ _ (chainOf_wellFormed (by omega)) rfl (by simp)).1.2
    (.inl (by decide))

end NetProcessing

end Quarlcoin
