import DnaLedger.Cmt.Block
import DnaLedger.Cmt.MerkleProof

/-!
# What the hash of a block binds

Without a collision the hash of a block that passed its checks determines the header, the
transactions, the evidence and the signatures of the last commit.
-/

namespace DnaLedger.Cmt

open Wire HashTree List CommitSig Evidence Header Set Program Balanced

theorem Consensus.merge_encode (version : Consensus) :
    merge consensusFields ⟨0, 0⟩ version.encode = some version := by
  have block := @decodes_word _ consensusFields ⟨0, 0⟩ 1 (by decide) _ _ version.block.toNat_lt
    rfl rfl
  have app := @decodes_word _ consensusFields ⟨UInt64.ofNat version.block.toNat, 0⟩ 2 (by decide)
    _ _ version.app.toNat_lt rfl rfl
  have decoded := (block.append app).merge
  rw [← Consensus.encode] at decoded
  simpa using decoded

variable {sig : CommitSig}

theorem CommitSig.merge_encode (address : sig.validatorAddress.length ≤ addressSize)
    (signature : sig.signature.length ≤ maxSignatureSize) (timely : sig.timestamp.validate = true) :
    merge commitSigFields .init sig.encode = some sig := by
  have time : sig.timestamp.encode.length < 2 ^ 64 :=
    Nat.lt_of_le_of_lt sig.timestamp.length_encode_le (by decide)
  have decoded : Decodes commitSigFields .init sig.encode
      { sig with blockIdFlag := unwireInt32 (wireInt32 sig.blockIdFlag) } :=
    (decodes_word 1 (by decide) (wireInt32_lt _) (by rfl) (by rfl)).append
      ((decodes_fixed 2 (by decide) address (by decide) (by rfl) (by rfl)).append
        ((decodes_part 3 (by decide) time (Time.unmarshal_encode timely) (by rfl)).append
          (decodes_fixed 4 (by decide) signature (by decide) (by rfl) (by rfl))))
  simpa using decoded.merge

structure Vote.Fits (vote : Vote) : Prop where
  hash : vote.blockId.hash.length ≤ tmhashSize
  headerHash : vote.blockId.partSetHeader.hash.length ≤ tmhashSize
  timely : vote.timestamp.validate = true
  address : vote.validatorAddress.length ≤ addressSize
  signature : vote.signature.length ≤ maxSignatureSize
  extensionSignature : vote.extensionSignature.length ≤ maxSignatureSize

theorem BlockId.fits_of_validateBasic {id : BlockId} (valid : id.validateBasic = true) :
    id.hash.length ≤ tmhashSize ∧ id.partSetHeader.hash.length ≤ tmhashSize := by
  simp only [BlockId.validateBasic, PartSetHeader.validateBasic, validateHash,
    Bool.and_eq_true, Bool.or_eq_true, decide_eq_true_eq] at valid
  omega

theorem Vote.fits_of_validateBasic {vote : Vote} (valid : vote.validateBasic = true)
    (timely : vote.timestamp.validate = true) : vote.Fits where
  hash := (BlockId.fits_of_validateBasic (Vote.validateBasic_blockId valid)).1
  headerHash := (BlockId.fits_of_validateBasic (Vote.validateBasic_blockId valid)).2
  timely := timely
  address := (Vote.validateBasic_address valid).le
  signature := (Vote.validateBasic_signature valid).2
  extensionSignature := Vote.validateBasic_extensionSignature valid

theorem Vote.merge_encode {vote : Vote} (fits : vote.Fits)
    (short : vote.extension.length < 2 ^ 64) :
    merge voteFields .init vote.encode = some vote := by
  have time : vote.timestamp.encode.length < 2 ^ 64 :=
    Nat.lt_of_le_of_lt vote.timestamp.length_encode_le (by decide)
  have id : vote.blockId.encode.length < 2 ^ 64 :=
    Nat.lt_of_le_of_lt (BlockId.length_encode_le fits.hash fits.headerHash) (by decide)
  have extension {before : Vote} (blank : { before with extension := [] } = before) :
      Decodes voteFields before (bytesField 9 vote.extension)
        { before with extension := vote.extension } :=
    decodes_bytesField voteFields before 9 (by decide) rfl (reads_readInto short rfl _)
      (by intro empty; rw [empty]; exact blank)
  have decoded : Decodes voteFields .init vote.encode
      { vote with
        type := unwireInt32 (wireInt32 vote.type)
        height := unwireInt64 (wireInt64 vote.height)
        round := unwireInt32 (wireInt32 vote.round)
        validatorIndex := unwireInt32 (wireInt32 vote.validatorIndex) } :=
    (decodes_word 1 (by decide) (wireInt32_lt _) (by rfl) (by rfl)).append
      ((decodes_word 2 (by decide) (wireInt64_lt _) (by rfl) (by rfl)).append
        ((decodes_word 3 (by decide) (wireInt32_lt _) (by rfl) (by rfl)).append
          ((decodes_part 4 (by decide) id (BlockId.merge_encode fits.hash fits.headerHash)
              (by rfl)).append
            ((decodes_part 5 (by decide) time (Time.unmarshal_encode fits.timely)
                (by rfl)).append
              ((decodes_fixed 6 (by decide) fits.address (by decide) (by rfl) (by rfl)).append
                ((decodes_word 7 (by decide) (wireInt32_lt _) (by rfl) (by rfl)).append
                  ((decodes_fixed 8 (by decide) fits.signature (by decide) (by rfl)
                      (by rfl)).append
                    ((extension (by rfl)).append
                      (decodes_fixed 10 (by decide) fits.extensionSignature (by decide)
                        (by rfl) (by rfl))))))))))
  simpa using decoded.merge

/-- What duplicate-vote evidence that can be decoded is made of. -/
structure DuplicateVoteEvidence.Fits (dve : DuplicateVoteEvidence) : Prop where
  votes : ∀ vote, dve.voteA = some vote ∨ dve.voteB = some vote → vote.Fits
  timely : dve.timestamp.validate = true
  short : dve.encode.length < 2 ^ 64

theorem length_extension_le (vote : Vote) : vote.extension.length ≤ vote.encode.length := by
  have field := length_le_bytesField 9 vote.extension
  simp only [Vote.encode, length_append]
  omega

theorem decodes_optionalVote {fields : Fields DuplicateVoteEvidence}
    {before : DuplicateVoteEvidence} (field : Nat) (number : FieldNumber field)
    {vote : Option Vote} {store : Vote → DuplicateVoteEvidence} {after : DuplicateVoteEvidence}
    (fits : ∀ cast, vote = some cast → cast.Fits)
    (short : (optionalVote field vote).length < 2 ^ 64)
    (known : fields before field = some (2, readInto (merge voteFields .init) store))
    (absent : vote = none → after = before)
    (there : ∀ cast, vote = some cast → after = store cast) :
    Decodes fields before (optionalVote field vote) after := by
  cases vote with
  | none =>
    rw [absent rfl]
    exact Decodes.nil before
  | some cast =>
    rw [optionalVote] at short
    have body : cast.encode.length < 2 ^ 64 :=
      Nat.lt_of_le_of_lt (length_le_messageField field cast.encode) short
    have extension := Nat.lt_of_le_of_lt (length_extension_le cast) body
    rw [there cast rfl]
    exact decodes_part field number body (Vote.merge_encode (fits cast rfl) extension) known

theorem DuplicateVoteEvidence.merge_encode {dve : DuplicateVoteEvidence} (fits : dve.Fits) :
    merge dveFields .init dve.encode = some dve := by
  have time : dve.timestamp.encode.length < 2 ^ 64 :=
    Nat.lt_of_le_of_lt dve.timestamp.length_encode_le (by decide)
  have short := fits.short
  simp only [DuplicateVoteEvidence.encode, length_append] at short
  have voteA : Decodes dveFields .init (optionalVote 1 dve.voteA)
      ⟨dve.voteA, none, 0, 0, .zero⟩ :=
    decodes_optionalVote 1 (by decide) (fun vote found => fits.votes vote (Or.inl found))
      (by omega) rfl (by intro absent; rw [absent]; rfl)
      (by intro vote there; rw [there]; rfl)
  have voteB : Decodes dveFields ⟨dve.voteA, none, 0, 0, .zero⟩ (optionalVote 2 dve.voteB)
      ⟨dve.voteA, dve.voteB, 0, 0, .zero⟩ :=
    decodes_optionalVote 2 (by decide) (fun vote found => fits.votes vote (Or.inr found))
      (by omega) rfl (by intro absent; rw [absent])
      (by intro vote there; rw [there])
  have decoded : Decodes dveFields .init dve.encode
      { dve with
        totalVotingPower := unwireInt64 (wireInt64 dve.totalVotingPower)
        validatorPower := unwireInt64 (wireInt64 dve.validatorPower) } :=
    voteA.append (voteB.append
      ((decodes_word 3 (by decide) (wireInt64_lt _) (by rfl) (by rfl)).append
        ((decodes_word 4 (by decide) (wireInt64_lt _) (by rfl) (by rfl)).append
          (decodes_part 5 (by decide) time (Time.unmarshal_encode fits.timely) (by rfl)))))
  simpa using decoded.merge

/-! ## Leaves determine what they are made from -/

variable {α : Type}

theorem eq_of_decode {decode : Bytes → Option α} {first second : α} {encode : α → Bytes}
    (decoded : decode (encode first) = some first)
    (decoded' : decode (encode second) = some second) (eq : encode first = encode second) :
    first = second := by
  rw [eq, decoded'] at decoded
  exact (Option.some.inj decoded).symm

variable {capacity : Nat} {bytes : Bytes}

theorem CommitSig.marshal_eq_ok (marshalled : sig.marshal capacity = .ok bytes) :
    sig.validatorAddress.length ≤ addressSize ∧ sig.signature.length ≤ maxSignatureSize ∧
      sig.timestamp.validate = true ∧ bytes = sig.encode := by
  simp only [marshal, ite_error_eq_ok, fitting_eq_ok] at marshalled
  obtain ⟨fits, timely, -, rfl⟩ := marshalled
  exact ⟨by omega, by omega, by simpa using timely, rfl⟩

theorem CommitSig.marshal_injective {sig' : CommitSig}
    (marshalled : sig.marshal capacity = .ok bytes)
    (marshalled' : sig'.marshal capacity = .ok bytes) : sig = sig' := by
  obtain ⟨address, signature, timely, rfl⟩ := marshal_eq_ok marshalled
  obtain ⟨address', signature', timely', eq⟩ := marshal_eq_ok marshalled'
  exact eq_of_decode (merge_encode address signature timely)
    (merge_encode address' signature' timely') eq

variable {evidence : Evidence} {decoded : DuplicateVoteEvidence}

section

variable (accepted : evidence.fromProto = .ok decoded)

include accepted

theorem Evidence.fromProto_eq_ok :
    ∃ voteA voteB totalVotingPower validatorPower timestamp,
      evidence = ⟨some ⟨some voteA, some voteB, totalVotingPower, validatorPower, timestamp⟩⟩ ∧
      voteA.validateBasic = true ∧ voteB.validateBasic = true := by
  obtain ⟨_ | ⟨voteA, voteB, totalVotingPower, validatorPower, timestamp⟩⟩ := evidence
  · cases accepted
  · simp only [fromProto, DuplicateVoteEvidence.fromProto, bind_eq_ok] at accepted
    obtain ⟨keptA, decodedA, keptB, decodedB, ⟨⟩, checked, -⟩ := accepted
    have kept : ∀ {vote kept : Option Vote}, dveVote vote = .ok kept → kept = vote := by
      intro vote kept decoded
      cases vote with
      | none => exact (Except.ok.inj decoded).symm
      | some cast =>
        simp only [dveVote, Vote.fromProto, bind_eq_ok] at decoded
        obtain ⟨other, read, valid⟩ := decoded
        split at read <;> cases read
        split at valid <;> cases valid
        rfl
    obtain rfl := kept decodedA
    obtain rfl := kept decodedB
    rw [DuplicateVoteEvidence.validateBasic] at checked
    split at checked
    next castA castB foundA foundB =>
      cases foundA
      cases foundB
      refine ⟨castA, castB, totalVotingPower, validatorPower, timestamp, rfl, ?_⟩
      obtain ⟨validA, checked⟩ := ite_error_eq_ok.mp checked
      obtain ⟨validB, -⟩ := ite_error_eq_ok.mp checked
      exact ⟨by simpa using validA, by simpa using validB⟩
    next => cases checked

theorem Evidence.leaf_eq_ok (leaf : evidence.leaf = .ok bytes) :
    ∃ dve : DuplicateVoteEvidence, evidence = ⟨some dve⟩ ∧ dve.Fits ∧ bytes = dve.encode := by
  obtain ⟨voteA, voteB, totalVotingPower, validatorPower, timestamp, rfl, validA, validB⟩ :=
    fromProto_eq_ok accepted
  simp only [Evidence.leaf, DuplicateVoteEvidence.marshal] at leaf
  obtain ⟨timely, leaf⟩ := ite_error_eq_ok.mp leaf
  obtain ⟨short, rfl⟩ := fitting_eq_ok.mp leaf
  simp only [DuplicateVoteEvidence.timely, Option.all_some, Bool.not_eq_true', Bool.not_eq_false,
    Bool.and_eq_true] at timely
  obtain ⟨⟨own, timelyB⟩, timelyA⟩ := timely
  refine ⟨_, rfl, ⟨?_, own, ?_⟩, rfl⟩
  · rintro vote (found | found) <;> cases found
    · exact Vote.fits_of_validateBasic validA timelyA
    · exact Vote.fits_of_validateBasic validB timelyB
  · exact Nat.lt_of_le_of_lt short (Nat.mod_lt _ (by decide))

theorem Evidence.leaf_injective {evidence' : Evidence} {decoded' : DuplicateVoteEvidence}
    (accepted' : evidence'.fromProto = .ok decoded') (leaf : evidence.leaf = .ok bytes)
    (leaf' : evidence'.leaf = .ok bytes) :
    evidence = evidence' := by
  obtain ⟨dve, rfl, fits, rfl⟩ := leaf_eq_ok accepted leaf
  obtain ⟨dve', rfl, fits', eq⟩ := leaf_eq_ok accepted' leaf'
  rw [eq_of_decode (DuplicateVoteEvidence.merge_encode fits)
    (DuplicateVoteEvidence.merge_encode fits') eq]

end

theorem cdcEncodeBytes_eq_ok {value : Bytes} (encoded : cdcEncodeBytes value = .ok bytes) :
    value.length < 2 ^ 64 ∧ bytes = bytesField 1 value := by
  rw [cdcEncodeBytes] at encoded
  split at encoded
  next empty =>
    obtain rfl := length_eq_zero_iff.mp empty
    exact ⟨by decide, (Except.ok.inj encoded).symm⟩
  next =>
    obtain ⟨fits, rfl⟩ := fitting_eq_ok.mp encoded
    have field := length_le_bytesField 1 value
    rw [headerLeafMax, blockIdMaxBytes] at fits
    exact ⟨by omega, rfl⟩

theorem cdcEncodeBytes_injective {value value' : Bytes}
    (encoded : cdcEncodeBytes value = .ok bytes) (encoded' : cdcEncodeBytes value' = .ok bytes) :
    value = value' := by
  obtain ⟨short, rfl⟩ := cdcEncodeBytes_eq_ok encoded
  obtain ⟨short', eq⟩ := cdcEncodeBytes_eq_ok encoded'
  exact bytesField_injective short short' eq

theorem answer_eq_ok {refusal : HashRefusal} {outcome : Except Failure α} {value : α} :
    answer refusal outcome = .ok value ↔ outcome = .ok value := by
  cases outcome <;> simp [answer]

theorem handOn_eq_ok {outcome : Except Failure α} {value : α} :
    handOn outcome = .ok value ↔ outcome = .ok value := by
  cases outcome <;> simp [handOn]

variable {header : Header} {leaves : List Bytes}

section

variable (own : header.leaves = .ok leaves)

include own

theorem Header.leaves_eq_ok :
    ∃ chainId bytes, leaves = header.version.encode :: chainId ::
        varintField 1 (wireInt64 header.height) :: header.time.encode ::
        header.lastBlockId.encode :: bytes ∧
      cdcEncodeBytes header.chainId = .ok chainId ∧ header.time.validate = true ∧
      (header.lastBlockId.hash.length ≤ tmhashSize ∧
        header.lastBlockId.partSetHeader.hash.length ≤ tmhashSize) ∧
      header.byteFields.mapM cdcEncodeBytes = .ok bytes := by
  rw [Header.leaves] at own
  obtain ⟨-, own⟩ := ite_error_eq_ok.mp own
  simp only [bind_eq_ok, answer_eq_ok, cdcEncodeInt64, Time.marshal, BlockId.marshal,
    ite_error_eq_ok, fitting_eq_ok] at own
  obtain ⟨_, ⟨-, rfl⟩, chainId, encoded, _, ⟨-, rfl⟩, _, ⟨timely, -, rfl⟩, _, ⟨fits, -, rfl⟩,
    bytes, rest, eq⟩ := own
  exact ⟨chainId, bytes, (Except.ok.inj eq).symm, encoded, by simpa using timely, by omega, rest⟩

theorem Header.length_leaves : leaves.length = 14 := by
  obtain ⟨chainId, bytes, rfl, -, -, -, rest⟩ := leaves_eq_ok own
  have nine := (forall₂_of_mapM_eq_ok rest).length_eq
  simp only [length_cons, ← nine]
  rfl

theorem Header.leaves_injective {header' : Header} (own' : header'.leaves = .ok leaves) :
    header = header' := by
  obtain ⟨chainId, bytes, rfl, encoded, timely, fits, rest⟩ := leaves_eq_ok own
  obtain ⟨chainId', bytes', eq, encoded', timely', fits', rest'⟩ := leaves_eq_ok own'
  simp only [cons.injEq] at eq
  obtain ⟨version, rfl, height, time, id, rfl⟩ := eq
  have sameVersion := eq_of_decode header.version.merge_encode header'.version.merge_encode version
  have sameChain := cdcEncodeBytes_injective encoded encoded'
  have sameHeight : header.height = header'.height := by
    have word := varintField_injective (wireInt64_lt _) (wireInt64_lt _) height
    rw [← unwireInt64_wireInt64 header.height, word, unwireInt64_wireInt64]
  have sameTime := eq_of_decode (Time.unmarshal_encode timely) (Time.unmarshal_encode timely') time
  have sameId := eq_of_decode (BlockId.merge_encode fits.1 fits.2)
    (BlockId.merge_encode fits'.1 fits'.2) id
  have sameBytes := eq_of_mapM_eq_ok rest rest'
    fun _ _ _ _ _ first second => cdcEncodeBytes_injective first second
  obtain ⟨⟩ := header
  obtain ⟨⟩ := header'
  simp only [byteFields, cons.injEq] at sameBytes
  simp_all

end

/-- The inputs that are hashed for the root of a list that may be empty. -/
def merkleInputs (tmhash : Hash) (items : List Bytes) : Set Bytes :=
  { input | items = [] ∧ input = [] } ∪ rootInputs tmhash items

theorem items_eq_of_root_eq {tmhash : Hash} {items items' : List Bytes} {root : Digest}
    (fits : items.length < 2 ^ 63) (fits' : items'.length < 2 ^ 63)
    (own : hashFromByteSlices tmhash items = .ok root)
    (own' : hashFromByteSlices tmhash items' = .ok root)
    (free : InjOn tmhash (merkleInputs tmhash items ∪ merkleInputs tmhash items')) :
    items = items' := by
  -- The root is the hash of an input that starts with a tag, or of the empty input.
  have top : ∀ {items : List Bytes} {tree : LeafTree Bytes}, Balanced items tree →
      (merkleScheme tmhash).topInput tree ∈ merkleInputs tmhash items := by
    intro items tree balanced
    exact Or.inr ⟨tree, balanced, Scheme.topInput_mem _ tree⟩
  have tagged : ∀ tree : LeafTree Bytes, (merkleScheme tmhash).topInput tree ≠ [] := by
    intro tree
    cases tree <;> exact cons_ne_nil _ _
  have rooted : ∀ {items : List Bytes} {tree : LeafTree Bytes}, Balanced items tree →
      items.length < 2 ^ 63 → hashFromByteSlices tmhash items = .ok root →
      root = tmhash ((merkleScheme tmhash).topInput tree) := by
    intro items tree balanced fits own
    rw [hashFromByteSlices_eq tmhash balanced fits, Scheme.digest_eq_hash] at own
    exact (Except.ok.inj own).symm
  have empty : hashFromByteSlices tmhash [] = .ok root → root = tmhash [] := by
    intro own
    rw [hashFromByteSlices] at own
    exact (Except.ok.inj own).symm
  rcases eq_or_ne items [] with rfl | filled <;> rcases eq_or_ne items' [] with rfl | filled'
  · rfl
  · obtain ⟨tree, balanced⟩ := exists_balanced filled'
    exact absurd (free (Or.inl (Or.inl ⟨rfl, rfl⟩)) (Or.inr (top balanced))
      ((empty own).symm.trans (rooted balanced fits' own'))).symm (tagged tree)
  · obtain ⟨tree, balanced⟩ := exists_balanced filled
    exact absurd (free (Or.inl (top balanced)) (Or.inr (Or.inl ⟨rfl, rfl⟩))
      ((rooted balanced fits own).symm.trans (empty own'))) (tagged tree)
  · obtain ⟨tree, balanced⟩ := exists_balanced filled
    obtain ⟨tree', balanced'⟩ := exists_balanced filled'
    rw [hashFromByteSlices_eq tmhash balanced fits] at own
    rw [hashFromByteSlices_eq tmhash balanced' fits'] at own'
    apply eq_of_digest_eq (merkleScheme_separates tmhash) balanced balanced'
      (fun _ _ => mem_univ _) (fun _ _ => mem_univ _) _
      (Except.ok.inj (own.trans own'.symm))
    apply free.mono
    exact union_subset_union (fun input mem => Or.inr ⟨tree, balanced, mem⟩)
      (fun input mem => Or.inr ⟨tree', balanced', mem⟩)

variable {input : Bytes}

theorem length_of_appendItem {wireType : Nat} {decode : Bytes → Option α} {items next : List α}
    {read : Reader (List α)} {rest : Bytes}
    (known : appendItem capacity decode items = some (wireType, read))
    (run : read input = some (next, rest)) : next.length ≤ capacity := by
  cases known
  obtain ⟨body, item, decoded, rfl⟩ := readInto_eq_some run
  obtain ⟨room, -⟩ := Option.ite_none_left_eq_some.mp decoded
  rw [length_append, length_singleton]
  omega

theorem length_of_merge_data {txs : List Bytes}
    (run : merge (dataFields capacity) [] input = some txs) : txs.length ≤ capacity := by
  apply merge_invariant (fun txs : List Bytes => txs.length ≤ capacity) _ (Nat.zero_le _) run
  intro message field wireType read known short input next rest run
  unfold dataFields at known
  split at known
  next => exact length_of_appendItem known run
  next => cases known

theorem length_of_merge_evidence {before evidence : List Evidence}
    (short : before.length ≤ capacity)
    (run : merge (evidenceListFields capacity) before input = some evidence) :
    evidence.length ≤ capacity := by
  apply merge_invariant (fun evidence : List Evidence => evidence.length ≤ capacity) _ short run
  intro message field wireType read known short input next rest run
  unfold evidenceListFields at known
  split at known
  next => exact length_of_appendItem known run
  next => cases known

theorem length_of_merge_commit {commit : Commit}
    (run : merge (commitFields capacity) .init input = some commit) :
    commit.signatures.length ≤ capacity := by
  apply merge_invariant (fun commit : Commit => commit.signatures.length ≤ capacity) _
    (Nat.zero_le _) run
  intro message field wireType read known short input next rest run
  unfold commitFields at known
  split at known <;> cases known
  case h_1 | h_2 =>
    obtain ⟨value, rfl⟩ := readWord_eq_some run
    exact short
  case h_3 =>
    obtain ⟨body, value, -, rfl⟩ := readInto_eq_some run
    exact short
  case h_4 =>
    obtain ⟨body, sig, decoded, rfl⟩ := readInto_eq_some run
    obtain ⟨room, -⟩ := Option.ite_none_left_eq_some.mp decoded
    rw [length_append, length_singleton]
    omega

structure Block.Stored (storage : BlockStorage) (block : Block) : Prop where
  txs : block.txs.length ≤ storage.txsCap
  evidence : block.evidence.length ≤ storage.evidenceCap
  signatures : ∀ commit, block.lastCommit = some commit →
    commit.signatures.length ≤ storage.signaturesCap

theorem Block.stored_of_unmarshal {storage : BlockStorage} {block : Block}
    (decoded : Block.unmarshal storage input = some block) : block.Stored storage := by
  apply merge_invariant (Block.Stored storage) _ _ decoded
  · intro message field wireType read known stored input next rest run
    unfold blockFields at known
    split at known <;> cases known
    case h_1 =>
      obtain ⟨body, header, -, rfl⟩ := readInto_eq_some run
      exact ⟨stored.txs, stored.evidence, stored.signatures⟩
    case h_2 =>
      obtain ⟨body, txs, decoded, rfl⟩ := readInto_eq_some run
      exact ⟨length_of_merge_data decoded, stored.evidence, stored.signatures⟩
    case h_3 =>
      obtain ⟨body, evidence, decoded, rfl⟩ := readInto_eq_some run
      exact ⟨stored.txs, length_of_merge_evidence stored.evidence decoded, stored.signatures⟩
    case h_4 =>
      obtain ⟨body, commit, decoded, rfl⟩ := readInto_eq_some run
      refine ⟨stored.txs, stored.evidence, ?_⟩
      rintro other ⟨⟩
      exact length_of_merge_commit decoded
  · refine ⟨Nat.zero_le _, Nat.zero_le _, ?_⟩
    rintro commit ⟨⟩

section

variable (tmhash : Hash)

/-- What the checks of a block establish: the lists behind three hashes of its header. -/
structure Block.Checked (block : Block) (commit : Commit)
    (commitLeaves evidenceLeaves : List Bytes) (decoded : List DuplicateVoteEvidence)
    (commitRoot dataRoot evidenceRoot : Digest) : Prop where
  lastCommit : block.lastCommit = some commit
  marshalled : (commit.signatures.mapM fun sig => sig.marshal maxCommitSigBytes) =
    .ok commitLeaves
  commitRooted : hashFromByteSlices tmhash commitLeaves = .ok commitRoot
  lastCommitHash : block.header.lastCommitHash = commitRoot.val
  dataRooted : hashFromByteSlices tmhash (block.txs.map fun tx => (txHash tmhash tx).val) =
    .ok dataRoot
  dataHash : block.header.dataHash = dataRoot.val
  accepted : block.evidence.mapM fromProto = .ok decoded
  leaves : block.evidence.mapM leaf = .ok evidenceLeaves
  evidenceRooted : hashFromByteSlices tmhash evidenceLeaves = .ok evidenceRoot
  evidenceHash : block.header.evidenceHash = evidenceRoot.val

variable {tmhash}

theorem sameHash_eq_ok {stored : Bytes} {digest : Digest} {result : Unit}
    (same : sameHash stored digest = .ok result) : stored = digest.val := by
  rw [sameHash] at same
  split at same
  next eq => exact eq
  next => cases same

theorem lastCommitDigest_eq_ok {commit : Commit} {digest : Digest}
    (hashed : lastCommitDigest tmhash commit = .ok digest) :
    ∃ leaves, (commit.signatures.mapM fun sig => sig.marshal maxCommitSigBytes) = .ok leaves ∧
      hashFromByteSlices tmhash leaves = .ok digest := by
  have whole : commitHash tmhash (some commit) = .ok digest := by
    rw [lastCommitDigest] at hashed
    split at hashed <;> cases hashed
    assumption
  exact bind_eq_ok.mp (handOn_eq_ok.mp whole)

theorem Block.checked_of_validateBasic {block : Block} {blockProtocol : UInt64}
    (valid : block.validateBasic tmhash blockProtocol = .ok ()) :
    ∃ commit commitLeaves evidenceLeaves decoded commitRoot dataRoot evidenceRoot,
      block.Checked tmhash commit commitLeaves evidenceLeaves decoded commitRoot dataRoot
        evidenceRoot := by
  rw [Block.validateBasic] at valid
  obtain ⟨-, valid⟩ := ite_error_eq_ok.mp valid
  split at valid
  next => cases valid
  next commit found =>
    obtain ⟨-, valid⟩ := ite_error_eq_ok.mp valid
    simp only [bind_eq_ok] at valid
    obtain ⟨commitRoot, commitHashed, _, sameCommit, dataRoot, dataHashed, _, sameData,
      decoded, accepted, evidenceRoot, evidenceHashed, sameEvidence⟩ := valid
    obtain ⟨commitLeaves, marshalled, rooted⟩ := lastCommitDigest_eq_ok commitHashed
    obtain ⟨evidenceLeaves, leaves, rooted'⟩ := bind_eq_ok.mp evidenceHashed
    exact ⟨commit, commitLeaves, evidenceLeaves, decoded, commitRoot, dataRoot, evidenceRoot,
      found, marshalled, rooted, sameHash_eq_ok sameCommit, dataHashed, sameHash_eq_ok sameData,
      accepted, leaves, rooted', sameHash_eq_ok sameEvidence⟩

variable {block after : Block} {commit : Commit} {commitLeaves evidenceLeaves : List Bytes}
  {decoded : List DuplicateVoteEvidence} {commitRoot dataRoot evidenceRoot digest : Digest}
  (checked : block.Checked tmhash commit commitLeaves evidenceLeaves decoded commitRoot dataRoot
    evidenceRoot)

include checked

/-- A valid block has all its hashes, so hashing it fills in nothing. -/
theorem Block.Checked.exec_hash :
    exec (Block.hash tmhash) block =
      (match block.header.hash tmhash with
        | .ok digest => .ok (some digest)
        | .error .nil => .ok none
        | .error (.failed code) => .error code, block) := by
  have there : ∀ root : Digest, root.val ≠ [] := by
    intro root empty
    have size := root.property
    rw [empty] at size
    cases size
  have filled : exec (fillHeader tmhash) block = (.ok (), block) := by
    simp [fillHeader, exec_bind, checked.lastCommitHash, checked.dataHash,
      checked.evidenceHash, there]
  rw [Block.hash, exec_bind, exec_get]
  simp only [checked.lastCommit]
  rw [exec_bind_ok filled, exec_bind, exec_get]
  simp only
  rcases block.header.hash tmhash with (_ | code) | digest <;> rfl

theorem Block.Checked.hash_eq (run : exec (Block.hash tmhash) block = (.ok (some digest), after)) :
    ∃ leaves, block.header.leaves = .ok leaves ∧
      hashFromByteSlices tmhash leaves = .ok digest := by
  rw [checked.exec_hash] at run
  cases hashed : block.header.hash tmhash with
  | ok root =>
    rw [hashed] at run
    cases run
    obtain ⟨leaves, own, rooted⟩ := bind_eq_ok.mp hashed
    exact ⟨leaves, own, handOn_eq_ok.mp rooted⟩
  | error refusal =>
    rw [hashed] at run
    cases refusal <;> cases run

end

section

variable (tmhash : Hash)

inductive Block.Hashed (block : Block) : Bytes → Prop where
  | header {leaves : List Bytes} {input : Bytes} (own : block.header.leaves = .ok leaves)
      (member : input ∈ merkleInputs tmhash leaves) : Hashed block input
  | commit {commit : Commit} {leaves : List Bytes} {input : Bytes}
      (found : block.lastCommit = some commit)
      (own : (commit.signatures.mapM fun sig => sig.marshal maxCommitSigBytes) = .ok leaves)
      (member : input ∈ merkleInputs tmhash leaves) : Hashed block input
  | tx {tx : Bytes} (member : tx ∈ block.txs) : Hashed block tx
  | data {input : Bytes}
      (member : input ∈ merkleInputs tmhash (block.txs.map fun tx => (txHash tmhash tx).val)) :
      Hashed block input
  | evidence {leaves : List Bytes} {input : Bytes}
      (own : block.evidence.mapM leaf = .ok leaves)
      (member : input ∈ merkleInputs tmhash leaves) : Hashed block input

def Block.inputs (block : Block) : Set Bytes :=
  { input | block.Hashed tmhash input }

end

/-- Two decoded blocks that pass their checks and have the same hash have the same header,
transactions, evidence and last-commit signatures, without a collision among what is hashed
for them. -/
theorem block_hash_binds (tmhash : Hash) {storage storage' : BlockStorage}
    {input input' : Bytes} {block block' after after' : Block}
    {blockProtocol blockProtocol' : UInt64} {digest : Digest}
    (decoded : Block.unmarshal storage input = some block)
    (decoded' : Block.unmarshal storage' input' = some block')
    (valid : block.validateBasic tmhash blockProtocol = .ok ())
    (valid' : block'.validateBasic tmhash blockProtocol' = .ok ())
    (hashed : Program.exec (Block.hash tmhash) block = (.ok (some digest), after))
    (hashed' : Program.exec (Block.hash tmhash) block' = (.ok (some digest), after'))
    (free : Set.InjOn tmhash (block.inputs tmhash ∪ block'.inputs tmhash)) :
    block.header = block'.header ∧ block.txs = block'.txs ∧
      block.evidence = block'.evidence ∧
      ∃ commit commit', block.lastCommit = some commit ∧ block'.lastCommit = some commit' ∧
        commit.signatures = commit'.signatures := by
  have stored := Block.stored_of_unmarshal decoded
  have stored' := Block.stored_of_unmarshal decoded'
  obtain ⟨commit, commitLeaves, evidenceLeaves, _, commitRoot, dataRoot, evidenceRoot, checked⟩ :=
    Block.checked_of_validateBasic valid
  obtain ⟨commit', commitLeaves', evidenceLeaves', _, commitRoot', dataRoot', evidenceRoot',
    checked'⟩ := Block.checked_of_validateBasic valid'
  obtain ⟨leaves, own, rooted⟩ := checked.hash_eq hashed
  obtain ⟨leaves', own', rooted'⟩ := checked'.hash_eq hashed'
  have sameLeaves : leaves = leaves' := by
    apply items_eq_of_root_eq _ _ rooted rooted' (free.mono (union_subset_union _ _))
    · rw [length_leaves own]
      decide
    · rw [length_leaves own']
      decide
    · exact fun input mem => .header own mem
    · exact fun input mem => .header own' mem
  subst sameLeaves
  have sameHeader := leaves_injective own own'
  -- The header carries the three other roots.
  have sameCommitRoot : commitRoot = commitRoot' := Subtype.ext (by
    rw [← checked.lastCommitHash, sameHeader, checked'.lastCommitHash])
  have sameDataRoot : dataRoot = dataRoot' := Subtype.ext (by
    rw [← checked.dataHash, sameHeader, checked'.dataHash])
  have sameEvidenceRoot : evidenceRoot = evidenceRoot' := Subtype.ext (by
    rw [← checked.evidenceHash, sameHeader, checked'.evidenceHash])
  subst sameCommitRoot sameDataRoot sameEvidenceRoot
  refine ⟨sameHeader, ?_, ?_, commit, commit', checked.lastCommit, checked'.lastCommit, ?_⟩
  · have hashes := items_eq_of_root_eq
      (by rw [length_map]; exact Nat.lt_of_le_of_lt stored.txs storage.txs_fit)
      (by rw [length_map]; exact Nat.lt_of_le_of_lt stored'.txs storage'.txs_fit)
      checked.dataRooted checked'.dataRooted
      (free.mono (union_subset_union (fun input mem => .data mem) (fun input mem => .data mem)))
    have same : block.txs.map id = block'.txs.map id :=
      map_eq_map_of_map_eq (fun tx mem tx' mem' eq =>
        free (Or.inl (.tx mem)) (Or.inr (.tx mem')) (Subtype.ext eq)) hashes
    rwa [map_id, map_id] at same
  · have lengths := (forall₂_of_mapM_eq_ok checked.leaves).length_eq
    have lengths' := (forall₂_of_mapM_eq_ok checked'.leaves).length_eq
    have sameLeaves := items_eq_of_root_eq
      (by rw [← lengths]; exact Nat.lt_of_le_of_lt stored.evidence storage.evidence_fit)
      (by rw [← lengths']; exact Nat.lt_of_le_of_lt stored'.evidence storage'.evidence_fit)
      checked.evidenceRooted checked'.evidenceRooted
      (free.mono (union_subset_union (fun input mem => .evidence checked.leaves mem)
        (fun input mem => .evidence checked'.leaves mem)))
    subst sameLeaves
    apply eq_of_mapM_eq_ok checked.leaves checked'.leaves
    intro evidence mem evidence' mem' bytes leaf leaf'
    obtain ⟨dve, accepted⟩ := exists_of_mem_of_mapM_eq_ok checked.accepted mem
    obtain ⟨dve', accepted'⟩ := exists_of_mem_of_mapM_eq_ok checked'.accepted mem'
    exact leaf_injective accepted accepted' leaf leaf'
  · have lengths := (forall₂_of_mapM_eq_ok checked.marshalled).length_eq
    have lengths' := (forall₂_of_mapM_eq_ok checked'.marshalled).length_eq
    have sameLeaves := items_eq_of_root_eq
      (by
        rw [← lengths]
        exact Nat.lt_of_le_of_lt (stored.signatures commit checked.lastCommit)
          storage.signatures_fit)
      (by
        rw [← lengths']
        exact Nat.lt_of_le_of_lt (stored'.signatures commit' checked'.lastCommit)
          storage'.signatures_fit)
      checked.commitRooted checked'.commitRooted
      (free.mono (union_subset_union
        (fun input mem => .commit checked.lastCommit checked.marshalled mem)
        (fun input mem => .commit checked'.lastCommit checked'.marshalled mem)))
    subst sameLeaves
    exact eq_of_mapM_eq_ok checked.marshalled checked'.marshalled
      fun _ _ _ _ _ first second => marshal_injective first second

def sampleId : BlockId := ⟨replicate 64 7, 1, replicate 64 7⟩

def sampleSigs : CommitSig × CommitSig :=
  (⟨2, replicate 32 7, .zero, [1]⟩, ⟨1, [], .zero, []⟩)

/-- A vote for nil and one for a block, by one validator. -/
def sampleDve : DuplicateVoteEvidence :=
  let vote (id : BlockId) : Vote := ⟨1, 1, 0, id, .zero, replicate 32 7, 0, [1], [], []⟩
  ⟨some (vote .zero), some (vote sampleId), 10, 10, .zero⟩

section

open LeafTree

def sigTree : LeafTree Bytes :=
  node (leaf sampleSigs.1.encode) (leaf sampleSigs.2.encode)

def txTree : LeafTree Bytes :=
  node (leaf (residueHash [1]).val) (leaf (residueHash [2]).val)

def evidenceTree : LeafTree Bytes :=
  leaf sampleDve.encode

def treeHash (tree : LeafTree Bytes) : Bytes :=
  ((merkleScheme residueHash).digest tree).val

def sampleHeader : Header :=
  { Header.init with
    version := ⟨1, 0⟩
    height := 2
    lastCommitHash := treeHash sigTree
    dataHash := treeHash txTree
    evidenceHash := treeHash evidenceTree
    validatorsHash := replicate 64 7
    proposerAddress := replicate 32 7 }

def sampleCommit (round : Int32) : Commit :=
  ⟨1, round, sampleId, [sampleSigs.1, sampleSigs.2]⟩

/-- A block with two transactions, evidence, and a commit with a signature and an absent
validator. -/
def sampleBlock (round : Int32) : Block :=
  ⟨sampleHeader, [[1], [2]], [⟨some sampleDve⟩], some (sampleCommit round)⟩

def sampleInput (round : Int32) : Bytes :=
  messageField 1 (messageField 1 (varintField 1 1) ++ (varintField 3 2 ++
    (bytesField 6 sampleHeader.lastCommitHash ++ (bytesField 7 sampleHeader.dataHash ++
      (bytesField 8 sampleHeader.validatorsHash ++ (bytesField 13 sampleHeader.evidenceHash ++
        bytesField 14 sampleHeader.proposerAddress)))))) ++
    (messageField 2 (bytesField 1 [1] ++ bytesField 1 [2]) ++
      (messageField 3 (messageField 1 (messageField 1 sampleDve.encode)) ++
        messageField 4 (varintField 1 1 ++ (varintField 2 (wireInt32 round) ++
          (messageField 3 sampleId.encode ++ (messageField 4 sampleSigs.1.encode ++
            messageField 4 sampleSigs.2.encode))))))

def sampleStorage : BlockStorage :=
  ⟨2, 1, 2, by decide, by decide, by decide⟩

def quad (a b c d : Bytes) : LeafTree Bytes :=
  node (node (leaf a) (leaf b)) (node (leaf c) (leaf d))

def headerTree : LeafTree Bytes :=
  node
    (node (quad (varintField 1 1) [] (varintField 1 2) (Time.encode .zero))
      (quad (BlockId.encode .zero) (bytesField 1 (treeHash sigTree))
        (bytesField 1 (treeHash txTree)) (bytesField 1 (replicate 64 7))))
    (node (quad [] [] [] []) (node (leaf (bytesField 1 (treeHash evidenceTree)))
      (leaf (bytesField 1 (replicate 32 7)))))

end

theorem balanced_quad (a b c d : Bytes) : Balanced [a, b, c, d] (quad a b c d) :=
  node rfl (balanced_pair a b) (balanced_pair c d)

theorem balanced_headerTree : Balanced headerTree.leaves headerTree :=
  node (by decide)
    (node (by decide) (balanced_quad _ _ _ _) (balanced_quad _ _ _ _))
    (node (by decide) (balanced_quad _ _ _ _) (balanced_pair _ _))

theorem sampleHeader_leaves : sampleHeader.leaves = .ok headerTree.leaves := by
  decide +kernel

theorem sampleSigs_marshal : ([sampleSigs.1, sampleSigs.2].mapM fun sig =>
    sig.marshal maxCommitSigBytes) = .ok sigTree.leaves := by
  decide +kernel

theorem sampleDve_leaf : [(⟨some sampleDve⟩ : Evidence)].mapM leaf = .ok evidenceTree.leaves := by
  decide +kernel

def sampleTrees : List (LeafTree Bytes) := [headerTree, sigTree, txTree, evidenceTree]

def sampleInputs : List Bytes :=
  [[1], [2]] ++ sampleTrees.flatMap (merkleScheme residueHash).inputList

theorem balanced_sampleTrees {tree : LeafTree Bytes} (inside : tree ∈ sampleTrees) :
    Balanced tree.leaves tree := by
  simp only [sampleTrees, mem_cons, not_mem_nil, or_false] at inside
  rcases inside with rfl | rfl | rfl | rfl
  · exact balanced_headerTree
  · exact balanced_pair _ _
  · exact balanced_pair _ _
  · exact .leaf _

theorem mem_sampleInputs (tree : LeafTree Bytes) (inside : tree ∈ sampleTrees) {input : Bytes}
    (mem : input ∈ merkleInputs residueHash tree.leaves) : input ∈ sampleInputs := by
  have balanced := balanced_sampleTrees inside
  rcases mem with ⟨empty, -⟩ | ⟨other, balanced', mem⟩
  · exact absurd balanced.length_pos (by simp [empty])
  · rw [balanced'.unique balanced] at mem
    exact mem_append_right _ (mem_flatMap.mpr ⟨tree, inside, (Scheme.mem_inputList _).mpr mem⟩)

theorem sampleBlock_inputs (round : Int32) :
    ∀ input ∈ (sampleBlock round).inputs residueHash, input ∈ sampleInputs := by
  intro input hashed
  cases hashed with
  | @header leaves input own mem =>
    obtain rfl := Except.ok.inj (sampleHeader_leaves.symm.trans own)
    exact mem_sampleInputs headerTree (by simp [sampleTrees]) mem
  | @commit commit leaves input found own mem =>
    cases found
    obtain rfl := Except.ok.inj (sampleSigs_marshal.symm.trans own)
    exact mem_sampleInputs sigTree (by simp [sampleTrees]) mem
  | tx mem => exact mem_append_left _ mem
  | @data input mem => exact mem_sampleInputs txTree (by simp [sampleTrees]) mem
  | @evidence leaves input own mem =>
    obtain rfl := Except.ok.inj (sampleDve_leaf.symm.trans own)
    exact mem_sampleInputs evidenceTree (by simp [sampleTrees]) mem

theorem sampleBlock_valid (round : Int32) (nonneg : 0 ≤ round) :
    (sampleBlock round).validateBasic residueHash 1 = .ok () := by
  have header : sampleHeader.validateBasic 1 = true := by decide +kernel
  have commit : (sampleCommit round).validateBasic = true := by
    have initial : (sampleCommit 0).validateBasic = true := by decide +kernel
    simpa [Commit.validateBasic, sampleCommit, nonneg] using initial
  have root (tree : LeafTree Bytes) (inside : tree ∈ sampleTrees)
      (small : tree.leaves.length < 2 ^ 63) := hashFromByteSlices_eq residueHash
    (balanced_sampleTrees inside) small
  have sigs := root sigTree (by simp [sampleTrees]) (by decide)
  have last : lastCommitDigest residueHash (sampleCommit round) =
      .ok ((merkleScheme residueHash).digest sigTree) := by
    have bound := bind_eq_ok.mpr ⟨_, sampleSigs_marshal, sigs⟩
    simp only [lastCommitDigest, commitHash, sampleCommit, bound, handOn]
  have data := root txTree (by simp [sampleTrees]) (by decide)
  have checked : [(⟨some sampleDve⟩ : Evidence)].mapM fromProto = .ok [sampleDve] := by
    decide +kernel
  have evidence := bind_eq_ok.mpr
    ⟨_, sampleDve_leaf, root evidenceTree (by simp [sampleTrees]) (by decide)⟩
  rw [Block.validateBasic, if_neg (by simp [sampleBlock, header])]
  simp only [sampleBlock]
  rw [if_neg (by simp [commit])]
  exact bind_eq_ok.mpr ⟨_, last, bind_eq_ok.mpr ⟨(), if_pos rfl, bind_eq_ok.mpr ⟨_, data,
    bind_eq_ok.mpr ⟨(), if_pos rfl, bind_eq_ok.mpr ⟨_, checked,
      bind_eq_ok.mpr ⟨_, evidence, if_pos rfl⟩⟩⟩⟩⟩⟩

theorem sampleBlock_hash (round : Int32) (nonneg : 0 ≤ round) :
    exec (Block.hash residueHash) (sampleBlock round) =
      (.ok (some ((merkleScheme residueHash).digest headerTree)), sampleBlock round) := by
  have root := hashFromByteSlices_eq residueHash balanced_headerTree (by decide)
  have hashed : sampleHeader.hash residueHash =
      .ok ((merkleScheme residueHash).digest headerTree) := by
    rw [Header.hash, sampleHeader_leaves]
    exact congrArg handOn root
  obtain ⟨_, _, _, _, _, _, _, checked⟩ :=
    Block.checked_of_validateBasic (sampleBlock_valid round nonneg)
  rw [checked.exec_hash, show (sampleBlock round).header = sampleHeader from rfl, hashed]

/-- Two blocks whose last commits are of different rounds. -/
theorem block_hash_binds_two_rounds :
    sampleBlock 0 ≠ sampleBlock 1 ∧ (sampleBlock 0).header = (sampleBlock 1).header ∧
      (sampleBlock 0).txs = (sampleBlock 1).txs ∧
      (sampleBlock 0).evidence = (sampleBlock 1).evidence ∧
      (sampleCommit 0).signatures = (sampleCommit 1).signatures := by
  have free : InjOn residueHash
      ((sampleBlock 0).inputs residueHash ∪ (sampleBlock 1).inputs residueHash) := by
    apply injOn_of_listed sampleInputs
    · decide +kernel
    · rintro input (mem | mem)
      · exact sampleBlock_inputs 0 input mem
      · exact sampleBlock_inputs 1 input mem
  obtain ⟨header, txs, evidence, _, _, ⟨⟩, ⟨⟩, signatures⟩ := block_hash_binds residueHash
    (show Block.unmarshal sampleStorage (sampleInput 0) = some (sampleBlock 0) by decide +kernel)
    (show Block.unmarshal sampleStorage (sampleInput 1) = some (sampleBlock 1) by decide +kernel)
    (sampleBlock_valid 0 (by decide)) (sampleBlock_valid 1 (by decide))
    (sampleBlock_hash 0 (by decide)) (sampleBlock_hash 1 (by decide)) free
  refine ⟨?_, header, txs, evidence, signatures⟩
  intro eq
  exact absurd (congrArg (fun block => block.lastCommit.map Commit.round) eq) (by decide)

end DnaLedger.Cmt
