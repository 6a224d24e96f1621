import KairosEngine.Library.LittleEndian

/-!
# Residue blocks on the wire

The header and the payload of one unidirectional stream of `quic_shard.rs`.
-/

namespace KairosEngine.Network

open KairosEngine.Library

abbrev Bytes := List UInt8

structure ShardBlockHeader where
  seqId : UInt64
  tokenPos : UInt32
  layerId : UInt32
  primeSelector : UInt8
  deriving DecidableEq

structure ResidueBlock where
  header : ShardBlockHeader
  residues : List UInt32
  deriving DecidableEq

def headerToBytes (header : ShardBlockHeader) : Bytes :=
  toLe 8 header.seqId.toNat ++ (toLe 4 header.tokenPos.toNat ++
    (toLe 4 header.layerId.toNat ++ header.primeSelector :: List.replicate 47 0))

def headerFromBytes (bytes : Bytes) : ShardBlockHeader where
  seqId := UInt64.ofNat (leField 0 8 bytes)
  tokenPos := UInt32.ofNat (leField 8 4 bytes)
  layerId := UInt32.ofNat (leField 12 4 bytes)
  primeSelector := bytes.getD 16 0

/-- The bytes that `send_block` writes into its stream. -/
def sendBlock (block : ResidueBlock) : Bytes :=
  headerToBytes block.header ++ block.residues.flatMap fun residue => toLe 4 residue.toNat

def residuesFromBytes : Bytes → List UInt32
  | b₀ :: b₁ :: b₂ :: b₃ :: rest => UInt32.ofNat (ofLe [b₀, b₁, b₂, b₃]) :: residuesFromBytes rest
  | _ => []

/-- `read_to_end` of a stream that carried these bytes or failed. -/
def readToEnd (limit : Nat) (stream : Except String Bytes) : Except String Bytes :=
  stream.bind fun bytes => if limit < bytes.length then .error "stream too long" else .ok bytes

def recvBlock (stream : Except String Bytes) : Except String ResidueBlock :=
  (readToEnd (64 + 512 * 4) stream).bind fun bytes =>
    if bytes.length < 64 then
      .error s!"stream too short: {bytes.length} bytes (need ≥ 64)"
    else if (bytes.length - 64) % 4 ≠ 0 then
      .error "residue payload length not a multiple of 4"
    else
      .ok { header := headerFromBytes (bytes.take 64), residues := residuesFromBytes (bytes.drop 64) }

@[simp]
theorem length_headerToBytes (header : ShardBlockHeader) : (headerToBytes header).length = 64 := by
  simp [headerToBytes]

theorem headerFromBytes_toBytes (header : ShardBlockHeader) :
    headerFromBytes (headerToBytes header) = header := by
  have seq : leField 0 8 (headerToBytes header) = header.seqId.toNat :=
    @leField_append [] _ 0 8 _ rfl header.seqId.toNat_lt
  have pos : leField 8 4 (headerToBytes header) = header.tokenPos.toNat :=
    leField_append (length_toLe 8 _) header.tokenPos.toNat_lt
  have layer : leField 12 4 (headerToBytes header) = header.layerId.toNat := by
    rw [headerToBytes, ← List.append_assoc]
    exact leField_append (by simp) header.layerId.toNat_lt
  have selector : (headerToBytes header).getD 16 0 = header.primeSelector := rfl
  rw [headerFromBytes, seq, pos, layer, selector, UInt64.ofNat_toNat, UInt32.ofNat_toNat,
    UInt32.ofNat_toNat]

theorem residuesFromBytes_flatMap (residues : List UInt32) :
    residuesFromBytes (residues.flatMap fun residue => toLe 4 residue.toNat) = residues := by
  induction residues with
  | nil => rfl
  | cons residue rest inductionHypothesis =>
      have value : ofLe (toLe 4 residue.toNat) = residue.toNat := ofLe_toLe residue.toNat_lt
      calc residuesFromBytes ((residue :: rest).flatMap fun residue => toLe 4 residue.toNat)
          = UInt32.ofNat (ofLe (toLe 4 residue.toNat)) ::
              residuesFromBytes (rest.flatMap fun residue => toLe 4 residue.toNat) := rfl
        _ = residue :: rest := by rw [value, inductionHypothesis, UInt32.ofNat_toNat]

theorem length_flatMap_toLe (residues : List UInt32) :
    (residues.flatMap fun residue => toLe 4 residue.toNat).length = 4 * residues.length := by
  induction residues with
  | nil => rfl
  | cons residue rest inductionHypothesis =>
      rw [List.flatMap_cons, List.length_append, inductionHypothesis, length_toLe, List.length_cons]
      ring

/-- What `send_block` writes is what `recv_block` returns, up to 512 residues. -/
theorem recvBlock_sendBlock (block : ResidueBlock) (small : block.residues.length ≤ 512) :
    recvBlock (.ok (sendBlock block)) = .ok block := by
  have length : (sendBlock block).length = 64 + 4 * block.residues.length := by
    rw [sendBlock, List.length_append, length_headerToBytes, length_flatMap_toLe]
  have fits : ¬ 64 + 512 * 4 < (sendBlock block).length := by omega
  have long : ¬ (sendBlock block).length < 64 := by omega
  have whole : ¬ ((sendBlock block).length - 64) % 4 ≠ 0 := by omega
  have header : (sendBlock block).take 64 = headerToBytes block.header :=
    List.take_left' (length_headerToBytes _)
  have payload : (sendBlock block).drop 64 =
      block.residues.flatMap fun residue => toLe 4 residue.toNat :=
    List.drop_left' (length_headerToBytes _)
  simp only [recvBlock, readToEnd, Except.bind, if_neg fits, if_neg long, if_neg whole, header,
    payload, headerFromBytes_toBytes, residuesFromBytes_flatMap]

end KairosEngine.Network
