import Stratumind.Common.Iter
import Stratumind.Sparse.PostingList

/-!
# Compressed posting lists

The immutable posting list of `compressed_posting_list.rs`: ids are packed in chunks of 128,
weights are stored in a quantised form, and what does not fill a chunk is kept as it is. The
codec of the packed ids is a crate of its own; it stands as a parameter with its documented
behaviour.
-/

namespace Stratumind

/-- `CHUNK_SIZE`: how many elements are packed in a single chunk. -/
def chunkSize : ℕ := 128

/-- Conversion between exact weights and the form they are stored in. -/
class Weight (W : Type) (S : outParam Type) where
  QuantizationParams : Type
  quantizationParamsFor : List S → QuantizationParams
  fromF32 : QuantizationParams → S → W
  toF32 : QuantizationParams → W → S

/-- Weights stored as they are. -/
instance {S : Type} : Weight S S where
  QuantizationParams := Unit
  quantizationParamsFor _ := ()
  fromF32 _ value := value
  toF32 _ weight := weight

/-- The codec of strictly increasing blocks of ids, relative to the id before the block. -/
class BitPacker where
  numBitsStrictlySorted : Option ℕ → List ℕ → ℕ
  compressStrictlySorted : Option ℕ → List ℕ → ℕ → List UInt8
  decompressStrictlySorted : Option ℕ → List UInt8 → ℕ → List ℕ

/-- Bytes of a block packed with the given number of bits per id. -/
def compressedBlockSize (bits : ℕ) : ℕ := chunkSize * bits / 8

/-- The documented behaviour of the codec on full blocks. -/
class LawfulBitPacker [BitPacker] : Prop where
  length_compress (initial : Option ℕ) (ids : List ℕ) :
    ids.length = chunkSize → (initial.toList ++ ids).Pairwise (· < ·) →
    (BitPacker.compressStrictlySorted initial ids
      (BitPacker.numBitsStrictlySorted initial ids)).length =
      compressedBlockSize (BitPacker.numBitsStrictlySorted initial ids)
  decompress_compress (initial : Option ℕ) (ids : List ℕ) :
    ids.length = chunkSize → (initial.toList ++ ids).Pairwise (· < ·) →
    BitPacker.decompressStrictlySorted initial
      (BitPacker.compressStrictlySorted initial ids (BitPacker.numBitsStrictlySorted initial ids))
      (BitPacker.numBitsStrictlySorted initial ids) = ids

/-- `checked_sub(1)`. -/
def checkedPred (n : ℕ) : Option ℕ := if n = 0 then none else some (n - 1)

/-- A record with its stored weight. -/
structure GenericPostingElement (W : Type) where
  recordId : ℕ
  weight : W
  deriving DecidableEq, Repr

/-- A chunk of packed ids. -/
structure CompressedPostingChunk (W : Type) where
  /-- First id of the chunk. -/
  initial : ℕ
  /-- Offset of the packed ids within the id data. -/
  offset : ℕ
  weights : List W
  deriving DecidableEq, Repr

variable {W S : Type} [Weight W S]

/-- A compressed posting list. -/
structure CompressedPostingList (W : Type) {S : Type} [Weight W S] where
  idData : List UInt8
  chunks : List (CompressedPostingChunk W)
  remainders : List (GenericPostingElement W)
  lastId : Option ℕ
  quantizationParams : Weight.QuantizationParams W

/-- Byte size of a packed chunk. -/
def getChunkSize (chunks : List (CompressedPostingChunk W)) (dataLen index : ℕ) : ℕ :=
  match chunks[index]?, chunks[index + 1]? with
  | some chunk, some next => next.offset - chunk.offset
  | some chunk, none => dataLen - chunk.offset
  | none, _ => 0

section Builder

variable [BitPacker]

/-- The chunks of full blocks, with offsets from `dataSize` on. -/
def buildChunks (params : Weight.QuantizationParams W) :
    ℕ → List (List (PostingElement S)) → List (CompressedPostingChunk W)
  | _, [] => []
  | dataSize, block :: blocks =>
    let ids := block.map PostingElement.recordId
    let initial := ids.headD 0
    let bits := BitPacker.numBitsStrictlySorted (checkedPred initial) ids
    ⟨initial, dataSize, block.map fun e => Weight.fromF32 params e.weight⟩ ::
      buildChunks params (dataSize + compressedBlockSize bits) blocks

/-- The size of the id data of full blocks. -/
def packedSize (blocks : List (List (PostingElement S))) : ℕ :=
  (blocks.map fun block => let ids := block.map PostingElement.recordId
    compressedBlockSize
      (BitPacker.numBitsStrictlySorted (checkedPred (ids.headD 0)) ids)).sum

/-- The packed ids of the blocks, one after the other. -/
def packBlocks (chunks : List (CompressedPostingChunk W)) (dataLen : ℕ)
    (blocks : List (List (PostingElement S))) : List UInt8 :=
  (blocks.mapIdx fun index block => let ids := block.map PostingElement.recordId
    BitPacker.compressStrictlySorted (checkedPred (ids.headD 0)) ids
      (getChunkSize chunks dataLen index * 8 / chunkSize)).flatten

/-- `CompressedPostingBuilder::build`. -/
def CompressedPostingList.build (W : Type) [Weight W S] (elements : List (PostingElement S)) :
    CompressedPostingList W :=
  let elements := sortBy (fun left right => compare left.recordId right.recordId) elements
  let params := Weight.quantizationParamsFor (W := W) (elements.map PostingElement.weight)
  let full := elements.length / chunkSize
  let blocks := (List.range full).map fun index =>
    (elements.drop (index * chunkSize)).take chunkSize
  let chunks : List (CompressedPostingChunk W) := buildChunks params 0 blocks
  { idData := packBlocks chunks (packedSize blocks) blocks
    chunks
    remainders := (elements.drop (full * chunkSize)).map fun e =>
      ⟨e.recordId, Weight.fromF32 params e.weight⟩
    lastId := elements.getLast?.map PostingElement.recordId
    quantizationParams := params }

end Builder

/-- Where an id can be in the list. -/
inductive IdChunkPosition where
  /-- Below all chunks, so not in the list. -/
  | before
  /-- In this chunk if it is in the list. -/
  | chunk (index : ℕ)
  /-- Above all chunks; it may be in the remainder. -/
  | after
  deriving DecidableEq, Repr

namespace CompressedPostingList

variable (list : CompressedPostingList W)

/-- The number of elements. -/
def len : ℕ := list.chunks.length * chunkSize + list.remainders.length

/-- The ids of a chunk. -/
def decompressChunk [BitPacker] (index : ℕ) : List ℕ :=
  match list.chunks[index]? with
  | some chunk =>
    let size := getChunkSize list.chunks list.idData.length index
    BitPacker.decompressStrictlySorted (checkedPred chunk.initial)
      ((list.idData.drop chunk.offset).take size) (size * 8 / chunkSize)
  | none => []

/-- The chunk that holds the position. -/
def chunkIdByPosition (position : ℕ) : Option ℕ :=
  if position / chunkSize < list.chunks.length then some (position / chunkSize) else none

/-- The chunk that holds the id if the list does. -/
def chunkIdById (id : ℕ) : IdChunkPosition :=
  match binarySearchByKey CompressedPostingChunk.initial id list.chunks with
  | .ok index => .chunk index
  | .error position =>
    if position = list.chunks.length then
      match list.remainders.head? with
      | some first =>
        if id < first.recordId then
          if position > 0 then .chunk (position - 1) else .before
        else .after
      | none => .chunk (position - 1)
    else if position = 0 then .before
    else .chunk (position - 1)

/-- The stored weight at a position inside the chunks. -/
def getWeight (pos : ℕ) : Option W :=
  list.chunks[pos / chunkSize]?.bind fun chunk => chunk.weights[pos % chunkSize]?

/-- The stored weights from a position on, inside one chunk. -/
def weightsRange (pos count : ℕ) : List W :=
  match list.chunks[pos / chunkSize]? with
  | some chunk => (chunk.weights.drop (pos % chunkSize)).take count
  | none => []

end CompressedPostingList

/-- How many elements of a sorted slice are at most the value. -/
def countLeSorted (value : ℕ) (data : List ℕ) : ℕ :=
  if data.getLast?.all (· < value) then data.length
  else
    match binarySearchByKey (fun x => x) value data with
    | .ok index => index + 1
    | .error index => index

/-- The maximum of zero and the weights of a chunk: a document without the term
contributes zero. -/
def decodedChunkMax [Zero S] [Max S] (params : Weight.QuantizationParams W)
    (chunk : CompressedPostingChunk W) : S :=
  (chunk.weights.map (Weight.toF32 params)).foldl max 0

/-- A position in a compressed posting list. -/
structure CompressedPostingListIterator (W : Type) {S : Type} [Weight W S] where
  list : CompressedPostingList W
  /-- `decompressedChunk` holds the chunk of the current position. -/
  unpacked : Bool
  decompressedChunk : List ℕ
  /-- Offset inside the list, with the current id where it is known. -/
  pos : ℕ × Option ℕ

/-- The iterator at the start of the list. -/
def CompressedPostingList.iter (list : CompressedPostingList W) : CompressedPostingListIterator W :=
  ⟨list, false, List.replicate chunkSize 0, 0, none⟩

namespace CompressedPostingListIterator

/-- The element at the current position, which unpacks its chunk. -/
def peek [BitPacker] [Zero S] (it : CompressedPostingListIterator W) :
    Option (PostingElementEx S) × CompressedPostingListIterator W :=
  let pos := it.pos.1
  if pos / chunkSize < it.list.chunks.length then
    let it := if it.unpacked then it
      else { it with
        unpacked := true
        decompressedChunk := it.list.decompressChunk (pos / chunkSize) }
    match it.decompressedChunk[pos % chunkSize]?, it.list.getWeight pos with
    | some id, some weight =>
      (some ⟨⟨id, Weight.toF32 it.list.quantizationParams weight⟩, (0 : S)⟩, it)
    | _, _ => (none, it)
  else
    (it.list.remainders[pos - it.list.chunks.length * chunkSize]?.map fun e =>
      ⟨⟨e.recordId, Weight.toF32 it.list.quantizationParams e.weight⟩, (0 : S)⟩, it)

/-- Advances past the current element. -/
def nextFrom (it : CompressedPostingListIterator W) : CompressedPostingListIterator W :=
  let pos := it.pos.1 + 1
  if it.pos.1 / chunkSize < it.list.chunks.length then
    { it with pos := (pos, none), unpacked := it.unpacked && pos % chunkSize ≠ 0 }
  else { it with pos := (pos, none) }

/-- Advances element by element to the first one that is not below the id; one turn for
each element left is enough. -/
def skipLoop [BitPacker] [Zero S] (id : ℕ) : ℕ → CompressedPostingListIterator W →
    Option (PostingElementEx S) × CompressedPostingListIterator W
  | 0, it => (none, it)
  | left + 1, it =>
    match it.peek with
    | (none, it) => (none, it)
    | (some current, it) =>
      let it := { it with pos := (it.pos.1, some current.recordId) }
      if current.recordId = id then (some current, it)
      else if id < current.recordId then (none, it)
      else skipLoop id left it.nextFrom

/-- Elements left. -/
def lenToEnd (it : CompressedPostingListIterator W) : ℕ := it.list.len - it.pos.1

/-- Advances to the first element that is not below the id: jumps to its chunk, then
steps. -/
def skipTo [BitPacker] [Zero S] (id : ℕ) (it : CompressedPostingListIterator W) :
    Option (PostingElementEx S) × CompressedPostingListIterator W :=
  let search (it : CompressedPostingListIterator W) := skipLoop id (it.lenToEnd + 1) it
  if it.pos.2.any fun current => id < current then (none, it)
  else
    match it.list.chunkIdById id, it.list.chunkIdByPosition it.pos.1 with
    | .chunk chunk, some current =>
      if chunk < current then (none, it)
      else if chunk = current then
        search { it with pos := (max it.pos.1 (chunk * chunkSize), none) }
      else search { it with pos := (chunk * chunkSize, none), unpacked := false }
    | .chunk _, none => (none, it)
    | .before, _ => (none, it)
    | .after, _ =>
      search { it with
        pos := (max it.pos.1 (it.list.chunks.length * chunkSize), none), unpacked := false }

/-- Visits the elements up to the id: chunk by chunk, then the remainder. The number of
chunks from the position on is counted down. -/
def forEachLoop [BitPacker] {C : Type} (id : ℕ) (f : C → ℕ → S → C) :
    ℕ → C → CompressedPostingListIterator W → ℕ → Bool → C × CompressedPostingListIterator W
  | 0, ctx, it, pos, _ =>
    let visited := (it.list.remainders.drop (pos - it.list.chunks.length * chunkSize)).takeWhile
      fun e => e.recordId ≤ id
    (visited.foldl (fun ctx e =>
        f ctx e.recordId (Weight.toF32 it.list.quantizationParams e.weight)) ctx,
      { it with pos := (pos + visited.length, none) })
  | left + 1, ctx, it, pos, needUnpack =>
    let it := if needUnpack then
        { it with decompressedChunk := it.list.decompressChunk (pos / chunkSize) }
      else it
    let start := pos % chunkSize
    let ids := it.decompressedChunk.drop start
    let count := countLeSorted id ids
    let weights := (it.list.weightsRange pos count).map
      (Weight.toF32 it.list.quantizationParams)
    let ctx := ((ids.take count).zip weights).foldl (fun ctx e => f ctx e.1 e.2) ctx
    if start + count ≠ chunkSize then
      (ctx, { it with unpacked := true, pos := (pos + count, none) })
    else forEachLoop id f left ctx it (pos + count) true

/-- Visits the elements up to the id, inclusive. -/
def forEachTillId [BitPacker] {C : Type} (id : ℕ) (f : C → ℕ → S → C) (ctx : C)
    (it : CompressedPostingListIterator W) : C × CompressedPostingListIterator W :=
  forEachLoop id f (it.list.chunks.length - it.pos.1 / chunkSize) ctx it it.pos.1 (!it.unpacked)

/-- The maximum of zero and the weights of the chunks and remainders from the position on
that can hold ids up to the given one. -/
def maxWeightTillId [Zero S] [Max S] (id : ℕ) (it : CompressedPostingListIterator W) : Option S :=
  let params := it.list.quantizationParams
  let chunkCount := it.list.chunks.length
  let currentChunk := it.pos.1 / chunkSize
  let endChunk := partitionPoint (fun chunk : CompressedPostingChunk W => chunk.initial ≤ id)
    it.list.chunks
  let chunks := if currentChunk < chunkCount then
      (it.list.chunks.take endChunk).drop currentChunk
    else []
  let remainders := if it.pos.1 ≥ chunkCount * chunkSize ||
      it.list.remainders.head?.any (fun e => id ≥ e.recordId) then
      (it.list.remainders.drop (it.pos.1 - chunkCount * chunkSize)).takeWhile
        fun e => e.recordId ≤ id
    else []
  some ((remainders.map fun e => Weight.toF32 params e.weight).foldl max
    ((chunks.map (decodedChunkMax params)).foldl max 0))

/-- Advances to the first element above the id. -/
def skipTillId [BitPacker] [Zero S] (id : ℕ) (it : CompressedPostingListIterator W) :
    CompressedPostingListIterator W :=
  match it.skipTo id with
  | (some _, it) => it.nextFrom
  | (none, it) => it

/-- Raises the maxima of the ranges from `first` to `last`. -/
def raiseRanges [Max S] (maxima : List S) (first last : ℕ) (maximum : S) : List S :=
  (List.range' first (last + 1 - first)).foldl
    (fun maxima range => maxima.modify range (max · maximum)) maxima

/-- The last id that belongs to a chunk. -/
def coveredEnd (list : CompressedPostingList W) (index : ℕ) (chunk : CompressedPostingChunk W) :
    ℕ :=
  (((list.chunks[index + 1]?.map fun next => next.initial - 1).or
    (list.remainders.head?.map fun e => e.recordId - 1)).or list.lastId).getD chunk.initial

/-- The maximum of every chunk counts for all ranges its ids can reach, a remainder for its
own range. -/
def fillBlockMaxRanges [Zero S] [Max S] (rangeStart rangeWidth : ℕ) (maxima : List S)
    (it : CompressedPostingListIterator W) : Bool × List S :=
  let params := it.list.quantizationParams
  let rangeOf (id : ℕ) := (id - rangeStart) / rangeWidth
  let maxima := maxima.map fun _ => (0 : S)
  let maxima := it.list.chunks.zipIdx.foldl (fun maxima (chunk, index) =>
    raiseRanges maxima (rangeOf chunk.initial) (rangeOf (coveredEnd it.list index chunk))
      (decodedChunkMax params chunk)) maxima
  let maxima := it.list.remainders.foldl (fun maxima e =>
    maxima.modify (rangeOf e.recordId) (max · (Weight.toF32 params e.weight))) maxima
  (true, maxima)

instance [BitPacker] [Zero S] [Max S] : PostingListIter (CompressedPostingListIterator W) S where
  peek := peek
  lastId it := it.list.lastId
  skipTo := skipTo
  skipToEnd it := { it with
    pos := (it.list.chunks.length * chunkSize + it.list.remainders.length, none) }
  lenToEnd := lenToEnd
  currentIndex it := it.pos.1
  forEachTillId := forEachTillId
  reliableMaxNextWeight := false
  reliableBlockMax := true
  maxWeightTillId := maxWeightTillId
  skipTillId := skipTillId
  fillBlockMaxRanges := fillBlockMaxRanges

end CompressedPostingListIterator

/-- The inverted index of compressed posting lists in memory. -/
structure InvertedIndexCompressedImmutableRam (W : Type) {S : Type} [Weight W S] where
  postings : List (CompressedPostingList W)

instance : InvertedIndex (InvertedIndexCompressedImmutableRam W)
    (CompressedPostingListIterator W) where
  get index id :=
    match index.postings[id]? with
    | some list => .ok list.iter
    | none => .error (outOfBounds id index.postings.length)

/-- The index of compressed lists that is built from an index in memory. -/
def InvertedIndexCompressedImmutableRam.fromRamIndex (W : Type) {S : Type} [Weight W S]
    [BitPacker] (ramIndex : InvertedIndexRam S) : InvertedIndexCompressedImmutableRam W :=
  ⟨ramIndex.postings.map fun list =>
    CompressedPostingList.build W (list.elements.map PostingElementEx.toPostingElement)⟩

/-!
### What compressed posting lists hold

Packing loses no id: a built list holds the elements it was built from, with the weights as
their stored form gives them back. All later facts about compressed lists only use what a
list holds.
-/

open Lib List

/-- The elements with the positions of a chunk. -/
def block {α : Type} (elements : List α) (index : ℕ) : List α :=
  (elements.drop (index * chunkSize)).take chunkSize

variable {α : Type}

/-- An element is found in its block by the remainder of its position. -/
theorem block_getElem? (elements : List α) {position : ℕ} :
    (block elements (position / chunkSize))[position % chunkSize]? = elements[position]? := by
  have hlt : position % chunkSize < chunkSize := Nat.mod_lt _ (by decide)
  rw [block, getElem?_take_of_lt hlt, getElem?_drop, Nat.mul_comm, Nat.div_add_mod]

/-- The elements of a block are those of its positions. -/
theorem mem_block {elements : List α} {index : ℕ} {a : α} : a ∈ block elements index ↔
    ∃ position, position / chunkSize = index ∧ elements[position]? = some a := by
  constructor
  · intro ha
    obtain ⟨offset, hoffset⟩ := mem_iff_getElem?.mp ha
    rw [block, getElem?_take, getElem?_drop] at hoffset
    refine ⟨index * chunkSize + offset, ?_, by grind⟩
    unfold chunkSize at *
    grind
  · rintro ⟨position, rfl, hget⟩
    exact mem_of_getElem? ((block_getElem? elements).trans hget)

/-- Blocks of a mapped list are mapped blocks. -/
theorem block_map {β : Type} (f : α → β) (elements : List α) (index : ℕ) :
    block (elements.map f) index = (block elements index).map f := by
  rw [block, block, ← map_drop, ← map_take]

/-- A block before the remainder is full. -/
theorem block_length {elements : List α} {index : ℕ}
    (h : index < elements.length / chunkSize) : (block elements index).length = chunkSize := by
  rw [block, length_take, length_drop]
  unfold chunkSize at *
  omega

/-- The blocks of an increasing list are increasing. -/
theorem Increasing.block {S : Type} {elements : Elements S} (h : Increasing elements)
    (index : ℕ) : Increasing (block elements index) :=
  h.sublist ((take_sublist _ _).trans (drop_sublist _ _))

section Blocks

variable {S : Type} [BitPacker]

/-- The ids of a block. -/
def blockIds (elements : List (PostingElement S)) : List ℕ :=
  elements.map PostingElement.recordId

/-- The bits that packing a block takes for each id. -/
def blockBits (elements : List (PostingElement S)) : ℕ :=
  BitPacker.numBitsStrictlySorted (checkedPred ((blockIds elements).headD 0)) (blockIds elements)

/-- The packed ids of a block. -/
def packBlock (elements : List (PostingElement S)) : List UInt8 :=
  BitPacker.compressStrictlySorted (checkedPred ((blockIds elements).headD 0))
    (blockIds elements) (blockBits elements)

omit [BitPacker] in
/-- The number of bits is found again from the size of the packed block. -/
theorem bits_of_compressedBlockSize (bits : ℕ) :
    compressedBlockSize bits * 8 / chunkSize = bits := by
  unfold compressedBlockSize chunkSize
  omega

/-- A block that packing accepts. -/
structure FullBlock (elements : List (PostingElement S)) : Prop where
  length_eq : elements.length = chunkSize
  increasing : Increasing elements

variable {elements : Elements S}

omit [BitPacker] in
/-- The ids of a block increase, also behind the initial value of its packing. -/
private theorem FullBlock.sorted (h : FullBlock elements) :
    ((checkedPred ((blockIds elements).headD 0)).toList ++ blockIds elements).Pairwise
      (· < ·) := by
  have hids : (blockIds elements).Pairwise (· < ·) := pairwise_map.mpr h.increasing
  cases hcons : blockIds elements with
  | nil => simp [checkedPred]
  | cons first rest =>
    rw [headD_cons, checkedPred]
    grind

variable [LawfulBitPacker]

/-- A packed block has the size that its number of bits gives. -/
theorem FullBlock.length_packBlock (h : FullBlock elements) :
    (packBlock elements).length = compressedBlockSize (blockBits elements) :=
  LawfulBitPacker.length_compress _ _ ((length_map _).trans h.length_eq) h.sorted

/-- Unpacking a packed block gives its ids back. -/
theorem FullBlock.decompress (h : FullBlock elements) :
    BitPacker.decompressStrictlySorted (checkedPred ((blockIds elements).headD 0))
      (packBlock elements) (blockBits elements) = blockIds elements :=
  LawfulBitPacker.decompress_compress _ _ ((length_map _).trans h.length_eq) h.sorted

end Blocks

section Layout

variable {W S : Type} [Weight W S] [BitPacker] {params : Weight.QuantizationParams W}
  {blocks : List (Elements S)}

/-- Each chunk starts where the chunks before it end. -/
theorem buildChunks_getElem? (dataSize index : ℕ) :
    (buildChunks params dataSize blocks)[index]? = blocks[index]?.map fun elements =>
      ⟨(blockIds elements).headD 0, dataSize + packedSize (blocks.take index),
        elements.map fun e => Weight.fromF32 params e.weight⟩ := by
  induction blocks generalizing dataSize index with
  | nil => rfl
  | cons elements blocks ih =>
    rw [buildChunks]
    cases index with
    | zero => rfl
    | succ index =>
      rw [getElem?_cons_succ, getElem?_cons_succ, ih]
      congr 1
      rw [take_succ_cons, packedSize, packedSize, map_cons, sum_cons, Nat.add_assoc]

/-- There is one chunk for each block. -/
theorem buildChunks_length (dataSize : ℕ) :
    (buildChunks params dataSize blocks).length = blocks.length := by
  induction blocks generalizing dataSize with
  | nil => rfl
  | cons elements blocks ih => rw [buildChunks, length_cons, ih, length_cons]

variable {elements : Elements S} {index : ℕ}

omit [Weight W S] in
/-- One more block adds its own size. -/
theorem packedSize_take_succ (h : blocks[index]? = some elements) :
    packedSize (blocks.take (index + 1)) =
      packedSize (blocks.take index) + compressedBlockSize (blockBits elements) := by
  obtain ⟨hlt, hget⟩ := List.getElem?_eq_some_iff.mp h
  rw [take_succ_eq_append_getElem hlt, hget, packedSize, packedSize, map_append, sum_append]
  simp [blockBits, blockIds]

/-- The size of a chunk is read off from the offsets. -/
theorem getChunkSize_buildChunks (h : blocks[index]? = some elements) :
    getChunkSize (buildChunks params 0 blocks) (packedSize blocks) index =
      compressedBlockSize (blockBits elements) := by
  have hsize := packedSize_take_succ h
  unfold getChunkSize
  rw [buildChunks_getElem?, buildChunks_getElem?, h]
  grind

/-- The id data is made of the packed blocks. -/
theorem packBlocks_eq :
    packBlocks (buildChunks params 0 blocks) (packedSize blocks) blocks =
      (blocks.map packBlock).flatten := by
  unfold packBlocks
  congr 1
  apply ext_getElem?
  intro index
  rw [getElem?_mapIdx, getElem?_map]
  cases hblock : blocks[index]? with
  | none => rfl
  | some elements =>
    simp only [Option.map_some, getChunkSize_buildChunks hblock, bits_of_compressedBlockSize]
    rfl

variable [LawfulBitPacker]

omit [Weight W S] in
/-- The packed size is the length of all packed blocks. -/
private theorem packedSize_eq (hfull : ∀ elements ∈ blocks, FullBlock elements) :
    packedSize blocks = ((blocks.map packBlock).map length).sum := by
  rw [map_map]
  refine congrArg sum (map_congr_left fun elements helements => ?_)
  exact (hfull elements helements).length_packBlock.symm

/-- A packed block is found again at the offset of its chunk. -/
theorem packedBlock_at (hfull : ∀ elements ∈ blocks, FullBlock elements)
    (h : blocks[index]? = some elements) :
    ((blocks.map packBlock).flatten.drop (packedSize (blocks.take index))).take
      (compressedBlockSize (blockBits elements)) = packBlock elements := by
  obtain ⟨hlt, hget⟩ := List.getElem?_eq_some_iff.mp h
  have hmem : elements ∈ blocks := hget ▸ getElem_mem hlt
  have hfront : ∀ block ∈ blocks.take index, FullBlock block := fun block hblock =>
    hfull block (mem_of_mem_take hblock)
  have hsplit : (blocks.map packBlock).flatten =
      ((blocks.take index).map packBlock).flatten ++
        (packBlock elements ++ ((blocks.drop (index + 1)).map packBlock).flatten) := by
    rw [← flatten_cons, ← map_cons, ← flatten_append, ← map_append,
      ← hget, ← drop_eq_getElem_cons hlt, take_append_drop]
  have hlength : packedSize (blocks.take index) =
      ((blocks.take index).map packBlock).flatten.length := by
    rw [packedSize_eq hfront, length_flatten]
  rw [hsplit, hlength, drop_left, ← (hfull elements hmem).length_packBlock, take_left]

end Layout

section Holds

variable {W S : Type} [Weight W S]

/-- A record as its stored form gives it back. -/
def GenericPostingElement.decode (params : Weight.QuantizationParams W)
    (e : GenericPostingElement W) : PostingElement S :=
  ⟨e.recordId, Weight.toF32 params e.weight⟩

/-- Elements with the weights that their stored form gives back. -/
def decoded (W : Type) [Weight W S] (elements : List (PostingElement S)) :
    List (PostingElement S) :=
  let params := Weight.quantizationParamsFor (W := W) (elements.map PostingElement.weight)
  elements.map fun e => ⟨e.recordId, Weight.toF32 params (Weight.fromF32 params e.weight)⟩

variable {elements : Elements S}

/-- Decoding keeps the ids, and so their order. -/
theorem decoded_increasing (h : Increasing elements) : Increasing (decoded W elements) :=
  pairwise_map.mpr h

/-- Sorting by id finds the increasing order of the elements. -/
theorem Increasing.sortBy_eq {sorted : Elements S} (h : Increasing sorted)
    (hperm : sorted.Perm elements) :
    sortBy (fun left right => compare left.recordId right.recordId) elements = sorted := by
  have hnodup : (elements.map PostingElement.recordId).Nodup := by
    rw [← (hperm.map _).nodup_iff]
    exact (pairwise_map.mpr h).imp fun hlt => hlt.ne
  have hsort : sortBy (fun left right => compare left.recordId right.recordId) elements =
      rankBy PostingElement.recordId elements := sortBy_eq_rankBy (fun _ _ => rfl) elements
  rw [hsort]
  exact (Ranked.eq_rankBy h hnodup fun _ => hperm.mem_iff).symm

/-- The blocks that a build packs. -/
private def fullBlocks (elements : List (PostingElement S)) : List (List (PostingElement S)) :=
  (range (elements.length / chunkSize)).map (block elements)

/-- The full blocks are the blocks before the remainder. -/
private theorem fullBlocks_getElem? {index : ℕ} (h : index < elements.length / chunkSize) :
    (fullBlocks elements)[index]? = some (block elements index) := by
  rw [fullBlocks, getElem?_map, getElem?_range h]
  rfl

/-- All of them are full. -/
private theorem fullBlocks_full (h : Increasing elements) :
    ∀ elements' ∈ fullBlocks elements, FullBlock elements' := by
  intro elements' helements'
  obtain ⟨index, hindex, rfl⟩ := mem_map.mp helements'
  exact ⟨block_length (mem_range.mp hindex), h.block index⟩

variable [BitPacker]

/-- The elements that the chunks and remainders of a list stand for. -/
structure CompressedPostingList.Holds (list : CompressedPostingList W)
    (elements : List (PostingElement S)) : Prop where
  increasing : Increasing elements
  length_eq : list.chunks.length = elements.length / chunkSize
  ids_eq : ∀ index < list.chunks.length,
    list.decompressChunk index = (block elements index).map PostingElement.recordId
  chunk_eq : ∀ index chunk, list.chunks[index]? = some chunk →
    (block elements index).head?.map PostingElement.recordId = some chunk.initial ∧
    chunk.weights.map (Weight.toF32 list.quantizationParams) =
      (block elements index).map PostingElement.weight
  remainders_eq : list.remainders.map (GenericPostingElement.decode list.quantizationParams) =
    elements.drop (list.chunks.length * chunkSize)
  lastId_eq : list.lastId = elements.getLast?.map PostingElement.recordId

/-- Building from ordered elements: chunks of the full blocks, and what is left over. -/
private theorem build_eq (h : Increasing elements) :
    CompressedPostingList.build W elements =
      { idData := ((fullBlocks elements).map packBlock).flatten
        chunks := buildChunks
          (Weight.quantizationParamsFor (W := W) (elements.map PostingElement.weight)) 0
          (fullBlocks elements)
        remainders := (elements.drop (elements.length / chunkSize * chunkSize)).map fun e =>
          ⟨e.recordId, Weight.fromF32
            (Weight.quantizationParamsFor (W := W) (elements.map PostingElement.weight))
            e.weight⟩
        lastId := elements.getLast?.map PostingElement.recordId
        quantizationParams :=
          Weight.quantizationParamsFor (W := W) (elements.map PostingElement.weight) } := by
  have hpack : packBlocks (buildChunks
      (Weight.quantizationParamsFor (W := W) (elements.map PostingElement.weight)) 0
      (fullBlocks elements)) (packedSize (fullBlocks elements)) (fullBlocks elements) =
      ((fullBlocks elements).map packBlock).flatten := packBlocks_eq
  unfold CompressedPostingList.build
  rw [h.sortBy_eq (Perm.refl elements), ← hpack]
  rfl

/-- A built list holds what it was built from. -/
theorem CompressedPostingList.holds_build [LawfulBitPacker] (h : Increasing elements) :
    (CompressedPostingList.build W elements).Holds (decoded W elements) := by
  rw [build_eq h]
  have hlength : (decoded W elements).length = elements.length := length_map _
  have hchunks : ∀ params : Weight.QuantizationParams W,
      (buildChunks params 0 (fullBlocks elements)).length = elements.length / chunkSize := by
    intro params
    rw [buildChunks_length, fullBlocks, length_map, length_range]
  refine ⟨decoded_increasing h, ?_, ?_, ?_, ?_, ?_⟩
  · rw [hchunks, hlength]
  · intro index hindex
    rw [hchunks] at hindex
    have hblock := fullBlocks_getElem? hindex
    have hfull := fullBlocks_full h
    have hsize : ((fullBlocks elements).map packBlock).flatten.length =
        packedSize (fullBlocks elements) := by
      rw [packedSize_eq hfull, length_flatten]
    unfold CompressedPostingList.decompressChunk
    rw [buildChunks_getElem?, hblock]
    dsimp only [Option.map_some]
    rw [hsize, getChunkSize_buildChunks hblock, Nat.zero_add, packedBlock_at hfull hblock,
      bits_of_compressedBlockSize,
      (hfull _ (mem_of_getElem? hblock)).decompress, decoded, block_map, map_map]
    rfl
  · intro index chunk hchunk
    have hindex : index < elements.length / chunkSize := by
      rw [← hchunks]
      exact (List.getElem?_eq_some_iff.mp hchunk).1
    rw [buildChunks_getElem?, fullBlocks_getElem? hindex] at hchunk
    cases hchunk
    have hne : (block elements index) ≠ [] := by
      rw [← length_pos_iff, block_length hindex]
      decide
    rw [decoded, block_map]
    constructor
    · obtain ⟨first, rest, hcons⟩ := exists_cons_of_ne_nil hne
      rw [hcons]
      rfl
    · simp only [map_map]
      rfl
  · rw [hchunks, decoded, map_map, map_drop]
    rfl
  · rw [decoded, getLast?_map, Option.map_map]
    rfl

end Holds

end Stratumind
