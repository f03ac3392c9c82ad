import Mathlib.Data.List.Basic
import Vllm.Outcome

/-!
Requests and the hashes of their token blocks. A request hashes its tokens at
the granularity of the hash block size; every hash covers the parent hash, the
block's tokens and extra keys for the adapter, the multimodal items in the
block, the cache salt and the prompt embeddings. Hashes are computed when the
request is created and extended whenever tokens are appended. Only the fields
read by hashing and by the KV cache events are modelled here.
-/
namespace Vllm.BlockHashing

open Outcome

abbrev Bytes := List UInt8

abbrev BlockHash := Bytes

structure PlaceholderRange where
  offset : ℕ
  length : ℕ
deriving DecidableEq, Repr

structure MultiModalFeatureSpec where
  identifier : String
  mmPosition : PlaceholderRange
deriving DecidableEq, Repr

structure LoRARequest where
  loraName : String
  adapterId : ℕ
deriving DecidableEq, Repr

/-- Prompt embeddings enter hashing through the digest of a token range. -/
structure PromptEmbeds where
  numTokens : ℕ
  digest : ℕ → ℕ → Bytes

inductive ExtraKey where
  | text (s : String)
  | item (identifier : String) (offset : ℤ)
  | digest (d : Bytes)
deriving DecidableEq, Repr

inductive HashInput where
  | seed (s : String)
  | block (parentBlockHash : BlockHash) (tokenIds : List ℕ) (extraKeys : Option (List ExtraKey))
deriving DecidableEq, Repr

structure Request where
  numPromptTokens : ℕ
  promptTokenIds : Option (List ℕ)
  outputTokenIds : List ℕ
  allTokenIds : List ℕ
  promptEmbeds : Option PromptEmbeds
  mmFeatures : List MultiModalFeatureSpec
  loraRequest : Option LoRARequest
  cacheSalt : Option String
  blockHashes : List BlockHash

variable (r : Request)

def Request.numTokens : ℕ := r.allTokenIds.length

/-- `start_mm_idx`: an index into the multimodal items, or `-1` for the last
one. -/
inductive MmIdx where
  | last
  | idx (i : ℕ)
deriving DecidableEq, Repr

def scanMmItems (startTokenIdx endTokenIdx : ℕ) : List MultiModalFeatureSpec → ℕ → List ExtraKey × ℕ
  | [], i => ([], i)
  | f :: fs, i =>
    let offset := f.mmPosition.offset
    let length := f.mmPosition.length
    if offset < endTokenIdx then
      if offset + length ≤ startTokenIdx then
        scanMmItems startTokenIdx endTokenIdx fs (i + 1)
      else
        let key := ExtraKey.item f.identifier ((offset : ℤ) - startTokenIdx)
        if offset + length ≤ endTokenIdx then
          let (keys, j) := scanMmItems startTokenIdx endTokenIdx fs (i + 1)
          (key :: keys, j)
        else
          ([key], i)
    else
      ([], i)

def genMmExtraHashKeys (startTokenIdx endTokenIdx : ℕ) (startMmIdx : MmIdx) :
    List ExtraKey × MmIdx :=
  match r.mmFeatures.getLast? with
  | none => ([], startMmIdx)
  | some lastItem =>
    if lastItem.mmPosition.offset + lastItem.mmPosition.length ≤ startTokenIdx then
      ([], startMmIdx)
    else
      let i := match startMmIdx with
        | .last => r.mmFeatures.length - 1
        | .idx i => i
      let (keys, j) := scanMmItems startTokenIdx endTokenIdx (r.mmFeatures.drop i) i
      (keys, .idx j)

def genLoraExtraHashKeys : List ExtraKey :=
  match r.loraRequest with
  | none => []
  | some lora => [.text lora.loraName]

def genCacheSaltKeys (startTokenIdx : ℕ) : List ExtraKey :=
  -- An empty salt counts as no salt.
  match r.cacheSalt with
  | none => []
  | some salt => if startTokenIdx = 0 ∧ salt ≠ "" then [.text salt] else []

def genPromptEmbedsExtraHashKeys (startTokenIdx endTokenIdx : ℕ) : List ExtraKey :=
  match r.promptEmbeds with
  | none => []
  | some embeds => [.digest (embeds.digest startTokenIdx endTokenIdx)]

/-- The keys of a block around the given multimodal keys; no key at all is
`None`. -/
def assembleExtraKeys (startTokenIdx endTokenIdx : ℕ) (mmKeys : List ExtraKey) :
    Option (List ExtraKey) :=
  let extraKeys := genLoraExtraHashKeys r ++ mmKeys ++ genCacheSaltKeys r startTokenIdx ++
    genPromptEmbedsExtraHashKeys r startTokenIdx endTokenIdx
  if extraKeys = [] then none else some extraKeys

def generateBlockHashExtraKeys (startTokenIdx endTokenIdx : ℕ) (startMmIdx : MmIdx) :
    Option (List ExtraKey) × MmIdx :=
  let (mmKeys, newStartMmIdx) := genMmExtraHashKeys r startTokenIdx endTokenIdx startMmIdx
  (assembleExtraKeys r startTokenIdx endTokenIdx mmKeys, newStartMmIdx)

/-- The hash function with the seed `NONE_HASH` is derived from. -/
structure CachingHash where
  hashFunction : HashInput → BlockHash
  noneHashSeed : String

def CachingHash.noneHash (H : CachingHash) : BlockHash := H.hashFunction (.seed H.noneHashSeed)

def hashBlockTokens (H : CachingHash) (parentBlockHash : Option BlockHash)
    (currBlockTokenIds : List ℕ) (extraKeys : Option (List ExtraKey)) : BlockHash :=
  -- A missing or empty parent hash is replaced by `NONE_HASH`.
  let parent := match parentBlockHash with
    | none => H.noneHash
    | some p => if p = [] then H.noneHash else p
  H.hashFunction (.block parent currBlockTokenIds extraKeys)

def Request.slice (startTokenIdx endTokenIdx : ℕ) : List ℕ :=
  (r.allTokenIds.take endTokenIdx).drop startTokenIdx

/-- The hashing loop. Every round moves `start` by one hash block, so the
number of tokens bounds the rounds. -/
def hashLoop (H : CachingHash) (hashBlockSize : ℕ) (r : Request) :
    ℕ → ℕ → MmIdx → Option BlockHash → List BlockHash
  | 0, _, _, _ => []
  | rounds + 1, start, mmIdx, prev =>
    let endTokenIdx := start + hashBlockSize
    if r.numTokens < endTokenIdx then
      []
    else
      let (extraKeys, mmIdx) := generateBlockHashExtraKeys r start endTokenIdx mmIdx
      let blockHash := hashBlockTokens H prev (r.slice start endTokenIdx) extraKeys
      blockHash :: hashLoop H hashBlockSize r rounds endTokenIdx mmIdx (some blockHash)

/-- `get_request_block_hasher`: the hashes of the blocks not hashed yet. -/
def requestBlockHasher (H : CachingHash) (hashBlockSize : ℕ) (r : Request) : List BlockHash :=
  let startTokenIdx := r.blockHashes.length * hashBlockSize
  if r.numTokens < startTokenIdx + hashBlockSize then
    []
  else
    let currMmIdx := if 0 < startTokenIdx then MmIdx.last else MmIdx.idx 0
    hashLoop H hashBlockSize r r.numTokens startTokenIdx currMmIdx r.blockHashes.getLast?

def updateBlockHashes (hasher : Option (Request → List BlockHash)) (r : Request) : Request :=
  match hasher with
  | none => r
  | some hasher => { r with blockHashes := r.blockHashes ++ hasher r }

def appendOutputTokenIds (hasher : Option (Request → List BlockHash)) (r : Request)
    (tokenIds : List ℕ) : Request :=
  updateBlockHashes hasher
    { r with outputTokenIds := r.outputTokenIds ++ tokenIds
             allTokenIds := r.allTokenIds ++ tokenIds }

structure Prompt where
  promptTokenIds : Option (List ℕ)
  promptEmbeds : Option PromptEmbeds
  promptIsTokenIds : Option (List Bool)
  mmFeatures : List MultiModalFeatureSpec
  loraRequest : Option LoRARequest
  cacheSalt : Option String

def lengthFromPromptTokenIdsOrEmbeds (promptTokenIds : Option (List ℕ))
    (promptEmbeds : Option PromptEmbeds) : Except Failure ℕ :=
  match promptTokenIds, promptEmbeds with
  | none, none => .error (.valueError "Neither prompt_token_ids nor prompt_embeds were defined.")
  | none, some embeds => .ok embeds.numTokens
  | some ids, none => .ok ids.length
  | some ids, some embeds =>
    if embeds.numTokens ≠ ids.length then
      .error (.valueError (s!"Prompt token ids and prompt embeds had different lengths" ++
        s!" prompt_token_ids={ids.length} prompt_embeds={embeds.numTokens}"))
    else
      .ok ids.length

def Request.create (hasher : Option (Request → List BlockHash)) (p : Prompt) :
    Except Failure Request := do
  -- Positions covered by embeddings hold token 0.
  let numPromptTokens ← lengthFromPromptTokenIdsOrEmbeds p.promptTokenIds p.promptEmbeds
  let allTokenIds := match p.promptTokenIds, p.promptIsTokenIds with
    | none, _ => List.replicate numPromptTokens 0
    | some ids, none => ids
    | some ids, some mask => List.zipWith (fun t isTok => if isTok then t else 0) ids mask
  return updateBlockHashes hasher
    { numPromptTokens, promptTokenIds := p.promptTokenIds, outputTokenIds := [], allTokenIds
      promptEmbeds := p.promptEmbeds, mmFeatures := p.mmFeatures, loraRequest := p.loraRequest
      cacheSalt := p.cacheSalt, blockHashes := [] }

end Vllm.BlockHashing
