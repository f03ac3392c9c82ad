import Mathlib.Data.Finset.Sort
import Vllm.CacheManagers
import Vllm.OrderedDict

/-!
The managers of encoder outputs. `EncoderCacheManager` shares the outputs of
equal multimodal items between requests: an entry nobody references stays until
its room is needed. `EncoderDecoderCacheManager` only counts. The scheduler asks
a manager which items of a chunk have to be computed, and allocates room for
them once the request is scheduled. Manager metadata is left out.
-/
namespace Vllm.EncoderCache

open Outcome BlockHashing CacheManagers

abbrev MmHash := String

/-- A multimodal item; the mask, when there is one, tells which of its
positions take an embedding. -/
structure EncoderInput extends MultiModalFeatureSpec where
  isEmbed : Option (List Bool)

namespace EncoderInput

def getNumEmbeds (f : EncoderInput) : ℕ :=
  match f.isEmbed with
  | none => f.mmPosition.length
  | some mask => mask.count true

/-- `embeds_cumsum[k - 1] if k > 0 else 0`. -/
def embedsBefore (mask : List Bool) (k : ℤ) : Option ℤ :=
  if 0 < k then
    if k ≤ mask.length then some ((mask.take k.toNat).count true) else none
  else
    some 0

/-- `get_embeds_indices_in_range`, or `none` for a position past the mask. -/
def getEmbedsIndicesInRange (f : EncoderInput) (startIdx endIdx : ℤ) : Option (ℤ × ℤ) :=
  match f.isEmbed with
  | none => some (startIdx, endIdx)
  | some mask => do
    let embedsStartIdx ← embedsBefore mask startIdx
    let embedsEndIdx ← embedsBefore mask endIdx
    return (embedsStartIdx, embedsEndIdx)

end EncoderInput

structure EncoderRequest where
  requestId : RequestId
  mmFeatures : List EncoderInput

namespace EncoderRequest

variable {σ : Type}

def feature (request : EncoderRequest) (inputId : ℕ) : EStateM Failure σ EncoderInput :=
  expect request.mmFeatures[inputId]? (.indexError "list index out of range")

def getNumEncoderEmbeds (request : EncoderRequest) (inputId : ℕ) : EStateM Failure σ ℕ := do
  let f ← expect request.mmFeatures[inputId]?
    (.assertionError "input_id < len(self.mm_features)")
  return f.getNumEmbeds

end EncoderRequest

/-! ### The shared cache -/

structure EncoderCacheManager where
  cacheSize : ℕ
  numFreeSlots : ℤ
  numFreeableSlots : ℤ
  cached : OrderedDict MmHash (Finset RequestId)
  requestCachedIds : OrderedDict RequestId (Finset ℕ)
  freeable : OrderedDict MmHash ℕ
  freed : List MmHash

namespace EncoderCacheManager

def create (cacheSize : ℕ) : EncoderCacheManager where
  cacheSize := cacheSize
  numFreeSlots := cacheSize
  numFreeableSlots := cacheSize
  cached := .empty
  requestCachedIds := .empty
  freeable := .empty
  freed := []

variable (s : EncoderCacheManager) (request : EncoderRequest) (r : RequestId)

def getCachedInputIds : Finset ℕ :=
  (s.requestCachedIds.get? r).getD ∅

/-- `request_cached_ids.setdefault(request_id, set()).add(input_id)`. -/
def addCachedId (inputId : ℕ) : EncoderCacheManager :=
  { s with requestCachedIds := s.requestCachedIds.set r (insert inputId (s.getCachedInputIds r)) }

/-- `request_cached_ids[req_id].discard(input_id)`; an empty set is deleted. -/
def discardCachedId (inputId : ℕ) : EncoderCacheManager :=
  match s.requestCachedIds.get? r with
  | none => s
  | some ids =>
    let rest := ids.erase inputId
    { s with requestCachedIds :=
        if rest = ∅ then s.requestCachedIds.erase r else s.requestCachedIds.set r rest }

abbrev CacheM := EStateM Failure EncoderCacheManager

def reset : CacheM PUnit := modify fun s => create s.cacheSize

def checkAndUpdateCache (inputId : ℕ) : CacheM Bool := do
  let f ← request.feature inputId
  let s ← get
  match s.cached.get? f.identifier with
  | none => return false
  | some refs =>
    onlyIf (refs = ∅) do
      let numEncoderEmbeds ← expect (s.freeable.get? f.identifier) (.keyError f.identifier)
      modify fun s => { s with
        freeable := s.freeable.erase f.identifier
        numFreeableSlots := s.numFreeableSlots - numEncoderEmbeds }
    modify fun s =>
      { s with cached := s.cached.set f.identifier (insert request.requestId refs) }
    modify fun s => s.addCachedId request.requestId inputId
    return true

/-- The eviction loop of `can_allocate` over the reclaimable entries, oldest
first. -/
def evictLoop (numEmbeds : ℤ) : List (MmHash × ℕ) → CacheM PUnit
  | [] => do
    let s ← get
    check (numEmbeds ≤ s.numFreeSlots) (.keyError "dictionary is empty")
  | (mmHash, numFreeEmbeds) :: entries => do
    let s ← get
    if numEmbeds > s.numFreeSlots then
      check (mmHash ∈ s.cached.keys) (.keyError mmHash)
      set { s with
        freeable := s.freeable.erase mmHash
        cached := s.cached.erase mmHash
        freed := s.freed ++ [mmHash]
        numFreeSlots := s.numFreeSlots + numFreeEmbeds }
      evictLoop numEmbeds entries
    else
      return ⟨⟩

def canAllocate (inputId : ℕ) (encoderComputeBudget numEmbedsToSchedule : ℤ) : CacheM Bool := do
  let itemEmbeds ← request.getNumEncoderEmbeds inputId
  if itemEmbeds > encoderComputeBudget then
    return false
  else
    let numEmbeds := itemEmbeds + numEmbedsToSchedule
    let s ← get
    if numEmbeds ≤ s.numFreeSlots then
      return true
    else if numEmbeds > s.numFreeableSlots then
      return false
    else
      evictLoop numEmbeds s.freeable.entries
      return true

def allocate (inputId : ℕ) : CacheM PUnit := do
  let f ← request.feature inputId
  modify fun s =>
    if f.identifier ∈ s.cached.keys then s else { s with cached := s.cached.set f.identifier ∅ }
  let numEncoderEmbeds ← request.getNumEncoderEmbeds inputId
  let s ← get
  check (numEncoderEmbeds ≤ s.numFreeSlots)
    (.assertionError "self.num_free_slots >= num_encoder_embeds")
  check (numEncoderEmbeds ≤ s.numFreeableSlots)
    (.assertionError "self.num_freeable_slots >= num_encoder_embeds")
  let refs := (s.cached.get? f.identifier).getD ∅
  modify fun s =>
    { s with cached := s.cached.set f.identifier (insert request.requestId refs) }
  modify fun s => s.addCachedId request.requestId inputId
  modify fun s => { s with
    numFreeSlots := s.numFreeSlots - numEncoderEmbeds
    numFreeableSlots := s.numFreeableSlots - numEncoderEmbeds }

def holdsOther (mmHash : MmHash) : Bool :=
  ∃ otherId ∈ s.getCachedInputIds request.requestId,
    (request.mmFeatures[otherId]?.map (·.identifier)) = some mmHash

def freeEncoderInput (inputId : ℕ) : CacheM PUnit := do
  let f ← request.feature inputId
  modify fun s => s.discardCachedId request.requestId inputId
  let s ← get
  let refs := (s.cached.get? f.identifier).getD ∅
  onlyIf (refs ≠ ∅ ∧ s.holdsOther request f.identifier = false) do
    let rest := refs.erase request.requestId
    modify fun s => { s with cached := s.cached.set f.identifier rest }
    onlyIf (rest = ∅) do
      let numEncoderEmbeds ← request.getNumEncoderEmbeds inputId
      modify fun s => { s with
        freeable := s.freeable.set f.identifier numEncoderEmbeds
        numFreeableSlots := s.numFreeableSlots + numEncoderEmbeds }

def free : CacheM PUnit := do
  let s ← get
  forM (s.getCachedInputIds request.requestId).sort (freeEncoderInput request)

def getFreedMmHashes : CacheM (List MmHash) := do
  let s ← get
  set { s with freed := [] }
  return s.freed.filter fun mmHash => mmHash ∉ s.cached.keys

end EncoderCacheManager

/-! ### Encoder-decoder models -/

structure EncoderDecoderCacheManager where
  cacheSize : ℕ
  numFreeSlots : ℤ
  allocated : List MmHash
  toFree : List MmHash

namespace EncoderDecoderCacheManager

def create (cacheSize : ℕ) : EncoderDecoderCacheManager where
  cacheSize := cacheSize
  numFreeSlots := cacheSize
  allocated := []
  toFree := []

abbrev CountM := EStateM Failure EncoderDecoderCacheManager

def reset : CountM PUnit := modify fun s => create s.cacheSize

def checkAndUpdateCache (_ : EncoderRequest) (_ : ℕ) : CountM Bool := return false

variable (request : EncoderRequest)

def canAllocate (inputId : ℕ) (encoderComputeBudget numEmbedsToSchedule : ℤ) : CountM Bool := do
  let numEncoderEmbeds ← request.getNumEncoderEmbeds inputId
  if numEncoderEmbeds > encoderComputeBudget then
    return false
  else
    let s ← get
    return decide (numEncoderEmbeds + numEmbedsToSchedule ≤ s.numFreeSlots)

def allocate (inputId : ℕ) : CountM PUnit := do
  let numEncoderEmbeds ← request.getNumEncoderEmbeds inputId
  modify fun s => { s with numFreeSlots := s.numFreeSlots - numEncoderEmbeds }
  let f ← request.feature inputId
  modify fun s => { s with allocated := s.allocated ++ [f.identifier] }

def freeEncoderInput (inputId : ℕ) : CountM PUnit := do
  let numEncoderEmbeds ← request.getNumEncoderEmbeds inputId
  modify fun s => { s with numFreeSlots := s.numFreeSlots + numEncoderEmbeds }

def free : CountM PUnit :=
  forM (List.range request.mmFeatures.length) (freeEncoderInput request)

def getCachedInputIds : Finset ℕ :=
  Finset.range request.mmFeatures.length

def getFreedMmHashes : CountM (List MmHash) := do
  let s ← get
  set { s with toFree := s.allocated, allocated := [] }
  return s.toFree

end EncoderDecoderCacheManager

/-! ### The items of a chunk -/

inductive EncoderManager where
  | shared (s : EncoderCacheManager)
  | counting (s : EncoderDecoderCacheManager)

abbrev EncoderM := EStateM Failure EncoderManager

namespace EncoderManager

def dispatch {α : Type} (m : EncoderCacheManager.CacheM α)
    (k : EncoderDecoderCacheManager.CountM α) : EncoderM α
  | .shared s =>
    match m s with
    | .ok a t => .ok a (.shared t)
    | .error e t => .error e (.shared t)
  | .counting s =>
    match k s with
    | .ok a t => .ok a (.counting t)
    | .error e t => .error e (.counting t)

def reset : EncoderM PUnit :=
  dispatch EncoderCacheManager.reset EncoderDecoderCacheManager.reset

variable (request : EncoderRequest)

def checkAndUpdateCache (inputId : ℕ) : EncoderM Bool :=
  dispatch (EncoderCacheManager.checkAndUpdateCache request inputId)
    (EncoderDecoderCacheManager.checkAndUpdateCache request inputId)

def canAllocate (inputId : ℕ) (encoderComputeBudget numEmbedsToSchedule : ℤ) : EncoderM Bool :=
  dispatch
    (EncoderCacheManager.canAllocate request inputId encoderComputeBudget numEmbedsToSchedule)
    (EncoderDecoderCacheManager.canAllocate request inputId encoderComputeBudget
      numEmbedsToSchedule)

def allocate (inputId : ℕ) : EncoderM PUnit :=
  dispatch (EncoderCacheManager.allocate request inputId)
    (EncoderDecoderCacheManager.allocate request inputId)

def freeEncoderInput (inputId : ℕ) : EncoderM PUnit :=
  dispatch (EncoderCacheManager.freeEncoderInput request inputId)
    (EncoderDecoderCacheManager.freeEncoderInput request inputId)

def free : EncoderM PUnit :=
  dispatch (EncoderCacheManager.free request) (EncoderDecoderCacheManager.free request)

def getCachedInputIds (s : EncoderManager) (request : EncoderRequest) : Finset ℕ :=
  match s with
  | .shared s => s.getCachedInputIds request.requestId
  | .counting _ => EncoderDecoderCacheManager.getCachedInputIds request

def getFreedMmHashes : EncoderM (List MmHash) :=
  dispatch EncoderCacheManager.getFreedMmHashes EncoderDecoderCacheManager.getFreedMmHashes

end EncoderManager

/-- `bisect.bisect_left` on the keys of the positions from `lo` to `hi`; the
interval shrinks, so its length is fuel enough. -/
def bisectLeft (key : ℕ → ℤ) (x : ℤ) : ℕ → ℕ → ℕ → ℕ
  | 0, lo, _ => lo
  | fuel + 1, lo, hi =>
    if lo < hi then
      let mid := (lo + hi) / 2
      if key mid < x then bisectLeft key x fuel (mid + 1) hi else bisectLeft key x fuel lo mid
    else
      lo

/-- `get_mm_features_in_window`: the items that overlap `[start, stop)`. -/
def getMmFeaturesInWindow (mmFeatures : List EncoderInput) (start stop : ℤ) : ℕ × ℕ :=
  let offset (i : ℕ) : ℤ := (mmFeatures[i]?.map (·.mmPosition.offset)).getD 0
  let length (i : ℕ) : ℤ := (mmFeatures[i]?.map (·.mmPosition.length)).getD 0
  let size := mmFeatures.length
  (bisectLeft (fun i => offset i + length i) (start + 1) size 0 size,
    bisectLeft offset stop size 0 size)

/-- What `_try_schedule_encoder_inputs` reads of the scheduler. The EC connector
tells which items it can load. -/
structure EncoderConfig where
  isEncoderDecoder : Bool
  disableChunkedMmInput : Bool
  hasCacheItem : MmHash → Bool

structure EncoderChunk where
  request : EncoderRequest
  numComputedTokens : ℤ
  numNewTokens : ℤ
  shiftComputedTokens : ℤ

variable (cfg : EncoderConfig) (c : EncoderChunk)

def EncoderChunk.windowEnd : ℤ :=
  c.numComputedTokens + c.numNewTokens + c.shiftComputedTokens

structure EncoderPass where
  encoderInputsToSchedule : List ℕ
  externalLoadEncoderInput : List ℕ
  mmHashesToSchedule : List MmHash
  numEmbedsToSchedule : ℤ
  numNewTokens : ℤ
  encoderComputeBudget : ℤ

inductive EncoderStep where
  | next (pass : EncoderPass)
  | done (pass : EncoderPass)

def EncoderStep.pass : EncoderStep → EncoderPass
  | .next pass => pass
  | .done pass => pass

/-- The body of the loop over the items, for one that has to be computed or
loaded. -/
def admitInput (i : ℕ) (f : EncoderInput) (pass : EncoderPass) : EncoderM EncoderStep := do
  let startPos : ℤ := f.mmPosition.offset
  let numEncoderTokens : ℤ := f.mmPosition.length
  if cfg.disableChunkedMmInput ∧ c.numComputedTokens < startPos ∧
      c.numComputedTokens + pass.numNewTokens < startPos + numEncoderTokens then
    return .done { pass with
      numNewTokens := max 0 (startPos - (c.numComputedTokens + c.shiftComputedTokens)) }
  else
    let fits ← EncoderManager.canAllocate c.request i pass.encoderComputeBudget
      pass.numEmbedsToSchedule
    if fits = false then
      return .done { pass with
        numNewTokens :=
          if c.numComputedTokens + c.shiftComputedTokens < startPos then
            startPos - (c.numComputedTokens + c.shiftComputedTokens)
          else
            0 }
    else
      let (embedsStart, embedsEnd) ← expect
        (f.getEmbedsIndicesInRange (max 0 (c.numComputedTokens - startPos))
          (min numEncoderTokens (c.windowEnd - startPos)))
        (.indexError "list index out of range")
      if embedsEnd - embedsStart = 0 then
        return .next pass
      else if cfg.hasCacheItem f.identifier then
        return .next { pass with
          mmHashesToSchedule := pass.mmHashesToSchedule ++ [f.identifier]
          externalLoadEncoderInput := pass.externalLoadEncoderInput ++ [i]
          numEmbedsToSchedule := pass.numEmbedsToSchedule + f.getNumEmbeds }
      else
        return .next { pass with
          numEmbedsToSchedule := pass.numEmbedsToSchedule + f.getNumEmbeds
          encoderComputeBudget := pass.encoderComputeBudget - f.getNumEmbeds
          mmHashesToSchedule := pass.mmHashesToSchedule ++ [f.identifier]
          encoderInputsToSchedule := pass.encoderInputsToSchedule ++ [i] }

def scheduleInput (i : ℕ) (pass : EncoderPass) : EncoderM EncoderStep := do
  let f ← c.request.feature i
  if cfg.isEncoderDecoder then
    if 0 < c.numComputedTokens then
      check (f.mmPosition.offset = 0) (.assertionError
        ("Encoder input should be processed at the beginning of " ++
          "the sequence when encoder-decoder models are used."))
      return .next pass
    else
      admitInput cfg c i f pass
  else if f.identifier ∈ pass.mmHashesToSchedule then
    return .next pass
  else
    let cached ← EncoderManager.checkAndUpdateCache c.request i
    if cached then return .next pass else admitInput cfg c i f pass

def scheduleInputs (cfg : EncoderConfig) (c : EncoderChunk) :
    List ℕ → EncoderPass → EncoderM EncoderPass
  | [], pass => return pass
  | i :: inputs, pass => do
    match ← scheduleInput cfg c i pass with
    | .next pass => scheduleInputs cfg c inputs pass
    | .done pass => return pass

/-- The positions `range(lo, hi)` of the items that the chunk reaches. -/
def EncoderChunk.inputs : List ℕ :=
  let (lo, hi) := getMmFeaturesInWindow c.request.mmFeatures c.numComputedTokens c.windowEnd
  let lo := if cfg.isEncoderDecoder then 0 else lo
  List.range' lo (hi - lo)

def EncoderPass.start (encoderComputeBudget : ℤ) : EncoderPass where
  encoderInputsToSchedule := []
  externalLoadEncoderInput := []
  mmHashesToSchedule := []
  numEmbedsToSchedule := 0
  numNewTokens := c.numNewTokens
  encoderComputeBudget := encoderComputeBudget

def tryScheduleEncoderInputs (encoderComputeBudget : ℤ) : EncoderM EncoderPass :=
  if c.numNewTokens = 0 ∨ c.request.mmFeatures = [] then
    return .start c encoderComputeBudget
  else
    scheduleInputs cfg c (c.inputs cfg) (.start c encoderComputeBudget)

end Vllm.EncoderCache
