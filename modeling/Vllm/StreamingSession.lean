import Vllm.HashGrowth

/-!
Streaming sessions. A resumable request that stopped is continued by an
update: the tokens sampled but not computed are deleted, the computed output
becomes part of the prompt, and the update's tokens are appended. The list of
block hashes is only ever extended, so the update leaves the hashes of the new
token list exactly when it does not change a token that has been hashed.
Sampling parameters and event logging are left out.
-/
namespace Vllm.StreamingSession

open Outcome BlockHashing HashGrowth List

inductive RequestStatus where
  | waiting
  | waitingForStructuredOutputGrammar
  | waitingForRemoteKvs
  | waitingForStreamingReq
  | running
  | preempted
  | finishedStopped
  | finishedLengthCapped
  | finishedAborted
  | finishedIgnored
  | finishedError
  | finishedRepetition
deriving DecidableEq, Repr

structure StreamingUpdate where
  mmFeatures : List MultiModalFeatureSpec
  promptTokenIds : Option (List ℕ)
  arrivalTime : ℕ

structure Session extends Request where
  numComputedTokens : ℕ
  status : RequestStatus
  arrivalTime : ℕ

def shiftItem (base : ℕ) (f : MultiModalFeatureSpec) : MultiModalFeatureSpec :=
  -- The offset of an update's item is relative to the kept tokens.
  { f with mmPosition := { f.mmPosition with offset := f.mmPosition.offset + base } }

/-- The session's request with the discarded tokens deleted and the update's
tokens appended, before its hashes are extended. -/
def spliceTokens (session : Session) (update : StreamingUpdate) (promptTokenIds : List ℕ) :
    Request :=
  let keptOutputTokens := session.slice session.numPromptTokens session.numComputedTokens
  let keptTokens := session.allTokenIds.take session.numComputedTokens
  let newTokens := update.promptTokenIds.getD []
  { session.toRequest with
    outputTokenIds := []
    mmFeatures := session.mmFeatures ++ update.mmFeatures.map (shiftItem keptTokens.length)
    allTokenIds := keptTokens ++ newTokens
    promptTokenIds := some (promptTokenIds ++ keptOutputTokens ++ newTokens) }

/-- `_update_request_as_session`, with the scheduler's count of sessions that
wait for input. -/
def updateRequestAsSession (hasher : Option (Request → List BlockHash))
    (session : Session) (numWaitingForStreamingInput : ℕ) (update : StreamingUpdate) :
    Except Failure (Session × ℕ) :=
  match session.promptTokenIds with
  | none => .error (.assertionError "session.prompt_token_ids is not None")
  | some promptTokenIds =>
    let request := updateBlockHashes hasher (spliceTokens session update promptTokenIds)
    let waiting := if session.status = .waitingForStreamingReq
      then numWaitingForStreamingInput - 1 else numWaitingForStreamingInput
    .ok ({ session with
            toRequest := { request with
              numPromptTokens := (request.promptTokenIds.getD []).length }
            arrivalTime := update.arrivalTime
            status := .waiting }, waiting)

def TextOnly (r : Request) : Prop := r.mmFeatures = [] ∧ r.promptEmbeds = none

def updatedTokens (session : Session) (update : StreamingUpdate) : List ℕ :=
  session.allTokenIds.take session.numComputedTokens ++ update.promptTokenIds.getD []

/-- The discarded tokens that lie in hashed blocks, if any, are the first ones
the update supplies again. -/
def KeepsHashedTokens (B : ℕ) (session : Session) (update : StreamingUpdate) : Prop :=
  (session.allTokenIds.take (session.numTokens / B * B)).drop session.numComputedTokens <+:
    update.promptTokenIds.getD []

/-- The update keeps the tokens of all hashed blocks. -/
theorem keepsHashedTokens_iff {B : ℕ} {s : Session} {u : StreamingUpdate} :
    KeepsHashedTokens B s u ↔ (updatedTokens s u).take (s.numTokens / B * B) =
      s.allTokenIds.take (s.numTokens / B * B) := by
  have hle : s.numTokens / B * B ≤ s.allTokenIds.length := Nat.div_mul_le_self _ _
  rw [KeepsHashedTokens, updatedTokens]
  generalize s.numTokens / B * B = k at hle
  by_cases hk : k ≤ s.numComputedTokens
  · have hnil : (s.allTokenIds.take k).drop s.numComputedTokens = [] :=
      drop_eq_nil_of_le (by rw [length_take]; omega)
    rw [hnil, take_append_of_le_length (by rw [length_take]; omega), take_take,
      Nat.min_eq_left hk]
    simp
  · have hsplit := take_append_drop s.numComputedTokens (s.allTokenIds.take k)
    rw [take_take, Nat.min_eq_left (by omega)] at hsplit
    have hlen : ((s.allTokenIds.take k).drop s.numComputedTokens).length =
        k - s.numComputedTokens := by
      rw [length_drop, length_take]
      omega
    have hkept : (s.allTokenIds.take s.numComputedTokens).length = s.numComputedTokens := by
      rw [length_take]
      omega
    have hall : (s.allTokenIds.take s.numComputedTokens).take k =
        s.allTokenIds.take s.numComputedTokens := take_of_length_le (by omega)
    rw [prefix_iff_eq_take, hlen, take_append, hkept, hall]
    nth_rewrite 2 [← hsplit]
    rw [append_cancel_left_eq]
    exact eq_comm

/-- What happens to a session: steps are scheduled, drafts are rejected, the
request is preempted, sampled tokens arrive, the session stops to wait for
input or is continued by an update. -/
inductive SessionEvent where
  | schedule (numScheduledTokens : ℕ)
  | reject (numRejected : ℕ)
  | preempt
  | output (tokenIds : List ℕ)
  | stop
  | update (u : StreamingUpdate)

def SessionEvent.apply (H : CachingHash) (B : ℕ) (session : Session) (numWaiting : ℕ) :
    SessionEvent → Except Failure (Session × ℕ)
  | .schedule k => .ok ({ session with
      numComputedTokens := session.numComputedTokens + k, status := .running }, numWaiting)
  | .reject k =>
    .ok ({ session with numComputedTokens := session.numComputedTokens - k }, numWaiting)
  | .preempt => .ok ({ session with numComputedTokens := 0, status := .preempted }, numWaiting)
  | .output tokenIds =>
    .ok ({ session with toRequest := appendTokens H B session.toRequest tokenIds }, numWaiting)
  | .stop => .ok ({ session with status := .waitingForStreamingReq }, numWaiting + 1)
  | .update u =>
    updateRequestAsSession (some (requestBlockHasher H B)) session numWaiting u

/-- The runs of a text-only session in which no update changes a hashed token. -/
inductive KeepingRun (H : CachingHash) (B : ℕ) : Session → ℕ → Prop where
  | create {p : Prompt} {r : Request} (arrivalTime numWaiting : ℕ)
      (hcreate : Request.create (some (requestBlockHasher H B)) p = .ok r) (htext : TextOnly r) :
      KeepingRun H B ⟨r, 0, .waiting, arrivalTime⟩ numWaiting
  | step {s s' : Session} {w w' : ℕ} {e : SessionEvent} (hrun : KeepingRun H B s w)
      (happly : e.apply H B s w = .ok (s', w'))
      (hkeeps : ∀ u, e = .update u → u.mmFeatures = [] ∧ KeepsHashedTokens B s u) :
      KeepingRun H B s' w'

section
variable {H : CachingHash} {B : ℕ} {r : Request} {s s' : Session} {w w' : ℕ} {u : StreamingUpdate}

theorem TextOnly.itemsOrdered (h : TextOnly r) : ItemsOrdered r.mmFeatures := by
  rw [h.1]
  exact List.Pairwise.nil

theorem TextOnly.covers (h : TextOnly r) (s : ℕ) (mmIdx : MmIdx) : Covers r s mmIdx := by
  intro f hf
  rw [h.1, take_nil] at hf
  cases hf

/-- What an update leaves: the spliced tokens with their hashes extended. -/
theorem updateRequestAsSession_ok {hasher : Option (Request → List BlockHash)}
    (h : updateRequestAsSession hasher s w u = .ok (s', w')) :
    ∃ ids, s.promptTokenIds = some ids ∧ s'.promptTokenIds.isSome ∧
      s'.blockHashes = (updateBlockHashes hasher (spliceTokens s u ids)).blockHashes ∧
      s'.allTokenIds = (updateBlockHashes hasher (spliceTokens s u ids)).allTokenIds ∧
      SameKeys (updateBlockHashes hasher (spliceTokens s u ids)) s'.toRequest := by
  unfold updateRequestAsSession at h
  cases hids : s.promptTokenIds with
  | none =>
    rw [hids] at h
    cases h
  | some ids =>
    rw [hids] at h
    simp only [Except.ok.injEq, Prod.mk.injEq] at h
    obtain ⟨rfl, -⟩ := h
    cases hasher with
    | none => exact ⟨ids, rfl, rfl, rfl, rfl, ⟨rfl, rfl, rfl, rfl⟩⟩
    | some hasher => exact ⟨ids, rfl, rfl, rfl, rfl, ⟨rfl, rfl, rfl, rfl⟩⟩

theorem spliceTokens_sameKeys (hu : u.mmFeatures = []) (ids : List ℕ) :
    SameKeys s.toRequest (spliceTokens s u ids) :=
  ⟨by simp [spliceTokens, hu], rfl, rfl, rfl⟩

/-- An update that changes no hashed token leaves the hashes of the new token
list. -/
theorem update_eq_scratch (hB : 0 < B) (htext : TextOnly s.toRequest) (hu : u.mmFeatures = [])
    (hhashes : s.blockHashes = hashesFromScratch H B s.toRequest)
    (hupdate : updateRequestAsSession (some (requestBlockHasher H B)) s w u = .ok (s', w'))
    (hkeeps : KeepsHashedTokens B s u) : s'.blockHashes = hashesFromScratch H B s'.toRequest := by
  obtain ⟨ids, -, -, hblocks, htokens, hfinal⟩ := updateRequestAsSession_ok hupdate
  have hsame := spliceTokens_sameKeys hu ids (s := s)
  rw [keepsHashedTokens_iff] at hkeeps
  have htext' : TextOnly (spliceTokens s u ids) :=
    ⟨hsame.mmFeatures.trans htext.1, hsame.promptEmbeds.trans htext.2⟩
  have hold : (spliceTokens s u ids).blockHashes =
      (List.range (s.numTokens / B)).map (chainedHash H B (spliceTokens s u ids)) := by
    rw [hsame.map_range_congr H hkeeps]
    exact hhashes
  have hlen : s.numTokens / B ≤ (spliceTokens s u ids).numTokens / B := by
    have htake := congrArg List.length hkeeps
    have hfull : s.numTokens / B * B ≤ s.allTokenIds.length := Nat.div_mul_le_self _ _
    rw [length_take, length_take, Nat.min_eq_left hfull] at htake
    refine (Nat.le_div_iff_mul_le hB).mpr ?_
    show s.numTokens / B * B ≤ (updatedTokens s u).length
    omega
  have hall := updateBlockHashes_eq_scratch hB htext'.itemsOrdered hold hlen
    (fun _ => htext'.covers _ _)
  rw [hblocks, hall, hfinal.hashesFromScratch_eq H B htokens]

/-- An update that leaves the hashes of the new token list changes no hashed
token. -/
theorem keepsHashedTokens_of_update (hinj : Function.Injective H.hashFunction)
    (hhashes : s.blockHashes = hashesFromScratch H B s.toRequest)
    (hupdate : updateRequestAsSession (some (requestBlockHasher H B)) s w u = .ok (s', w'))
    (hall : s'.blockHashes = hashesFromScratch H B s'.toRequest) : KeepsHashedTokens B s u := by
  obtain ⟨ids, -, -, hblocks, htokens, -⟩ := updateRequestAsSession_ok hupdate
  have htokens' : s'.allTokenIds = updatedTokens s u := htokens
  rw [keepsHashedTokens_iff]
  cases hk : s.numTokens / B with
  | zero => simp
  | succ k =>
    have hold : s.blockHashes[k]? = some (chainedHash H B s.toRequest k) := by
      rw [hhashes, hashesFromScratch_getElem? (by omega)]
    have hnew : s'.blockHashes[k]? = some (chainedHash H B s.toRequest k) := by
      obtain ⟨hlt, -⟩ := List.getElem?_eq_some_iff.mp hold
      rw [hblocks]
      show (s.blockHashes ++ _)[k]? = _
      rw [getElem?_append_left hlt, hold]
    have hlt : k < s'.numTokens / B := by
      obtain ⟨hlt, -⟩ := List.getElem?_eq_some_iff.mp hnew
      rwa [hall, hashesFromScratch, length_map, length_range] at hlt
    rw [hall, hashesFromScratch_getElem? hlt] at hnew
    have hagree := agreeUpTo_of_chainedHash hinj (Option.some.inj hnew)
    rw [← htokens']
    exact hagree.1

/-- Text-only sessions have a token prompt, and their hashes are in step with
their tokens. -/
structure InStep (H : CachingHash) (B : ℕ) (s : Session) : Prop where
  text : TextOnly s.toRequest
  prompt : s.promptTokenIds.isSome
  hashes : s.blockHashes = hashesFromScratch H B s.toRequest

theorem inStep_create (hB : 0 < B) {p : Prompt} (arrivalTime : ℕ)
    (hcreate : Request.create (some (requestBlockHasher H B)) p = .ok r) (htext : TextOnly r) :
    InStep H B ⟨r, 0, .waiting, arrivalTime⟩ := by
  refine ⟨htext, ?_, create_eq_scratch hB hcreate htext.itemsOrdered⟩
  obtain ⟨ids, embeds, mask, items, lora, salt⟩ := p
  cases ids with
  | some ids =>
    unfold Request.create at hcreate
    cases hlen : lengthFromPromptTokenIdsOrEmbeds (some ids) embeds with
    | error e =>
      simp only [hlen] at hcreate
      cases hcreate
    | ok k =>
      simp only [hlen] at hcreate
      cases hcreate
      rfl
  | none =>
    cases embeds with
    | none => cases hcreate
    | some embeds =>
      cases hcreate
      cases htext.2

/-- Every event keeps a session in step, an update only if it changes no hashed
token. -/
theorem SessionEvent.apply_inStep (hB : 0 < B) {e : SessionEvent} (hs : InStep H B s)
    (happly : e.apply H B s w = .ok (s', w'))
    (hkeeps : ∀ u, e = .update u → u.mmFeatures = [] ∧ KeepsHashedTokens B s u) :
    InStep H B s' := by
  obtain ⟨htext, hprompt, hhashes⟩ := hs
  cases e with
  | schedule k =>
    cases happly
    exact ⟨htext, hprompt, hhashes⟩
  | reject k =>
    cases happly
    exact ⟨htext, hprompt, hhashes⟩
  | preempt =>
    cases happly
    exact ⟨htext, hprompt, hhashes⟩
  | stop =>
    cases happly
    exact ⟨htext, hprompt, hhashes⟩
  | output tokenIds =>
    cases happly
    refine ⟨htext, hprompt, ?_⟩
    exact appendTokens_eq_scratch hB htext.itemsOrdered hhashes tokenIds
      (fun _ => htext.covers _ _)
  | update u =>
    obtain ⟨hu, hkeep⟩ := hkeeps u rfl
    obtain ⟨ids, -, hprompt', -, -, hfinal⟩ := updateRequestAsSession_ok happly
    have hsame := spliceTokens_sameKeys hu ids (s := s)
    refine ⟨⟨?_, ?_⟩, hprompt', update_eq_scratch hB htext hu hhashes happly hkeep⟩
    · exact hfinal.mmFeatures.trans (hsame.mmFeatures.trans htext.1)
    · exact hfinal.promptEmbeds.trans (hsame.promptEmbeds.trans htext.2)

/-- A run that changes no hashed token keeps the hashes in step. -/
theorem KeepingRun.inStep (hB : 0 < B) (hrun : KeepingRun H B s w) :
    InStep H B s := by
  induction hrun with
  | create arrivalTime numWaiting hcreate htext => exact inStep_create hB arrivalTime hcreate htext
  | step _ happly hkeeps ih => exact SessionEvent.apply_inStep hB ih happly hkeeps

/-- A run whose updates change no hashed token keeps hashes and tokens in step,
and from any state of such a run the next update does so exactly when it
changes no hashed token either. -/
theorem session_update_hashes (hB : 0 < B) {s : Session} {w : ℕ} (hrun : KeepingRun H B s w) :
    s.blockHashes = hashesFromScratch H B s.toRequest ∧
    ∀ u : StreamingUpdate, u.mmFeatures = [] → ∃ s' w',
      updateRequestAsSession (some (requestBlockHasher H B)) s w u = .ok (s', w') ∧
      s'.allTokenIds = updatedTokens s u ∧
      (KeepsHashedTokens B s u → s'.blockHashes = hashesFromScratch H B s'.toRequest) ∧
      (Function.Injective H.hashFunction →
        s'.blockHashes = hashesFromScratch H B s'.toRequest → KeepsHashedTokens B s u) := by
  obtain ⟨htext, hprompt, hhashes⟩ := hrun.inStep hB
  refine ⟨hhashes, ?_⟩
  intro u hu
  obtain ⟨ids, hids⟩ := Option.isSome_iff_exists.mp hprompt
  obtain ⟨s', w', hupdate⟩ : ∃ s' w',
      updateRequestAsSession (some (requestBlockHasher H B)) s w u = .ok (s', w') := by
    rw [updateRequestAsSession, hids]
    exact ⟨_, _, rfl⟩
  obtain ⟨ids', -, -, -, htokens, -⟩ := updateRequestAsSession_ok hupdate
  refine ⟨s', w', hupdate, htokens, ?_, ?_⟩
  · exact update_eq_scratch hB htext hu hhashes hupdate
  · intro hinj hall
    exact keepsHashedTokens_of_update hinj hhashes hupdate hall
end

variable (H : CachingHash)

/-- The session of a three-token prompt whose first output token has arrived,
`computed` tokens of it being computed, at a hash block size of four. -/
def fourTokenSession (computed : ℕ) : Session :=
  { numPromptTokens := 3, promptTokenIds := some [1, 2, 3], outputTokenIds := [5]
    allTokenIds := [1, 2, 3, 5], promptEmbeds := none, mmFeatures := [], loraRequest := none
    cacheSalt := none, blockHashes := [hashBlockTokens H none [1, 2, 3, 5] none]
    numComputedTokens := computed, status := .running, arrivalTime := 0 }

def threeTokenPrompt : Prompt :=
  { promptTokenIds := some [1, 2, 3], promptEmbeds := none, promptIsTokenIds := none
    mmFeatures := [], loraRequest := none, cacheSalt := none }

theorem fourTokenSession_run : KeepingRun H 4 (fourTokenSession H 3) 0 := by
  have hcreate : KeepingRun H 4 _ 0 :=
    .create (p := threeTokenPrompt) 0 0 rfl ⟨rfl, rfl⟩
  have hschedule := hcreate.step (e := .schedule 3) rfl (by rintro u ⟨⟩)
  exact hschedule.step (e := .output [5]) rfl (by rintro u ⟨⟩)

theorem fourTokenSession_keeps (computed : ℕ) (u : StreamingUpdate) :
    KeepsHashedTokens 4 (fourTokenSession H computed) u ↔
      [1, 2, 3, 5].drop computed <+: u.promptTokenIds.getD [] := by
  have hlen : (fourTokenSession H computed).numTokens = 4 := rfl
  rw [KeepsHashedTokens, hlen]
  rfl

/-- An update behind a computed block keeps hashes and tokens in step. -/
theorem session_update_behind_block : ∃ (H : CachingHash) (s s' : Session) (w w' : ℕ),
      updateRequestAsSession (some (requestBlockHasher H 4)) s w ⟨[], some [9], 1⟩ = .ok (s', w') ∧
        s'.allTokenIds = [1, 2, 3, 5, 9] ∧
        s'.blockHashes = hashesFromScratch H 4 s'.toRequest := by
  obtain ⟨H, -⟩ := exists_injective_hash
  have hrun : KeepingRun H 4 (fourTokenSession H 4) 0 :=
    (fourTokenSession_run H).step (e := .schedule 1) rfl (by rintro u ⟨⟩)
  obtain ⟨-, hnext⟩ := session_update_hashes (by decide) hrun
  obtain ⟨s', w', hupdate, htokens, hstep, -⟩ := hnext ⟨[], some [9], 1⟩ rfl
  exact ⟨H, _, s', 0, w', hupdate, htokens, hstep ((fourTokenSession_keeps H 4 _).mpr (by decide))⟩

/-- The sampled token that completed a block is replaced by the update's token,
and the hash over the discarded token stays. -/
theorem session_update_inside_block :
    ∃ (H : CachingHash) (s s' : Session) (w w' : ℕ), Function.Injective H.hashFunction ∧
      KeepingRun H 4 s w ∧ s.allTokenIds = [1, 2, 3, 5] ∧ s.numComputedTokens = 3 ∧
        updateRequestAsSession (some (requestBlockHasher H 4)) s w ⟨[], some [9], 1⟩ =
          .ok (s', w') ∧
        s'.allTokenIds = [1, 2, 3, 9] ∧
        s'.blockHashes = [hashBlockTokens H none [1, 2, 3, 5] none] ∧
        s'.blockHashes ≠ hashesFromScratch H 4 s'.toRequest := by
  obtain ⟨H, hinj⟩ := exists_injective_hash
  refine ⟨H, fourTokenSession H 3, _, 0, 0, hinj, fourTokenSession_run H, rfl, rfl, rfl, rfl, rfl,
    ?_⟩
  intro hall
  have hkeeps := keepsHashedTokens_of_update (s := fourTokenSession H 3) (w := 0)
    (u := ⟨[], some [9], 1⟩) hinj ((fourTokenSession_run H).inStep (by decide)).hashes rfl hall
  rw [fourTokenSession_keeps] at hkeeps
  exact absurd hkeeps (by decide)

end Vllm.StreamingSession
