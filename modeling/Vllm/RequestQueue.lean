import Vllm.Heapq

/-!
The waiting queues of the scheduler. A first-come-first-served queue is a deque,
a priority queue a heap under the order of the requests. Each operation is
described by the requests that the queue holds after it.
-/
namespace Vllm.RequestQueue

open Heapq

inductive SchedulingPolicy where
  | fcfs
  | priority
deriving DecidableEq, Repr

variable {α : Type} (policy : SchedulingPolicy) (lt : α → α → Bool)

def addRequest (queue : List α) (request : α) : List α :=
  match policy with
  | .fcfs => queue ++ [request]
  | .priority => heappush lt queue request

def popRequest (queue : List α) : Option (α × List α) :=
  match policy with
  | .fcfs =>
    match queue with
    | [] => none
    | request :: rest => some (request, rest)
  | .priority => heappop lt queue

def peekRequest (queue : List α) : Option α := queue.head?

def prependRequest (queue : List α) (request : α) : List α :=
  -- A priority queue has no front to prepend to.
  match policy with
  | .fcfs => request :: queue
  | .priority => addRequest .priority lt queue request

def prependRequests (queue requests : List α) : List α :=
  -- A deque takes the requests in reverse order.
  match policy with
  | .fcfs => requests.reverse ++ queue
  | .priority => (popAll lt requests.length requests).foldl (addRequest .priority lt) queue

/-- The iteration over a queue: a priority queue pops a copy of its heap. -/
def iterRequests (queue : List α) : List α :=
  match policy with
  | .fcfs => queue
  | .priority => popAll lt queue.length queue

def removeRequests (queue : List α) (removed : α → Bool) : List α :=
  let kept := queue.filter fun request => !removed request
  match policy with
  | .fcfs => kept
  | .priority => heapify lt kept

variable (queue : List α) (request : α)

theorem addRequest_perm : (addRequest policy lt queue request).Perm (request :: queue) := by
  cases policy with
  | fcfs => exact List.perm_append_singleton request queue
  | priority => exact heappush_perm lt queue request

/-- Whichever the policy, a pop takes one request and keeps the others. -/
theorem popRequest_perm {queue rest : List α} {request : α}
    (h : popRequest policy lt queue = some (request, rest)) : (request :: rest).Perm queue := by
  cases policy with
  | fcfs =>
    cases queue with
    | nil => exact absurd h (by simp [popRequest])
    | cons first queue =>
      simp only [popRequest, Option.some.injEq, Prod.mk.injEq] at h
      obtain ⟨rfl, rfl⟩ := h
      exact List.Perm.refl _
  | priority => exact heappop_perm lt h

/-- A queue gives out the request at its head. -/
theorem peekRequest_of_popRequest {queue rest : List α} {request : α}
    (h : popRequest policy lt queue = some (request, rest)) : peekRequest queue = some request := by
  cases policy with
  | fcfs =>
    cases queue with
    | nil => exact absurd h (by simp [popRequest])
    | cons first queue =>
      simp only [popRequest, Option.some.injEq, Prod.mk.injEq] at h
      rw [← h.1]
      rfl
  | priority => exact head?_of_heappop lt h

theorem prependRequest_perm : (prependRequest policy lt queue request).Perm (request :: queue) := by
  cases policy with
  | fcfs => exact List.Perm.refl _
  | priority => exact addRequest_perm .priority lt queue request

theorem prependRequests_perm (queue requests : List α) :
    (prependRequests policy lt queue requests).Perm (requests ++ queue) := by
  cases policy with
  | fcfs => exact (List.reverse_perm requests).append_right queue
  | priority =>
    have hfold (items : List α) : ∀ queue : List α,
        (items.foldl (addRequest .priority lt) queue).Perm (items ++ queue) := by
      induction items with
      | nil => exact fun queue => List.Perm.refl _
      | cons item items ih =>
        intro queue
        refine (ih _).trans ?_
        refine ((addRequest_perm .priority lt queue item).append_left items).trans ?_
        exact List.perm_middle
    exact (hfold _ queue).trans ((popAll_perm lt _ requests (Nat.le_refl _)).append_right queue)

/-- Removal filters the queue; a heap is rebuilt afterwards. -/
theorem removeRequests_perm (removed : α → Bool) :
    (removeRequests policy lt queue removed).Perm
      (queue.filter fun request => !removed request) := by
  cases policy with
  | fcfs => exact List.Perm.refl _
  | priority => exact heapify_perm lt _

end Vllm.RequestQueue
