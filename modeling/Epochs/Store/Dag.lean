import Epochs.Store.DiskStore

/-! Graph algorithms over the commits of a store. -/

namespace Epochs.DiskStore

open Lib

variable [Blake3]

def collectAncestors (fuel : Nat) (start : Hash) : Run EpochsError DiskStore (List Hash) :=
  walkParents fuel [start] []

def enqueueNew (queue visited : List Hash) : List Hash → List Hash × List Hash
  | [] => (queue, visited)
  | hash :: rest =>
    if hash ∈ visited then enqueueNew queue visited rest
    else enqueueNew (queue ++ [hash]) (visited ++ [hash]) rest

def searchParents (targets : List Hash)
    : (fuel : Nat) → (queue visited : List Hash) → Run EpochsError DiskStore (Option Hash)
  | _, [], _ => pure none
  | 0, _ :: _, _ => throw .fuel
  | fuel + 1, current :: queue, visited =>
    if current ∈ targets then
      pure (some current)
    else do
      let commit ← loadCommit current
      let (queue, visited) := enqueueNew queue visited commit.parents
      searchParents targets fuel queue visited

def mergeBase (fuel : Nat) (first second : Hash) : Run EpochsError DiskStore (Option Hash) := do
  if first = second then
    pure (some first)
  else do
    let ancestors ← collectAncestors fuel first
    searchParents ancestors fuel [second] [second]

def isAncestor (fuel : Nat) (ancestor descendant : Hash) : Run EpochsError DiskStore Bool := do
  if ancestor = descendant then
    pure true
  else do
    let ancestors ← collectAncestors fuel descendant
    pure (ancestors.contains ancestor)

def enqueueAt (depth : Nat) (queue : List (Hash × Nat)) (visited : List Hash)
    : List Hash → List (Hash × Nat) × List Hash
  | [] => (queue, visited)
  | hash :: rest =>
    if hash ∈ visited then enqueueAt depth queue visited rest
    else enqueueAt depth (queue ++ [(hash, depth)]) (visited ++ [hash]) rest

def climbParents (maxDepth : Nat)
    : (fuel : Nat) → (queue : List (Hash × Nat)) → (visited result : List Hash)
      → Run EpochsError DiskStore (List Hash)
  | _, [], _, result => pure result
  | 0, _ :: _, _, _ => throw .fuel
  | fuel + 1, (current, depth) :: queue, visited, result => do
    let result := if 0 < depth then result ++ [current] else result
    if maxDepth ≤ depth then
      climbParents maxDepth fuel queue visited result
    else do
      let commit ← (loadCommit current).mapErr fun _ => .commitNotFound current
      let (queue, visited) := enqueueAt (depth + 1) queue visited commit.parents
      climbParents maxDepth fuel queue visited result

def ancestorsWithinDepth (fuel : Nat) (start : Hash) (maxDepth : Nat)
    : Run EpochsError DiskStore (List Hash) :=
  if maxDepth = 0 then pure []
  else climbParents maxDepth fuel [(start, 0)] [start] []

end Epochs.DiskStore
