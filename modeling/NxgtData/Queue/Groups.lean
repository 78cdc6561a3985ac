import NxgtData.Queue.State

/-!
`GROUP_FN`: the helpers through which every script writes `ready`, its group
mirrors, the active counters and the round-robin list. An ungrouped queue
writes no group key.
-/
namespace NxgtData.Queue
open Decimal

/-- Whether a stored `group` is absent, `''`, or a name of at most 768 bytes
without a colon or braces. -/
def groupSound : Option String → Bool
  | none => true
  | some g =>
      g = "" || (g.utf8ByteSize ≤ 768 &&
        !g.toList.any fun c => c = ':' || c = '\x7b' || c = '\x7d')

namespace GroupKeys
variable (m : GroupArgs)

def hasSlot (g : String) (k : GroupKeys) : Bool :=
  if g = "" ∨ m.concurrency = 0 then true else (k.active g).getD 0 < m.concurrency

def rrPush (g : String) (k : GroupKeys) : GroupKeys :=
  if g ∈ k.queued then k
  else { k with queued := k.queued.add () g, list := k.list ++ [g] }

def rrTake (k : GroupKeys) : Option (String × GroupKeys) :=
  match k.list with
  | [] => none
  | g :: rest => some (g, { k with list := rest, queued := k.queued.rem g })

def slotTaken (g : String) (k : GroupKeys) : GroupKeys :=
  if m.grouped ∧ g ≠ "" then
    { k with active := Function.update k.active g (some ((k.active g).getD 0 + 1)) }
  else k

/-- The counter of `g` as `slot_freed` leaves it: `DECR`, or `DEL` at the last one. -/
def uncount (g : String) (k : GroupKeys) : GroupKeys :=
  if g = "" then k
  else
    let held := (k.active g).getD 0
    if held > 1 then { k with active := Function.update k.active g (some (held - 1)) }
    else if held = 1 then { k with active := Function.update k.active g none }
    else k

def slotFreed (g : String) (k : GroupKeys) : Bool × GroupKeys :=
  if !m.grouped then (false, k)
  else
    let k := k.uncount g
    if (k.ready g).card = 0 || !k.hasSlot m g then (false, k) else (true, k.rrPush g)

/-- The group's part of `ready_add`; answers whether the job is claimable now. -/
def readyAdd (id : String) (score : Nat) (g : String) (k : GroupKeys) : Bool × GroupKeys :=
  if !m.grouped then (true, k)
  else
    let k := { k with ready := Function.update k.ready g ((k.ready g).add score id) }
    if !k.hasSlot m g then (false, k) else (true, k.rrPush g)

/-- The group's part of `ready_rem`. -/
def readyRem (id g : String) (k : GroupKeys) : GroupKeys :=
  if m.grouped then { k with ready := Function.update k.ready g ((k.ready g).rem id) } else k

end GroupKeys

/-- The group a hash names, `''` when absent or unsound. -/
def JobHash.groupName (h : JobHash) : String :=
  match h.group with
  | some g => if groupSound (some g) then g else ""
  | none => ""

namespace Board
variable (m : GroupArgs)

/-- `group_of`. -/
def groupOf (id : String) (b : Board) : String := (b.hmget id).groupName

/-- `ready_add`: `ready` and its mirror; answers whether the job is claimable now. -/
def readyAdd (id : String) (score : Nat) (g : String) (b : Board) : Bool × Board :=
  let (claimable, groups) := b.groups.readyAdd m id score g
  (claimable, { b with ready := b.ready.add score id, groups })

def readyRem (id g : String) (b : Board) : Board :=
  { b with ready := b.ready.rem id, groups := b.groups.readyRem m id g }

/-- `ZREM active`, and `slot_freed` when it answered 1. -/
def activeRem (id g : String) (b : Board) : Bool × Board :=
  if id ∈ b.active then
    let (freed, groups) := b.groups.slotFreed m g
    (freed, { b with active := b.active.rem id, groups })
  else (false, b)

end Board

/-- `groupModeCheck`: an absent marker is set, the same mode passes, and a
different one is refused before anything is written. -/
def Keys.groupModeCheck (m : GroupArgs) (q : Keys) : Option Keys :=
  match q.groupsMode with
  | some held => if held ≠ m.mode then none else some q
  | none => some { q with groupsMode := some m.mode }

end NxgtData.Queue
