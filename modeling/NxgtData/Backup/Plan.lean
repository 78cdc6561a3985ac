import Mathlib.Data.List.Sort
import NxgtData.Backup.Rules
import NxgtData.Lib.CodeUnits

/-!
The retention plan: every candidate is kept, with its reasons, or removed. A kept backup keeps
what it builds on; under `maxTotalSize` the oldest that may go are dropped one by one, and what
is kept is worked out again after each.
-/
namespace NxgtData.Retention
open CodeUnits

deriving instance DecidableEq for Candidate

/-- One backup's fate, and why. -/
structure Decision where
  id : String
  createdAt : Int
  storedSize : Nat
  reasons : List String
  deriving DecidableEq

structure Plan where
  kept : List Decision
  removed : List Decision
  overSize : Bool
  deriving DecidableEq

/-- `RULES`, with what the policy sets. -/
def KeepPolicy.rules (policy : KeepPolicy) : List (String × Option Nat) :=
  [("last", policy.last), ("hourly", policy.hourly), ("daily", policy.daily),
    ("weekly", policy.weekly), ("monthly", policy.monthly), ("yearly", policy.yearly),
    ("within", policy.within), ("maxTotalSize", policy.maxTotalSize)]

/-- `checkPolicy`, with the text of its `TypeError`. -/
def checkPolicy (policy : KeepPolicy) (place : String) : Except String KeepPolicy :=
  match policy.rules.find? fun rule => rule.2.any fun n => n < 1 ∨ 2 ^ 53 - 1 < n with
  | some rule => .error s!"{place}: keep.{rule.1} must be a whole number, 1 or more"
  | none =>
      if policy.rules.any fun rule => rule.2.isSome then .ok policy
      else .error s!"{place}: keep must name at least one rule"

/-- The comparison of `sort`: the newest first, and of one moment the greatest id. -/
def SortsBefore (a b : Candidate) : Prop :=
  b.createdAt < a.createdAt ∨ b.createdAt = a.createdAt ∧ AtMost b.id a.id

instance : DecidableRel SortsBefore := fun a b =>
  inferInstanceAs (Decidable (b.createdAt < a.createdAt ∨
    b.createdAt = a.createdAt ∧ AtMost b.id a.id))

instance : IsTrans Candidate SortsBefore where
  trans a b c h h' := by
    rcases h with later | ⟨same, le⟩
    · rcases h' with later' | ⟨same', -⟩
      · exact .inl (by omega)
      · exact .inl (by omega)
    · rcases h' with later' | ⟨same', le'⟩
      · exact .inl (by omega)
      · exact .inr ⟨by omega, IsTrans.trans _ _ _ le' le⟩

instance : Std.Total SortsBefore where
  total a b := by
    rcases lt_trichotomy a.createdAt b.createdAt with early | same | late
    · exact .inr (.inl early)
    · rcases Std.Total.total (r := AtMost) b.id a.id with le | le
      · exact .inl (.inr ⟨same.symm, le⟩)
      · exact .inr (.inr ⟨same, le⟩)
    · exact .inl (.inl late)

/-- The reasons of each id, in the order of the candidates. -/
abbrev Reasons := List (String × List String)

namespace Reasons

/-- `reasons.get(id)`, or no reason. -/
def why (reasons : Reasons) (id : String) : List String := (reasons.lookup id).getD []

/-- `reasons.get(id)?.push(why)`. -/
def push (reasons : Reasons) (id why : String) : Reasons :=
  reasons.map fun entry => if entry.1 = id then (entry.1, entry.2 ++ [why]) else entry

end Reasons

/-- The parent of a candidate, if it is a candidate too. -/
def parentOf (newest : List Candidate) (child : Candidate) : Option Candidate :=
  child.parent.bind fun id => newest.find? fun c => c.id = id

/-- The loop of `withParents`; `pending` has the next one to pop first. -/
def spread (newest : List Candidate) : Nat → List Candidate → Reasons → Reasons
  | 0, _, reasons => reasons
  | _ + 1, [], reasons => reasons
  | fuel + 1, child :: pending, reasons =>
      match parentOf newest child with
      | none => spread newest fuel pending reasons
      | some parent =>
          let first := (reasons.why parent.id).isEmpty
          spread newest fuel (if first then parent :: pending else pending)
            (reasons.push parent.id s!"parent of {child.id}")

/-- The reasons by the rules, but of what was dropped. -/
def undropped (newest : List Candidate) (byRule : Reasons) (dropped : List String) : Reasons :=
  newest.map fun c => (c.id, if c.id ∈ dropped then [] else byRule.why c.id)

def keptOf (newest : List Candidate) (reasons : Reasons) : List Candidate :=
  newest.filter fun c => !(reasons.why c.id).isEmpty

/-- `withParents`. A candidate is visited once at most, so its loop ends within these steps. -/
def withParents (newest : List Candidate) (byRule : Reasons) (dropped : List String) : Reasons :=
  let reasons := undropped newest byRule dropped
  spread newest (2 * newest.length + 1) (keptOf newest reasons).reverse reasons

/-- The candidates that the size rule keeps whatever their size. -/
def floorOf (newest : List Candidate) (policy : KeepPolicy) (now : Int) : List Candidate :=
  (pastOf newest now).take (policy.last.getD 1)

/-- `droppable`. -/
def droppable (newest : List Candidate) (reasons : Reasons) (policy : KeepPolicy) (now : Int) :
    Option Candidate :=
  let floor := (floorOf newest policy now).map Candidate.id
  let kept := keptOf newest reasons
  kept.reverse.find? fun c => c.id ∉ floor ∧ !c.held ∧ c.createdAt ≤ now ∧
    ∀ k ∈ kept, k.parent ≠ some c.id

/-- What is kept, in bytes. -/
def total (newest : List Candidate) (reasons : Reasons) : Binary64 :=
  (keptOf newest reasons).foldl (fun sum c => sum + (c.storedSize : Binary64)) 0

/-- The loop of `plan`: the reasons, what was dropped, and `overSize`. A candidate is dropped once
at most. -/
def shrink (newest : List Candidate) (byRule : Reasons) (policy : KeepPolicy) (now : Int)
    (max : Nat) : Nat → List String → Reasons × List String × Bool
  | 0, dropped => (withParents newest byRule dropped, dropped, false)
  | fuel + 1, dropped =>
      let reasons := withParents newest byRule dropped
      if total newest reasons ≤ (max : Binary64) then (reasons, dropped, false)
      else
        match droppable newest reasons policy now with
        | none => (reasons, dropped, true)
        | some next => shrink newest byRule policy now max fuel (dropped ++ [next.id])

/-- The reasons in the end, what was dropped, and `overSize`. -/
def settled (newest : List Candidate) (policy : KeepPolicy) (now : Int) :
    Reasons × List String × Bool :=
  let byRule := byRules newest policy now
  match policy.maxTotalSize with
  | none => (withParents newest byRule [], [], false)
  | some max => shrink newest byRule policy now max (newest.length + 1) []

def decision (c : Candidate) (reasons : List String) : Decision where
  id := c.id
  createdAt := c.createdAt
  storedSize := c.storedSize
  reasons

def sortNewest (candidates : List Candidate) : List Candidate :=
  candidates.insertionSort SortsBefore

/-- `plan`, once the candidates are sorted. -/
def planOf (newest : List Candidate) (policy : KeepPolicy) (now : Int) : Plan :=
  let byRule : Reasons := byRules newest policy now
  let (reasons, dropped, overSize) := settled newest policy now
  { kept := (keptOf newest reasons).map fun c => decision c (reasons.why c.id)
    removed := (newest.filter fun c => (reasons.why c.id).isEmpty).map fun c =>
      decision c
        (if c.id ∈ dropped ∨ byRule.why c.id ≠ [] then ["over maxTotalSize"]
        else ["no rule keeps it"])
    overSize }

def plan (candidates : List Candidate) (policy : KeepPolicy) (now : Int) : Plan :=
  planOf (sortNewest candidates) policy now

end NxgtData.Retention
