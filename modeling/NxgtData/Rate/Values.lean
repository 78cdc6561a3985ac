import NxgtData.Rate.Gcra
import NxgtData.Refusal

/-!
The numeric checks of a rate, which `defineRateLimit` and a queue's `rateLimit`
share. The products are compared exactly: no rounding of a double carries one
across either bound.
-/
namespace NxgtData.Gcra

/-- `MAX_BURST_PER`. -/
def maxBurstPer : Nat := maxSafeInteger / 1000

/-- `MAX_REFILL`, ten years in milliseconds. -/
def maxRefill : Nat := 10 * 365 * 24 * 60 * 60 * 1000

/-- A rate whose numbers passed every check. -/
structure RateValues where
  limit : Count 1
  per : Count 1
  burst : Count 1
  exact : burst.1 * per.1 ≤ maxBurstPer
  refills : burst.1 * per.1 ≤ maxRefill * limit.1

/-- A `per` of one second. -/
def perSecond : Count 1 := ⟨1000, by decide⟩

def RateValues.rate (r : RateValues) : Rate := ⟨r.limit.1, r.per.1, r.burst.1⟩

/-- `isCount`, or the refusal that names the field. -/
def toCount (lead : Message) (field noun : String) (value : Js) : Except Refusal (Count 1) :=
  match value.count 1 with
  | some n => .ok n
  | none => .error (.typeError (lead ++ [.text s!" has a {field} of ", .value value,
      .text s!"; it is a whole number of {noun}, and must be at least 1"]))

/-- `checkRateValues`, with the burst resolved; `lead` is the call and the owner. -/
def checkRateValues (lead : Message) (limit : Js) (per : Js) (burst : Js) :
    Except Refusal RateValues := do
  let limit ← toCount lead "limit" "requests" limit
  let per ← toCount lead "per" "milliseconds" per
  let burst ← if burst.isUndefined then .ok limit else toCount lead "burst" "requests" burst
  if exact : burst.1 * per.1 ≤ maxBurstPer then
    if refills : burst.1 * per.1 ≤ maxRefill * limit.1 then
      .ok { limit, per, burst, exact, refills }
    else
      .error (.typeError (lead ++ [.text (" would take longer than ten years to refill from empty " ++
        "(burst × per ÷ limit); check that per is in milliseconds")]))
  else
    .error (.typeError (lead ++ [.text " has a burst of ", shown burst, .text " and a per of ",
      shown per, .text s!"ms; burst × per must be at most {maxBurstPer} for the script to count exactly"]))

end NxgtData.Gcra
