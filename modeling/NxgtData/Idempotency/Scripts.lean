import Mathlib.Data.String.Basic

/-!
The four scripts of an idempotent run over its key: `BEGIN`, `COMPLETE`, `RENEW`
and `RELEASE`. A hash keeps the four fields they know and counts the others, so
that what the package could not have written can be told from what it wrote.
-/
namespace NxgtData.Idempotency

structure Hash where
  state : Option String := none
  token : Option String := none
  fp : Option String := none
  value : Option String := none
  /-- How many fields it has besides. -/
  others : Nat := 0
  deriving DecidableEq, Repr

/-- A hash and the last ms it is there, `none` without an expiry. -/
structure Key where
  hash : Hash
  expires : Option Nat
  deriving DecidableEq, Repr

/-- `HLEN`. -/
def Hash.hlen (h : Hash) : Nat :=
  (h.state.toList ++ h.token.toList ++ h.fp.toList ++ h.value.toList).length + h.others

/-- `PTTL`. -/
def Key.pttl (k : Key) (now : Nat) : Int :=
  match k.expires with
  | none => -1
  | some expires => max 0 ((expires : Int) - now)

/-- `#s == n and string.match(s, '^[0-9a-f]+$')`. -/
def isHex (n : Nat) (s : String) : Bool :=
  s.utf8ByteSize = n && !s.toList.isEmpty &&
    s.toList.all fun c => c.isDigit || decide ('a' ≤ c) && decide (c ≤ 'f')

/-- What `BEGIN` found. -/
inductive Begun where
  | started
  | mismatch
  | corrupt
  | running (pttl : Nat)
  | done (value : String)
  deriving DecidableEq, Repr

/-- The hash of a running record. -/
def Hash.isRunning (h : Hash) : Bool :=
  h.state = some "running" && h.value.isNone && h.token.any (isHex 32)

/-- The hash of a finished record. -/
def Hash.isDone (h : Hash) : Bool := h.state = some "done" && h.token.isNone && h.value.isSome

/-- `BEGIN`, at the server's clock in ms. -/
def begin (now : Nat) (token fp : String) (lease : Nat) (key : Option Key) : Begun × Option Key :=
  let hash := (key.map Key.hash).getD {}
  if hash.hlen = 0 then
    (.started, some
      ⟨{ hash with state := some "running", token := some token, fp := some fp },
        some (now + lease)⟩)
  else if hash.hlen ≠ 3 then (.corrupt, key)
  else
    let pttl := (key.map fun k => k.pttl now).getD (-2)
    if pttl ≤ 0 || hash.fp.isNone then (.corrupt, key)
    else if !hash.fp.any fun fp => fp = "" || isHex 64 fp then (.corrupt, key)
    else if !hash.isRunning && !hash.isDone then (.corrupt, key)
    else if hash.fp ≠ some fp then (.mismatch, key)
    else if hash.isRunning then (.running pttl.toNat, key)
    else (.done (hash.value.getD ""), key)

/-- Whether the record runs under `token`, as three scripts ask. -/
def holds (token : String) (key : Option Key) : Bool :=
  key.any fun k => k.hash.state = some "running" && k.hash.token = some token

/-- `COMPLETE`, with `ttl` in seconds. -/
def complete (now : Nat) (token value : String) (ttl : Nat) (key : Option Key) :
    Bool × Option Key :=
  if !holds token key then (false, key)
  else
    (true, key.map fun k =>
      ⟨{ k.hash with state := some "done", value := some value, token := none },
        some (now + ttl * 1000)⟩)

/-- `RENEW`, with `lease` in ms. -/
def renew (now : Nat) (token : String) (lease : Nat) (key : Option Key) : Bool × Option Key :=
  if !holds token key then (false, key)
  else (true, key.map fun k => { k with expires := some (now + lease) })

/-- `RELEASE`. -/
def release (token : String) (key : Option Key) : Bool × Option Key :=
  if holds token key then (true, none) else (false, key)

/-! The two shapes of a record. -/

/-- `state`, `token` and `fp`, with an expiry. -/
structure Running (token fp : String) (k : Key) : Prop where
  hash : k.hash = { state := some "running", token := some token, fp := some fp }
  expires : k.expires.isSome

/-- `state`, `fp` and `value`, with an expiry. -/
structure Done (fp value : String) (k : Key) : Prop where
  hash : k.hash = { state := some "done", fp := some fp, value := some value }
  expires : k.expires.isSome

section Shapes
variable {now lease ttl : Nat} {token token' fp value : String} {k : Key} {key : Option Key}

theorem Running.holds_iff (h : Running token fp k) : holds token' (some k) = true ↔ token = token' := by
  simp [holds, h.hash]

theorem Done.not_holds (h : Done fp value k) : holds token (some k) = false := by
  simp [holds, h.hash]

/-- A record of either shape stays as it is, and is not taken. -/
theorem begin_some (three : k.hash.hlen = 3) (now : Nat) (token fp : String) (lease : Nat) :
    (begin now token fp lease (some k)).2 = some k ∧
      (begin now token fp lease (some k)).1 ≠ .started := by
  unfold begin
  simp only [Option.map_some, Option.getD_some]
  rw [if_neg (by omega), if_neg (by omega)]
  split
  next => exact ⟨rfl, nofun⟩
  next =>
    split
    next => exact ⟨rfl, nofun⟩
    next =>
      split
      next => exact ⟨rfl, nofun⟩
      next =>
        split
        next => exact ⟨rfl, nofun⟩
        next =>
          split
          next => exact ⟨rfl, nofun⟩
          next => exact ⟨rfl, nofun⟩

theorem Running.hlen (h : Running token fp k) : k.hash.hlen = 3 := by rw [h.hash]; rfl

theorem Done.hlen (h : Done fp value k) : k.hash.hlen = 3 := by rw [h.hash]; rfl

/-- What `BEGIN` answers as done is the value stored, under its own fingerprint. -/
theorem begin_done (found : (begin now token fp lease (some k)).1 = .done value) :
    k.hash.isDone = true ∧ k.hash.fp = some fp ∧ k.hash.value.getD "" = value := by
  unfold begin at found
  simp only [Option.map_some, Option.getD_some] at found
  split at found
  next => cases found
  next =>
    split at found
    next => cases found
    next =>
      split at found
      next => cases found
      next =>
        split at found
        next => cases found
        next =>
          split at found
          next => cases found
          next kinds =>
            split at found
            next => cases found
            next same =>
              split at found
              next => cases found
              next stopped =>
                cases found
                refine ⟨?_, not_not.mp same, rfl⟩
                simpa [stopped] using kinds

/-! `COMPLETE`, `RENEW` and `RELEASE` change only the record that runs under their token. -/

theorem complete_unheld (other : holds token key = false) :
    complete now token value ttl key = (false, key) := by
  rw [complete, other]
  rfl

theorem renew_unheld (other : holds token key = false) :
    renew now token lease key = (false, key) := by
  rw [renew, other]
  rfl

theorem release_unheld (other : holds token key = false) : release token key = (false, key) := by
  rw [release, other]
  rfl

theorem Running.complete (h : Running token fp k) (now : Nat) (value : String) (ttl : Nat) :
    ∃ k', Idempotency.complete now token value ttl (some k) = (true, some k') ∧ Done fp value k' := by
  have held : holds token (some k) = true := h.holds_iff.mpr rfl
  refine ⟨⟨{ k.hash with state := some "done", value := some value, token := none },
    some (now + ttl * 1000)⟩, ?_, ?_, rfl⟩
  · rw [Idempotency.complete, held]
    rfl
  · rw [h.hash]

theorem Running.renew (h : Running token fp k) (now lease : Nat) :
    ∃ k', Idempotency.renew now token lease (some k) = (true, some k') ∧ Running token fp k' := by
  have held : holds token (some k) = true := h.holds_iff.mpr rfl
  refine ⟨{ k with expires := some (now + lease) }, ?_, h.hash, rfl⟩
  rw [Idempotency.renew, held]
  rfl

theorem Running.release (h : Running token fp k) :
    Idempotency.release token (some k) = (true, none) := by
  rw [Idempotency.release, h.holds_iff.mpr rfl]
  rfl

end Shapes
end NxgtData.Idempotency
