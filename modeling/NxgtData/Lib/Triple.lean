import Mathlib.Logic.Basic

/-!
Programs that change a state and may fail, with the state as a failure left it, and
triples about them: from a state of `pre`, a program that returns leaves one of `post`,
and a program that fails leaves one of `fail`.
-/
namespace NxgtData

variable {σ ε α β : Type}

abbrev Program (σ ε α : Type) := ExceptT ε (StateM σ) α

namespace Program

/-- What a program gives, and the state it leaves. -/
def exec (m : Program σ ε α) (s : σ) : Except ε α × σ := StateT.run (ExceptT.run m) s

@[simp] theorem exec_pure (a : α) (s : σ) : exec (pure a : Program σ ε α) s = (.ok a, s) := rfl

@[simp] theorem exec_throw (e : ε) (s : σ) :
    exec (throw e : Program σ ε α) s = (.error e, s) := rfl

theorem exec_bind (m : Program σ ε α) (f : α → Program σ ε β) (s : σ) :
    exec (m >>= f) s =
      match exec m s with
      | (.ok a, t) => exec (f a) t
      | (.error e, t) => (.error e, t) := by
  show (StateT.run (ExceptT.run m) s >>= fun p =>
    StateT.run (ExceptT.bindCont f p.1) p.2) = _
  unfold exec
  generalize StateT.run (ExceptT.run m) s = r
  obtain ⟨_ | _, _⟩ := r <;> rfl

theorem exec_tryCatch (m : Program σ ε α) (handler : ε → Program σ ε α) (s : σ) :
    exec (tryCatch m handler) s =
      match exec m s with
      | (.ok a, t) => (.ok a, t)
      | (.error e, t) => exec (handler e) t := by
  show (StateT.run (ExceptT.run m) s >>= fun p => StateT.run (match p.1 with
    | .ok a => pure (.ok a)
    | .error e => ExceptT.run (handler e)) p.2) = _
  unfold exec
  generalize StateT.run (ExceptT.run m) s = r
  obtain ⟨_ | _, _⟩ := r <;> rfl

/-- What the state says. -/
def asks (f : σ → α) : Program σ ε α := ExceptT.mk fun s => (.ok (f s), s)

def change (f : σ → σ) : Program σ ε Unit := ExceptT.mk fun s => (.ok (), f s)

@[simp] theorem exec_asks (f : σ → α) (s : σ) :
    exec (asks f : Program σ ε α) s = (.ok (f s), s) := rfl

@[simp] theorem exec_change (f : σ → σ) (s : σ) :
    exec (change f : Program σ ε Unit) s = (.ok (), f s) := rfl

end Program

open Program

def Triple (pre : σ → Prop) (m : Program σ ε α) (post : α → σ → Prop) (fail : ε → σ → Prop) :
    Prop :=
  ∀ s, pre s →
    match m.exec s with
    | (.ok a, t) => post a t
    | (.error e, t) => fail e t

namespace Triple

variable {pre pre' : σ → Prop} {m : Program σ ε α} {post post' : α → σ → Prop}
  {fail fail' : ε → σ → Prop}

theorem conseq (h : Triple pre' m post' fail') (weak : ∀ s, pre s → pre' s)
    (strong : ∀ a s, post' a s → post a s) (failing : ∀ e s, fail' e s → fail e s) :
    Triple pre m post fail := by
  intro s before
  have after := h s (weak s before)
  split <;> rename_i eq <;> rw [eq] at after
  · exact strong _ _ after
  · exact failing _ _ after

/-- What is known before, of nothing that changes. -/
theorem assume {p : Prop} (h : p → Triple pre m post fail) :
    Triple (fun s => pre s ∧ p) m post fail := fun s before => h before.2 s before.1

theorem pure {a : α} (h : ∀ s, pre s → post a s) :
    Triple pre (Pure.pure a : Program σ ε α) post fail := h

theorem throw {e : ε} (h : ∀ s, pre s → fail e s) :
    Triple pre (MonadExcept.throw e : Program σ ε α) post fail := h

theorem asks {f : σ → α} (h : ∀ s, pre s → post (f s) s) :
    Triple pre (Program.asks f : Program σ ε α) post fail := h

theorem change {f : σ → σ} {post : Unit → σ → Prop} (h : ∀ s, pre s → post () (f s)) :
    Triple pre (Program.change f : Program σ ε Unit) post fail := h

theorem bind {f : α → Program σ ε β} {post : β → σ → Prop} (mid : α → σ → Prop)
    (first : Triple pre m mid fail) (second : ∀ a, Triple (mid a) (f a) post fail) :
    Triple pre (m >>= f) post fail := by
  intro s before
  have middle := first s before
  rw [exec_bind]
  revert middle
  generalize m.exec s = r
  intro middle
  obtain ⟨e | a, t⟩ := r
  · exact middle
  · exact second a t middle

theorem tryCatch {handler : ε → Program σ ε α} (mid : ε → σ → Prop)
    (body : Triple pre m post mid) (caught : ∀ e, Triple (mid e) (handler e) post fail) :
    Triple pre (MonadExcept.tryCatch m handler) post fail := by
  intro s before
  have middle := body s before
  rw [exec_tryCatch]
  revert middle
  generalize m.exec s = r
  intro middle
  obtain ⟨e | a, t⟩ := r
  · exact caught e t middle
  · exact middle

end Triple

end NxgtData
