import NxgtData.Idempotency.Ownership
import NxgtData.Lib.Machine

/-!
At most one run works under a record, over any acts in any order. The runs that
called `work` took the key one after the other, and between two of them the first
one's record ended; and what a replay returns was stored under its fingerprint.
-/
namespace NxgtData.Idempotency

variable {J : Type} {ctx : Context J}

/-- The world after the acts. -/
def world (ctx : Context J) (acts : List (Act J)) : World J := after (World.step ctx) acts .empty

/-- What happened, in order. -/
def history (ctx : Context J) (acts : List (Act J)) : List (Entry J) :=
  (served (World.step ctx) acts .empty).filterMap Prod.snd

theorem world_snoc (acts : List (Act J)) (a : Act J) :
    world ctx (acts ++ [a]) = ((world ctx acts).step ctx a).2 := after_append ..

theorem history_snoc (acts : List (Act J)) (a : Act J) :
    history ctx (acts ++ [a]) = history ctx acts ++ ((world ctx acts).step ctx a).1.toList := by
  have last : [((world ctx acts).step ctx a).1].filterMap id =
      ((world ctx acts).step ctx a).1.toList := by
    cases ((world ctx acts).step ctx a).1 <;> rfl
  rw [history, served_append, List.filterMap_append, ← last]
  rfl

theorem run_sound (acts : List (Act J)) :
    Sound (history ctx acts) (world ctx acts) ∧ Along (Allowed ctx) (history ctx acts) := by
  induction acts using List.reverseRecOn with
  | nil => exact ⟨sound_empty, along_nil⟩
  | append_singleton acts a ih =>
      have follows : Follows ctx _ ((world ctx acts).step ctx a) := step_follows ih.1 a
      rw [world_snoc, history_snoc]
      refine ⟨follows.sound, ih.2.append fun before e later split => ?_⟩
      cases entry : ((world ctx acts).step ctx a).1 with
      | none =>
          rw [entry, Option.toList_none] at split
          cases before <;> cases split
      | some e' =>
          rw [entry, Option.toList_some] at split
          cases before with
          | nil =>
              cases split
              rw [List.append_nil]
              exact follows.allowed e entry
          | cons _ before => cases before <;> cases split

section Histories
variable {log a b c : List (Entry J)} {i j : Nat}

/-- The entry ends the record of the run `i`: it expired, it was deleted, or its run
released it after its own failure. -/
def Ends (i : Nat) (log : List (Entry J)) : Entry J → Prop
  | .released j => j = i ∧ .failed i ∈ log
  | .expired | .deleted => True
  | _ => False

/-- The run `j` took the key after `i` had, whose record ended in between. -/
def Parted (log : List (Entry J)) (i j : Nat) : Prop :=
  ∃ a b e c d, log = a ++ .took i :: b ++ e :: c ++ .took j :: d ∧ Ends i (a ++ .took i :: b) e

theorem allowed_of_mem (h : Along (Allowed ctx) log) {e : Entry J} (mem : e ∈ log) :
    ∃ a b, log = a ++ e :: b ∧ Allowed ctx a e := by
  obtain ⟨a, b, split⟩ := List.append_of_mem mem
  exact ⟨a, b, split, h a e b split⟩

/-- A run that called `work` had not given its `BEGIN` up. -/
theorem not_abandoned (h : Along (Allowed ctx) log) (called : .called i ∈ log) :
    .abandoned i ∉ log := by
  intro gone
  obtain ⟨a, b, split, -, -, before⟩ := allowed_of_mem h called
  obtain ⟨c, d, split', other⟩ := allowed_of_mem h gone
  rw [split] at split' gone
  rcases List.mem_append.mp gone with mem | mem
  · exact before mem
  · obtain ⟨m, rfl, rest⟩ | ⟨m, rfl, rest⟩ := List.append_eq_append_iff.mp split'
    · cases m with
      | nil => cases rest
      | cons e m =>
          cases rest
          exact other (by simp)
    · cases m with
      | nil => cases rest
      | cons e m =>
          cases rest
          exact before (by simp)

/-- From a run's take to another's there is an entry that ends its record. -/
theorem ends_before_take (h : Along (Allowed ctx) log) (called : .called i ∈ log) :
    ∀ b p, holder p = some i → log = p ++ b ++ .took j :: c →
      ∃ b₁ e b₂, b = b₁ ++ e :: b₂ ∧ Ends i (p ++ b₁) e := by
  intro b
  induction b with
  | nil =>
      intro p held split
      have free : holder (p ++ []) = none := h _ _ _ split
      rw [List.append_nil, held] at free
      cases free
  | cons e b ih =>
      intro p held split
      rw [List.append_assoc, List.cons_append] at split
      have allowed := h p e (b ++ .took j :: c) split
      have next : log = p ++ [e] ++ b ++ .took j :: c := by
        rw [split]
        simp
      have kept : holder (p ++ [e]) = some i → ∃ b₁ e' b₂,
          e :: b = b₁ ++ e' :: b₂ ∧ Ends i (p ++ b₁) e' := by
        intro held
        obtain ⟨b₁, e', b₂, rfl, ends⟩ := ih (p ++ [e]) held next
        exact ⟨e :: b₁, e', b₂, rfl, by simpa using ends⟩
      rw [holder_snoc, held] at kept
      cases e with
      | took k =>
          have free : holder p = none := allowed
          rw [held] at free
          cases free
      | released k =>
          obtain ⟨owns, why⟩ := allowed
          rw [held] at owns
          cases owns
          have failed : .failed i ∈ p := why.resolve_right fun gone =>
            not_abandoned h called (split ▸ List.mem_append_left _ gone)
          exact ⟨[], _, b, rfl, rfl, List.mem_append_left _ failed⟩
      | expired => exact ⟨[], _, b, rfl, trivial⟩
      | deleted => exact ⟨[], _, b, rfl, trivial⟩
      | _ => exact kept rfl

theorem parted_of_took (h : Along (Allowed ctx) log) (called : .called i ∈ log)
    (split : log = a ++ .took i :: b ++ .took j :: c) : Parted log i j := by
  have next : log = a ++ [.took i] ++ b ++ .took j :: c := by
    rw [split]
    simp
  obtain ⟨b₁, e, b₂, rfl, ends⟩ := ends_before_take h called b _ (holder_snoc a (.took i)) next
  refine ⟨a, b₁, e, b₂, c, ?_, ?_⟩
  · rw [split]
    simp
  · simpa using ends

/-- Two runs that both called `work` took the key one after the other. -/
theorem parted (h : Along (Allowed ctx) log) (ne : i ≠ j) (first : .called i ∈ log)
    (second : .called j ∈ log) : Parted log i j ∨ Parted log j i := by
  have took : ∀ {k}, .called k ∈ log → .took k ∈ log := by
    intro k called
    obtain ⟨a, b, split, mem, -⟩ := allowed_of_mem h called
    rw [split]
    exact List.mem_append_left _ mem
  obtain ⟨a, b, split⟩ := List.append_of_mem (took first)
  have other := took second
  rw [split] at other
  rcases List.mem_append.mp other with mem | mem
  · obtain ⟨c, d, rfl⟩ := List.append_of_mem mem
    exact Or.inr (parted_of_took h second split)
  · rcases List.mem_cons.mp mem with eq | mem
    · cases eq
      exact absurd rfl ne
    · obtain ⟨c, d, rfl⟩ := List.append_of_mem mem
      have next : log = a ++ .took i :: c ++ .took j :: d := by
        rw [split]
        simp
      exact Or.inl (parted_of_took h first next)

end Histories

/-- What a replay returns was stored by the run that worked it out, under the
replay's own fingerprint. -/
theorem replayed_stored {acts : List (Act J)} (h : Along (Allowed ctx) (history ctx acts)) {i : Nat} {r : Run J} {value : J}
    (sound : Sound (history ctx acts) (world ctx acts)) (run : (world ctx acts).runs i = some r)
    (phase : r.phase = .returned value true) :
    ∃ j json, .worked j json value ∈ history ctx acts ∧ .stored j r.fp.1 json ∈ history ctx acts := by
  obtain ⟨a, b, split, j, json, stored, read⟩ :=
    allowed_of_mem h (sound.replays i r value run phase)
  have mem : .stored j r.fp.1 json ∈ history ctx acts := split ▸ List.mem_append_left _ stored
  obtain ⟨c, d, split', -, value', worked⟩ := allowed_of_mem h mem
  have mem' : .worked j json value' ∈ history ctx acts := split' ▸ List.mem_append_left _ worked
  have read' : fromStored ctx json = .ok value' := by
    obtain ⟨e, f, -, read⟩ := allowed_of_mem h mem'
    exact read
  have same : value' = value := Except.ok.inj (read'.symm.trans read)
  exact ⟨j, json, same ▸ mem', mem⟩

/-- Over any acts of any runs on one key: the record has one of two shapes, two runs
that called `work` are parted by the end of the first one's record, each script
leaves alone what is not its own, and what is replayed is what was stored. -/
theorem run_once (ctx : Context J) (acts : List (Act J)) :
    (∀ k, (world ctx acts).key = some k → (∃ (token : Token) (fp : Fingerprint),
      Running token.1 fp.1 k) ∨ ∃ (fp : Fingerprint) (json : String), Done fp.1 json k) ∧
    (∀ i j, i ≠ j → .called i ∈ history ctx acts → .called j ∈ history ctx acts →
      Parted (history ctx acts) i j ∨ Parted (history ctx acts) j i) ∧
    (∀ a i fp json b, history ctx acts = a ++ .stored i fp json :: b → holder a = some i) ∧
    (∀ token key, holds token key = false → (∀ now value ttl,
      (complete now token value ttl key).2 = key) ∧ (∀ now lease, (renew now token lease key).2 = key) ∧
      (release token key).2 = key) ∧
    (∀ fp json k, Done fp json k → (∀ now token fp' lease,
      (begin now token fp' lease (some k)).2 = some k) ∧ ∀ token, holds token (some k) = false) ∧
    ∀ i r value, (world ctx acts).runs i = some r → r.phase = .returned value true →
      ∃ j json, .worked j json value ∈ history ctx acts ∧
        .stored j r.fp.1 json ∈ history ctx acts := by
  obtain ⟨sound, along⟩ : Sound _ _ ∧ Along (Allowed ctx) _ := run_sound acts
  refine ⟨fun k key => ?_, fun i j ne first second => parted along ne first second,
    fun a i fp json b split => (along a _ b split).1, fun token key other => ⟨?_, ?_, ?_⟩,
    fun fp json k done => ⟨fun now token fp' lease => ?_, fun token => done.not_holds⟩,
    fun i r value run phase => replayed_stored along sound run phase⟩
  · have kept := sound.kept
    rw [key] at kept
    cases kept with
    | @running i r _ _ _ shape => exact Or.inl ⟨r.token, r.fp, shape⟩
    | @done i r _ json _ _ shape _ => exact Or.inr ⟨r.fp, json, shape⟩
  · exact fun now value ttl => congrArg Prod.snd (complete_unheld other)
  · exact fun now lease => congrArg Prod.snd (renew_unheld other)
  · exact congrArg Prod.snd (release_unheld other)
  · exact (begin_some done.hlen now token fp' lease).1

end NxgtData.Idempotency
