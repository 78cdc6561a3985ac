import NxgtData.GridFs.Once

/-!
What holds of each call and of each file stored. A call's chunks are its own: only it
moves or deletes them, and it does neither once its document is in.
-/
namespace NxgtData.GridFs

variable {β δ ι : Type} {hashing : Hashing β δ ι} {sources : Nat → Source β}

/-- Chunk `n` of the call is in the bucket. -/
def World.Present (w : World β δ ι) (c n : Nat) : Prop := ∃ ch ∈ w.chunks, ch.id = (c, n)

/-- Chunk `n` of the call is under the id that its bytes decide. -/
def World.Under (hashing : Hashing β δ ι) (sources : Nat → Source β) (w : World β δ ι)
    (c n : Nat) : Prop :=
  ∃ ch ∈ w.chunks, ch.id = (c, n) ∧ ch.filesId = onceIdOf hashing sources c

/-- A file the call may answer. -/
def World.Answers (hashing : Hashing β δ ι) (sources : Nat → Source β) (w : World β δ ι)
    (c : Nat) (file : File β δ ι) : Prop :=
  file ∈ w.files ∧ file.digest = hashing.digest (sources c).bytes

/-- What a call has done when it is where it is. -/
def World.Doing (hashing : Hashing β δ ι) (sources : Nat → Source β) (w : World β δ ι)
    (c : Nat) : Prop :=
  match w.phase c with
  | .idle | .probing => ∀ n, ¬ w.Present c n
  | .writing k => k ≤ (sources c).written.length ∧ ∀ n, w.Present c n ↔ n < k
  | .checking | .looking _ _ | .holding _ | .again _ =>
      ∀ n < (sources c).written.length, w.Present c n
  | .movingFirst _ =>
      (∀ n < (sources c).written.length, w.Present c n) ∧ (sources c).written ≠ []
  | .movingRest _ =>
      (∀ n < (sources c).written.length, w.Present c n) ∧ w.Under hashing sources c 0
  | .inserting _ => ∀ n < (sources c).written.length, w.Under hashing sources c n
  | .dropping (some file) => w.Answers hashing sources c file
  | .resolved file stored =>
      w.Answers hashing sources c file ∧ (stored → file = documentOf hashing sources c)
  | .dropping none | .rejected | .stopped => True

/-- A chunk as its call wrote it, under the call's own id or the one the bytes decide. -/
structure Chunk.Written (hashing : Hashing β δ ι) (sources : Nat → Source β)
    (ch : Chunk β ι) : Prop where
  data : (sources ch.id.1).written[ch.id.2]? = some ch.data
  n : ch.n = ch.id.2
  filesId : ch.filesId = .own ch.id.1 ∨ ch.filesId = onceIdOf hashing sources ch.id.1

/-- A call that touches no chunk of its own any more, or has none. -/
def World.Rests (sources : Nat → Source β) (w : World β δ ι) (c : Nat) : Prop :=
  (sources c).written = [] ∨
    match w.phase c with
    | .resolved _ _ | .rejected | .stopped => True
    | _ => False

/-- A file stored under an id that bytes decide: its call's document, with its chunks. -/
structure World.Stored (hashing : Hashing β δ ι) (sources : Nat → Source β) (w : World β δ ι)
    (file : File β δ ι) : Prop where
  document : file = documentOf hashing sources file.by_
  chunks : ∀ n < (sources file.by_).written.length, w.Under hashing sources file.by_ n
  rests : w.Rests sources file.by_

/-- Each chunk is as its call wrote it, and an `_id` is of one chunk. -/
structure World.Tidy (hashing : Hashing β δ ι) (sources : Nat → Source β) (w : World β δ ι) :
    Prop where
  written : ∀ ch ∈ w.chunks, ch.Written hashing sources
  unique : ∀ ch ∈ w.chunks, ∀ ch' ∈ w.chunks, ch.id = ch'.id → ch = ch'

structure Sound (hashing : Hashing β δ ι) (sources : Nat → Source β) (w : World β δ ι) :
    Prop where
  tidy : w.Tidy hashing sources
  doing : ∀ c, w.Doing hashing sources c
  stored : ∀ file ∈ w.files, (∃ k, file.id = .put k) ∨ w.Stored hashing sources file
  one : ∀ file ∈ w.files, ∀ file' ∈ w.files, file.id = file'.id →
    (∃ k, file.id = .put k) ∨ file = file'

/-- An insert of the document that fails does not take effect, where there are chunks. -/
def Sure (sources : Nat → Source β) (w : World β δ ι) (c : Nat) : Act → Prop
  | .fail true => ∀ retries, w.phase c = .inserting retries → (sources c).written = []
  | _ => True

section Frame
variable {w w' : World β δ ι} {c : Nat}

/-- What call `c` may have done to the bucket: something to chunks of its own, a file more,
and a phase of its own. -/
structure Frame (c : Nat) (w w' : World β δ ι) : Prop where
  chunks : ∀ ch, ch.id.1 ≠ c → (ch ∈ w'.chunks ↔ ch ∈ w.chunks)
  files : w.files ⊆ w'.files
  phase : ∀ i, i ≠ c → w'.phase i = w.phase i

namespace Frame

theorem present (h : Frame c w w') {i : Nat} (ne : i ≠ c) (n : Nat) :
    w'.Present i n ↔ w.Present i n := by
  constructor
  · rintro ⟨ch, mem, id⟩
    exact ⟨ch, (h.chunks ch (by simpa [id] using ne)).mp mem, id⟩
  · rintro ⟨ch, mem, id⟩
    exact ⟨ch, (h.chunks ch (by simpa [id] using ne)).mpr mem, id⟩

theorem under (h : Frame c w w') {i : Nat} (ne : i ≠ c) (n : Nat) :
    w'.Under hashing sources i n ↔ w.Under hashing sources i n := by
  constructor
  · rintro ⟨ch, mem, id, under⟩
    exact ⟨ch, (h.chunks ch (by simpa [id] using ne)).mp mem, id, under⟩
  · rintro ⟨ch, mem, id, under⟩
    exact ⟨ch, (h.chunks ch (by simpa [id] using ne)).mpr mem, id, under⟩

theorem answers (h : Frame c w w') {i : Nat} {file : File β δ ι}
    (answers : w.Answers hashing sources i file) : w'.Answers hashing sources i file :=
  ⟨h.files answers.1, answers.2⟩

theorem doing (h : Frame c w w') {i : Nat} (ne : i ≠ c) (doing : w.Doing hashing sources i) :
    w'.Doing hashing sources i := by
  unfold World.Doing at doing ⊢
  rw [h.phase i ne]
  cases phase : w.phase i with
  | idle | probing | writing _ | checking | looking _ _ | holding _ | again _ =>
      simp only [phase, h.present ne] at doing ⊢
      exact doing
  | movingFirst _ | movingRest _ | inserting _ =>
      simp only [phase, h.present ne, h.under ne] at doing ⊢
      exact doing
  | dropping answer =>
      cases answer with
      | none => trivial
      | some file =>
          simp only [phase] at doing
          exact h.answers doing
  | resolved file stored =>
      simp only [phase] at doing
      exact ⟨h.answers doing.1, doing.2⟩
  | rejected | stopped => trivial

theorem stored (h : Frame c w w') {file : File β δ ι} (ne : file.by_ ≠ c)
    (stored : w.Stored hashing sources file) : w'.Stored hashing sources file where
  document := stored.document
  chunks n lt := (h.under ne n).mpr (stored.chunks n lt)
  rests := by
    have rests := stored.rests
    unfold World.Rests at rests ⊢
    rw [h.phase _ ne]
    exact rests

end Frame
end Frame

section Chunks
variable {w : World β δ ι} {c n : Nat}

theorem mem_move {ch : Chunk β ι} : ch ∈ (w.move hashing sources c n).chunks ↔
    ∃ old ∈ w.chunks, (if old.id = (c, n) then
      { old with filesId := onceIdOf hashing sources c } else old) = ch := by
  simp only [World.move, List.mem_map]

/-- A move leaves every chunk its `_id`. -/
theorem moved_id (old : Chunk β ι) : (if old.id = (c, n) then
    { old with filesId := onceIdOf hashing sources c } else old).id = old.id := by
  split
  · rfl
  · rfl

theorem tidy_move (h : w.Tidy hashing sources) :
    (w.move hashing sources c n).Tidy hashing sources where
  written ch mem := by
    obtain ⟨old, there, rfl⟩ := mem_move.mp mem
    have written := h.written old there
    split
    next id => exact ⟨written.data, written.n, .inr (by rw [id])⟩
    · exact written
  unique ch mem ch' mem' same := by
    obtain ⟨old, there, rfl⟩ := mem_move.mp mem
    obtain ⟨old', there', rfl⟩ := mem_move.mp mem'
    rw [moved_id, moved_id] at same
    rw [h.unique old there old' there' same]

theorem present_move (i k : Nat) :
    (w.move hashing sources c n).Present i k ↔ w.Present i k := by
  constructor
  · rintro ⟨ch, mem, id⟩
    obtain ⟨old, there, rfl⟩ := mem_move.mp mem
    rw [moved_id] at id
    exact ⟨old, there, id⟩
  · rintro ⟨old, mem, id⟩
    refine ⟨_, mem_move.mpr ⟨old, mem, rfl⟩, ?_⟩
    rw [moved_id]
    exact id

/-- A chunk that is there is under the id once it is moved, and stays there. -/
theorem under_move {k : Nat} :
    (w.move hashing sources c n).Under hashing sources c k ↔
      w.Under hashing sources c k ∨ k = n ∧ w.Present c n := by
  constructor
  · rintro ⟨ch, mem, id, under⟩
    obtain ⟨old, there, rfl⟩ := mem_move.mp mem
    rw [moved_id] at id
    by_cases here : old.id = (c, n)
    · cases id.symm.trans here
      exact .inr ⟨rfl, old, there, id⟩
    · rw [if_neg here] at under
      exact .inl ⟨old, there, id, under⟩
  · rintro (⟨old, mem, id, under⟩ | ⟨rfl, old, mem, id⟩)
    · refine ⟨_, mem_move.mpr ⟨old, mem, rfl⟩, ?_, ?_⟩
      · rw [moved_id]
        exact id
      · split
        · rfl
        · exact under
    · refine ⟨_, mem_move.mpr ⟨old, mem, rfl⟩, ?_, ?_⟩
      · rw [moved_id]
        exact id
      · rw [if_pos id]

theorem frame_move : Frame c w (w.move hashing sources c n) where
  chunks ch ne := by
    rw [mem_move]
    constructor
    · rintro ⟨old, mem, rfl⟩
      rw [moved_id] at ne
      rw [if_neg fun id => ne (by rw [id])]
      exact mem
    · intro mem
      exact ⟨ch, mem, if_neg fun id => ne (by rw [id])⟩
  files := List.Subset.refl _
  phase _ _ := rfl

theorem writeChunk_eq {data : List β} (at_ : (sources c).written[n]? = some data) :
    w.writeChunk sources c n =
      { w with chunks := w.chunks ++ [{ id := (c, n), filesId := .own c, n, data }] } := by
  simp only [World.writeChunk, at_]

theorem tidy_writeChunk (h : w.Tidy hashing sources) (fresh : ¬ w.Present c n) :
    (w.writeChunk sources c n).Tidy hashing sources := by
  cases at_ : (sources c).written[n]? with
  | none => simpa only [World.writeChunk, at_] using h
  | some data =>
      rw [writeChunk_eq at_]
      refine ⟨fun ch mem => ?_, fun ch mem ch' mem' same => ?_⟩
      · cases List.mem_append.mp mem with
        | inl old => exact h.written ch old
        | inr new =>
            rw [List.mem_singleton.mp new]
            exact ⟨at_, rfl, .inl rfl⟩
      · cases List.mem_append.mp mem with
        | inl old =>
            cases List.mem_append.mp mem' with
            | inl old' => exact h.unique ch old ch' old' same
            | inr new' =>
                rw [List.mem_singleton.mp new'] at same
                exact absurd ⟨ch, old, same⟩ fresh
        | inr new =>
            cases List.mem_append.mp mem' with
            | inl old' =>
                rw [List.mem_singleton.mp new] at same
                exact absurd ⟨ch', old', same.symm⟩ fresh
            | inr new' => rw [List.mem_singleton.mp new, List.mem_singleton.mp new']

theorem present_writeChunk (lt : n < (sources c).written.length) (k : Nat) :
    (w.writeChunk sources c n).Present c k ↔ w.Present c k ∨ k = n := by
  rw [writeChunk_eq (List.getElem?_eq_getElem lt)]
  simp only [World.Present, List.mem_append, List.mem_singleton, or_and_right, exists_or,
    exists_eq_left, Prod.mk.injEq, true_and, eq_comm]

theorem frame_writeChunk : Frame c w (w.writeChunk sources c n) := by
  cases at_ : (sources c).written[n]? with
  | none =>
      rw [World.writeChunk, at_]
      exact ⟨fun _ _ => Iff.rfl, List.Subset.refl _, fun _ _ => rfl⟩
  | some data =>
      rw [writeChunk_eq at_]
      refine ⟨fun ch ne => ?_, List.Subset.refl _, fun _ _ => rfl⟩
      constructor
      · intro mem
        cases List.mem_append.mp mem with
        | inl old => exact old
        | inr new =>
            rw [List.mem_singleton.mp new] at ne
            exact absurd rfl ne
      · exact List.mem_append_left _

theorem tidy_dropChunk (h : w.Tidy hashing sources) : (w.dropChunk c n).Tidy hashing sources where
  written ch mem := h.written ch (List.mem_of_mem_filter mem)
  unique ch mem ch' mem' :=
    h.unique ch (List.mem_of_mem_filter mem) ch' (List.mem_of_mem_filter mem')

theorem frame_dropChunk : Frame c w (w.dropChunk c n) where
  chunks ch ne := by
    rw [World.dropChunk, List.mem_filter]
    constructor
    · exact And.left
    · intro mem
      refine ⟨mem, ?_⟩
      rw [decide_eq_true_eq]
      rintro id
      exact ne (by rw [id])
  files := List.Subset.refl _
  phase _ _ := rfl

end Chunks
end NxgtData.GridFs
