import NxgtData.GridFs.Election

/-!
`putOnce` elects one copy and never breaks a stored file, over every interleaving of its
calls in which no insert of a document with chunks fails after it took effect.
-/
namespace NxgtData.GridFs

variable {β δ ι : Type} {hashing : Hashing β δ ι} {sources : Nat → Source β}
  {w w' : World β δ ι} {c : Nat}

/-- The call has not answered. -/
def World.Busy (w : World β δ ι) (c : Nat) : Prop :=
  match w.phase c with
  | .resolved _ _ | .rejected | .stopped => False
  | _ => True

/-- A call that is busy has stored no file that has chunks. -/
theorem World.Stored.empty {file : File β δ ι} (h : w.Stored hashing sources file)
    (busy : w.Busy file.by_) : (sources file.by_).written = [] := by
  cases h.rests with
  | inl empty => exact empty
  | inr rests =>
      unfold Busy at busy
      cases phase : w.phase file.by_ with
      | resolved _ _ | rejected | stopped => simp [phase] at busy
      | _ => simp [phase] at rests

theorem frame_goto (phase : Phase β δ ι) : Frame c w (w.goto c phase) where
  chunks _ _ := Iff.rfl
  files := List.Subset.refl _
  phase _ ne := if_neg ne

theorem Frame.goto (h : Frame c w w') (phase : Phase β δ ι) : Frame c w (w'.goto c phase) where
  chunks := h.chunks
  files := h.files
  phase i ne := (if_neg ne).trans (h.phase i ne)

@[simp] theorem goto_phase (phase : Phase β δ ι) : (w.goto c phase).phase c = phase := if_pos rfl

namespace Sound

/-- The files there are stay stored while a call is busy. -/
theorem kept (h : Sound hashing sources w) (busy : w.Busy c) (frame : Frame c w w')
    {file : File β δ ι} (mem : file ∈ w.files) :
    (∃ k, file.id = .put k) ∨ w'.Stored hashing sources file := by
  cases h.stored file mem with
  | inl put => exact .inl put
  | inr stored =>
      refine .inr ?_
      by_cases eq : file.by_ = c
      · have empty := stored.empty (by rw [eq]; exact busy)
        exact ⟨stored.document, by rw [empty]; exact nofun, .inl empty⟩
      · exact frame.stored eq stored

/-- A step of a busy call that stores no file. -/
theorem next (h : Sound hashing sources w) (busy : w.Busy c) (frame : Frame c w w')
    (tidy : w'.Tidy hashing sources) (files : w'.files = w.files)
    (doing : w'.Doing hashing sources c) : Sound hashing sources w' where
  tidy := tidy
  doing i := by
    by_cases eq : i = c
    · rw [eq]
      exact doing
    · exact frame.doing eq (h.doing i)
  stored file mem := h.kept busy frame (files ▸ mem)
  one := by
    rw [files]
    exact h.one

theorem goto (h : Sound hashing sources w) (busy : w.Busy c) {phase : Phase β δ ι}
    (doing : (w.goto c phase).Doing hashing sources c) :
    Sound hashing sources (w.goto c phase) :=
  h.next busy (frame_goto phase) ⟨h.tidy.written, h.tidy.unique⟩ rfl doing

theorem reject (h : Sound hashing sources w) (busy : w.Busy c) :
    Sound hashing sources (w.reject c) := by
  refine h.goto busy ?_
  simp [World.Doing]

/-- The call answers a file it found, or drops its chunks before it does. -/
theorem found (h : Sound hashing sources w) (busy : w.Busy c) {file : File β δ ι}
    (answers : w.Answers hashing sources c file) :
    Sound hashing sources (w.goto c (.dropping (some file))) ∧
      Sound hashing sources (w.goto c (.resolved file false)) := by
  constructor
  · refine h.goto busy ?_
    simp only [World.Doing, goto_phase]
    exact answers
  · refine h.goto busy ?_
    simp only [World.Doing, goto_phase]
    exact ⟨answers, nofun⟩

theorem claim (h : Sound hashing sources w) (busy : w.Busy c)
    (present : ∀ n < (sources c).written.length, w.Present c n) (retries : Nat) :
    Sound hashing sources (w.claim sources c retries) := by
  unfold World.claim
  split
  next empty =>
    refine h.goto busy ?_
    simp only [World.Doing, goto_phase, List.isEmpty_iff.mp empty]
    exact nofun
  next some =>
    refine h.goto busy ?_
    simp only [World.Doing, goto_phase]
    exact ⟨present, fun empty => some (List.isEmpty_iff.mpr empty)⟩

theorem present_of_under {n : Nat} (under : w.Under hashing sources c n) : w.Present c n := by
  obtain ⟨ch, mem, id, _⟩ := under
  exact ⟨ch, mem, id⟩

/-- A chunk goes under the id. -/
theorem moved (h : Sound hashing sources w) (busy : w.Busy c)
    (n : Nat) {phase : Phase β δ ι}
    (doing : ((w.move hashing sources c n).goto c phase).Doing hashing sources c) :
    Sound hashing sources ((w.move hashing sources c n).goto c phase) := by
  have tidy := tidy_move (n := n) (c := c) h.tidy
  exact h.next busy (frame_move.goto phase) ⟨tidy.written, tidy.unique⟩ rfl doing

section
variable [DecidableEq ι]

/-- The insert of the document, of a call with all its chunks under the id. -/
theorem insert (h : Sound hashing sources w)
    (busy : w.Busy c) (under : ∀ n < (sources c).written.length, w.Under hashing sources c n)
    (free : w.findFile hashing sources c = none) {phase : Phase β δ ι}
    (rests : ((w.insertFile hashing sources c).goto c phase).Rests sources c)
    (doing : ((w.insertFile hashing sources c).goto c phase).Doing hashing sources c) :
    Sound hashing sources ((w.insertFile hashing sources c).goto c phase) := by
  have files : (w.insertFile hashing sources c).files =
      w.files ++ [documentOf hashing sources c] := by
    simp [World.insertFile, free]
  have chunks : (w.insertFile hashing sources c).chunks = w.chunks := by
    simp [World.insertFile, free]
  have phases : (w.insertFile hashing sources c).phase = w.phase := by
    simp [World.insertFile, free]
  have frame : Frame c w ((w.insertFile hashing sources c).goto c phase) := by
    refine Frame.goto ⟨fun ch _ => by rw [chunks], ?_, fun i _ => by rw [phases]⟩ phase
    rw [files]
    exact List.subset_append_left _ _
  have new : ∀ file ∈ w.files, file.id ≠ onceIdOf hashing sources c := by
    simpa [World.findFile] using free
  refine ⟨⟨?_, ?_⟩, fun i => ?_, fun file mem => ?_, ?_⟩
  · exact chunks ▸ h.tidy.written
  · exact chunks ▸ h.tidy.unique
  · by_cases eq : i = c
    · rw [eq]
      exact doing
    · exact frame.doing eq (h.doing i)
  · change file ∈ (w.insertFile hashing sources c).files at mem
    rw [files] at mem
    cases List.mem_append.mp mem with
    | inl old => exact h.kept busy frame old
    | inr new =>
        rw [List.mem_singleton.mp new]
        refine .inr ⟨rfl, fun n lt => ?_, rests⟩
        obtain ⟨ch, there, held⟩ := under n lt
        exact ⟨ch, chunks.symm ▸ there, held⟩
  · intro file mem file' mem' same
    change file ∈ (w.insertFile hashing sources c).files at mem
    change file' ∈ (w.insertFile hashing sources c).files at mem'
    rw [files] at mem mem'
    cases List.mem_append.mp mem with
    | inl old =>
        cases List.mem_append.mp mem' with
        | inl old' => exact h.one file old file' old' same
        | inr added =>
            rw [List.mem_singleton.mp added] at same
            exact absurd same (new file old)
    | inr added =>
        cases List.mem_append.mp mem' with
        | inl old' =>
            rw [List.mem_singleton.mp added] at same
            exact absurd same.symm (new file' old')
        | inr added' =>
            exact .inr ((List.mem_singleton.mp added).trans (List.mem_singleton.mp added').symm)

theorem findFile_mem {file : File β δ ι} (eq : w.findFile hashing sources c = some file) :
    file ∈ w.files := List.mem_of_find?_eq_some eq

variable [DecidableEq δ]

omit [DecidableEq ι] in
theorem fileWithDigest_answers {file : File β δ ι}
    (eq : w.fileWithDigest hashing sources c = some file) :
    w.Answers hashing sources c file := by
  have mem := List.argmin_mem (Option.mem_def.mpr eq)
  obtain ⟨there, same⟩ := List.mem_filter.mp mem
  exact ⟨there, of_decide_eq_true same⟩

theorem answer (h : Sound hashing sources w) :
    Sound hashing sources (w.answer hashing sources c) := by
  have doing := h.doing c
  unfold World.answer
  unfold World.Doing at doing
  cases phase : w.phase c with
  | idle | resolved _ _ | rejected | stopped => exact h
  | probing =>
      have busy : w.Busy c := by simp [World.Busy, phase]
      simp only [phase] at doing
      dsimp only
      split
      next file found => exact (h.found busy (fileWithDigest_answers found)).2
      · refine h.goto busy ?_
        simp only [World.Doing, goto_phase]
        exact ⟨Nat.zero_le _, fun n => iff_of_false (doing n) (Nat.not_lt_zero n)⟩
  | writing n =>
      have busy : w.Busy c := by simp [World.Busy, phase]
      simp only [phase] at doing
      obtain ⟨le, present⟩ := doing
      dsimp only
      split
      next lt =>
        have fresh : ¬ w.Present c n := fun there => absurd ((present n).mp there) (by omega)
        have tidy := tidy_writeChunk h.tidy fresh
        refine h.next busy (frame_writeChunk.goto _) ⟨tidy.written, tidy.unique⟩ ?_ ?_
        · rw [writeChunk_eq (List.getElem?_eq_getElem lt)]
          rfl
        · simp only [World.Doing, goto_phase]
          refine ⟨lt, fun k => ?_⟩
          refine (present_writeChunk lt k).trans ?_
          rw [present k]
          omega
      next ge =>
        refine h.goto busy ?_
        simp only [World.Doing, goto_phase]
        exact fun k lt => (present k).mpr (by omega)
  | checking =>
      have busy : w.Busy c := by simp [World.Busy, phase]
      simp only [phase] at doing
      dsimp only
      split
      next file found => exact (h.found busy (fileWithDigest_answers found)).1
      · exact h.claim busy doing 1
  | movingFirst retries =>
      have busy : w.Busy c := by simp [World.Busy, phase]
      simp only [phase] at doing
      dsimp only
      split
      · refine h.goto busy ?_
        simp only [World.Doing, goto_phase]
        exact doing.1
      · have there : w.Present c 0 := doing.1 0 (List.length_pos_iff.mpr doing.2)
        have first : (w.move hashing sources c 0).Under hashing sources c 0 :=
          under_move.mpr (.inr ⟨rfl, there⟩)
        refine h.moved busy 0 ?_
        split
        next one =>
          simp only [World.Doing, goto_phase]
          intro n lt
          rw [show n = 0 by omega]
          exact first
        · simp only [World.Doing, goto_phase]
          exact ⟨fun n lt => (present_move c n).mpr (doing.1 n lt), first⟩
  | movingRest retries =>
      have busy : w.Busy c := by simp [World.Busy, phase]
      simp only [phase] at doing
      dsimp only
      split
      · exact h
      next moved =>
        refine h.goto busy ?_
        simp only [World.Doing, goto_phase]
        intro n lt
        obtain ⟨ch, mem, id⟩ := doing.1 n lt
        by_cases first : n = 0
        · rw [first]
          exact doing.2
        · refine ⟨ch, mem, id, ?_⟩
          have := fun other => moved (List.any_eq_true.mpr ⟨ch, mem, other⟩)
          simpa [id, first] using this
  | inserting retries =>
      have busy : w.Busy c := by simp [World.Busy, phase]
      simp only [phase] at doing
      dsimp only
      split
      · refine h.goto busy ?_
        simp only [World.Doing, goto_phase]
        exact fun n lt => present_of_under (doing n lt)
      next free =>
        have free : w.findFile hashing sources c = none := by simpa using free
        refine h.insert busy doing free (.inr (by simp)) ?_
        simp only [World.Doing, goto_phase]
        refine ⟨⟨?_, rfl⟩, fun _ => trivial⟩
        simp [World.insertFile, free, World.goto]
  | looking retries claimed =>
      have busy : w.Busy c := by simp [World.Busy, phase]
      simp only [phase] at doing
      dsimp only
      split
      next file found =>
        split
        next same => exact (h.found busy ⟨findFile_mem found, same⟩).1
        · exact h.reject busy
      · split
        · refine h.goto busy ?_
          simp only [World.Doing, goto_phase]
          exact doing
        · exact h
  | holding retries =>
      have busy : w.Busy c := by simp [World.Busy, phase]
      simp only [phase] at doing
      dsimp only
      split
      · refine h.goto busy ?_
        simp only [World.Doing, goto_phase]
        exact doing
      · split
        · exact h.reject busy
        · refine h.goto busy ?_
          simp only [World.Doing, goto_phase]
          exact doing
  | again retries =>
      have busy : w.Busy c := by simp [World.Busy, phase]
      simp only [phase] at doing
      dsimp only
      split
      next file found => exact (h.found busy (fileWithDigest_answers found)).1
      · exact h.claim busy doing _
  | dropping answer =>
      have busy : w.Busy c := by simp [World.Busy, phase]
      cases answer with
      | none =>
          refine h.goto busy ?_
          simp [World.Doing]
      | some file =>
          simp only [phase] at doing
          exact (h.found busy doing).2

omit [DecidableEq δ] in
theorem fail (h : Sound hashing sources w) (took : Bool)
    (sure : Sure sources w c (.fail took)) :
    Sound hashing sources (w.fail hashing sources c took) := by
  have doing := h.doing c
  unfold World.fail
  unfold World.Doing at doing
  cases phase : w.phase c with
  | idle | resolved _ _ | rejected | stopped => exact h
  | probing =>
      refine h.goto (by simp [World.Busy, phase]) ?_
      simp [World.Doing]
  | checking | movingRest _ | looking _ _ | holding _ | again _ =>
      exact h.reject (by simp [World.Busy, phase])
  | writing n =>
      have busy : w.Busy c := by simp [World.Busy, phase]
      simp only [phase] at doing
      dsimp only
      split
      · have fresh : ¬ w.Present c n :=
          fun there => absurd ((doing.2 n).mp there) (Nat.lt_irrefl n)
        have tidy := tidy_writeChunk h.tidy fresh
        refine h.next busy (frame_writeChunk.goto _) ⟨tidy.written, tidy.unique⟩ ?_ ?_
        · unfold World.writeChunk
          split
          · rfl
          · rfl
        · simp [World.Doing, World.reject]
      · exact h.reject busy
  | movingFirst retries =>
      have busy : w.Busy c := by simp [World.Busy, phase]
      dsimp only
      split
      · refine h.moved busy 0 ?_
        simp [World.Doing]
      · exact h.reject busy
  | inserting retries =>
      have busy : w.Busy c := by simp [World.Busy, phase]
      simp only [phase] at doing
      cases took with
      | false => exact h.reject busy
      | true =>
          have empty := sure retries phase
          cases free : w.findFile hashing sources c with
          | none =>
              refine h.insert busy doing free (.inl empty) ?_
              simp [World.Doing]
          | some file =>
              have same : w.insertFile hashing sources c = w := by
                simp [World.insertFile, free]
              simp only [if_true, same]
              exact h.reject busy
  | dropping answer =>
      have busy : w.Busy c := by simp [World.Busy, phase]
      cases answer with
      | none =>
          refine h.goto busy ?_
          simp [World.Doing]
      | some file =>
          simp only [phase] at doing
          exact (h.found busy doing).2

theorem step (h : Sound hashing sources w) (a : Act) (sure : Sure sources w c a) :
    Sound hashing sources (w.step hashing sources c a) := by
  have doing := h.doing c
  unfold World.Doing at doing
  cases a with
  | answer => exact h.answer
  | fail took => exact h.fail took sure
  | start =>
      simp only [World.step]
      split
      next phase =>
        simp only [phase] at doing
        refine h.goto (by simp [World.Busy, phase]) ?_
        split
        · simp only [World.Doing, goto_phase]
          exact doing
        · simp only [World.Doing, goto_phase]
          exact ⟨Nat.zero_le _, fun n => iff_of_false (doing n) (Nat.not_lt_zero n)⟩
      · exact h
  | moveRest n =>
      simp only [World.step]
      split
      next retries phase =>
        simp only [phase] at doing
        split
        · exact h
        · have tidy := tidy_move (n := n) (c := c) h.tidy
          refine h.next (by simp [World.Busy, phase]) frame_move tidy rfl ?_
          simp only [World.Doing, show (w.move hashing sources c n).phase = w.phase from rfl,
            phase]
          refine ⟨fun k lt => (present_move c k).mpr (doing.1 k lt), ?_⟩
          exact under_move.mpr (.inl doing.2)
      · exact h
  | stray n =>
      simp only [World.step]
      split
      next retries phase =>
        split
        · exact h.reject (by simp [World.Busy, phase])
        · exact h
      · exact h
  | drop n =>
      simp only [World.step]
      split
      next answer phase =>
        refine h.next (by simp [World.Busy, phase]) frame_dropChunk (tidy_dropChunk h.tidy) rfl ?_
        simp only [World.Doing, show (w.dropChunk c n).phase = w.phase from rfl, phase]
        simp only [phase] at doing
        cases answer with
        | none => trivial
        | some file => exact doing
      · exact h
  | expire =>
      simp only [World.step]
      split
      next phase => exact h.reject (by simp [World.Busy, phase])
      next phase => exact h.reject (by simp [World.Busy, phase])
      · exact h
  | stop =>
      simp only [World.step]
      split
      · exact h
      · exact h
      next notResolved notRejected =>
        by_cases stopped : w.phase c = .stopped
        · have same : w.goto c .stopped = w := by
            unfold World.goto
            congr 1
            funext i
            split
            next eq => rw [eq, stopped]
            · rfl
          rw [same]
          exact h
        · refine h.goto ?_ ?_
          · unfold World.Busy
            split
            next eq => exact notResolved _ _ eq
            next eq => exact notRejected eq
            next eq => exact stopped eq
            · trivial
          · simp [World.Doing]

end
end Sound

section Run
variable [DecidableEq δ] [DecidableEq ι]

omit [DecidableEq δ] in
theorem insertFile_files : w.files ⊆ (w.insertFile hashing sources c).files := by
  unfold World.insertFile
  split
  · exact List.Subset.refl _
  · exact List.subset_append_left _ _

omit [DecidableEq δ] [DecidableEq ι] in
theorem writeChunk_files (n : Nat) : (w.writeChunk sources c n).files = w.files := by
  unfold World.writeChunk
  split
  · rfl
  · rfl

omit [DecidableEq δ] [DecidableEq ι] in
theorem claim_files (retries : Nat) : (w.claim sources c retries).files = w.files := by
  unfold World.claim
  split
  · rfl
  · rfl

/-- A stored file stays. -/
theorem step_files (a : Act) : w.files ⊆ (w.step hashing sources c a).files := by
  intro file mem
  cases a with
  | answer =>
      simp only [World.step, World.answer]
      repeat' split
      all_goals first
        | exact mem
        | rw [claim_files]; exact mem
        | exact insertFile_files mem
        | exact (writeChunk_files _).symm ▸ mem
  | fail took =>
      simp only [World.step, World.fail]
      repeat' split
      all_goals first
        | exact mem
        | exact insertFile_files mem
        | exact (writeChunk_files _).symm ▸ mem
  | start | moveRest n | stray n | drop n | expire | stop =>
      simp only [World.step]
      repeat' split
      all_goals exact mem

theorem run_append (files : List (File β δ ι)) (acts : List (Nat × Act)) (a : Nat × Act) :
    run hashing sources files (acts ++ [a]) =
      (run hashing sources files acts).step hashing sources a.1 a.2 := by
  rw [run, List.foldl_append]
  rfl

theorem sound_nil (files : List (File β δ ι)) :
    Sound hashing sources (run hashing sources files []) := by
  have put : ∀ file ∈ (run hashing sources files []).files, ∃ k, file.id = .put k := by
    intro file mem
    obtain ⟨k, _, rfl⟩ := List.mem_mapIdx.mp mem
    exact ⟨k, rfl⟩
  refine ⟨⟨nofun, nofun⟩, fun c n => ?_, fun file mem => .inl (put file mem),
    fun file mem _ _ _ => .inl (put file mem)⟩
  rintro ⟨ch, mem, _⟩
  cases mem

/-- No act of the run is the insert of a document with chunks that failed after it took
effect. -/
def Sures (hashing : Hashing β δ ι) (sources : Nat → Source β) (files : List (File β δ ι))
    (acts : List (Nat × Act)) : Prop :=
  ∀ pre a, pre ++ [a] <+: acts → Sure sources (run hashing sources files pre) a.1 a.2

theorem sures_of_acts {files : List (File β δ ι)} {acts : List (Nat × Act)}
    (acts_ : ∀ a ∈ acts, a.2 ≠ .fail true) : Sures hashing sources files acts := by
  intro pre a le
  have mem : a ∈ acts := le.subset (List.mem_append_right _ (List.mem_singleton.mpr rfl))
  have ne := acts_ a mem
  unfold Sure
  split
  next eq => exact absurd eq ne
  · trivial

theorem run_sound {files : List (File β δ ι)} {acts : List (Nat × Act)}
    (sures : Sures hashing sources files acts) :
    Sound hashing sources (run hashing sources files acts) := by
  induction acts using List.reverseRecOn with
  | nil => exact sound_nil files
  | append_singleton acts a ih =>
      rw [run_append]
      have before := ih fun pre b le => sures pre b (le.trans (List.prefix_append _ _))
      exact before.step a.2 (sures acts a (List.prefix_refl _))

theorem run_files {files : List (File β δ ι)} {pre acts : List (Nat × Act)} (le : pre <+: acts) :
    (run hashing sources files pre).files ⊆ (run hashing sources files acts).files := by
  obtain ⟨more, rfl⟩ := le
  induction more using List.reverseRecOn with
  | nil => rw [List.append_nil]; exact List.Subset.refl _
  | append_singleton more a ih =>
      rw [← List.append_assoc, run_append]
      exact fun file mem => step_files a.2 (ih mem)

omit [DecidableEq δ] [DecidableEq ι] in
/-- The chunks of a stored file, as a reader expects them. -/
theorem World.Stored.chunk {file : File β δ ι} (h : w.Stored hashing sources file)
    (tidy : w.Tidy hashing sources) {n : Nat} (needed : n * file.chunkSize < file.length) :
    { id := (file.by_, n), filesId := file.id, n
      data := sliceOf file.chunkSize file.bytes n } ∈ w.chunks := by
  have document := h.document
  have at_ := writeChunks_get (sources file.by_).chunkSize (sources file.by_).pieces n
  have needed : n * (sources file.by_).chunkSize < (sources file.by_).pieces.flatten.length := by
    rw [document] at needed
    exact needed
  rw [if_pos needed] at at_
  obtain ⟨ch, mem, id, under⟩ := h.chunks n (List.getElem?_eq_some_iff.mp at_).1
  have written := tidy.written ch mem
  have data := written.data
  rw [id] at data
  have same : ch.data = sliceOf file.chunkSize file.bytes n := by
    rw [document]
    exact Option.some.inj (data.symm.trans at_)
  have filesId : ch.filesId = file.id := by rw [document]; exact under
  have n_ : ch.n = n := by rw [written.n, id]
  rw [← id, ← filesId, ← same]
  cases n_
  exact mem

/-- `putOnce` elects one copy and never breaks a stored file, over every interleaving of any
number of calls in which no insert of a document with chunks fails after it took effect. One
file at most is under an id that bytes decide; from the moment it is, each chunk it needs is
there with the bytes a reader expects, and stays; a call that resolves answers a file with
the digest of its bytes; and one call at most answers that it stored it. -/
theorem run_elects (hashing : Hashing β δ ι) (sources : Nat → Source β)
    (files : List (File β δ ι)) (acts : List (Nat × Act))
    (sures : Sures hashing sources files acts) :
    let w := run hashing sources files acts
    (∀ file ∈ w.files, ∀ file' ∈ w.files, ∀ i, file.id = .once i → file'.id = .once i →
      file = file') ∧
    (∀ pre, pre <+: acts → ∀ file ∈ (run hashing sources files pre).files, ∀ i,
      file.id = .once i → file ∈ w.files ∧ file = documentOf hashing sources file.by_ ∧
        ∀ n, n * file.chunkSize < file.length →
          let chunk : Chunk β ι := {
            id := (file.by_, n), filesId := file.id, n
            data := sliceOf file.chunkSize file.bytes n }
          chunk ∈ (run hashing sources files pre).chunks ∧ chunk ∈ w.chunks) ∧
    (∀ c file stored, w.phase c = .resolved file stored →
      file ∈ w.files ∧ file.digest = hashing.digest (sources c).bytes) ∧
    ∀ c c' file, w.phase c = .resolved file true → w.phase c' = .resolved file true → c = c' := by
  intro w
  have sound : Sound hashing sources w := run_sound sures
  have resolved : ∀ c file stored, w.phase c = .resolved file stored →
      w.Answers hashing sources c file ∧ (stored → file = documentOf hashing sources c) := by
    intro c file stored phase
    have doing := sound.doing c
    simpa only [World.Doing, phase] using doing
  have ofOnce : ∀ {u : World β δ ι}, Sound hashing sources u → ∀ file ∈ u.files, ∀ i,
      file.id = .once i → u.Stored hashing sources file := by
    intro u sound file mem i once
    cases sound.stored file mem with
    | inl put =>
        obtain ⟨k, put⟩ := put
        exact absurd (once.symm.trans put) nofun
    | inr stored => exact stored
  refine ⟨fun file mem file' mem' i once once' => ?_, fun pre le file mem i once => ?_,
    fun c file stored phase => (resolved c file stored phase).1, fun c c' file phase phase' => ?_⟩
  · cases sound.one file mem file' mem' (once.trans once'.symm) with
    | inl put =>
        obtain ⟨k, put⟩ := put
        exact absurd (once.symm.trans put) nofun
    | inr same => exact same
  · have before : Sound hashing sources (run hashing sources files pre) :=
      run_sound fun early a le' => sures early a (le'.trans le)
    have stored := ofOnce before file mem i once
    have later := run_files le mem
    refine ⟨later, stored.document, fun n needed => ?_⟩
    exact ⟨stored.chunk before.tidy needed, (ofOnce sound file later i once).chunk sound.tidy needed⟩
  · have one := (resolved c file true phase).2 rfl
    have two := (resolved c' file true phase').2 rfl
    exact congrArg File.by_ (one.symm.trans two)

/-- What the runs that are left out come to: the insert of a document took effect, and its call
goes on to drop the chunks of the file that it stored. -/
theorem step_unsure (h : Sound hashing sources w) {c retries : Nat}
    (phase : w.phase c = .inserting retries) (free : w.findFile hashing sources c = none) :
    let after := w.step hashing sources c (.fail true)
    documentOf hashing sources c ∈ after.files ∧ after.phase c = .dropping none ∧
      ∀ n < (sources c).written.length, after.Under hashing sources c n ∧
        ¬ (after.step hashing sources c (.drop n)).Present c n := by
  have doing := h.doing c
  rw [World.Doing, phase] at doing
  have after : w.step hashing sources c (.fail true) =
      ({ w with files := w.files ++ [documentOf hashing sources c] }).reject c := by
    simp only [World.step, World.fail, phase, if_true, World.insertFile, free, Option.isSome_none,
      Bool.false_eq_true, if_false]
  rw [after]
  refine ⟨List.mem_append_right _ (List.mem_singleton_self _), if_pos rfl, fun n lt =>
    ⟨doing n lt, ?_⟩⟩
  rintro ⟨ch, mem, id⟩
  simp only [World.step, World.reject, World.goto, if_true, World.dropChunk, List.mem_filter,
    decide_eq_true_eq] at mem
  exact mem.2 id

/-- The digest of bytes, and the id it decides, are the bytes themselves. -/
def plain : Hashing Nat (List Nat) (List Nat) := { digest := id, onceId := id }

/-- Every call is given the same three bytes, in chunks of two. -/
def threeBytes (_ : Nat) : Source Nat :=
  { pieces := [[1, 2, 3]], chunkSize := ⟨2, by decide⟩, blob := false, uploadDate := 0 }

/-- A call writes two chunks and moves them; it may then insert its document. -/
def untilInsert (c : Nat) : List (Nat × Act) :=
  [(c, .start), (c, .answer), (c, .answer), (c, .answer), (c, .answer), (c, .answer),
    (c, .moveRest 1), (c, .answer)]

/-- Two calls at once: the second one loses chunk 0, and answers the copy of the first. -/
def twoCalls : List (Nat × Act) :=
  [(1, .start), (1, .answer), (1, .answer), (1, .answer), (1, .answer)] ++ untilInsert 0 ++
    [(1, .answer), (0, .answer), (1, .answer), (1, .drop 0), (1, .drop 1), (1, .answer)]

theorem run_elects_twoCalls :
    (run plain threeBytes [] twoCalls).phase 1 = .resolved (documentOf plain threeBytes 0) false ∧
      (documentOf plain threeBytes 0).digest = [1, 2, 3] := by
  have sures : Sures plain threeBytes [] twoCalls := sures_of_acts (by decide)
  have answered : (run plain threeBytes [] twoCalls).phase 1 =
      .resolved (documentOf plain threeBytes 0) false := by
    decide
  exact ⟨answered, ((run_elects plain threeBytes [] twoCalls sures).2.2.1 1 _ false answered).2⟩

/-- The insert of the document takes effect and fails, and the call drops its chunks. -/
def lostInsert : List (Nat × Act) :=
  untilInsert 0 ++ [(0, .fail true), (0, .drop 0), (0, .drop 1), (0, .answer)]

/-- A stored file that has lost its chunks, and a second call that answers it. -/
theorem lostInsert_breaks :
    let w := run plain threeBytes [] lostInsert
    w.files = [documentOf plain threeBytes 0] ∧ w.chunks = [] ∧
      (run plain threeBytes [] (lostInsert ++ [(1, .start), (1, .answer), (1, .answer),
        (1, .answer), (1, .answer), (1, .answer)])).phase 1 =
          .resolved (documentOf plain threeBytes 0) false := by
  decide

end Run
end NxgtData.GridFs
