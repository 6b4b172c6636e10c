import RisingLake.Stream.Proof.Chunk

/-!
# Where a `StreamChunkBuilder` cuts

The builder cuts the rows it is given into chunks of its size, or of one row more when a chunk would
end between the rows of an update (`Cuts`).
-/

namespace Stream.StreamChunkBuilder

open List

variable {R : Type} {max : Nat} {b : StreamChunkBuilder R} {x : OpRow R} {calls : List (Call R)}

def Call.rows : Call R → List (OpRow R)
  | .row op r => [⟨op, r, true⟩]
  | .record r => r.rows

/-- Each `U-` is directly followed by a `U+`. -/
inductive WholeUpdates : List (Call R) → Prop where
  | nil : WholeUpdates []
  | row {op row calls} : op ≠ .updateDelete → WholeUpdates calls →
    WholeUpdates (.row op row :: calls)
  | record {record calls} : WholeUpdates calls → WholeUpdates (.record record :: calls)
  | update {old new calls} : WholeUpdates calls →
    WholeUpdates (.row .updateDelete old :: .row .updateInsert new :: calls)

/-- No update begins in the last row. -/
def EndsWhole (rows : List (OpRow R)) : Prop := ∀ x ∈ rows.getLast?, x.op ≠ .updateDelete

/-- The chunks are the rows in order, none ends inside an update, and all but the last one are full.
-/
structure Cuts (max : Nat) (rows : List (OpRow R)) (chunks : List (StreamChunk R)) : Prop where
  flatten : chunks.flatten = rows
  chunk : ∀ chunk ∈ chunks, chunk ≠ [] ∧ chunk.length ≤ max + 1 ∧ EndsWhole chunk
  full : ∀ chunk ∈ chunks.dropLast, max ≤ chunk.length

variable {chunk : StreamChunk R} {rows : List (OpRow R)}

theorem Cuts.cons {chunks : List (StreamChunk R)}
    (h : Cuts max rows chunks) (hchunk : chunk ≠ [] ∧ chunk.length ≤ max + 1 ∧ EndsWhole chunk)
    (hfull : max ≤ chunk.length) : Cuts max (chunk ++ rows) (chunk :: chunks) := by
  refine ⟨congrArg (chunk ++ ·) h.flatten, forall_mem_cons.2 ⟨hchunk, h.chunk⟩, ?_⟩
  have hrest := h.full
  cases chunks with
  | nil => simp
  | cons c cs => exact forall_mem_cons.2 ⟨hfull, hrest⟩

theorem append_cases (b : StreamChunkBuilder R) (x : OpRow R) :
    (b.append x).1 = none ∧ (b.append x).2.pending = b.pending ++ [x] ∨
      (b.append x).1 = some (b.pending ++ [x]) ∧ (b.append x).2.pending = [] ∧
        ∀ max, b.maxChunkSize = some max → max ≤ (b.pending ++ [x]).length := by
  unfold append
  dsimp only
  split
  · split
    · rename_i hmax hcut
      refine .inr ⟨by simp [take, size], by simp [take, size], fun max heq => ?_⟩
      cases hmax.symm.trans heq
      exact hcut.elim (fun h => h.1.ge) le_of_lt
    · exact .inl ⟨rfl, rfl⟩
  · exact .inl ⟨rfl, rfl⟩

theorem le_of_append (hmax : b.maxChunkSize = some max)
    (h : (b.append x).1 = some chunk) : max ≤ chunk.length := by
  rcases append_cases b x with ⟨hnone, -⟩ | ⟨hsome, -, hfull⟩
  · cases hnone.symm.trans h
  · cases hsome.symm.trans h
    exact hfull max hmax

theorem call_spec (h : b.Room) (hmax : b.maxChunkSize = some max) {c : Call R}
    (hc : ∀ row, c ≠ .row .updateDelete row) : ∃ out, b.call c = .ok out ∧ b.Appends c.rows out ∧
      (∀ chunk, out.1 = some chunk → max ≤ chunk.length) ∧ c.rows ≠ [] ∧ c.rows.length ≤ 2 ∧
      EndsWhole c.rows := by
  cases c with
  | row op row =>
    have hop : op ≠ .updateDelete := fun heq => hc row (heq ▸ rfl)
    refine ⟨_, rfl, append_spec h hop, fun _ => le_of_append hmax, ?_⟩
    simpa [Call.rows, EndsWhole] using hop
  | record record =>
    obtain ⟨out, hrun, hout⟩ := appendRecord_spec h record
    refine ⟨out, hrun, hout, fun chunk hchunk => ?_, ?_⟩
    · cases record with
      | insert | delete =>
        cases hrun
        exact le_of_append hmax hchunk
      | update old new =>
        simp only [appendRecord, append_updateDelete h] at hrun
        cases hrun
        exact le_of_append (b := ⟨b.pending ++ [_], b.maxChunkSize⟩) hmax hchunk
    · cases record <;> simp [Call.rows, Record.rows, EndsWhole]

/-- Where calls cut, whatever is pending. -/
def CutsFrom (max : Nat) (calls : List (Call R)) : Prop :=
  ∀ b : StreamChunkBuilder R, b.Room → b.maxChunkSize = some max → EndsWhole b.pending →
    ∃ chunks, b.chunks calls = .ok chunks ∧ Cuts max (b.pending ++ calls.flatMap Call.rows) chunks

theorem CutsFrom.nil : CutsFrom max ([] : List (Call R)) := by
  intro b h hmax hend
  refine ⟨_, rfl, ?_⟩
  have hlt : b.pending.length < max := h max hmax
  rw [flatMap_nil, append_nil, take]
  split
  · rename_i hsize
    rw [size, length_eq_zero_iff] at hsize
    exact ⟨hsize.symm, by simp, by simp⟩
  · rename_i hsize
    refine ⟨by simp, ?_, by simp⟩
    simpa using ⟨fun hnil => hsize (by simp [size, hnil]), by omega, hend⟩

theorem CutsFrom.cons {c : Call R} (ih : CutsFrom max calls)
    (hc : ∀ row, c ≠ .row .updateDelete row) : CutsFrom max (c :: calls) := by
  intro b h hmax hend
  obtain ⟨out, hrun, ⟨hroom, hmax', hout⟩, hfull, hne, hlen, hlast⟩ := call_spec h hmax hc
  have hends : EndsWhole (b.pending ++ c.rows) := by
    rwa [EndsWhole, getLast?_append_of_ne_nil _ hne]
  have hlt : b.pending.length < max := h max hmax
  rw [flatMap_cons, ← append_assoc, StreamChunkBuilder.chunks, hrun, Res.ok_bind]
  rcases hout with ⟨hnone, hpending⟩ | ⟨hsome, hpending⟩
  · obtain ⟨chunks, hchunks, hcuts⟩ := ih out.2 hroom (hmax'.trans hmax) (by rwa [hpending])
    rw [hpending] at hcuts
    exact ⟨chunks, by rw [hchunks, hnone]; rfl, hcuts⟩
  · obtain ⟨chunks, hchunks, hcuts⟩ :=
      ih out.2 hroom (hmax'.trans hmax) (by simp [hpending, EndsWhole])
    rw [hpending] at hcuts
    refine ⟨_ :: chunks, by rw [hchunks, hsome]; rfl,
      hcuts.cons ⟨by simp [hne], ?_, hends⟩ (hfull _ hsome)⟩
    rw [length_append]
    omega

theorem WholeUpdates.cuts (h : WholeUpdates calls) : CutsFrom max calls := by
  induction h with
  | nil => exact .nil
  | row hop _ ih => exact ih.cons (by simpa using hop)
  | record _ ih => exact ih.cons (by simp)
  | @update old new calls _ ih =>
    -- the two calls do what the record of the update does
    intro b h hmax hend
    have hrecord := ih.cons (c := .record (.update old new)) (by simp) b h hmax hend
    simp only [StreamChunkBuilder.chunks, call, appendRecord, append_updateDelete h] at hrecord ⊢
    obtain ⟨chunks, hrun, hcuts⟩ := hrecord
    exact ⟨chunks, by simpa using hrun, hcuts⟩

theorem chunks_rows (hvis : ∀ x ∈ rows, x.vis = true) (b : StreamChunkBuilder R) :
    ∃ chunks, b.chunks (rows.map fun x => .row x.op x.row) = .ok chunks ∧
      chunks.flatten = b.pending ++ rows := by
  induction rows generalizing b with
  | nil =>
    refine ⟨_, rfl, ?_⟩
    unfold take
    split <;> simp_all [size]
  | cons x rows ih =>
    obtain ⟨hx, hvis⟩ := forall_mem_cons.1 hvis
    obtain ⟨chunks, hrun, hflat⟩ := ih hvis (b.append x).2
    rw [map_cons, StreamChunkBuilder.chunks, call, Res.ok_bind, appendRow, ← hx, hrun]
    refine ⟨_, rfl, ?_⟩
    rcases append_cases b x with ⟨hout, hpending⟩ | ⟨hout, hpending, -⟩ <;> simp [hout,
      hflat, hpending]

/-- **Chunks hold whole updates.** -/
theorem chunks_hold_updates (hmax : 0 < max) :
    (∀ calls : List (Call R), WholeUpdates calls → ∃ b chunks, new max = .ok b ∧
      b.chunks calls = .ok chunks ∧
      Cuts max (calls.flatMap Call.rows) chunks) ∧
    ∀ chunk : StreamChunk R, ∃ chunks, StreamChunk.split chunk max = .ok chunks ∧
      chunks.flatten = chunk.filter (·.vis) ∧
      (WholeUpdates (StreamChunk.rows chunk) → Cuts max (chunk.filter (·.vis)) chunks) := by
  have hnew : new (R := R) max = .ok ⟨[], some max⟩ := new_eq_ok hmax
  have hcuts : ∀ calls : List (Call R), WholeUpdates calls →
      ∃ chunks, StreamChunkBuilder.chunks ⟨[], some max⟩ calls = .ok chunks ∧
        Cuts max (calls.flatMap Call.rows) chunks :=
    fun calls h => h.cuts _ (by rintro m ⟨⟩; exact hmax) rfl (by simp [EndsWhole])
  refine ⟨fun calls h => ⟨_, (hcuts calls h).imp fun _ h => ⟨hnew, h⟩⟩, fun chunk => ?_⟩
  obtain ⟨chunks, hrun, hflat⟩ := chunks_rows (fun x hx => (mem_filter.1 hx).2) ⟨[], some max⟩
  refine ⟨chunks, by rw [StreamChunk.split, hnew, Res.ok_bind, StreamChunk.rows, hrun],
    hflat, fun h => ?_⟩
  obtain ⟨chunks', hrun', hcut⟩ := hcuts _ h
  cases hrun.symm.trans hrun'
  exact ⟨hflat, hcut.chunk, hcut.full⟩

/-- An update that fills a chunk of two rows stays in it, with three rows. -/
theorem chunks_hold_updates_record : ∃ b chunks, new 2 = .ok b ∧
    b.chunks [.row .insert 7, .record (.update 8 9)] = .ok chunks ∧
    Cuts 2 ([.row .insert 7, .record (.update 8 9)].flatMap Call.rows) chunks :=
  (chunks_hold_updates (by decide)).1 _ (.row (by decide) (.record .nil))

/-- A chunk whose first update has lost its visible `U+`: the second update is cut. -/
theorem split_cuts_update :
    StreamChunk.split (R := Nat) [⟨.updateDelete, 1, true⟩, ⟨.updateInsert, 1, false⟩,
      ⟨.updateDelete, 2, true⟩, ⟨.updateInsert, 2, true⟩] 1 =
    .ok [[⟨.updateDelete, 1, true⟩, ⟨.updateDelete, 2, true⟩], [⟨.updateInsert, 2, true⟩]] := by
  rfl

end Stream.StreamChunkBuilder
