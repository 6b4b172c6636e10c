import RisingLake.Stream.Chunk

/-!
# What chunks stand for

A list of chunks stands for the changes of its visible rows, in order. A `StreamChunkBuilder` that
is given records yields chunks of whole records: no chunk ends inside an update.
-/

namespace Stream

variable {R : Type}

/-- The change a visible row stands for. -/
def OpRow.change? (x : OpRow R) : Option (Change R) :=
  if x.vis then
    match x.op with
    | .insert | .updateInsert => some (.insert x.row)
    | .delete | .updateDelete => some (.delete x.row)
  else none

def changes (chunks : List (StreamChunk R)) : List (Change R) :=
  chunks.flatten.filterMap OpRow.change?

/-- Every visible `U-` is followed, in its chunk, by the visible `U+` of its key. -/
def Paired {K : Type} (key : R → K) (chunk : StreamChunk R) : Prop :=
  ∀ i x, chunk[i]? = some x → x.vis = true → x.op = .updateDelete →
    ∃ y, chunk[i + 1]? = some y ∧ y.vis = true ∧ y.op = .updateInsert ∧ key y.row = key x.row

variable {x : OpRow R} {c : Change R}

theorem OpRow.change?_row (h : x.change? = some c) : c.row = x.row := by
  unfold change? at h
  split at h
  · split at h <;> cases h <;> rfl
  · cases h

theorem OpRow.change?_eq_some (h : x.change? = some c) :
    (x.op = .insert ∨ x.op = .updateInsert) ∧ c = .insert x.row ∨
      (x.op = .delete ∨ x.op = .updateDelete) ∧ c = .delete x.row := by
  unfold change? at h
  split at h
  · cases hop : x.op <;> rw [hop] at h <;> cases h <;> simp
  · cases h

theorem OpRow.change?_isSome : x.change?.isSome = x.vis := by
  unfold change?
  split
  · split <;> simp [*]
  · simp [*]

theorem OpRow.vis_eq {c : Option (Change R)} (h : x.change? = c) : x.vis = c.isSome := by
  rw [← h, change?_isSome]

/-! ## Records -/

def Record.rows : Record R → List (OpRow R)
  | .insert newRow => [⟨.insert, newRow, true⟩]
  | .delete oldRow => [⟨.delete, oldRow, true⟩]
  | .update oldRow newRow => [⟨.updateDelete, oldRow, true⟩, ⟨.updateInsert, newRow, true⟩]

open Record (rows)

def Record.changes (r : Record R) : List (Change R) := r.rows.filterMap OpRow.change?

@[simp] theorem Record.changes_insert (r : R) : (Record.insert r).changes = [.insert r] := rfl

@[simp] theorem Record.changes_delete (r : R) : (Record.delete r).changes = [.delete r] := rfl

@[simp] theorem Record.changes_update (old new : R) :
    (Record.update old new).changes = [.delete old, .insert new] := rfl

theorem paired_records {K : Type} {key : R → K} :
    ∀ {rs : List (Record R)}, (∀ old new, Record.update old new ∈ rs → key new = key old) →
      Paired key (rs.flatMap rows)
  | [], _ => by intro i x hx; simp at hx
  | r :: rs, h => by
    have ih := paired_records fun old new hm => h old new (.tail _ hm)
    intro i x hx hv hop
    cases r with
    | insert | delete =>
      cases i with
      | zero => simp [rows] at hx; subst hx; cases hop
      | succ i => simpa [rows] using ih i x (by simpa [rows] using hx) hv hop
    | update old new =>
      match i with
      | 0 =>
        simp [rows] at hx
        subst hx
        exact ⟨⟨.updateInsert, new, true⟩, by simp [rows], rfl, rfl, h old new (.head _)⟩
      | 1 => simp [rows] at hx; subst hx; cases hop
      | i + 2 => simpa [rows] using ih i x (by simpa [rows] using hx) hv hop

/-! ## The builder -/

namespace StreamChunkBuilder

variable {b b' : StreamChunkBuilder R}

def Room (b : StreamChunkBuilder R) : Prop := ∀ m, b.maxChunkSize = some m → b.size < m

theorem new_eq_ok {n : Nat} (h : 0 < n) :
    (new n : Res (StreamChunkBuilder R)) = .ok { pending := [], maxChunkSize := some n } := by
  simp [new, h]

theorem take_snd (b : StreamChunkBuilder R) : b.take.2 = { b with pending := [] } := by
  unfold take
  split
  · rename_i hsize
    rw [size, List.length_eq_zero_iff] at hsize
    rw [← hsize]
  · rfl

/-- What appending rows does: they become pending, or complete the chunk. -/
def Appends (b : StreamChunkBuilder R) (rows : List (OpRow R))
    (out : Option (StreamChunk R) × StreamChunkBuilder R) : Prop :=
  out.2.Room ∧ out.2.maxChunkSize = b.maxChunkSize ∧
  (out.1 = none ∧ out.2.pending = b.pending ++ rows ∨
      out.1 = some (b.pending ++ rows) ∧ out.2.pending = [])

theorem append_spec (h : b.Room) (hop : x.op ≠ .updateDelete) : b.Appends [x] (b.append x) := by
  cases hmax : b.maxChunkSize with
  | none =>
    refine ⟨?_, ?_, .inl ⟨?_, ?_⟩⟩ <;> simp [append, hmax, Room]
  | some m =>
    have hlt : b.pending.length < m := h m hmax
    unfold append
    simp only [hmax, size, List.length_append, List.length_singleton]
    by_cases hfull : b.pending.length + 1 = m
    · rw [if_pos (.inl ⟨hfull, hop⟩)]
      refine ⟨?_, ?_, .inr ⟨?_, ?_⟩⟩ <;> simp [size, take, Room, hmax]
      omega
    · rw [if_neg (by omega)]
      refine ⟨?_, ?_, .inl ⟨?_, ?_⟩⟩ <;> simp [size, Room, hmax]
      omega

theorem append_updateDelete (h : b.Room) (row : R) : b.appendRow .updateDelete row =
      (none, { b with pending := b.pending ++ [⟨.updateDelete, row, true⟩] }) := by
  cases hmax : b.maxChunkSize with
  | none => simp [appendRow, append, hmax]
  | some m =>
    have hlt : b.pending.length < m := h m hmax
    have hcond : ¬(b.pending.length + 1 > m) := by omega
    simp [appendRow, append, hmax, size, hcond]

theorem append_updateInsert (h : b.Room) (old new : R) : b.Appends (Record.update old new).rows
      (appendRow { b with pending := b.pending ++ [⟨.updateDelete, old, true⟩] }
        .updateInsert new) := by
  cases hmax : b.maxChunkSize with
  | none =>
    refine ⟨?_, ?_, .inl ⟨?_, ?_⟩⟩ <;> simp [appendRow, append, hmax, Room, rows]
  | some m =>
    have hlt : b.pending.length < m := h m hmax
    by_cases hcond : b.pending.length + 1 + 1 = m ∨ b.pending.length + 1 + 1 > m
    · refine ⟨?_, ?_, .inr ⟨?_, ?_⟩⟩ <;> simp [appendRow, append, hmax, size, take, Room, rows, hcond]
      omega
    · refine ⟨?_, ?_, .inl ⟨?_, ?_⟩⟩ <;> simp [appendRow, append, hmax, size, Room, rows, hcond]
      omega

theorem appendRecord_spec (h : b.Room) (r : Record R) :
    ∃ out, b.appendRecord r = .ok out ∧ b.Appends r.rows out := by
  cases r with
  | insert | delete => exact ⟨_, rfl, append_spec h (by simp)⟩
  | update old new =>
    refine ⟨_, ?_, append_updateInsert h old new⟩
    simp [appendRecord, append_updateDelete h]

/-- The chunks yielded so far and the pending rows hold the records, each in one piece. -/
def Holds (s : List (StreamChunk R) × StreamChunkBuilder R) (rs : List (Record R)) : Prop :=
  s.2.Room ∧ ∃ groups : List (List (Record R)), ∃ cur : List (Record R),
    s.1 = groups.map (·.flatMap rows) ∧ s.2.pending = cur.flatMap rows ∧ groups.flatten ++ cur = rs

variable {s : List (StreamChunk R) × StreamChunkBuilder R} {rs : List (Record R)}

theorem Holds.append {r : Record R} {out : Option (StreamChunk R) × StreamChunkBuilder R}
    (h : Holds s rs) (ho : s.2.Appends r.rows out) :
    Holds (s.1 ++ out.1.toList, out.2) (rs ++ [r]) := by
  obtain ⟨-, groups, cur, h1, h2, h3⟩ := h
  obtain ⟨hroom, -, ⟨hn, hp⟩ | ⟨hn, hp⟩⟩ := ho
  · exact ⟨hroom, groups, cur ++ [r], by simp [hn, h1], by simp [hp, h2], by simp [← h3]⟩
  · exact ⟨hroom, groups ++ [cur ++ [r]], [], by simp [hn, h1, h2], by simp [hp], by simp [← h3]⟩

theorem Holds.take (h : Holds s rs) : ∃ groups : List (List (Record R)),
      s.1 ++ s.2.take.1.toList = groups.map (·.flatMap rows) ∧ groups.flatten = rs := by
  obtain ⟨-, groups, cur, h1, h2, h3⟩ := h
  unfold StreamChunkBuilder.take
  split
  · rename_i hsize
    have hp : cur.flatMap rows = [] := h2 ▸ List.length_eq_zero_iff.1 hsize
    have hcur : cur = [] := by
      cases cur with
      | nil => rfl
      | cons r cur => cases r <;> simp [rows] at hp
    exact ⟨groups, by simp [h1], by simpa [hcur] using h3⟩
  · exact ⟨groups ++ [cur], by simp [h1, h2], by simpa using h3⟩

end StreamChunkBuilder

theorem changes_groups (groups : List (List (Record R))) :
    changes (groups.map (·.flatMap rows)) = groups.flatten.flatMap Record.changes := by
  simp only [changes, ← List.flatMap_id, List.flatMap_map, id_eq]
  induction groups with
  | nil => rfl
  | cons g groups ih =>
    rw [List.flatMap_cons, List.filterMap_append, ih, List.flatMap_cons, List.flatMap_append]
    rw [List.filterMap_flatMap]
    rfl

end Stream
