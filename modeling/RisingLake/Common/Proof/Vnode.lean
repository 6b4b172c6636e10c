import RisingLake.Common.Vnode

/-!
# Virtual nodes of chunks and of rows

The hashers of a chunk, fed column by column, end as the hashers of its rows fed value by value
(`getHashValues_row`), so that `computeChunk` and `computeRow` agree on every visible row. The one
exception is a missing row id where it is the whole key: the chunk then hashes the entire row.
-/

namespace VirtualNode

open Res Bytes Stream TableDistribution List ArrayImpl

variable {S : Type} {build : Build} {h : BuildHasher S} {chunk : DataChunk S} {keys : List Nat}
  {vnodeCount i : Nat}

/-- The key of the row at a position is a single row id, and it is missing. -/
def NullRowId (chunk : DataChunk S) (keys : List Nat) (i : Nat) : Prop :=
  ∃ idx values, keys = [idx] ∧ chunk.columns[idx]? = some (.serial values) ∧ values[i]? = some none

/-! ## Hashing -/

variable {a : ArrayImpl S} {idx : Nat}

theorem index_rowAt (ha : chunk.columnAt idx = .ok a) (i : Nat) :
    index (chunk.rowAt i) idx = .ok (a.valueAt i) := by
  rw [DataChunk.columnAt, index_eq_ok] at ha
  rw [index_eq_ok, DataChunk.rowAt, getElem?_map, ha, Option.map_some]

theorem hashVec_getElem? {vis : List Bool} {hashers hashers' : List h.State}
    (hv : h.hashVec a vis hashers = .ok hashers') :
    hashers'.length = hashers.length ∧ ∀ (i : Nat) (s : h.State), vis[i]? = some true →
      hashers[i]? = some s → hashers'[i]? = some (h.hashDatum (a.valueAt i) s) := by
  obtain ⟨-, -, hok⟩ := bind_eq_ok.1 hv
  cases hok
  refine ⟨by simp, fun i s hvis hs => ?_⟩
  rw [getElem?_mapIdx, hs, Option.map_some, if_pos hvis]

theorem foldlM_hashVec : ∀ {keys : List Nat} {states states' : List h.State},
    keys.foldlM (fun states columnIdx => do
      h.hashVec (← chunk.columnAt columnIdx) chunk.visibility states) states = .ok states' →
    states'.length = states.length ∧ ∀ (i : Nat) (s : h.State), chunk.visibility[i]? = some true →
      states[i]? = some s → ∃ datums, project (chunk.rowAt i) keys = .ok datums ∧
        states'[i]? = some (datums.foldl (fun s d => h.hashDatum d s) s)
  | [], states, states', hr => by
    cases hr
    exact ⟨rfl, fun i s _ hs => ⟨[], rfl, hs⟩⟩
  | k :: keys, states, states', hr => by
    obtain ⟨mid, hmid, hr⟩ := bind_eq_ok.1 hr
    obtain ⟨a, ha, hmid⟩ := bind_eq_ok.1 hmid
    obtain ⟨hlen, hget⟩ := hashVec_getElem? hmid
    obtain ⟨hlen', hget'⟩ := foldlM_hashVec hr
    refine ⟨hlen'.trans hlen, fun i s hvis hs => ?_⟩
    obtain ⟨datums, hdatums, hout⟩ := hget' i _ hvis (hget i s hvis hs)
    refine ⟨a.valueAt i :: datums, ?_, hout⟩
    rw [project, mapM_cons, index_rowAt ha]
    rw [project] at hdatums
    rw [hdatums]
    rfl

theorem getHashValues_row {hashes : List U64} (hh : h.getHashValues chunk keys = .ok hashes) :
    hashes.length = chunk.capacity ∧ ∀ i, chunk.visibility[i]? = some true →
      ∃ datums, project (chunk.rowAt i) keys = .ok datums ∧
        hashes[i]? = some (h.hashRow datums) := by
  obtain ⟨states, hstates, hok⟩ := bind_eq_ok.1 hh
  cases hok
  obtain ⟨hlen, hget⟩ := foldlM_hashVec hstates
  refine ⟨by simpa using hlen, fun i hvis => ?_⟩
  have hi : i < chunk.capacity := (List.getElem?_eq_some_iff.1 hvis).1
  obtain ⟨datums, hdatums, hout⟩ := hget i h.buildHasher hvis (by simp [hi])
  exact ⟨datums, hdatums, by rw [getElem?_map, hout]; rfl⟩

variable {vnodes : List Nat}

theorem computeHashed_row (hv : computeHashed h chunk keys vnodeCount = .ok vnodes) :
    vnodes.length = chunk.capacity ∧ ∀ i, chunk.visibility[i]? = some true →
      ∃ datums v, project (chunk.rowAt i) keys = .ok datums ∧ vnodes[i]? = some v ∧
        toVnode (h.hashRow datums) vnodeCount = .ok v := by
  obtain ⟨hashes, hhashes, hmap⟩ := bind_eq_ok.1 hv
  obtain ⟨hlen, hrow⟩ := getHashValues_row hhashes
  obtain ⟨hlen', hget⟩ := mapM_getElem? hmap
  refine ⟨hlen'.trans hlen, fun i hvis => ?_⟩
  obtain ⟨datums, hdatums, hhash⟩ := hrow i hvis
  obtain ⟨v, hv, hvnode⟩ := hget i _ hhash
  exact ⟨datums, v, hdatums, hv, hvnode⟩

/-! ## Chunk and row -/

variable {datums : List (Datum S)} {row : List (Datum S)}

theorem computeRow_hashed (hd : project row keys = .ok datums)
    (hne : ∀ s, datums ≠ [some (.serial s)]) :
    computeRow build h row keys vnodeCount = toVnode (h.hashRow datums) vnodeCount := by
  rw [computeRow, hd, ok_bind]
  split
  · rename_i s; exact absurd rfl (hne s)
  · rfl

theorem length_project (hd : project row keys = .ok datums) : datums.length = keys.length :=
  (mapM_getElem? hd).1

theorem project_singleton (ha : chunk.columnAt idx = .ok a) (i : Nat) :
    project (chunk.rowAt i) [idx] = .ok [a.valueAt i] := by
  rw [project, mapM_cons, index_rowAt ha]
  rfl

/-- What `computeChunk` gives a visible row. -/
def Agrees (build : Build) (h : BuildHasher S) (chunk : DataChunk S) (keys : List Nat)
    (vnodeCount i v : Nat) : Prop :=
  (¬NullRowId chunk keys i → computeRow build h (chunk.rowAt i) keys vnodeCount = .ok v) ∧
    (NullRowId chunk keys i → toVnode (h.hashRow (chunk.rowAt i)) vnodeCount = .ok v)

theorem computeHashed_agrees (hv : computeHashed h chunk keys vnodeCount = .ok vnodes)
    (hne : ∀ i s, project (chunk.rowAt i) keys ≠ .ok [some (.serial s)])
    (hnull : ∀ i, ¬NullRowId chunk keys i) :
    vnodes.length = chunk.capacity ∧ ∀ i, chunk.visibility[i]? = some true →
      ∃ v, vnodes[i]? = some v ∧ Agrees build h chunk keys vnodeCount i v := by
  obtain ⟨hlen, hrow⟩ := computeHashed_row hv
  refine ⟨hlen, fun i hvis => ?_⟩
  obtain ⟨datums, v, hdatums, hget, hvnode⟩ := hrow i hvis
  refine ⟨v, hget, fun _ => ?_, fun hn => absurd hn (hnull i)⟩
  rw [computeRow_hashed hdatums fun s hs => hne i s (hs ▸ hdatums), hvnode]

theorem computeSerial_agrees {values : List (Option Int)}
    (ha : chunk.columnAt idx = .ok (.serial values))
    (hv : values.zipIdx.mapM (computeSerial build h chunk vnodeCount) = .ok vnodes) :
    vnodes.length = chunk.capacity ∧ ∀ i, chunk.visibility[i]? = some true →
      ∃ v, vnodes[i]? = some v ∧ Agrees build h chunk [idx] vnodeCount i v := by
  have hcol : chunk.columns[idx]? = some (.serial values) := index_eq_ok.1 ha
  have hlen : values.length = chunk.capacity :=
    chunk.len_columns (.serial values) (mem_of_getElem? hcol)
  obtain ⟨hlen', hget⟩ := mapM_getElem? hv
  refine ⟨by simpa [hlen] using hlen', fun i hvis => ?_⟩
  have hi : i < values.length := hlen ▸ (List.getElem?_eq_some_iff.1 hvis).1
  obtain ⟨v, hv, hvnode⟩ := hget i (values[i], i) (by simp)
  have hvalue : values[i]? = some values[i] := getElem?_eq_getElem hi
  refine ⟨v, hv, fun hn => ?_, ?_⟩
  · cases hs : values[i] with
    | none => exact absurd ⟨idx, values, rfl, hcol, hs ▸ hvalue⟩ hn
    | some s =>
      have hdatum : (serial values : ArrayImpl S).valueAt i = some (.serial s) := by
        simp [valueAt, hvalue, hs]
      rw [computeRow, project_singleton ha, hdatum]
      simpa [computeSerial, hs] using hvnode
  · rintro ⟨idx', values', hkeys, hcol', hnone⟩
    cases hkeys
    rw [hcol] at hcol'
    cases hcol'
    have hs : values[i] = none := Option.mem_unique hvalue hnone
    simpa [computeSerial, hs] using hvnode

theorem valueAt_ne_serial (ha : ∀ values, a ≠ .serial values) (s : Int) :
    a.valueAt i ≠ some (.serial s) := by
  cases a with
  | serial values => exact absurd rfl (ha values)
  | int16 values =>
    simp only [valueAt, ne_eq, Option.bind_eq_some_iff, not_exists]
    grind
  | other values => simp [valueAt]

/-- The two ways agree on the visible rows; a missing row id hashes the entire row. -/
theorem computeChunk_agrees (hc : computeChunk build h chunk keys vnodeCount = .ok vnodes) :
    vnodes.length = chunk.capacity ∧ ∀ i, chunk.visibility[i]? = some true →
      ∃ v, vnodes[i]? = some v ∧ Agrees build h chunk keys vnodeCount i v := by
  unfold computeChunk at hc
  split at hc
  · obtain ⟨a, ha, hc⟩ := bind_eq_ok.1 hc
    cases a with
    | serial values => exact computeSerial_agrees ha hc
    | int16 values | other values =>
      refine computeHashed_agrees hc (fun i s hp => ?_) ?_
      · rw [project_singleton ha] at hp
        exact valueAt_ne_serial (by simp) s (cons.inj (Except.ok.inj hp)).1
      · rintro i ⟨idx', values', hkeys, hcol, -⟩
        cases hkeys
        rw [index_eq_ok.1 ha] at hcol
        cases hcol
  · rename_i hkeys
    refine computeHashed_agrees hc (fun i s hp => ?_) ?_
    · have hlen := length_project hp
      obtain ⟨idx, rfl⟩ := length_eq_one_iff.1 hlen.symm
      exact hkeys idx rfl
    · rintro i ⟨idx', values', rfl, -, -⟩
      exact hkeys idx' rfl

/-! ## Computations that succeed -/

theorem toVnode_ok (hcount : 0 < vnodeCount) (hash : U64) : ∃ v, toVnode hash vnodeCount = .ok v :=
  ⟨_, by rw [toVnode, checkedRem_of_pos hcount, ok_bind]⟩

theorem bitForVnode_ok (build : Build) (hcount : vnodeCount ≤ maxCount) :
    ∃ b, bitForVnode build vnodeCount = .ok b ∧ b ≤ 15 := by
  refine ⟨if vnodeCount ≤ 2 ^ 10 then 10 else Nat.clog 2 vnodeCount, ?_, ?_⟩
  · simp [bitForVnode, debugAssert, hcount]
  · split
    · omega
    · exact Nat.clog_le_of_le_pow hcount

theorem computeVnodeFromRowId_ok (build : Build) (hcount : 0 < vnodeCount)
    (hmax : vnodeCount ≤ maxCount) (id : Int) :
    ∃ v, computeVnodeFromRowId build id vnodeCount = .ok v := by
  obtain ⟨b, hb, hle⟩ := bitForVnode_ok build hmax
  have hlt : (id / 2 ^ (timestampShiftBits - b) % 2 ^ b).toNat % vnodeCount < maxCount :=
    (Nat.mod_lt _ hcount).trans_le hmax
  refine ⟨(id / 2 ^ (timestampShiftBits - b) % 2 ^ b).toNat % vnodeCount % 2 ^ 16, ?_⟩
  rw [computeVnodeFromRowId, hb, ok_bind,
    checkedSub_of_le (show b ≤ timestampShiftBits by unfold timestampShiftBits; omega), ok_bind]
  dsimp only
  rw [checkedRem_of_pos hcount]
  simp [fromIndex, debugAssert, hlt]

section
variable (hkeys : ∀ k ∈ keys, k < chunk.columns.length)
include hkeys

theorem getHashValues_ok : ∃ hashes, h.getHashValues chunk keys = .ok hashes := by
  have hfold : ∀ states : List h.State, states.length = chunk.capacity → ∃ states',
      keys.foldlM (fun states columnIdx => do
        h.hashVec (← chunk.columnAt columnIdx) chunk.visibility states) states = .ok states' := by
    induction keys with
    | nil => exact fun states _ => ⟨states, rfl⟩
    | cons k keys ih =>
      intro states hlen
      have hk : k < chunk.columns.length := hkeys k (.head _)
      have ha : chunk.columnAt k = .ok chunk.columns[k] := index_eq_ok.2 (getElem?_eq_getElem hk)
      have hcol : chunk.columns[k].len = chunk.capacity := chunk.len_columns _ (getElem_mem hk)
      obtain ⟨mid, hmid⟩ : ∃ mid, h.hashVec chunk.columns[k] chunk.visibility states = .ok mid :=
        ⟨_, by rw [BuildHasher.hashVec, decide_eq_true (hlen.trans hcol.symm), assert_true, ok_bind]⟩
      obtain ⟨states', hstates'⟩ := ih (fun k' hk' => hkeys k' (.tail _ hk')) mid
        ((hashVec_getElem? hmid).1.trans hlen)
      exact ⟨states', by rw [foldlM_cons, ha, ok_bind, hmid, ok_bind, hstates']⟩
  obtain ⟨states, hstates⟩ := hfold (replicate chunk.capacity h.buildHasher) (by simp)
  exact ⟨_, by rw [BuildHasher.getHashValues, hstates, ok_bind]⟩

theorem computeHashed_ok (hcount : 0 < vnodeCount) :
    ∃ vnodes, computeHashed h chunk keys vnodeCount = .ok vnodes := by
  obtain ⟨hashes, hhashes⟩ := getHashValues_ok hkeys
  have hvnode : ∀ hash ∈ hashes, ∃ v, toVnode hash vnodeCount = .ok v ∧ True := fun hash _ =>
    (toVnode_ok hcount hash).imp fun v hv => ⟨hv, trivial⟩
  obtain ⟨vnodes, hvnodes, -⟩ := mapM_forall₂ hvnode
  exact ⟨vnodes, by rw [computeHashed, hhashes, ok_bind, hvnodes]⟩

theorem computeChunk_ok (build : Build) (hcount : 0 < vnodeCount) (hmax : vnodeCount ≤ maxCount) :
    ∃ vnodes, computeChunk build h chunk keys vnodeCount = .ok vnodes := by
  unfold computeChunk
  split
  · rename_i idx
    have hk : idx < chunk.columns.length := hkeys idx (.head _)
    rw [show chunk.columnAt idx = .ok chunk.columns[idx] from index_eq_ok.2
      (getElem?_eq_getElem hk), ok_bind]
    split
    · rename_i values _
      have hserial : ∀ e ∈ values.zipIdx, ∃ v, computeSerial build h chunk vnodeCount e =
          .ok v ∧ True := by
        rintro ⟨serial, i⟩ -
        cases serial with
        | none => exact (toVnode_ok hcount _).imp fun v hv => ⟨hv, trivial⟩
        | some s =>
          exact (computeVnodeFromRowId_ok build hcount hmax s).imp fun v hv => ⟨hv, trivial⟩
      obtain ⟨vnodes, hvnodes, -⟩ := mapM_forall₂ hserial
      exact ⟨vnodes, hvnodes⟩
    · exact computeHashed_ok hkeys hcount
  · exact computeHashed_ok hkeys hcount

end

/-! ## Tables -/

/-- The key of the row at a position, by which the table is distributed, is a single missing row id.
-/
def TableDistribution.NullRowId (t : TableDistribution) (chunk : DataChunk S) (pkIndices : List Nat)
    (i : Nat) : Prop :=
  match t with
  | .distKeyIndices _ indices _ =>
    ∃ keys, indices.mapM (index pkIndices) = .ok keys ∧ VirtualNode.NullRowId chunk keys i
  | _ => False

variable {pkIndices : List Nat} {pk : List (Datum S)}

theorem project_project (hpk : project row pkIndices = .ok pk) :
    ∀ {indices keys : List Nat}, indices.mapM (index pkIndices) = .ok keys →
      project pk indices = project row keys
  | [], _, hk => by cases hk; rfl
  | j :: indices, _, hk => by
    rw [mapM_cons] at hk
    obtain ⟨key, hkey, hk⟩ := bind_eq_ok.1 hk
    obtain ⟨keys, hkeys, hk⟩ := bind_eq_ok.1 hk
    cases hk
    obtain ⟨d, hd, hrow⟩ := (mapM_getElem? hpk).2 j key (index_eq_ok.1 hkey)
    have ih := project_project hpk hkeys
    rw [project] at ih
    rw [project, mapM_cons, index_eq_ok.2 hd, ok_bind, ih]
    change _ = mapM (index row) (key :: keys)
    rw [mapM_cons, hrow, ok_bind, project]

theorem checkVisible_eq_ok {vnodes : List Bool} {v w : Nat}
    (hv : checkVisible vnodes (v, true) = .ok w) : w = v ∧ checkVnodeIsSet v vnodes = .ok () := by
  obtain ⟨⟨⟩, hset, hok⟩ := bind_eq_ok.1 hv
  cases hok
  exact ⟨rfl, hset⟩

theorem readVnode_eq_ok {vnodes : List Bool} {raw : Int} {exist : Bool} {w : Nat}
    (hv : readVnode build vnodes ((raw, exist), true) = .ok w) :
    exist = true ∧ fromScalar build raw = .ok w ∧ checkVnodeIsSet w vnodes = .ok () := by
  obtain ⟨v, hscalar, hv⟩ := bind_eq_ok.1 hv
  obtain ⟨⟨⟩, hexist, hv⟩ := bind_eq_ok.1 hv
  obtain ⟨⟨⟩, hset, hok⟩ := bind_eq_ok.1 hv
  cases hok
  exact ⟨assert_eq_ok.1 hexist, hscalar, hset⟩

theorem computeChunkVnode_agrees {t : TableDistribution}
    (hc : t.computeChunkVnode build h chunk pkIndices = .ok vnodes)
    (hvis : chunk.visibility[i]? = some true) (hpk : project (chunk.rowAt i) pkIndices = .ok pk)
    (hn : ¬t.NullRowId chunk pkIndices i) :
    ∃ v, vnodes[i]? = some v ∧ t.computeVnodeByPk build h pk = .ok v := by
  have hi : i < chunk.capacity := (List.getElem?_eq_some_iff.1 hvis).1
  cases t with
  | singleton =>
    cases hc
    exact ⟨singletonVnode, by simp [hi], rfl⟩
  | distKeyIndices bitmap indices hne =>
    obtain ⟨keys, hkeys, hc⟩ := bind_eq_ok.1 hc
    obtain ⟨computed, hcomputed, hc⟩ := bind_eq_ok.1 hc
    obtain ⟨-, hagree⟩ := computeChunk_agrees hcomputed
    obtain ⟨v, hv, hrow, -⟩ := hagree i hvis
    obtain ⟨w, hw, hcheck⟩ := (mapM_getElem? hc).2 i (v, true) (getElem?_zip_eq_some.2 ⟨hv, hvis⟩)
    obtain ⟨rfl, hset⟩ := checkVisible_eq_ok hcheck
    refine ⟨w, hw, ?_⟩
    have hcompute : computeRow build h pk indices bitmap.length = .ok w := by
      rw [← hrow fun hnull => hn ⟨keys, hkeys, hnull⟩, computeRow, computeRow,
        project_project hpk hkeys]
    have hnonempty : (!indices.isEmpty) = true := by
      cases indices with
      | nil => exact absurd rfl hne
      | cons _ _ => rfl
    rw [computeVnodeByPk, hnonempty, assert_true, ok_bind, hcompute, ok_bind, hset, ok_bind]
  | vnodeColumnIndex bitmap idx =>
    obtain ⟨key, hkey, hc⟩ := bind_eq_ok.1 hc
    obtain ⟨a, ha, hc⟩ := bind_eq_ok.1 hc
    cases a with
    | serial values => cases hc
    | other values => cases hc
    | int16 values =>
      have hlen : values.length = chunk.capacity :=
        chunk.len_columns (.int16 values) (mem_of_getElem? (index_eq_ok.1 ha))
      obtain ⟨⟨raw, exist⟩, hx⟩ : ∃ x, values[i]? = some x := ⟨_, getElem?_eq_getElem (hlen ▸ hi)⟩
      obtain ⟨w, hw, hread⟩ :=
        (mapM_getElem? hc).2 i ((raw, exist), true) (getElem?_zip_eq_some.2 ⟨hx, hvis⟩)
      obtain ⟨hexist, hscalar, hset⟩ := readVnode_eq_ok hread
      obtain ⟨d, hd, hdatum⟩ := (mapM_getElem? hpk).2 idx key (index_eq_ok.1 hkey)
      rw [index_rowAt ha] at hdatum
      have hvalue : d = some (.int16 raw) := by
        rw [← Except.ok.inj hdatum]
        simp [valueAt, hx, hexist]
      refine ⟨w, hw, ?_⟩
      rw [computeVnodeByPk, index_eq_ok.2 hd, hvalue]
      simp only [fromDatum, unwrap, ok_bind]
      rw [hscalar, ok_bind, hset, ok_bind]

/-! ## The two ways of routing -/

/-- A chunk and its rows have the same virtual nodes, but for a row whose key is a single row id
that is missing: its virtual node in the chunk is that of the entire row. A table routes a visible
row by its chunk as by its primary key, with the same exception. -/
theorem compute_chunk_compute_row (build : Build) (h : BuildHasher S) (chunk : DataChunk S) :
    (∀ keys vnodeCount, 0 < vnodeCount → ∀ vnodes,
      computeChunk build h chunk keys vnodeCount = .ok vnodes →
      vnodes.length = chunk.capacity ∧ ∀ i, chunk.visibility[i]? = some true →
      ∃ v, vnodes[i]? = some v ∧
          (¬NullRowId chunk keys i → computeRow build h (chunk.rowAt i) keys vnodeCount = .ok v) ∧
          (NullRowId chunk keys i → toVnode (h.hashRow (chunk.rowAt i)) vnodeCount = .ok v)) ∧
    (∀ keys vnodeCount, 0 < vnodeCount → vnodeCount ≤ maxCount →
      (∀ k ∈ keys, k < chunk.columns.length) →
      ∃ vnodes, computeChunk build h chunk keys vnodeCount = .ok vnodes) ∧
    ∀ (t : TableDistribution) (pkIndices : List Nat) (vnodes : List Nat),
      t.computeChunkVnode build h chunk pkIndices = .ok vnodes →
      ∀ i, chunk.visibility[i]? = some true → ∀ pk, project (chunk.rowAt i) pkIndices = .ok pk →
        ¬t.NullRowId chunk pkIndices i →
        ∃ v, vnodes[i]? = some v ∧ t.computeVnodeByPk build h pk = .ok v := by
  refine ⟨fun keys vnodeCount _ vnodes hc => computeChunk_agrees hc, ?_, ?_⟩
  · intro keys vnodeCount hcount hmax hkeys
    exact computeChunk_ok hkeys build hcount hmax
  · intro t pkIndices vnodes hc i hvis pk hpk hn
    exact computeChunkVnode_agrees hc hvis hpk hn

/-- Two visible rows: the first has no row id. -/
def missingRowId : DataChunk U64 where
  columns := [.serial [none, some 8192], .other [some 1, some 2]]
  visibility := [true, true]
  len_columns := by simp [len]

def crc32Int64 : BuildHasher U64 := crc32Fast fun v => leBytes 8 v.val

/-- The virtual node of the second row is in its row id. -/
theorem compute_chunk_compute_row_missingRowId :
    ∃ vnodes, computeChunk ⟨true, true⟩ crc32Int64 missingRowId [0] 256 = .ok vnodes ∧
      ∃ v, vnodes[1]? = some v ∧ computeRow ⟨true, true⟩ crc32Int64 (missingRowId.rowAt 1) [0] 256 =
        .ok v := by
  obtain ⟨hrow, hok, -⟩ := compute_chunk_compute_row ⟨true, true⟩ crc32Int64 missingRowId
  obtain ⟨vnodes, hvnodes⟩ := hok [0] 256 (by decide) (by decide) (by decide)
  obtain ⟨-, hvis⟩ := hrow [0] 256 (by decide) vnodes hvnodes
  obtain ⟨v, hv, hagree, -⟩ := hvis 1 rfl
  refine ⟨vnodes, hvnodes, v, hv, hagree ?_⟩
  rintro ⟨idx, values, hkeys, hcol, hnone⟩
  cases hkeys
  cases hcol
  cases hnone

/-- The row without a row id has different virtual nodes in the chunk and by itself. -/
theorem compute_chunk_ne_compute_row : missingRowId.visibility[0]? = some true ∧
    ∃ vnodes v w, computeChunk ⟨true, true⟩ crc32Int64 missingRowId [0] 256 = .ok vnodes ∧
    vnodes[0]? = some v ∧
      computeRow ⟨true, true⟩ crc32Int64 (missingRowId.rowAt 0) [0] 256 = .ok w ∧ v ≠ w := by
  refine ⟨rfl, [16, 2], 16, 169, ?_⟩
  decide +kernel

end VirtualNode
