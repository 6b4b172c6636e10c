import RisingLake.Hummock.Proof.BlockIterator
import RisingLake.Hummock.SstableBuilder

/-!
# What an SST builder writes

`Written` is the abstract file: the entries in order, those that were added one by one, the last key
given to the builder, and the number of entries recorded as stale. The builder refines it
(`Refines`): its blocks, the one that is open and its tables lay out the entries of the file. Adding
an entry and adding a raw block keep this (`addImpl_refines`, `addRawBlock_refines`), and `finish`
describes the file.
-/

namespace Hummock

open Res Bytes List SstableBuilder

variable {F : Type} {env : SstableEnv F}

theorem HummockValue.fromSlice_encode (v : HummockValue) :
    HummockValue.fromSlice v.encode = .ok v := by
  cases v <;> rfl

theorem userKeyOf_encode (k : FullKey) : userKeyOf k.encode = .ok k.userKey.encode := by
  rw [userKeyOf, FullKey.encode, splitKeyEpoch_append, ok_bind]

theorem UserKey.encode_inj {a b : UserKey} : a.encode = b.encode ↔ a = b := by
  constructor
  · intro h
    have hb := UserKey.decode_eq_ok.2 (rfl : b.encode = b.encode)
    rw [← h, UserKey.decode_eq_ok.2 rfl] at hb
    cases hb
    rfl
  · intro h
    rw [h]

theorem FullKey.encode_getD_inj {a b : Option FullKey} :
    (a.map FullKey.encode).getD [] = (b.map FullKey.encode).getD [] ↔ a = b := by
  have hne := FullKey.encode_ne_nil
  cases a <;> cases b <;> simp [FullKey.encode_inj, hne]

def sstLimits : List Panic :=
  u32Limits ++ [.explicit "overflow: uncompressed_block_size", .explicit "overflow: writer_data_len",
    .explicit "overflow: total_key_count", .explicit "overflow: meta_encoded_size",
    .explicit "overflow: meta_offset", .explicit "overflow: estimated_size"]

theorem mem_sstLimits_of_u32Limits {e : Panic} (h : e ∈ u32Limits) : e ∈ sstLimits :=
  mem_append_left _ h

variable {n : Nat}

theorem checkedIntoU32_sst {msg : String} (hmsg : .explicit msg ∈ sstLimits) :
    ReturnsOr (· ∈ sstLimits) (checkedIntoU32 n msg) fun x => x.val = n := by
  unfold checkedIntoU32
  split
  · rfl
  · exact hmsg

/-! ## The abstract file -/

def encodeEntry (e : Entry) : FullKey × Bytes := (e.1, e.2.encode)

def tableOf (e : Entry) : TableId := e.1.userKey.tableId

structure Written where
  entries : List Entry
  /-- The entries added one by one. -/
  single : List Entry
  /-- The last key the builder was given, by an entry or with a raw block. -/
  last : Option FullKey
  /-- The entries recorded as stale. -/
  stale : Nat

namespace Written

def empty : Written := ⟨[], [], none, 0⟩

def isStale (w : Written) (e : Entry) : Bool :=
  decide (w.last.map (·.userKey) = some e.1.userKey) || e.2.isDelete

def add (w : Written) (e : Entry) : Written :=
  ⟨w.entries ++ [e], w.single ++ [e], some e.1, if w.isStale e then w.stale + 1 else w.stale⟩

/-- A raw block is appended as it is, with what its meta says. -/
def copy (w : Written) (es : List Entry) (largest : FullKey) (stale : Nat) : Written :=
  ⟨w.entries ++ es, w.single, some largest, w.stale + stale⟩

theorem foldl_field {α β : Type} {f : Written → β → Written} {p : Written → List α} {g : β → List α}
    (h : ∀ w x, p (f w x) = p w ++ g x) (xs : List β) : ∀ w : Written,
    p (xs.foldl f w) = p w ++ xs.flatMap g := by
  induction xs with
  | nil => intro w; simp
  | cons x xs ih =>
    intro w
    rw [foldl_cons, ih, h, append_assoc, flatMap_cons]

theorem foldl_add (es : List Entry) : ∀ w : Written, ∃ stale, es.foldl add w =
    ⟨w.entries ++ es, w.single ++ es, (es.getLast?.map (·.1)).or w.last, stale⟩ := by
  induction es with
  | nil => exact fun w => ⟨w.stale, by simp⟩
  | cons e es ih =>
    intro w
    obtain ⟨stale, hes⟩ := ih (w.add e)
    refine ⟨stale, ?_⟩
    rw [foldl_cons, hes]
    cases h : es.getLast? <;> simp [add, getLast?_cons, h]

end Written

/-! ## Blocks of the file -/

/-- A block of the file, with the entries it holds. -/
structure FileBlock where
  blockMeta : BlockMeta
  bytes : Bytes
  entries : List Entry

/-- The bytes are a block of the entries. -/
def DecodesTo (codec : Codec) (bytes : Bytes) (size : Nat) (entries : List Entry) : Prop :=
  ∃ block slots, Block.decode codec bytes size = .ok (.ok block) ∧ Holds block slots ∧
    slots.map BlockSlot.entry = entries.map encodeEntry

variable {codec : Codec} {b : SstableBuilder F} {blocks : List FileBlock} {cur : List Entry}
  {seen : TableId → Prop} {last : Option TableId} {w : Written} {es : List Entry} {bytes : Bytes}
  {size : Nat}

theorem DecodesTo.ne_nil {entries : List Entry} (h : DecodesTo codec bytes size entries) :
    entries ≠ [] := by
  obtain ⟨block, slots, -, hholds, hentries⟩ := h
  intro hnil
  rw [hnil, map_nil, map_eq_nil_iff] at hentries
  exact hholds.ne_nil hentries

/-- The meta is right about the bytes and the entries. -/
structure FileBlock.Ok (codec : Codec) (b : FileBlock) : Prop where
  decodes : DecodesTo codec b.bytes b.blockMeta.uncompressedSize b.entries
  len : b.blockMeta.len = b.bytes.length
  smallest : ∀ e, b.entries.head? = some e → b.blockMeta.smallestKey = e.1.encode
  count : b.blockMeta.totalKeyCount = b.entries.length

def PlacedFrom : Nat → List FileBlock → Prop
  | _, [] => True
  | off, b :: blocks => b.blockMeta.offset = off % 2 ^ 32 ∧ PlacedFrom (off + b.bytes.length) blocks

def fileData (blocks : List FileBlock) : Bytes := blocks.flatMap (·.bytes)

def fileEntries (blocks : List FileBlock) : List Entry := blocks.flatMap (·.entries)

def staleSum (blocks : List FileBlock) : Nat := (blocks.map (·.blockMeta.staleKeyCount)).sum

theorem PlacedFrom.append_singleton {b : FileBlock} : ∀ {blocks : List FileBlock} {off : Nat},
    PlacedFrom off blocks → b.blockMeta.offset = (off + (fileData blocks).length) % 2 ^ 32 →
      PlacedFrom off (blocks ++ [b])
  | [], _, _, hb => ⟨hb, trivial⟩
  | x :: blocks, off, h, hb => by
    refine ⟨h.1, h.2.append_singleton ?_⟩
    rw [hb, fileData, flatMap_cons, length_append, ← Nat.add_assoc]
    rfl

def openMeta (offset : Nat) (stale : Nat) : List Entry → List BlockMeta
  | [] => []
  | e :: es => [⟨e.1.encode, offset, 0, 0, es.length + 1, stale⟩]

/-- The builder has written the blocks, and the entries `cur` are in the open one. -/
structure LaidOut (env : SstableEnv F) (b : SstableBuilder F) (blocks : List FileBlock)
    (cur : List Entry) (stale : Nat) : Prop where
  interval : 0 < b.options.restartInterval
  writer : b.writer = fileData blocks
  offset : cur ≠ [] → b.writer.length < 2 ^ 32
  metas : b.blockMetas = blocks.map (·.blockMeta) ++ openMeta b.writer.length stale cur
  placed : PlacedFrom 0 blocks
  blocks_ok : ∀ x ∈ blocks, x.Ok env.codec
  stale_nil : cur = [] → stale = 0
  built : ∃ slots, slots.map BlockSlot.entry = cur.map encodeEntry ∧
    ∀ t, (∀ e ∈ cur, tableOf e = t) → Built b.options.restartInterval t b.blockBuilder slots

/-- What closing or filling a block leaves alone. -/
structure SameTables (b b' : SstableBuilder F) : Prop where
  options : b'.options = b.options
  tableIds : b'.tableIds = b.tableIds
  lastTableId : b'.lastTableId = b.lastTableId
  tableStats : b'.tableStats = b.tableStats
  epochSet : b'.epochSet = b.epochSet
  lastFullKey : b'.lastFullKey = b.lastFullKey
  sstableId : b'.sstableId = b.sstableId

theorem SameTables.refl (b : SstableBuilder F) : SameTables b b :=
  ⟨rfl, rfl, rfl, rfl, rfl, rfl, rfl⟩

namespace LaidOut

variable {stale : Nat}

theorem isEmpty_iff (h : LaidOut env b blocks cur stale) {t : TableId}
    (ht : ∀ e ∈ cur, tableOf e = t) : b.blockBuilder.isEmpty = true ↔ cur = [] := by
  obtain ⟨slots, hslots, hbuilt⟩ := h.built
  rw [BlockBuilder.isEmpty, (hbuilt t ht).buf, List.isEmpty_iff]
  constructor
  · intro hnil
    cases slots with
    | nil => simpa using hslots.symm
    | cons s slots =>
      have := s.length_encode_pos
      rw [slotData_cons, append_eq_nil_iff] at hnil
      rw [hnil.1] at this
      simp at this
  · intro hnil
    rw [hnil, map_nil, map_eq_nil_iff] at hslots
    rw [hslots, slotData_nil]

end LaidOut

variable {slots : List BlockSlot} {t : TableId}

theorem built_clear {interval : Nat} {b : BlockBuilder}
    (h : Built interval t b slots) (t' : TableId) : Built interval t' b.clear [] := by
  refine ⟨rfl, h.interval, rfl, rfl, rfl, rfl, rfl, rfl, ?_, by simp⟩
  intro before s after heq
  simp at heq

theorem buildBlock_laidOut {stale : Nat} (h : LaidOut env b blocks cur stale)
    (ht : ∀ e ∈ cur, tableOf e = t) :
    ReturnsOr (· ∈ sstLimits) (b.buildBlock env) fun b' => SameTables b b' ∧ ∃ blocks',
      LaidOut env b' blocks' [] 0 ∧ fileEntries blocks' = fileEntries blocks ++ cur ∧
      staleSum blocks' = staleSum blocks + stale := by
  unfold SstableBuilder.buildBlock
  by_cases hempty : b.blockBuilder.isEmpty = true
  · rw [if_pos hempty]
    have hcur := (h.isEmpty_iff ht).1 hempty
    obtain rfl := h.stale_nil hcur
    subst hcur
    exact ⟨.refl b, blocks, h, by simp, rfl⟩
  rw [if_neg hempty]
  obtain ⟨e, es, rfl⟩ := exists_cons_of_ne_nil fun hnil => hempty ((h.isEmpty_iff ht).2 hnil)
  obtain ⟨slots, hslots, hbuilt⟩ := h.built
  have hne : slots ≠ [] := by
    intro hnil
    simp [hnil] at hslots
  have hlast : b.blockMetas.getLast? = some ⟨e.1.encode, b.writer.length, 0, 0,
      es.length + 1, stale⟩ := by
    rw [h.metas, openMeta, getLast?_concat]
  have hdrop : b.blockMetas.dropLast = blocks.map (·.blockMeta) := by
    rw [h.metas, openMeta, dropLast_concat]
  rw [hlast, unwrap]
  refine (checkedIntoU32_sst (by simp [sstLimits])).bind fun size hsize => ?_
  refine ((decode_build env.codec (hbuilt t ht) hne).imp fun _ => mem_sstLimits_of_u32Limits).bind
    fun r hbuilt => ?_
  obtain ⟨⟨buf, hr⟩, block, hdecode, hholds⟩ := hbuilt
  refine (checkedIntoU32_sst (by simp [sstLimits])).bind fun dataLen hdataLen => ?_
  rw [length_append] at hdataLen
  rw [decide_eq_true (show b.writer.length ≤ dataLen.val by omega), assert_true]
  let x : FileBlock := ⟨⟨e.1.encode, b.writer.length, dataLen.val - b.writer.length, size.val,
    es.length + 1, stale⟩, r.1, e :: es⟩
  refine ⟨⟨rfl, rfl, rfl, rfl, rfl, rfl, rfl⟩, blocks ++ [x],
    ?_, by simp [fileEntries, x], by simp [staleSum, x]⟩
  refine ⟨h.interval, ?_, fun hnil => absurd rfl hnil, ?_, ?_, ?_,
    fun _ => rfl, [], rfl, fun t' _ => ?_⟩
  · simp [h.writer, fileData, x]
  · simp [hdrop, openMeta, x]
  · refine h.placed.append_singleton ?_
    rw [Nat.zero_add, ← h.writer, Nat.mod_eq_of_lt (h.offset (by simp))]
  · intro y hy
    rcases mem_append.1 hy with hy | hy
    · exact h.blocks_ok y hy
    rw [mem_singleton.1 hy]
    refine ⟨⟨block, slots, by rw [← hdecode, ← hsize], hholds, hslots⟩, ?_, ?_, rfl⟩
    · show dataLen.val - b.writer.length = r.1.length
      omega
    · intro e' he'
      cases he'
      rfl
  · rw [hr]
    exact built_clear (hbuilt t ht) t'

/-! ## Tables -/

/-- The builder has entered the tables of which `seen` holds, `last` last. -/
structure Tables (b : SstableBuilder F) (seen : TableId → Prop) (last : Option TableId) : Prop where
  mem : ∀ t, t ∈ b.tableIds ↔ seen t
  last_eq : b.lastTableId = last
  last_seen : ∀ t, last = some t → seen t
  stats : ∀ t, seen t → last = some t ∨ (b.tableStats[t]?).isSome = true

namespace Tables

variable {b' : SstableBuilder F}

theorem same (h : Tables b seen last) (hsame : SameTables b b') : Tables b' seen last :=
  ⟨by rw [hsame.tableIds]; exact h.mem, hsame.lastTableId.trans h.last_eq, h.last_seen,
    by rw [hsame.tableStats]; exact h.stats⟩

theorem congr {seen' : TableId → Prop} (h : Tables b seen last) (hseen : ∀ t, seen t ↔ seen' t) :
    Tables b seen' last :=
  ⟨fun t => (h.mem t).trans (hseen t), h.last_eq, fun t ht => (hseen t).1 (h.last_seen t ht),
    fun t ht => h.stats t ((hseen t).2 ht)⟩

theorem again (h : Tables b seen (some t)) : Tables b (fun x => x = t ∨ seen x) (some t) :=
  h.congr fun _ => ⟨.inr, fun hx => hx.elim (fun heq => heq ▸ h.last_seen t rfl) id⟩

end Tables

theorem finalizeLastTableStats_eq (b : SstableBuilder F) : ∃ stats lastStats,
    b.finalizeLastTableStats = { b with tableStats := stats, lastTableStats := lastStats } ∧
    ∀ x : TableId,
      (b.tableIds.isEmpty = false ∧ b.lastTableId = some x ∨ (b.tableStats[x]?).isSome = true) →
      (stats[x]?).isSome = true := by
  unfold finalizeLastTableStats
  split
  · rename_i hempty
    exact ⟨b.tableStats, b.lastTableStats, rfl, fun x hx => hx.resolve_left (by simp [hempty])⟩
  split
  · rename_i hlast
    exact ⟨b.tableStats, b.lastTableStats, rfl, fun x hx => hx.resolve_left (by simp [hlast])⟩
  rename_i l hlast
  refine ⟨b.tableStats.insert l b.lastTableStats, .default, rfl, fun x hx => ?_⟩
  rw [HashMap.getElem?_insert_eq]
  split
  · rfl
  · rename_i hne
    exact hx.resolve_left fun h => hne (Option.mem_unique hlast h.2)

theorem enterTable_eq (b : SstableBuilder F) (t : TableId) :
    ∃ stats lastStats, b.enterTable t = { b with
      tableIds := b.tableIds.insert t, lastTableId := some t, tableStats := stats
      lastTableStats := lastStats } ∧
    ∀ x : TableId, (b.lastTableId = some x ∨ (b.tableStats[x]?).isSome = true) →
      (stats[x]?).isSome = true := by
  obtain ⟨stats, lastStats, heq, hstats⟩ :=
    finalizeLastTableStats_eq { b with tableIds := b.tableIds.insert t }
  rw [enterTable, heq]
  exact ⟨stats, lastStats, rfl, fun x hx => hstats x (hx.imp_left fun h => ⟨by simp, h⟩)⟩

theorem Tables.enterTable (h : Tables b seen last) (t : TableId) :
    Tables (b.enterTable t) (fun x => x = t ∨ seen x) (some t) := by
  obtain ⟨stats, lastStats, heq, hstats⟩ := enterTable_eq b t
  rw [heq]
  refine ⟨fun x => ?_, rfl, fun x hx => .inl (Option.some.inj hx).symm, fun x hx => ?_⟩
  · rw [Std.ExtTreeSet.mem_insert, h.mem, Std.LawfulEqCmp.compare_eq_iff_eq, eq_comm]
  · rcases hx with rfl | hx
    · exact .inl rfl
    · exact .inr (hstats x ((h.stats x hx).imp_left h.last_eq.trans))

theorem LaidOut.enterTable {stale : Nat} (h : LaidOut env b blocks cur stale) (t : TableId) :
    LaidOut env (b.enterTable t) blocks cur stale := by
  obtain ⟨stats, lastStats, heq, -⟩ := enterTable_eq b t
  rw [heq]
  exact ⟨h.interval, h.writer, h.offset, h.metas, h.placed, h.blocks_ok, h.stale_nil, h.built⟩

/-! ## Adding an entry -/

/-- The builder is in table `t`, with the same entries as before. -/
structure Switched (env : SstableEnv F) (b b' : SstableBuilder F) (entries : List Entry)
    (stale : Nat) (seen : TableId → Prop) (t : TableId) (blocks : List FileBlock) (cur : List Entry)
    (n : Nat) : Prop where
  laid : LaidOut env b' blocks cur n
  entries : fileEntries blocks ++ cur = entries
  stale : staleSum blocks + n = stale
  table : ∀ e ∈ cur, tableOf e = t
  tables : Tables b' (fun x => x = t ∨ seen x) (some t)
  epochSet : b'.epochSet = b.epochSet
  lastFullKey : b'.lastFullKey = b.lastFullKey

theorem exists_table (hcur : ∀ e ∈ cur, last = some (tableOf e)) (t : TableId) :
    ∃ t₀, ∀ e ∈ cur, tableOf e = t₀ := by
  cases last with
  | none =>
    refine ⟨t, fun e he => ?_⟩
    cases hcur e he
  | some t₀ => exact ⟨t₀, fun e he => (Option.some.inj (hcur e he)).symm⟩

theorem switchBlock_returnsOr {full could : Bool} (h : LaidOut env b blocks cur n)
    (htables : Tables b seen last) (hcur : ∀ e ∈ cur, last = some (tableOf e))
    (hcould : could = false → last = some t) :
    ReturnsOr (· ∈ sstLimits) (b.switchBlock env t full could) fun b' => ∃ blocks' cur' n',
      Switched env b b' (fileEntries blocks ++ cur) (staleSum blocks + n) seen t blocks' cur' n' := by
  unfold switchBlock
  rw [htables.last_eq]
  by_cases hlast : last = some t
  · have hcur' : ∀ e ∈ cur, tableOf e = t := fun e he => Option.mem_unique (hcur e he) hlast
    subst hlast
    rw [if_neg (by simp)]
    split
    · refine (buildBlock_laidOut h hcur').mono fun b' ⟨hsame, blocks', hlaid, hentries, hstale⟩ => ?_
      exact ⟨blocks', [], 0, hlaid, by simp [hentries], by simp [hstale], by simp,
        htables.again.same hsame, hsame.epochSet, hsame.lastFullKey⟩
    · exact ⟨blocks, cur, n, h, rfl, rfl, hcur', htables.again, rfl, rfl⟩
  · rw [if_pos hlast]
    have hcould' : could = true := by
      by_contra hc
      exact hlast (hcould (by simpa using hc))
    rw [hcould', assert_true]
    obtain ⟨t₀, ht₀⟩ := exists_table hcur t
    obtain ⟨stats, lastStats, heq, -⟩ := enterTable_eq b t
    refine (buildBlock_laidOut (h.enterTable t) ht₀).mono
      fun b' ⟨hsame, blocks', hlaid, hentries, hstale⟩ => ?_
    refine ⟨blocks', [], 0, hlaid, by simp [hentries], by simp [hstale], by simp,
      (htables.enterTable t).same hsame, ?_, ?_⟩
    · rw [hsame.epochSet, heq]
    · rw [hsame.lastFullKey, heq]

variable {e : Entry}

theorem rotate_returnsOr (h : LaidOut env b blocks cur n)
    (hcur : ∀ x ∈ cur, tableOf x = tableOf e) :
    ReturnsOr (· ∈ sstLimits) (b.rotate e.1) fun b' => b.writer.length < 2 ^ 32 ∧
      ∃ first : Entry, (cur ++ [e]).head? = some first ∧
      b' = { b with blockMetas := blocks.map (·.blockMeta) ++
          [⟨first.1.encode, b.writer.length, 0, 0, cur.length, n⟩] } := by
  unfold SstableBuilder.rotate
  by_cases hempty : b.blockBuilder.isEmpty = true
  · have hnil := (h.isEmpty_iff hcur).1 hempty
    obtain rfl := h.stale_nil hnil
    subst hnil
    rw [if_pos hempty]
    refine (checkedIntoU32_sst (by simp [sstLimits])).bind fun offset hoffset => ?_
    refine ⟨hoffset ▸ offset.isLt, e, rfl, ?_⟩
    rw [h.metas, hoffset]
    simp [openMeta]
  · rw [if_neg hempty]
    obtain ⟨first, rest, rfl⟩ :=
      exists_cons_of_ne_nil fun hnil => hempty ((h.isEmpty_iff hcur).2 hnil)
    refine ⟨h.offset (by simp), first, rfl, ?_⟩
    have hmetas := h.metas
    rw [openMeta] at hmetas
    rw [length_cons, ← hmetas]

theorem appendEntry_returnsOr {isNew : Bool} (h : LaidOut env b blocks cur n)
    (hcur : ∀ x ∈ cur, tableOf x = tableOf e) (hlt : ∀ x ∈ cur, x.1 < e.1) :
    ReturnsOr (· ∈ sstLimits) (b.appendEntry env e.1 e.2 isNew) fun b' =>
      LaidOut env b' blocks (cur ++ [e]) (if !isNew || e.2.isDelete then n + 1 else n) ∧
      b'.options = b.options ∧ b'.tableIds = b.tableIds ∧ b'.lastTableId = b.lastTableId ∧
      b'.tableStats = b.tableStats ∧ b'.epochSet = b.epochSet.insert e.1.epochWithGap.pureEpoch ∧
      b'.lastFullKey = e.1.encode := by
  obtain ⟨slots, hslots, hbuilt⟩ := h.built
  have hlt' : ∀ s ∈ slots, s.fullKey < e.1 := by
    intro s hs
    have hmem : s.entry ∈ cur.map encodeEntry := hslots ▸ mem_map_of_mem hs
    obtain ⟨x, hx, heq⟩ := mem_map.1 hmem
    have hkey : x.1 = s.fullKey := congrArg Prod.fst heq
    exact hkey ▸ hlt x hx
  refine (rotate_returnsOr h hcur).bind fun b₁ ⟨hlen, first, hfirst, hb₁⟩ => ?_
  subst hb₁
  rw [userKeyOf_encode]
  refine (((hbuilt _ hcur).add_returnsOr h.interval env.dbg rfl hlt').imp
    fun _ => mem_sstLimits_of_u32Limits).bind fun builder ⟨s, hs, hbuilder⟩ => ?_
  rw [getLast?_concat, unwrap, dropLast_concat]
  refine ⟨⟨h.interval, h.writer, fun _ => hlen, ?_, h.placed, h.blocks_ok, fun hnil => ?_,
    slots ++ [s], ?_, fun t ht => ?_⟩, rfl, rfl, rfl, rfl, rfl, rfl⟩
  · -- the meta of the open block
    obtain ⟨rest, hrest⟩ : ∃ rest, cur ++ [e] = first :: rest := head?_eq_some_iff.1 hfirst
    have hcount : rest.length = cur.length := by
      have := congrArg length hrest
      simpa using this.symm
    rw [hrest, openMeta, hcount]
  · simp at hnil
  · rw [map_append, map_append, hslots, map_singleton, hs]
    rfl
  · have := ht e (by simp)
    rw [← this]
    exact hbuilder

/-! ## The builder refines the file -/

structure RefinesAt (env : SstableEnv F) (b : SstableBuilder F) (w : Written)
    (blocks : List FileBlock) (cur : List Entry) (n : Nat) : Prop where
  laid : LaidOut env b blocks cur n
  entries : fileEntries blocks ++ cur = w.entries
  stale : staleSum blocks + n = w.stale
  tables : Tables b (fun t => ∃ e ∈ w.entries, tableOf e = t) (w.entries.getLast?.map tableOf)
  table : ∀ e ∈ cur, w.entries.getLast?.map tableOf = some (tableOf e)
  epochs : ∀ x, x ∈ b.epochSet ↔ ∃ e ∈ w.single, e.1.epochWithGap.pureEpoch = x
  last : b.lastFullKey = (w.last.map FullKey.encode).getD []

def Refines (env : SstableEnv F) (b : SstableBuilder F) (w : Written) : Prop :=
  ∃ blocks cur n, RefinesAt env b w blocks cur n

theorem refines_new {sstableId : Nat} {filterBuilder : F} {options : SstableBuilderOptions}
    (h : SstableBuilder.new sstableId filterBuilder options = .ok b) : Refines env b .empty := by
  obtain ⟨builder, hbuilder, h⟩ := bind_eq_ok.1 h
  have hinterval : 0 < options.restartInterval := by
    rw [Nat.pos_iff_ne_zero]
    intro hzero
    rw [BlockBuilder.new, if_pos hzero] at hbuilder
    cases hbuilder
  split at h
  · cases h
  cases h
  refine ⟨[], [], 0, ?_, rfl, rfl, ?_, by simp, by simp [Written.empty], rfl⟩
  · exact ⟨hinterval, rfl, fun h => absurd rfl h, rfl, trivial, by simp, fun _ => rfl, [], rfl,
      fun t _ => .of_new hbuilder⟩
  · exact ⟨by simp [Written.empty], rfl, by simp [Written.empty], by simp [Written.empty]⟩

theorem isNewUserKey_eq (h : b.lastFullKey = (w.last.map FullKey.encode).getD []) (e : Entry) :
    b.isNewUserKey e.1.encode = .ok (!decide (w.last.map (·.userKey) = some e.1.userKey)) := by
  unfold isNewUserKey
  rw [h]
  cases w.last with
  | none => rfl
  | some last =>
    have hne : last.encode.isEmpty = false := isEmpty_eq_false_iff.2 last.encode_ne_nil
    simp only [Option.map_some, Option.getD_some, hne, Bool.false_eq_true, userKeyOf_encode,
      ok_bind]
    by_cases heq : last.userKey = e.1.userKey
    · simp [heq]
    · have hne' : e.1.userKey.encode ≠ last.userKey.encode := fun h' =>
        heq (UserKey.encode_inj.1 h').symm
      simp [heq, hne']

theorem addImpl_refines (h : Refines env b w) (hlt : ∀ x ∈ w.entries, x.1 < e.1)
    {could : Bool} (hcould : could = false → w.entries.getLast?.map tableOf = some (tableOf e)) :
    ReturnsOr (· ∈ sstLimits) (b.addImpl env e.1 e.2 could) fun b' => Refines env b' (w.add e) := by
  obtain ⟨blocks, cur, n, h⟩ := h
  unfold addImpl
  rw [isNewUserKey_eq h.last]
  refine (switchBlock_returnsOr h.laid h.tables h.table hcould).bind
    fun b₁ ⟨blocks', cur', n', hs⟩ => ?_
  have hentries := hs.entries.trans h.entries
  have hlt' : ∀ x ∈ cur', x.1 < e.1 := fun x hx => hlt x (hentries ▸ mem_append_right _ hx)
  refine (appendEntry_returnsOr hs.laid hs.table hlt').mono
    fun b' ⟨hlaid, _, htableIds, hlastTableId, htableStats, hepochs, hlast⟩ => ?_
  refine ⟨blocks', cur' ++ [e], _, hlaid, ?_, ?_, ?_, ?_, ?_, ?_⟩
  · rw [← append_assoc, hentries]
    rfl
  · have hstale := hs.stale.trans h.stale
    rw [Bool.not_not, Written.add, Written.isStale]
    split
    · exact congrArg (· + 1) hstale
    · exact hstale
  · have htables : Tables b' (fun x => x = tableOf e ∨ ∃ e ∈ w.entries, tableOf e = x)
        (some (tableOf e)) :=
      ⟨by rw [htableIds]; exact hs.tables.mem, hlastTableId.trans hs.tables.last_eq,
        hs.tables.last_seen, by rw [htableStats]; exact hs.tables.stats⟩
    rw [Written.add, getLast?_concat]
    refine htables.congr fun t => ?_
    simp only [mem_append, mem_singleton, or_and_right, exists_or, exists_eq_left]
    rw [or_comm, eq_comm]
  · intro x hx
    rw [Written.add, getLast?_concat, Option.map_some]
    rcases mem_append.1 hx with hx | hx
    · rw [hs.table x hx]
    · rw [mem_singleton.1 hx]
  · intro x
    rw [hepochs, hs.epochSet, Std.ExtTreeSet.mem_insert, Std.LawfulEqCmp.compare_eq_iff_eq, h.epochs]
    simp only [Written.add, mem_append, mem_singleton, or_and_right, exists_or, exists_eq_left]
    rw [or_comm]
  · rw [hlast]
    rfl

/-! ## Adding a raw block -/

/-- What a caller promises of a raw block: its bytes are a block of the entries `es`, and its meta
is right. The largest key is an encoded key. -/
structure RawBlock.Valid (codec : Codec) (raw : RawBlock) (es : List Entry) (largest : FullKey) :
    Prop where
  decodes : DecodesTo codec raw.buf raw.blockMeta.uncompressedSize es
  len : raw.blockMeta.len = raw.buf.length
  smallest : es.head?.map (·.1) = some raw.smallestKey
  meta_smallest : raw.blockMeta.smallestKey = raw.smallestKey.encode
  count : raw.blockMeta.totalKeyCount = es.length
  largest : raw.largestKey = largest.encode

theorem DecodesTo.table (h : DecodesTo codec bytes size es) {e' : Entry}
    (he : e ∈ es) (he' : e' ∈ es) : tableOf e = tableOf e' := by
  obtain ⟨block, slots, -, hholds, hentries⟩ := h
  have htable : ∀ e ∈ es, tableOf e = block.tableId := by
    intro e he
    have hmem : encodeEntry e ∈ slots.map BlockSlot.entry := hentries ▸ mem_map_of_mem he
    obtain ⟨s, hs, heq⟩ := mem_map.1 hmem
    have hkey : s.fullKey = e.1 := congrArg Prod.fst heq
    rw [tableOf, ← hkey]
    exact hholds.tables s hs
  rw [htable e he, htable e' he']

variable {largest : FullKey} {raw : RawBlock}

theorem RawBlock.Valid.table (h : raw.Valid codec es largest) :
    ∀ e ∈ es, tableOf e = raw.smallestKey.userKey.tableId := by
  obtain ⟨first, rest, rfl⟩ := exists_cons_of_ne_nil h.decodes.ne_nil
  have hfirst : raw.smallestKey = first.1 := by simpa using h.smallest.symm
  intro e he
  rw [hfirst]
  exact h.decodes.table he (.head _)

theorem table_getLast?_append (hne : cur ≠ []) (h : ∀ e ∈ cur, tableOf e = t) :
    (es ++ cur).getLast?.map tableOf = some t := by
  rw [getLast?_append, getLast?_eq_some_getLast hne, Option.some_or, Option.map_some,
    h _ (getLast_mem hne)]

theorem mergeLoop_refines {it : BlockIterator} {xs : List (FullKey × Bytes)}
    (hvisits : Visits BlockIterator.next it xs) : ∀ {es : List Entry} {fuel : Nat}
      {b : SstableBuilder F} {w : Written}, xs = es.map encodeEntry → es.length < fuel →
      Refines env b w → (∀ e ∈ es, w.entries.getLast?.map tableOf = some (tableOf e)) →
      (∀ x ∈ w.entries, ∀ e ∈ es, x.1 < e.1) → es.Pairwise (fun x y => x.1 < y.1) →
      ReturnsOr (· ∈ sstLimits) (whileM (fun s => s.1.isValid) (mergeStep env) fuel (it, b))
        fun r => Refines env r.2 (es.foldl Written.add w) := by
  induction hvisits with
  | done hvalid =>
    intro es fuel b w hxs hfuel hb _ _ _
    obtain rfl : es = [] := by simpa using hxs.symm
    obtain ⟨fuel, rfl⟩ : ∃ k, fuel = k + 1 := ⟨fuel - 1, by omega⟩
    rw [whileM, hvalid]
    exact hb
  | @visit _ it' _ _ _ hvalid hkey hvalue hnext _ ih =>
    intro es fuel b w hxs hfuel hb htable hlt hsorted
    obtain ⟨e, es, rfl, he, hes⟩ := map_eq_cons_iff.1 hxs.symm
    obtain ⟨fuel, rfl⟩ : ∃ k, fuel = k + 1 := ⟨fuel - 1, by omega⟩
    cases he
    rw [forall_mem_cons] at htable
    rw [pairwise_cons] at hsorted
    rw [whileM, hvalid, ok_bind, mergeStep]
    rw [hvalue, ok_bind, HummockValue.fromSlice_encode]
    dsimp only
    rw [hkey]
    refine ReturnsOr.bind (Q := fun r => r.1 = it' ∧ Refines env r.2 (w.add e)) ?_ fun r hr => ?_
    · refine (addImpl_refines hb (fun x hx => hlt x hx e (.head _)) fun _ => htable.1).bind
        fun b' hb' => ?_
      rw [hnext]
      exact ⟨rfl, hb'⟩
    · obtain ⟨hr, hb'⟩ := hr
      have hlen : es.length < fuel := by simpa using hfuel
      have := ih hes.symm hlen hb' (fun x hx => ?_) (fun x hx y hy => ?_) hsorted.2
      · rw [show r = (r.1, r.2) from rfl, hr]
        exact this
      · rw [Written.add, getLast?_concat, Option.map_some, ← htable.1]
        exact htable.2 x hx
      · rcases mem_append.1 hx with hx | hx
        · exact hlt x hx y (.tail _ hy)
        · rw [mem_singleton.1 hx]
          exact hsorted.1 y hy

theorem mergeBlock_refines (h : Refines env b w) {block : Block}
    (hholds : Holds block slots) (hes : slots.map BlockSlot.entry = es.map encodeEntry)
    (htable : ∀ e ∈ es, w.entries.getLast?.map tableOf = some (tableOf e))
    (hlt : ∀ x ∈ w.entries, ∀ e ∈ es, x.1 < e.1) (hsorted : es.Pairwise fun x y => x.1 < y.1) :
    ReturnsOr (· ∈ sstLimits) (b.mergeBlock env block) fun b' =>
      Refines env b' (es.foldl Written.add w) := by
  obtain ⟨it, hseek, hvisits, hlen⟩ :=
    hholds.seekToFirst_visits (show (BlockIterator.new block).block = block from rfl)
  rw [← length_map, hes, length_map] at hlen
  rw [mergeBlock, hseek]
  exact (mergeLoop_refines hvisits hes hlen h htable hlt hsorted).bind fun r hr => hr

theorem copyBlock_refines {b₀ : SstableBuilder F}
    (h : Switched env b₀ b w.entries w.stale (fun t => ∃ e ∈ w.entries, tableOf e = t)
      raw.smallestKey.userKey.tableId blocks [] 0)
    (hepochs : ∀ x, x ∈ b₀.epochSet ↔ ∃ e ∈ w.single, e.1.epochWithGap.pureEpoch = x)
    (hraw : raw.Valid env.codec es largest) : ∃ b', b.copyBlock env raw = .ok b' ∧
      Refines env b' (w.copy es largest raw.blockMeta.staleKeyCount) := by
  let x : FileBlock := ⟨{ raw.blockMeta with offset := b.writer.length % 2 ^ 32 }, raw.buf, es⟩
  rw [copyBlock, hraw.len, beq_self_eq_true, assert_true]
  have hlaid := h.laid
  have hentries := h.entries
  refine ⟨_, rfl, blocks ++ [x], [], 0, ?_, ?_, ?_, ?_, by simp, fun y => ?_, ?_⟩
  · refine ⟨hlaid.interval, ?_, fun hnil => absurd rfl hnil, ?_, ?_, ?_, fun _ => rfl, hlaid.built⟩
    · simp [hlaid.writer, fileData, x]
    · simp [hlaid.metas, openMeta, x]
    · refine hlaid.placed.append_singleton ?_
      rw [Nat.zero_add, ← hlaid.writer]
    · intro y hy
      rcases mem_append.1 hy with hy | hy
      · exact hlaid.blocks_ok y hy
      · rw [mem_singleton.1 hy]
        refine ⟨hraw.decodes, hraw.len, fun e he => ?_, hraw.count⟩
        have hfirst := hraw.smallest
        rw [show es.head? = some e from he] at hfirst
        exact hraw.meta_smallest.trans (congrArg _ (Option.some.inj hfirst).symm)
  · rw [Written.copy, ← hentries]
    simp [fileEntries, x]
  · have hstale := h.stale
    simp only [staleSum, map_append, sum_append, map_singleton, sum_singleton, Written.copy,
      x] at hstale ⊢
    omega
  · show Tables _ (fun t => ∃ e ∈ w.entries ++ es, tableOf e = t)
      ((w.entries ++ es).getLast?.map tableOf)
    rw [table_getLast?_append hraw.decodes.ne_nil hraw.table]
    have htables := h.tables.congr fun t => show _ ↔ ∃ e ∈ w.entries ++ es, tableOf e = t from
      ⟨fun ht => ?_, fun ht => ?_⟩
    · exact ⟨htables.mem, htables.last_eq, htables.last_seen, htables.stats⟩
    · rcases ht with rfl | ⟨e, he, ht⟩
      · obtain ⟨e, he⟩ := exists_mem_of_ne_nil _ hraw.decodes.ne_nil
        exact ⟨e, mem_append_right _ he, hraw.table e he⟩
      · exact ⟨e, mem_append_left _ he, ht⟩
    · obtain ⟨e, he, rfl⟩ := ht
      rcases mem_append.1 he with he | he
      · exact .inr ⟨e, he, rfl⟩
      · exact .inl (hraw.table e he)
  · rw [h.epochSet]
    exact hepochs y
  · exact hraw.largest

theorem switchTable_returnsOr (t : TableId) (h : LaidOut env b blocks cur n)
    (htables : Tables b seen last) (hcur : ∀ e ∈ cur, last = some (tableOf e)) :
    ReturnsOr (· ∈ sstLimits) (b.switchTable env t) fun b' => ∃ blocks' cur' n',
      Switched env b b' (fileEntries blocks ++ cur) (staleSum blocks + n) seen t blocks' cur' n' := by
  unfold switchTable
  rw [htables.last_eq]
  by_cases hlast : last = some t
  · subst hlast
    rw [if_neg (by simp)]
    exact ⟨blocks, cur, n, h, rfl, rfl, fun e he => (Option.some.inj (hcur e he)).symm,
      htables.again, rfl, rfl⟩
  rw [if_pos hlast]
  obtain ⟨t₀, ht₀⟩ := exists_table hcur t
  refine (buildBlock_laidOut h ht₀).bind fun b' ⟨hsame, blocks', hlaid, hentries, hstale⟩ => ?_
  obtain ⟨stats, lastStats, heq, -⟩ := enterTable_eq b' t
  refine ⟨blocks', [], 0, hlaid.enterTable t, by simp [hentries], by simp [hstale], by simp,
    (htables.same hsame).enterTable t, ?_, ?_⟩
  · rw [heq]
    exact hsame.epochSet
  · rw [heq]
    exact hsame.lastFullKey

theorem addRawBlock_refines (h : Refines env b w)
    (hraw : raw.Valid env.codec es largest) (hlt : ∀ x ∈ w.entries, ∀ e ∈ es, x.1 < e.1)
    (hsorted : es.Pairwise fun x y => x.1 < y.1) :
    ReturnsOr (· ∈ sstLimits) (b.addRawBlock env raw) fun r => ∃ copied b', r = .ok (copied, b') ∧
      Refines env b' (if copied then w.copy es largest raw.blockMeta.staleKeyCount
        else es.foldl Written.add w) := by
  obtain ⟨blocks, cur, n, h⟩ := h
  refine (switchTable_returnsOr raw.smallestKey.userKey.tableId h.laid h.tables h.table).bind
    fun b₁ ⟨blocks₁, cur₁, n₁, hs⟩ => ?_
  rw [h.entries, h.stale] at hs
  dsimp only
  split
  · -- the open block is small: it takes the entries
    rename_i hsmall
    have hcur₁ : cur₁ ≠ [] := by
      intro hnil
      rw [(hs.laid.isEmpty_iff hs.table).2 hnil] at hsmall
      simp at hsmall
    have hlast : w.entries.getLast?.map tableOf = some raw.smallestKey.userKey.tableId := by
      rw [← hs.entries, table_getLast?_append hcur₁ hs.table]
    have href : Refines env b₁ w := by
      refine ⟨blocks₁, cur₁, n₁, hs.laid, hs.entries, hs.stale, ?_, fun e he => ?_, fun x => ?_, ?_⟩
      · rw [hlast]
        refine hs.tables.congr fun t => ⟨fun ht => ?_, .inr⟩
        rcases ht with rfl | ht
        · obtain ⟨l, hl, hl'⟩ := Option.map_eq_some_iff.1 hlast
          exact ⟨l, mem_of_getLast? hl, hl'⟩
        · exact ht
      · rw [hlast, hs.table e he]
      · rw [hs.epochSet]
        exact h.epochs x
      · rw [hs.lastFullKey]
        exact h.last
    obtain ⟨block, slots, hdecode, hholds, hes⟩ := hraw.decodes
    rw [hdecode]
    refine (mergeBlock_refines href hholds hes (fun e he => ?_) hlt hsorted).bind fun b' hb' => ?_
    · rw [hlast, hraw.table e he]
    · exact ⟨false, b', rfl, hb'⟩
  · refine (buildBlock_laidOut hs.laid hs.table).bind
      fun b₂ ⟨hsame, blocks₂, hlaid, hentries, hstale⟩ => ?_
    have hs₂ : Switched env b b₂ w.entries w.stale (fun t => ∃ e ∈ w.entries, tableOf e = t)
        raw.smallestKey.userKey.tableId blocks₂ [] 0 :=
      ⟨hlaid, by rw [append_nil, hentries, hs.entries], by rw [Nat.add_zero, hstale, hs.stale],
        by simp, hs.tables.same hsame, hsame.epochSet.trans hs.epochSet,
        hsame.lastFullKey.trans hs.lastFullKey⟩
    obtain ⟨b', hrun, hb'⟩ := copyBlock_refines hs₂ h.epochs hraw
    rw [hrun]
    exact ⟨true, b', rfl, hb'⟩

/-! ## Finishing -/

theorem fillCompressedSize_total {stats : HashMap TableId TableStats}
    (hok : ∀ x ∈ blocks, x.Ok codec)
    (hstats : ∀ e ∈ fileEntries blocks, (stats[tableOf e]?).isSome = true) :
    ∃ stats', (blocks.map (·.blockMeta)).foldlM fillCompressedSize stats =
      .ok stats' := by
  induction blocks generalizing stats with
  | nil => exact ⟨stats, rfl⟩
  | cons x blocks ih =>
    rw [forall_mem_cons] at hok
    obtain ⟨first, rest, hentries⟩ := exists_cons_of_ne_nil hok.1.decodes.ne_nil
    have htable : x.blockMeta.tableId = .ok (tableOf first) := by
      rw [BlockMeta.tableId, hok.1.smallest first (by rw [hentries]; rfl), FullKey.decode_encode]
      rfl
    obtain ⟨s, hs⟩ := Option.isSome_iff_exists.1 (hstats first (by simp [fileEntries, hentries]))
    rw [map_cons, foldlM_cons, fillCompressedSize, htable, ok_bind, hs, unwrap, ok_bind]
    refine ih hok.2 fun e he => ?_
    rw [HashMap.getElem?_insert_eq]
    split
    · rfl
    · exact hstats e (mem_append_right _ he)

theorem LaidOut.smallestKey_eq (h : LaidOut env b blocks cur n) :
    b.smallestKey = ((fileEntries blocks ++ cur).head?.map fun e => e.1.encode).getD [] := by
  rw [smallestKey, h.metas]
  cases blocks with
  | nil =>
    cases cur with
    | nil => rfl
    | cons e es => rfl
  | cons x blocks =>
    have hx := h.blocks_ok x (.head _)
    obtain ⟨first, rest, hentries⟩ := exists_cons_of_ne_nil hx.decodes.ne_nil
    simp [fileEntries, hentries, hx.smallest first (by rw [hentries]; rfl)]

theorem sum_totalKeyCount (hok : ∀ x ∈ blocks, x.Ok codec) :
    ((blocks.map (·.blockMeta)).map (·.totalKeyCount)).sum = (fileEntries blocks).length := by
  induction blocks with
  | nil => rfl
  | cons x blocks ih =>
    rw [forall_mem_cons] at hok
    rw [map_cons, map_cons, sum_cons, ih hok.2, hok.1.count]
    simp [fileEntries]

/-- What the output says about the file. -/
structure Describes (env : SstableEnv F) (out : SstableBuilderOutput) (w : Written)
    (blocks : List FileBlock) : Prop where
  left : out.sstInfo.keyRange.left = (w.entries.head?.map fun e => e.1.encode).getD []
  right : out.sstInfo.keyRange.right = (w.last.map FullKey.encode).getD []
  tables_sorted : out.sstInfo.tableIds.Pairwise (· < ·)
  tables : ∀ t, t ∈ out.sstInfo.tableIds ↔ ∃ e ∈ w.entries, tableOf e = t
  total : out.sstInfo.totalKeyCount = w.entries.length
  stale : out.sstInfo.staleKeyCount = w.stale
  minEpoch : ∀ x : HummockEpoch, out.sstInfo.minEpoch ≤ x ↔
    U64.max ≤ x ∨ ∃ e ∈ w.single, e.1.epochWithGap.pureEpoch ≤ x
  maxEpoch : ∀ x : HummockEpoch, x ≤ out.sstInfo.maxEpoch ↔ x ≤ 0 ∨ ∃ e ∈ w.single,
    x ≤ e.1.epochWithGap.pureEpoch
  stale_metas : out.sstInfo.staleKeyCount = (out.sstMeta.blockMetas.map (·.staleKeyCount)).sum
  metas : out.sstMeta.blockMetas = blocks.map (·.blockMeta)
  data : out.data = fileData blocks
  entries : fileEntries blocks = w.entries
  blocks_ok : ∀ x ∈ blocks, x.Ok env.codec
  placed : PlacedFrom 0 blocks
  data_lt : out.data.length < 2 ^ 32

theorem finish_describes (h : Refines env b w) :
    ReturnsOr (· ∈ sstLimits) (b.finish env) fun out => ∃ blocks, Describes env out w blocks := by
  obtain ⟨blocks, cur, n, h⟩ := h
  obtain ⟨stats, lastStats, heq, hstats⟩ := finalizeLastTableStats_eq b
  obtain ⟨t₀, ht₀⟩ := exists_table h.table 0
  have hleft := h.laid.smallestKey_eq
  rw [h.entries] at hleft
  unfold finish
  rw [heq, hleft]
  have hlaid : LaidOut env { b with tableStats := stats, lastTableStats := lastStats }
      blocks cur n :=
    ⟨h.laid.interval, h.laid.writer, h.laid.offset, h.laid.metas, h.laid.placed, h.laid.blocks_ok,
      h.laid.stale_nil, h.laid.built⟩
  refine (buildBlock_laidOut hlaid ht₀).bind fun b' ⟨hsame, blocks', hlaid', hentries, hstale⟩ => ?_
  rw [h.entries] at hentries
  rw [h.stale] at hstale
  have hmetas : b'.blockMetas = blocks'.map (·.blockMeta) := by
    rw [hlaid'.metas, openMeta, append_nil]
  have hstats' : ∀ e ∈ fileEntries blocks', (b'.tableStats[tableOf e]?).isSome = true := by
    intro e he
    rw [hsame.tableStats]
    have hseen : ∃ x ∈ w.entries, tableOf x = tableOf e := ⟨e, hentries ▸ he, rfl⟩
    refine hstats _ ((h.tables.stats _ hseen).imp_left fun hl => ⟨?_, h.tables.last_eq.trans hl⟩)
    refine Std.ExtTreeSet.isEmpty_eq_false_iff.2 fun hempty => ?_
    simpa [hempty] using (h.tables.mem _).2 hseen
  obtain ⟨stats', hfill⟩ := fillCompressedSize_total hlaid'.blocks_ok hstats'
  have hcount := sum_totalKeyCount hlaid'.blocks_ok
  rw [← hmetas, hentries] at hcount
  have hlimit : ∀ msg ∈ ["overflow: total_key_count", "overflow: meta_encoded_size",
      "overflow: meta_offset", "overflow: estimated_size"], Panic.explicit msg ∈ sstLimits := by
    decide
  refine (checkedIntoU32_sst (hlimit _ (by simp))).bind fun keyCount _ => ?_
  refine (checkedIntoU32_sst (hlimit _ (by simp))).bind fun encodedSize _ => ?_
  refine (checkedIntoU32_sst (hlimit _ (by simp))).bind fun metaOffset hoffset => ?_
  refine (checkedIntoU32_sst (hlimit _ (by simp))).bind fun estimatedSize _ => ?_
  rw [hmetas, hfill]
  have hmin : ∀ x : HummockEpoch, (BTreeSet.first? b'.epochSet).getD U64.max ≤ x ↔
      U64.max ≤ x ∨ ∃ e ∈ w.single, e.1.epochWithGap.pureEpoch ≤ x := by
    intro x
    rw [BTreeSet.first?_getD_le_iff U64.le_max, hsame.epochSet]
    simp [h.epochs]
  have hmax : ∀ x : HummockEpoch, x ≤ (BTreeSet.last? b'.epochSet).getD 0 ↔
      x ≤ 0 ∨ ∃ e ∈ w.single, x ≤ e.1.epochWithGap.pureEpoch := by
    intro x
    rw [BTreeSet.le_last?_getD_iff Fin.zero_le, hsame.epochSet]
    simp [h.epochs]
  refine ⟨blocks', rfl, h.last, BTreeSet.toList_sorted _, fun t => ?_, ?_, ?_, hmin, hmax, rfl, rfl,
    hlaid'.writer, hentries, hlaid'.blocks_ok, hlaid'.placed, ?_⟩
  · rw [Std.ExtTreeSet.mem_toList, hsame.tableIds]
    exact h.tables.mem t
  · rw [← hmetas]
    exact hcount
  · show ((blocks'.map (·.blockMeta)).map (·.staleKeyCount)).sum = w.stale
    rw [map_map, ← hstale]
    rfl
  · rw [← hoffset]
    exact metaOffset.isLt

/-! ## Sequences of calls -/

/-- A raw block as a caller has it, with the entries it holds. -/
structure GivenBlock (codec : Codec) where
  raw : RawBlock
  entries : List Entry
  largest : FullKey
  valid : raw.Valid codec entries largest

inductive BuilderCall (codec : Codec) where
  | add (e : Entry)
  | addRawBlock (block : GivenBlock codec)

namespace BuilderCall

def entries : BuilderCall codec → List Entry
  | add e => [e]
  | addRawBlock block => block.entries

/-- Makes the call; the flag says whether a raw block was appended as it is. -/
def run (env : SstableEnv F) (b : SstableBuilder F) :
    BuilderCall env.codec → Res (HummockResult (Bool × SstableBuilder F))
  | add e => do .ok (.ok (false, ← b.add env e.1 e.2))
  | addRawBlock block => b.addRawBlock env block.raw

def single : BuilderCall codec → Bool → List Entry
  | add e, _ => [e]
  | addRawBlock block, copied => if copied then [] else block.entries

def lastKey : BuilderCall codec → Bool → Option FullKey
  | add e, _ => some e.1
  | addRawBlock block, copied =>
    if copied then some block.largest else block.entries.getLast?.map (·.1)

/-- The call on the abstract file. -/
def write (w : Written) : BuilderCall codec × Bool → Written
  | (add e, _) => w.add e
  | (addRawBlock block, copied) =>
    if copied then w.copy block.entries block.largest block.raw.blockMeta.staleKeyCount
    else block.entries.foldl Written.add w

end BuilderCall

theorem BuilderCall.write_eq (w : Written) (p : BuilderCall codec × Bool) : ∃ stale,
    write w p = ⟨w.entries ++ p.1.entries, w.single ++ p.1.single p.2, p.1.lastKey p.2, stale⟩ := by
  obtain ⟨c, copied⟩ := p
  cases c with
  | add e => exact ⟨_, rfl⟩
  | addRawBlock block =>
    cases copied with
    | true => exact ⟨_, congrArg (Written.mk _ · _ _) (append_nil w.single).symm⟩
    | false =>
      obtain ⟨stale, hadd⟩ := Written.foldl_add block.entries w
      have hl := getLast?_eq_some_getLast block.valid.decodes.ne_nil
      exact ⟨stale, by simpa [hl, write, BuilderCall.entries, single, lastKey] using hadd⟩

theorem BuilderCall.write_entries (w : Written) (p : BuilderCall codec × Bool) :
    (write w p).entries = w.entries ++ p.1.entries :=
  congrArg Written.entries (write_eq w p).choose_spec

/-- The file that the calls write, each with the flag it returned. -/
def written {codec : Codec} (calls : List (BuilderCall codec × Bool)) : Written :=
  calls.foldl BuilderCall.write .empty

def runCalls (env : SstableEnv F) : SstableBuilder F → List (BuilderCall env.codec) →
    Res (HummockResult (List (BuilderCall env.codec × Bool) × SstableBuilder F))
  | b, [] => .ok (.ok ([], b))
  | b, c :: calls => do
    match ← c.run env b with
    | .error e => .ok (.error e)
    | .ok (copied, b) =>
      match ← runCalls env b calls with
      | .error e => .ok (.error e)
      | .ok (done, b) => .ok (.ok ((c, copied) :: done, b))

def buildSst (env : SstableEnv F) (sstableId : Nat) (filterBuilder : F)
    (options : SstableBuilderOptions) (calls : List (BuilderCall env.codec)) :
    Res (HummockResult (List (BuilderCall env.codec × Bool) × SstableBuilderOutput)) := do
  let b ← new sstableId filterBuilder options
  match ← runCalls env b calls with
  | .error e => .ok (.error e)
  | .ok (done, b) => do .ok (.ok (done, ← b.finish env))

theorem BuilderCall.run_refines (h : Refines env b w) (c : BuilderCall env.codec)
    (hlt : ∀ x ∈ w.entries, ∀ e ∈ c.entries, x.1 < e.1)
    (hsorted : c.entries.Pairwise fun x y => x.1 < y.1) :
    ReturnsOr (· ∈ sstLimits) (c.run env b) fun r => ∃ copied b', r = .ok (copied, b') ∧
      Refines env b' (write w (c, copied)) := by
  cases c with
  | add e =>
    have hlt' : ∀ x ∈ w.entries, x.1 < e.1 := fun x hx => hlt x hx e (.head _)
    refine (addImpl_refines h hlt' fun hfalse : true = false => nomatch hfalse).bind
      fun b' hb' => ?_
    exact ⟨false, b', rfl, hb'⟩
  | addRawBlock block => exact addRawBlock_refines h block.valid hlt hsorted

theorem run_next {c : BuilderCall env.codec} {calls : List (BuilderCall env.codec)} {copied : Bool}
    (h : Refines env b w)
    (hlt : ∀ x ∈ w.entries, ∀ e ∈ (c :: calls).flatMap (·.entries), x.1 < e.1)
    (hsorted : ((c :: calls).flatMap (·.entries)).Pairwise fun x y => x.1 < y.1)
    (hrun : c.run env b = .ok (.ok (copied, b'))) :
    Refines env b' (BuilderCall.write w (c, copied)) ∧
      (∀ x ∈ (BuilderCall.write w (c, copied)).entries, ∀ e ∈ calls.flatMap (·.entries), x.1 < e.1) ∧
      (calls.flatMap (·.entries)).Pairwise fun x y => x.1 < y.1 := by
  rw [flatMap_cons, pairwise_append] at hsorted
  obtain ⟨hc, hcalls, hcross⟩ := hsorted
  have hreturns := c.run_refines h (fun x hx e he => hlt x hx e (mem_append_left _ he)) hc
  rw [hrun] at hreturns
  obtain ⟨_, _, hr, h'⟩ := hreturns
  cases hr
  refine ⟨h', fun x hx e he => ?_, hcalls⟩
  rw [BuilderCall.write_entries] at hx
  rcases mem_append.1 hx with hx | hx
  · exact hlt x hx e (mem_append_right _ he)
  · exact hcross x hx e he

theorem runCalls_refines :
    ∀ (calls : List (BuilderCall env.codec)) {b : SstableBuilder F} {w : Written},
    Refines env b w → (∀ x ∈ w.entries, ∀ e ∈ calls.flatMap (·.entries), x.1 < e.1) →
    (calls.flatMap (·.entries)).Pairwise (fun x y => x.1 < y.1) →
    ReturnsOr (· ∈ sstLimits) (runCalls env b calls) fun r => ∃ done b', r = .ok (done, b') ∧
      done.map (·.1) = calls ∧ Refines env b' (done.foldl BuilderCall.write w)
  | [], b, w, h, _, _ => ⟨[], b, rfl, rfl, h⟩
  | c :: calls, b, w, h, hlt, hsorted => by
    have hc := (pairwise_append.1 (flatMap_cons ▸ hsorted)).1
    refine (c.run_refines h (fun x hx e he => hlt x hx e (mem_append_left _ he)) hc).with_eq.bind
      fun r ⟨hrun, copied, b₁, hr, _⟩ => ?_
    subst hr
    obtain ⟨h₁, hlt₁, hsorted₁⟩ := run_next h hlt hsorted hrun
    refine (runCalls_refines calls h₁ hlt₁ hsorted₁).bind fun r ⟨done, b', hr, hdone, h'⟩ => ?_
    subst hr
    exact ⟨(c, copied) :: done, b', rfl, by rw [map_cons, hdone], h'⟩

theorem smallestKeys_ascend (hok : ∀ x ∈ blocks, x.Ok codec)
    (hsorted : (fileEntries blocks).Pairwise fun x y => x.1 < y.1) :
    ∃ firsts : List FullKey, (blocks.map (·.blockMeta)).map (·.smallestKey) =
      firsts.map FullKey.encode ∧
      firsts.Pairwise (· < ·) ∧ ∀ k ∈ firsts, ∃ e ∈ fileEntries blocks, e.1 = k := by
  induction blocks with
  | nil => exact ⟨[], rfl, .nil, by simp⟩
  | cons x blocks ih =>
    rw [forall_mem_cons] at hok
    rw [fileEntries, flatMap_cons, pairwise_append] at hsorted
    obtain ⟨-, hblocks, hcross⟩ := hsorted
    obtain ⟨firsts, hfirsts, hasc, hmem⟩ := ih hok.2 hblocks
    obtain ⟨e, rest, hentries⟩ := exists_cons_of_ne_nil hok.1.decodes.ne_nil
    have he : e ∈ x.entries := by
      rw [hentries]
      exact .head _
    refine ⟨e.1 :: firsts, ?_, pairwise_cons.2 ⟨fun k hk => ?_, hasc⟩, fun k hk => ?_⟩
    · rw [map_cons, map_cons, hfirsts, hok.1.smallest e (by rw [hentries]; rfl), map_cons]
    · obtain ⟨e', he', rfl⟩ := hmem k hk
      exact hcross e he e' he'
    · rcases mem_cons.1 hk with rfl | hk
      · exact ⟨e, mem_append_left _ he, rfl⟩
      · obtain ⟨e', he', hk'⟩ := hmem k hk
        exact ⟨e', mem_append_right _ he', hk'⟩

/-! ## What the description says of the file -/

/-- A raw block is appended as it is, unless there is a small open block of its table. -/
def SstableBuilder.copies (b : SstableBuilder F) (raw : RawBlock) : Bool :=
  decide (b.lastTableId ≠ some raw.smallestKey.userKey.tableId) || b.blockBuilder.isEmpty ||
    decide (min minBlockSize (b.options.blockCapacity / 4) ≤ b.blockBuilder.approximateLen)

theorem buildBlock_isEmpty (h : b.buildBlock env = .ok b') : b'.blockBuilder.isEmpty = true := by
  unfold SstableBuilder.buildBlock at h
  split at h
  · cases h
    assumption
  · obtain ⟨_, -, h⟩ := bind_eq_ok.1 h
    obtain ⟨_, -, h⟩ := bind_eq_ok.1 h
    obtain ⟨_, -, h⟩ := bind_eq_ok.1 h
    obtain ⟨_, -, h⟩ := bind_eq_ok.1 h
    obtain ⟨_, -, h⟩ := bind_eq_ok.1 h
    cases h
    rfl

theorem addRawBlock_copies {copied : Bool} (h : b.addRawBlock env raw = .ok (.ok (copied, b'))) :
    copied = b.copies raw := by
  obtain ⟨b₁, hswitch, h⟩ := bind_eq_ok.1 h
  have hcopies : b.copies raw = (b₁.blockBuilder.isEmpty ||
      decide (min minBlockSize (b₁.options.blockCapacity / 4) ≤ b₁.blockBuilder.approximateLen)) := by
    unfold SstableBuilder.switchTable at hswitch
    unfold SstableBuilder.copies
    split at hswitch
    · rename_i hne
      obtain ⟨b₂, hbuild, heq⟩ := bind_eq_ok.1 hswitch
      obtain ⟨stats, lastStats, henter, -⟩ := enterTable_eq b₂ raw.smallestKey.userKey.tableId
      rw [henter] at heq
      cases heq
      simp [hne, buildBlock_isEmpty hbuild]
    · rename_i heq
      cases hswitch
      simp [not_not.1 heq]
  rw [hcopies]
  dsimp only at h
  split at h
  · rename_i hsmall
    obtain ⟨r, -, h⟩ := bind_eq_ok.1 h
    cases r with
    | error e => cases h
    | ok block =>
      obtain ⟨_, -, h⟩ := bind_eq_ok.1 h
      cases h
      simp only [Bool.and_eq_true, Bool.not_eq_true', decide_eq_true_eq] at hsmall
      simp [hsmall.1, Nat.not_le.2 hsmall.2]
  · rename_i hsmall
    obtain ⟨_, -, h⟩ := bind_eq_ok.1 h
    obtain ⟨_, -, h⟩ := bind_eq_ok.1 h
    cases h
    simpa [imp_iff_not_or] using hsmall

/-- The block comes with the key of its last entry, and its epochs lie between epochs that the
builder has recorded. -/
structure EndsKnown (b : SstableBuilder F) (block : GivenBlock codec) : Prop where
  largest : block.entries.getLast?.map (·.1) = some block.largest
  epochs : ∀ e ∈ block.entries, (∃ lo ∈ b.epochSet, lo ≤ e.1.epochWithGap.pureEpoch) ∧
    ∃ hi ∈ b.epochSet, e.1.epochWithGap.pureEpoch ≤ hi

/-- The call keeps the largest key and the epochs right. -/
def KeepsEnds (b : SstableBuilder F) : BuilderCall codec → Prop
  | .add _ => True
  | .addRawBlock block => b.copies block.raw = true → EndsKnown b block

/-- Every call keeps the ends right, judged by the builder before it. -/
def EachKeepsEnds (env : SstableEnv F) : SstableBuilder F → List (BuilderCall env.codec) → Prop
  | _, [] => True
  | b, c :: calls => KeepsEnds b c ∧
    ∀ copied b', c.run env b = .ok (.ok (copied, b')) → EachKeepsEnds env b' calls

/-- The last key given is that of the last entry, and the epoch of every entry lies between epochs
of entries that were added one by one. -/
structure Written.EndsOk (w : Written) : Prop where
  last : w.last = w.entries.getLast?.map (·.1)
  epochs : ∀ e ∈ w.entries,
    (∃ lo ∈ w.single, lo.1.epochWithGap.pureEpoch ≤ e.1.epochWithGap.pureEpoch) ∧
    ∃ hi ∈ w.single, e.1.epochWithGap.pureEpoch ≤ hi.1.epochWithGap.pureEpoch

theorem Written.EndsOk.add (h : w.EndsOk) {es : List Entry} (hne : es ≠ []) (stale : Nat) :
    EndsOk ⟨w.entries ++ es, w.single ++ es, es.getLast?.map (·.1), stale⟩ := by
  refine ⟨by rw [getLast?_append_of_ne_nil _ hne], fun e he => ?_⟩
  rcases mem_append.1 he with he | he
  · obtain ⟨⟨lo, hlo, hle⟩, hi, hhi, hle'⟩ := h.epochs e he
    exact ⟨⟨lo, mem_append_left _ hlo, hle⟩, hi, mem_append_left _ hhi, hle'⟩
  · exact ⟨⟨e, mem_append_right _ he, le_rfl⟩, e, mem_append_right _ he, le_rfl⟩

theorem BuilderCall.write_endsOk_iff (hrefines : Refines env b w) (h : w.EndsOk)
    {c : BuilderCall env.codec} {copied : Bool} (hrun : c.run env b = .ok (.ok (copied, b'))) :
    (write w (c, copied)).EndsOk ↔ KeepsEnds b c := by
  obtain ⟨stale, hwrite⟩ := write_eq w (c, copied)
  rw [hwrite]
  cases c with
  | add e => exact iff_of_true (h.add (cons_ne_nil e []) stale) trivial
  | addRawBlock block =>
    have hne := block.valid.decodes.ne_nil
    obtain rfl := addRawBlock_copies hrun
    rw [KeepsEnds]
    cases b.copies block.raw with
    | false => exact iff_of_true (h.add hne stale) nofun
    | true =>
      obtain ⟨_, _, _, hat⟩ := hrefines
      have hepochs (p : HummockEpoch → Prop) :
          (∃ x ∈ b.epochSet, p x) ↔ ∃ e ∈ w.single, p e.1.epochWithGap.pureEpoch := by
        simp only [hat.epochs]
        exact ⟨fun ⟨_, ⟨e, he, rfl⟩, hp⟩ => ⟨e, he, hp⟩, fun ⟨e, he, hp⟩ => ⟨_, ⟨e, he, rfl⟩, hp⟩⟩
      simp only [true_imp_iff, BuilderCall.entries, single, lastKey, if_true, append_nil]
      constructor
      · intro hw
        refine ⟨?_, by simpa only [hepochs] using fun e he => hw.epochs e (mem_append_right _ he)⟩
        rw [← getLast?_append_of_ne_nil w.entries hne]
        exact hw.last.symm
      · rintro ⟨hlargest, hblock⟩
        simp only [hepochs] at hblock
        refine ⟨?_, fun e he => (mem_append.1 he).elim (h.epochs e) (hblock e)⟩
        dsimp only
        rw [getLast?_append_of_ne_nil _ hne, hlargest]

/-- If all calls but the last keep the ends right, they are right just if the last one does, too. -/
theorem runCalls_endsOk_iff : ∀ (calls : List (BuilderCall env.codec)) {b b' : SstableBuilder F}
    {w : Written} {done : List (BuilderCall env.codec × Bool)}, Refines env b w → w.EndsOk →
    (∀ x ∈ w.entries, ∀ e ∈ calls.flatMap (·.entries), x.1 < e.1) →
    (calls.flatMap (·.entries)).Pairwise (fun x y => x.1 < y.1) →
    runCalls env b calls = .ok (.ok (done, b')) → EachKeepsEnds env b calls.dropLast →
    ((done.foldl BuilderCall.write w).EndsOk ↔ EachKeepsEnds env b calls)
  | [], _, _, w, _, _, h, _, _, hrun, _ => by
    cases hrun
    exact iff_of_true h trivial
  | c :: calls, b, b', w, done, href, h, hlt, hsorted, hrun, hkeeps => by
    obtain ⟨r, hc, hrun⟩ := bind_eq_ok.1 hrun
    rcases r with e | ⟨copied, b₁⟩
    · cases hrun
    obtain ⟨r, hcalls, hrun⟩ := bind_eq_ok.1 hrun
    rcases r with e | ⟨done, b₂⟩
    · cases hrun
    cases hrun
    obtain ⟨href₁, hlt₁, hsorted₁⟩ := run_next href hlt hsorted hc
    have hstep := BuilderCall.write_endsOk_iff href h hc
    have hsplit : EachKeepsEnds env b (c :: calls) ↔
        KeepsEnds b c ∧ EachKeepsEnds env b₁ calls := by
      rw [EachKeepsEnds, hc]
      exact and_congr_right
        fun _ => ⟨fun hall => hall copied b₁ rfl, by rintro hall _ _ ⟨⟩; exact hall⟩
    rw [hsplit, ← hstep, foldl_cons]
    cases calls with
    | nil =>
      cases hcalls
      exact (and_iff_left trivial).symm
    | cons c' calls =>
      rw [dropLast_cons_cons, EachKeepsEnds] at hkeeps
      have hw := hstep.2 hkeeps.1
      rw [and_iff_right hw]
      exact runCalls_endsOk_iff (c' :: calls) href₁ hw hlt₁ hsorted₁ hcalls (hkeeps.2 copied b₁ hc)

/-- The largest key and the epochs of the description are right just if the ends are. -/
theorem Describes.endsOk_iff {out : SstableBuilderOutput} (h : Describes env out w blocks) :
    (out.sstInfo.keyRange.right = (w.entries.getLast?.map fun e => e.1.encode).getD [] ∧
      ∀ e ∈ w.entries, out.sstInfo.minEpoch ≤ e.1.epochWithGap.pureEpoch ∧
        e.1.epochWithGap.pureEpoch ≤ out.sstInfo.maxEpoch) ↔ w.EndsOk := by
  have hright : out.sstInfo.keyRange.right = (w.entries.getLast?.map fun e => e.1.encode).getD [] ↔
      w.last = w.entries.getLast?.map (·.1) := by
    rw [h.right, ← FullKey.encode_getD_inj, Option.map_map]
    rfl
  refine (and_congr hright (forall₂_congr fun e _ => ?_)).trans
    ⟨fun hw => ⟨hw.1, hw.2⟩, fun hw => ⟨hw.1, hw.2⟩⟩
  rw [h.minEpoch, h.maxEpoch]
  cases w.single with
  | nil =>
    -- nothing was added one by one: the recorded bounds are the largest and the smallest epoch
    refine iff_of_false (fun ⟨hmax, hmin⟩ => ?_) (fun ⟨⟨lo, hlo, _⟩, _⟩ => nomatch hlo)
    simp only [not_mem_nil, false_and, exists_false, or_false] at hmax hmin
    exact absurd (hmax.trans hmin) (by decide)
  | cons s single =>
    refine and_congr (or_iff_right_of_imp fun hmax => ?_) (or_iff_right_of_imp fun hmin => ?_)
    · exact ⟨s, .head _, (U64.le_max _).trans hmax⟩
    · exact ⟨s, .head _, hmin.trans (Fin.zero_le _)⟩

def rawBlockOf (codec : Codec) (options : BlockBuilderOptions) (entries : List Entry)
    (largest : FullKey) : Res RawBlock := do
  let (builder, bytes) ← buildBlock codec true options (entries.map encodeEntry)
  let first ← unwrap entries.head? "entries.first()"
  .ok ⟨bytes, [], first.1, largest.encode,
    ⟨first.1.encode, 0, bytes.length, builder.uncompressedBlockSize, entries.length, 0⟩⟩

theorem rawBlockOf_valid {options : BlockBuilderOptions} {entries : List Entry}
    (hinterval : 1 ≤ options.restartInterval) (t : TableId)
    (htable : ∀ e ∈ entries, tableOf e = t) (hsorted : entries.Pairwise fun x y => x.1 < y.1)
    (h : rawBlockOf codec options entries largest = .ok raw) : raw.Valid codec entries largest := by
  obtain ⟨⟨builder, bytes⟩, hbuild, h⟩ := bind_eq_ok.1 h
  obtain ⟨first, hfirst, h⟩ := bind_eq_ok.1 h
  obtain ⟨rest, rfl⟩ : ∃ rest, entries = first :: rest := by
    cases entries with
    | nil => cases hfirst
    | cons e rest =>
      cases hfirst
      exact ⟨rest, rfl⟩
  cases h
  have htable' : ∀ e ∈ (first :: rest).map encodeEntry, e.1.userKey.tableId = t := by
    intro e he
    obtain ⟨e', he', rfl⟩ := mem_map.1 he
    exact htable e' he'
  have hreturns := buildBlock_returnsOr codec true hinterval (by simp) htable' (pairwise_map.2 hsorted)
  rw [hbuild] at hreturns
  obtain ⟨slots, block, hslots, hdecode, hholds⟩ := hreturns
  exact ⟨⟨block, slots, hdecode, hholds, hslots⟩, rfl, rfl, rfl, rfl, rfl⟩

def bareEnv : SstableEnv Unit where
  dbg := true
  codec := plain
  filter := ⟨fun _ _ _ => (), fun _ => [], fun _ => 0, fun _ => (), fun _ _ => (), true⟩
  extract := id

def GivenBlock.ofEntries {codec : Codec} {options : BlockBuilderOptions} {entries : List Entry}
    {largest : FullKey} (hinterval : 1 ≤ options.restartInterval) (t : TableId)
    (htable : ∀ e ∈ entries, tableOf e = t) (hsorted : entries.Pairwise fun x y => x.1 < y.1)
    (hok : (rawBlockOf codec options entries largest).isOk = true) : GivenBlock codec :=
  match hraw : rawBlockOf codec options entries largest with
  | .ok raw => ⟨raw, entries, largest, rawBlockOf_valid hinterval t htable hsorted hraw⟩
  | .error _ => absurd hok (by rw [hraw]; exact Bool.false_ne_true)

/-- A value of table `2`, written at epoch `65536`. -/
def loneEntry : Entry := (⟨⟨2, [0, 1]⟩, 65536⟩, .put [7])

/-- A block of this entry, with the largest key that the fast compaction gives to the last block of
an SST. -/
def loneBlock : GivenBlock plain :=
  .ofEntries (show 1 ≤ (⟨4096, .none, 16⟩ : BlockBuilderOptions).restartInterval by decide) 2
    (show ∀ e ∈ [loneEntry], tableOf e = 2 by decide) (by simp)
    (show (rawBlockOf plain _ _ loneEntry.1).isOk = true by decide +kernel)

/-- The same block, with the largest key that it gives to a block before one of the next user key.
-/
def loneBlockBefore : GivenBlock plain :=
  .ofEntries (show 1 ≤ (⟨4096, .none, 16⟩ : BlockBuilderOptions).restartInterval by decide) 2
    (show ∀ e ∈ [loneEntry], tableOf e = 2 by decide) (by simp)
    (show (rawBlockOf plain _ _ ⟨⟨2, [0, 2]⟩, U64.max⟩).isOk = true by decide +kernel)

/-- Unless a size exceeds `u32`, `finish` returns the file of the entries given, and its
description: the smallest key, the tables, the counts and the smallest keys of the blocks are right.
The largest key and the epochs are right as long as every call keeps them so, and wrong after the
first that does not. -/
theorem buildSst_describes (env : SstableEnv F) (sstableId : Nat) (filterBuilder : F)
    {options : SstableBuilderOptions} {b : SstableBuilder F}
    (hnew : SstableBuilder.new sstableId filterBuilder options = .ok b)
    (calls : List (BuilderCall env.codec))
    (hsorted : (calls.flatMap (·.entries)).Pairwise fun x y => x.1 < y.1) :
    ReturnsOr (· ∈ sstLimits) (buildSst env sstableId filterBuilder options calls) fun r =>
      ∃ done out blocks, r = .ok (done, out) ∧ done.map (·.1) = calls ∧
        let entries := calls.flatMap (·.entries)
        let info := out.sstInfo
        -- the file
        out.data = fileData blocks ∧ fileEntries blocks = entries ∧ (∀ x ∈ blocks, x.Ok env.codec) ∧
        out.sstMeta.blockMetas = blocks.map (·.blockMeta) ∧
        -- the smallest key
        info.keyRange.left = (entries.head?.map fun e => e.1.encode).getD [] ∧
        -- the tables
        info.tableIds.Pairwise (· < ·) ∧ (∀ t, t ∈ info.tableIds ↔ ∃ e ∈ entries, tableOf e = t) ∧
        -- the counts
        info.totalKeyCount = entries.length ∧ info.staleKeyCount = (written done).stale ∧
        info.staleKeyCount = (out.sstMeta.blockMetas.map (·.staleKeyCount)).sum ∧
        -- the blocks
        (∃ firsts : List FullKey, out.sstMeta.blockMetas.map (·.smallestKey) =
          firsts.map FullKey.encode ∧
          firsts.Pairwise (· < ·)) ∧
        -- the largest key and the epochs
        (EachKeepsEnds env b calls.dropLast →
          ((info.keyRange.right = (entries.getLast?.map fun e => e.1.encode).getD [] ∧
            ∀ e ∈ entries, info.minEpoch ≤ e.1.epochWithGap.pureEpoch ∧
              e.1.epochWithGap.pureEpoch ≤ info.maxEpoch) ↔ EachKeepsEnds env b calls)) := by
  have hb : Refines env b .empty := refines_new hnew
  have hlt : ∀ x ∈ Written.empty.entries, ∀ e ∈ calls.flatMap (·.entries), x.1 < e.1 := by
    simp [Written.empty]
  rw [buildSst, hnew]
  refine (runCalls_refines calls hb hlt hsorted).with_eq.bind
    fun r ⟨hrun, done, b', hr, hdone, hb'⟩ => ?_
  subst hr
  refine (finish_describes hb').bind fun out ⟨blocks, h⟩ => ?_
  have hentries : (written done).entries = calls.flatMap (·.entries) := by
    rw [← hdone, flatMap_map]
    exact Written.foldl_field BuilderCall.write_entries done .empty
  have hsorted' : (fileEntries blocks).Pairwise fun x y => x.1 < y.1 := by
    rw [h.entries]
    exact hentries.symm ▸ hsorted
  obtain ⟨firsts, hfirsts, hasc, -⟩ := smallestKeys_ascend h.blocks_ok hsorted'
  rw [← hentries]
  refine ⟨done, out, blocks, rfl, hdone, h.data, h.entries, h.blocks_ok, h.metas, h.left,
    h.tables_sorted, h.tables, h.total, h.stale, h.stale_metas, ⟨firsts, ?_, hasc⟩, fun hkeeps => ?_⟩
  · rw [h.metas, hfirsts]
  · exact h.endsOk_iff.trans
      (runCalls_endsOk_iff calls hb ⟨rfl, by simp [Written.empty]⟩ hlt hsorted hrun hkeeps)

/-- A value of table `1`, then a copied block of table `2`. -/
theorem buildSst_describes_copied :
    let calls : List (BuilderCall plain) :=
      [.add (⟨⟨1, [0, 1]⟩, 65536⟩, .put [7]), .addRawBlock loneBlock]
    ∃ done out, buildSst bareEnv 1 () ⟨4096, 1024, 16, false, .none⟩ calls = .ok (.ok (done, out)) ∧
      out.sstInfo.keyRange.left = (⟨⟨1, [0, 1]⟩, 65536⟩ : FullKey).encode ∧
      out.sstInfo.keyRange.right = loneEntry.1.encode ∧ out.sstInfo.totalKeyCount = 2 ∧
      out.sstInfo.minEpoch ≤ 65536 ∧ 65536 ≤ out.sstInfo.maxEpoch := by
  intro calls
  have hsorted : (calls.flatMap (·.entries)).Pairwise fun x y => x.1 < y.1 := by decide +kernel
  obtain ⟨b, hnew⟩ : ∃ b, SstableBuilder.new 1 () ⟨4096, 1024, 16, false, .none⟩ = .ok b := ⟨_, rfl⟩
  have hkeeps : EachKeepsEnds bareEnv b calls := by
    refine ⟨trivial, fun copied b' hrun => ⟨fun _ => ⟨?_, fun e he => ?_⟩, fun _ _ _ => trivial⟩⟩
    · decide +kernel
    · have hepoch : e.1.epochWithGap.pureEpoch = 65536 :=
        (show ∀ e ∈ loneBlock.entries, e.1.epochWithGap.pureEpoch = 65536 by decide +kernel) e he
      obtain ⟨⟨_, _, _, hat⟩, -, -⟩ :=
        run_next (refines_new hnew) (by simp [Written.empty]) hsorted hrun
      have hmem : (65536 : HummockEpoch) ∈ b'.epochSet := (hat.epochs _).2 ⟨_, .head _, by decide⟩
      rw [hepoch]
      exact ⟨⟨_, hmem, le_rfl⟩, _, hmem, le_rfl⟩
  have hreturns := buildSst_describes bareEnv 1 () hnew calls hsorted
  cases hrun : buildSst bareEnv 1 () ⟨4096, 1024, 16, false, .none⟩ calls with
  | error e =>
    have hok : (buildSst bareEnv 1 () ⟨4096, 1024, 16, false, .none⟩ calls).isOk = true := by
      decide +kernel
    rw [hrun] at hok
    cases hok
  | ok r =>
    rw [hrun] at hreturns
    obtain ⟨done, out, blocks, rfl, -, -, -, -, -, hleft, -, -, htotal, -, -, -, hends⟩ := hreturns
    obtain ⟨hright, hepochs⟩ := (hends ⟨trivial, fun _ _ _ => trivial⟩).2 hkeeps
    exact ⟨done, out, rfl, hleft, hright, htotal, hepochs loneEntry (by decide +kernel)⟩

/-- The description that the builder gives the SST of the calls. -/
def infoOf (calls : List (BuilderCall plain)) : Option BuiltSstableInfo :=
  match buildSst bareEnv 1 () ⟨4096, 1024, 16, false, .none⟩ calls with
  | .ok (.ok (_, out)) => some out.sstInfo
  | _ => none

/-- Of an SST that consists of a copied block, the recorded epochs are the largest and the smallest
there are, and a largest key given as a bound becomes the right end of the key range. -/
theorem buildSst_copied_wrong :
    (infoOf [.addRawBlock loneBlock]).map (fun i => (i.minEpoch, i.maxEpoch)) = some (U64.max, 0) ∧
    loneBlock.entries.map (fun e => e.1.epochWithGap.pureEpoch) = [65536] ∧
    (infoOf [.addRawBlock loneBlockBefore]).map (fun i => i.keyRange.right) =
      some (⟨⟨2, [0, 2]⟩, U64.max⟩ : FullKey).encode ∧
    loneBlockBefore.entries.map (·.1) = [loneEntry.1] := by
  decide +kernel

end Hummock
