import RisingLake.Hummock.MultiBuilder
import RisingLake.Hummock.Proof.SkipWatermark
import RisingLake.Hummock.Proof.SstableBuilder

/-!
# What a builder of several SSTs writes

`Fills` relates a `CapacitySplitTableBuilder` to the entries it was given: those in the SSTs that
are finished, followed by those in the current builder. Adding an entry, adding a raw block and
finishing keep this, whatever the points at which SSTs are cut.
-/

namespace Hummock

open Res Bytes List CapacitySplitTableBuilder

variable {F : Type} {env : CapacitySplitEnv F}

/-! ## Partitions of vnodes -/

/-- The catalog knows the vnodes of the table, and it is cut into no more partitions. -/
def VnodesOk (env : CapacitySplitEnv F) (partition : HashMap TableId Nat) (t : TableId) : Prop :=
  ∃ n, env.tableIdToVnode[t]? = some n ∧ 0 < n ∧ ∀ weight, partition[t]? = some weight → weight ≤ n

/-- If the current partition is not the last, there are several. -/
structure PartitionInv (b : CapacitySplitTableBuilder F) : Prop where
  vnodes : 0 < b.vnodeCount
  weight : b.largestVnodeInCurrentPartition ≠ b.vnodeCount - 1 →
    0 < b.splitWeightByVnode ∧ b.splitWeightByVnode ≤ b.vnodeCount

/-- Only the partition has changed. -/
structure SameOutputs (b b' : CapacitySplitTableBuilder F) : Prop where
  sstOutputs : b'.sstOutputs = b.sstOutputs
  currentBuilder : b'.currentBuilder = b.currentBuilder
  partition : b'.tableVnodePartition = b.tableVnodePartition

theorem firstPartitionEnd_ok {n weight : Nat} (hn : 0 < n) (hweight : weight ≤ n) : ∃ last,
    firstPartitionEnd n weight = .ok last ∧ (last ≠ n - 1 → 0 < weight ∧ weight ≤ n) := by
  unfold firstPartitionEnd
  split
  · have hdiv : 1 ≤ n / weight := (Nat.one_le_div_iff (by omega)).2 hweight
    rw [checkedDiv_of_pos (by omega), ok_bind, checkedSub_of_le hdiv]
    exact ⟨_, rfl, fun _ => ⟨by omega, hweight⟩⟩
  · rw [checkedSub_of_le hn]
    exact ⟨_, rfl, fun h => absurd rfl h⟩

variable {b : CapacitySplitTableBuilder F} {done : List Written} {cur : Written}

theorem switchTable_ok (h : PartitionInv b) {t : TableId}
    (ht : VnodesOk env b.tableVnodePartition t) :
    ∃ switch b', b.switchTable env t = .ok (switch, b') ∧ PartitionInv b' ∧ SameOutputs b b' := by
  obtain ⟨n, hn, hpos, hweight⟩ := ht
  unfold switchTable
  split
  · dsimp only
    rw [hn, unwrap, ok_bind, checkedSub_of_le hpos]
    split
    · have hle : b.tableVnodePartition[t]?.getD 0 ≤ n := by
        cases hw : b.tableVnodePartition[t]? with
        | none => exact Nat.zero_le n
        | some weight => exact hweight weight hw
      obtain ⟨last, hlast, hinv⟩ := firstPartitionEnd_ok hpos hle
      rw [hlast]
      exact ⟨_, _, rfl, ⟨hpos, hinv⟩, rfl, rfl, rfl⟩
    · exact ⟨_, _, rfl, ⟨hpos, fun hne => absurd rfl hne⟩, rfl, rfl, rfl⟩
  · exact ⟨_, _, rfl, h, rfl, rfl, rfl⟩

theorem lt_segmentEnd (x start : Nat) {m : Nat} (hm : 0 < m) :
    x < ((x - start) / m + 1) * m + start := by
  have := Nat.lt_div_mul_add hm (a := x - start)
  rw [Nat.succ_mul]
  omega

theorem partitionEnd_ok (dbg : Bool) {n weight : Nat} (hpos : 0 < weight) (hle : weight ≤ n)
    (vnode : Nat) : ∃ last, partitionEnd dbg n weight vnode = .ok last := by
  have hbasic : 0 < n / weight := (Nat.one_le_div_iff hpos).2 hle
  have hrem := Nat.mod_lt n hpos
  unfold partitionEnd
  rw [checkedDiv_of_pos hpos, ok_bind, checkedRem_of_pos hpos, ok_bind,
    checkedSub_of_le hrem.le, ok_bind]
  dsimp only
  -- the end of the partition lies behind the vnode
  have hstop : ∀ stop, vnode < stop → ∃ last, (do
      let largest ← checkedSub stop 1
      debugAssert dbg (decide (vnode ≤ largest)) "key_vnode <= self.largest_vnode_in_current_partition"
      .ok largest) = .ok last := by
    intro stop hlt
    refine ⟨stop - 1, ?_⟩
    rw [checkedSub_of_le (by omega), ok_bind, decide_eq_true (by omega)]
    simp [debugAssert]
  split
  · rw [checkedDiv_of_pos hbasic, ok_bind]
    exact hstop _ (lt_segmentEnd vnode 0 hbasic)
  · exact hstop _ (lt_segmentEnd vnode _ (Nat.succ_pos _))

theorem switchPartition_ok (h : PartitionInv b) {key : UserKey} (hkey : HasVnode key)
    (switch : Bool) :
    ∃ switch' b', b.switchPartition env key switch = .ok (switch', b') ∧ PartitionInv b' ∧
      SameOutputs b b' := by
  unfold switchPartition
  rw [checkedSub_of_le h.vnodes, ok_bind]
  split
  · rename_i hne
    obtain ⟨v, inner, hv, hkey⟩ := hkey
    have hvnode : key.getVnodeId env.sst.dbg = .ok v.toIndex := by
      have hpart : TableKey.vnodePart env.sst.dbg key.tableKey = .ok v :=
        TableKey.vnodePart_eq_ok.2 ⟨fun _ => hv, inner, by rw [hkey]; rfl⟩
      rw [UserKey.getVnodeId, hpart, ok_bind]
    obtain ⟨hpos, hle⟩ := h.weight hne
    rw [hvnode, ok_bind]
    split
    · obtain ⟨last, hlast⟩ := partitionEnd_ok env.sst.dbg hpos hle v.toIndex
      rw [hlast]
      exact ⟨_, _, rfl, ⟨h.vnodes, fun _ => ⟨hpos, hle⟩⟩, rfl, rfl, rfl⟩
    · exact ⟨_, _, rfl, h, rfl, rfl, rfl⟩
  · exact ⟨_, _, rfl, h, rfl, rfl, rfl⟩

theorem checkSwitchBuilder_ok (h : PartitionInv b) {key : UserKey} (hkey : HasVnode key)
    (ht : VnodesOk env b.tableVnodePartition key.tableId) : ∃ switch b',
      b.checkSwitchBuilder env key = .ok (switch, b') ∧ PartitionInv b' ∧ SameOutputs b b' := by
  obtain ⟨switch, b₁, hrun₁, hinv₁, hsame₁⟩ := switchTable_ok h ht
  obtain ⟨switch', b', hrun, hinv, hsame⟩ := show ∃ switch' b',
    b₁.switchPartition env key switch = .ok (switch', b') ∧ PartitionInv b' ∧ SameOutputs b₁ b' from
      switchPartition_ok hinv₁ hkey switch
  refine ⟨switch', b', ?_, hinv, hsame.1.trans hsame₁.1, hsame.2.trans hsame₁.2,
    hsame.3.trans hsame₁.3⟩
  rw [checkSwitchBuilder, hrun₁]
  exact hrun

/-! ## The entries written -/

def SstHolds (env : SstableEnv F) (out : SstableBuilderOutput) (w : Written) : Prop :=
  ∃ blocks, Describes env out w blocks

def CurrentHolds (env : SstableEnv F) : Option (SstableBuilder F) → Written → Prop
  | none, cur => cur = .empty
  | some b, cur => Refines env b cur ∧ cur.entries ≠ []

/-- The SSTs that are finished, and the current one; none is empty. -/
structure FillsAt (env : CapacitySplitEnv F) (b : CapacitySplitTableBuilder F)
    (done : List Written) (cur : Written) : Prop where
  outputs : List.Forall₂ (SstHolds env.sst) b.sstOutputs done
  nonempty : ∀ w ∈ done, w.entries ≠ []
  current : CurrentHolds env.sst b.currentBuilder cur
  partition : PartitionInv b

/-- The builder was given the entries, in this order. -/
def Fills (env : CapacitySplitEnv F) (b : CapacitySplitTableBuilder F) (es : List Entry) : Prop :=
  ∃ done cur, FillsAt env b done cur ∧ done.flatMap (·.entries) ++ cur.entries = es

/-- The options that a builder accepts. -/
structure SstableBuilderOptions.Ok (options : SstableBuilderOptions) : Prop where
  interval : 0 < options.restartInterval
  capacity : 0 < options.blockCapacity

theorem SstableBuilderOptions.Ok.new_eq_ok {options : SstableBuilderOptions} (h : options.Ok)
    (sstableId : Nat) (filterBuilder : F) :
    ∃ b, SstableBuilder.new sstableId filterBuilder options = .ok b := by
  rw [SstableBuilder.new, BlockBuilder.new, if_neg (Nat.pos_iff_ne_zero.1 h.interval), ok_bind,
    if_neg (Nat.pos_iff_ne_zero.1 h.capacity)]
  exact ⟨_, rfl⟩

theorem fills_new (nextSstId : Nat) (partition : HashMap TableId Nat) :
    Fills env (.new nextSstId partition) [] :=
  ⟨[], .empty, ⟨.nil, by simp, rfl, Nat.two_pow_pos 8, fun h => absurd rfl h⟩, rfl⟩

theorem FillsAt.same {b' : CapacitySplitTableBuilder F} (h : FillsAt env b done cur)
    (hsame : SameOutputs b b') (hinv : PartitionInv b') : FillsAt env b' done cur :=
  ⟨hsame.sstOutputs ▸ h.outputs, h.nonempty, hsame.currentBuilder ▸ h.current, hinv⟩

def sealed (done : List Written) (cur : Written) : List Written :=
  if cur.entries = [] then done else done ++ [cur]

theorem flatMap_sealed (done : List Written) (cur : Written) :
    (sealed done cur).flatMap (·.entries) = done.flatMap (·.entries) ++ cur.entries := by
  unfold sealed
  split
  · rename_i hnil
    rw [hnil, append_nil]
  · simp

theorem sealCurrent_fills (h : FillsAt env b done cur) :
    ReturnsOr (· ∈ sstLimits) (b.sealCurrent env) fun b' =>
      b'.tableVnodePartition = b.tableVnodePartition ∧ FillsAt env b' (sealed done cur) .empty := by
  unfold sealCurrent
  have hcurrent := h.current
  cases hb : b.currentBuilder with
  | none =>
    rw [hb] at hcurrent
    obtain rfl : cur = .empty := hcurrent
    exact ⟨rfl, h⟩
  | some builder =>
    rw [hb] at hcurrent
    obtain ⟨hrefines, hne⟩ := hcurrent
    refine (finish_describes hrefines).bind fun out ⟨blocks, hout⟩ => ?_
    rw [sealed, if_neg hne]
    refine ⟨rfl, ?_, ?_, rfl, h.partition.vnodes, h.partition.weight⟩
    · exact rel_append h.outputs (.cons ⟨blocks, hout⟩ .nil)
    · exact forall_mem_append.2 ⟨h.nonempty, forall_mem_singleton.2 hne⟩

theorem sealForKey_fills (h : FillsAt env b done cur) (switch isNew : Bool) :
    ReturnsOr (· ∈ sstLimits) (b.sealForKey env switch isNew) fun b' =>
      b'.tableVnodePartition = b.tableVnodePartition ∧
      (FillsAt env b' done cur ∨ (isNew = true ∧ FillsAt env b' (sealed done cur) .empty)) := by
  unfold sealForKey
  split
  · rename_i hseal
    rw [Bool.and_eq_true] at hseal
    exact (sealCurrent_fills h).mono fun b' ⟨hpart, hfills⟩ => ⟨hpart, .inr ⟨hseal.1, hfills⟩⟩
  · exact ⟨rfl, .inl h⟩

theorem openBuilder_fills (hoptions : env.options.Ok) (h : FillsAt env b done cur) :
    ∃ builder b', b.openBuilder env = .ok (builder, b') ∧ Refines env.sst builder cur ∧
      b'.sstOutputs = b.sstOutputs ∧ PartitionInv b' ∧
      b'.tableVnodePartition = b.tableVnodePartition := by
  unfold openBuilder
  have hcurrent := h.current
  cases hb : b.currentBuilder with
  | none =>
    rw [hb] at hcurrent
    obtain rfl : cur = .empty := hcurrent
    obtain ⟨builder, hnew⟩ := hoptions.new_eq_ok b.nextSstId env.filterBuilder
    rw [hnew]
    exact ⟨_, _, rfl, refines_new hnew, rfl, ⟨h.partition.vnodes, h.partition.weight⟩, rfl⟩
  | some builder =>
    rw [hb] at hcurrent
    exact ⟨builder, b, rfl, hcurrent.1, rfl, h.partition, rfl⟩

section
variable (hoptions : env.options.Ok) {e : Entry} (hkey : HasVnode e.1.userKey)
  (ht : VnodesOk env b.tableVnodePartition e.1.userKey.tableId) (isNew : Bool)
include hoptions hkey ht

theorem addFullKey_fillsAt (h : FillsAt env b done cur) (hlt : ∀ x ∈ cur.entries, x.1 < e.1) :
    ReturnsOr (· ∈ sstLimits) (b.addFullKey env e.1 e.2 isNew) fun b' =>
      b'.tableVnodePartition = b.tableVnodePartition ∧
      (FillsAt env b' done (cur.add e) ∨
        (isNew = true ∧ FillsAt env b' (sealed done cur) (Written.empty.add e))) := by
  obtain ⟨switch, b₁, hrun₁, hinv₁, hsame₁⟩ := checkSwitchBuilder_ok h.partition hkey ht
  unfold addFullKey
  rw [hrun₁]
  refine (sealForKey_fills (h.same hsame₁ hinv₁) switch isNew).bind fun b₂ hb₂ => ?_
  obtain ⟨hpart₂, h₂⟩ := hb₂
  -- whatever the current SST is, the entry is added to it
  have hadd : ∀ {done₂ cur₂}, FillsAt env b₂ done₂ cur₂ → (∀ x ∈ cur₂.entries, x.1 < e.1) →
      ReturnsOr (· ∈ sstLimits) (do
        let s ← b₂.openBuilder env
        .ok { s.2 with currentBuilder := some (← s.1.add env.sst e.1 e.2) }) fun b' =>
          b'.tableVnodePartition = b.tableVnodePartition ∧ FillsAt env b' done₂ (cur₂.add e) := by
    intro done₂ cur₂ h₂ hlt₂
    obtain ⟨builder, b₃, hrun₃, hrefines, houtputs, hinv₃, hpart₃⟩ := openBuilder_fills hoptions h₂
    rw [hrun₃]
    refine (addImpl_refines hrefines hlt₂ (by simp)).bind fun builder' hb' => ?_
    refine ⟨hpart₃.trans (hpart₂.trans hsame₁.partition), houtputs ▸ h₂.outputs, h₂.nonempty,
      ⟨hb', ?_⟩, hinv₃.vnodes, hinv₃.weight⟩
    rw [Written.add]
    simp
  rcases h₂ with h₂ | ⟨hnew, h₂⟩
  · exact (hadd h₂ hlt).mono fun b' hb' => ⟨hb'.1, .inl hb'.2⟩
  · exact (hadd h₂ (by simp [Written.empty])).mono fun b' hb' => ⟨hb'.1, .inr ⟨hnew, hb'.2⟩⟩

theorem addFullKey_fills {es : List Entry} (h : Fills env b es) (hlt : ∀ x ∈ es, x.1 < e.1) :
    ReturnsOr (· ∈ sstLimits) (b.addFullKey env e.1 e.2 isNew) fun b' =>
      Fills env b' (es ++ [e]) ∧ b'.tableVnodePartition = b.tableVnodePartition := by
  obtain ⟨done, cur, h, rfl⟩ := h
  refine (addFullKey_fillsAt hoptions hkey ht isNew h
    fun x hx => hlt x (mem_append_right _ hx)).mono fun b' ⟨hpart, hb'⟩ => ⟨?_, hpart⟩
  rcases hb' with hb' | ⟨-, hb'⟩
  · exact ⟨done, _, hb', by rw [Written.add, append_assoc]⟩
  · exact ⟨_, _, hb', by rw [flatMap_sealed]; rfl⟩

end

theorem finish_fillsAt (h : FillsAt env b done cur) :
    ReturnsOr (· ∈ sstLimits) (b.finish env) fun outs =>
      List.Forall₂ (SstHolds env.sst) outs (sealed done cur) :=
  (sealCurrent_fills h).bind fun _ ⟨_, h'⟩ => h'.outputs

theorem finish_fills {es : List Entry} (h : Fills env b es) :
    ReturnsOr (· ∈ sstLimits) (b.finish env) fun outs => ∃ done : List Written,
      List.Forall₂ (SstHolds env.sst) outs done ∧ done.flatMap (·.entries) = es := by
  obtain ⟨done, cur, h, rfl⟩ := h
  exact (finish_fillsAt h).mono fun outs houts => ⟨_, houts, flatMap_sealed done cur⟩

/-! ## Reading the files -/

def entriesFrom : Nat → BlockIterator → Res (List Entry)
  | 0, _ => .error (.explicit "out of fuel")
  | fuel + 1, it => do
    if ← it.isValid then
      let key ← it.key
      match HummockValue.fromSlice (← it.value) with
      | .error _ => .error (.explicit "decode failed")
      | .ok value => do .ok ((key, value) :: (← entriesFrom fuel (← it.next)))
    else .ok []

def readBlock (codec : Codec) (data : Bytes) (blockMeta : BlockMeta) : Res (List Entry) := do
  let buf ← slice data blockMeta.offset (blockMeta.offset + blockMeta.len)
  match ← Block.decode codec buf blockMeta.uncompressedSize with
  | .error _ => .error (.explicit "decode failed")
  | .ok block => do
    let it ← (BlockIterator.new block).seekToFirst
    entriesFrom it.rounds it

def readSst (codec : Codec) (out : SstableBuilderOutput) : Res (List Entry) := do
  .ok (← out.sstMeta.blockMetas.mapM (readBlock codec out.data)).flatten

def readSsts (codec : Codec) (outs : List SstableBuilderOutput) : Res (List Entry) := do
  .ok (← outs.mapM (readSst codec)).flatten

theorem entriesFrom_eq {it : BlockIterator} {xs : List (FullKey × Bytes)}
    (hvisits : Visits BlockIterator.next it xs) : ∀ {es : List Entry} {fuel : Nat},
      xs = es.map encodeEntry → es.length < fuel → entriesFrom fuel it = .ok es := by
  induction hvisits with
  | done hvalid =>
    intro es fuel hxs hfuel
    obtain rfl : es = [] := by simpa using hxs.symm
    obtain ⟨fuel, rfl⟩ : ∃ k, fuel = k + 1 := ⟨fuel - 1, by omega⟩
    rw [entriesFrom, hvalid]
    rfl
  | visit hvalid hkey hvalue hnext _ ih =>
    intro es fuel hxs hfuel
    obtain ⟨e, es, rfl, he, hes⟩ := map_eq_cons_iff.1 hxs.symm
    obtain ⟨fuel, rfl⟩ : ∃ k, fuel = k + 1 := ⟨fuel - 1, by omega⟩
    cases he
    have hlen : es.length < fuel := by simpa using hfuel
    rw [entriesFrom, hvalid, ok_bind, if_pos rfl, hkey, ok_bind, hvalue, ok_bind,
      HummockValue.fromSlice_encode]
    dsimp only
    rw [hnext, ok_bind, ih hes.symm hlen, ok_bind]

variable {codec : Codec}

theorem readBlock_eq {x : FileBlock} (hx : x.Ok codec) {before after : Bytes}
    (hoffset : x.blockMeta.offset = before.length) :
    readBlock codec (before ++ (x.bytes ++ after)) x.blockMeta = .ok x.entries := by
  obtain ⟨block, slots, hdecode, hholds, hentries⟩ := hx.decodes
  obtain ⟨it, hseek, hvisits, hlen⟩ :=
    hholds.seekToFirst_visits (show (BlockIterator.new block).block = block from rfl)
  rw [← length_map, hentries, length_map] at hlen
  rw [readBlock, slice_append before x.bytes after hoffset (by rw [hoffset, hx.len]), ok_bind,
    hdecode, ok_bind]
  dsimp only
  rw [hseek]
  exact entriesFrom_eq hvisits hentries hlen

theorem readBlocks_eq : ∀ (blocks : List FileBlock) (before : Bytes),
    (∀ x ∈ blocks, x.Ok codec) → PlacedFrom before.length blocks →
      (before ++ fileData blocks).length < 2 ^ 32 →
    (blocks.map (·.blockMeta)).mapM (readBlock codec (before ++ fileData blocks)) =
      .ok (blocks.map (·.entries))
  | [], _, _, _, _ => rfl
  | x :: blocks, before, hok, hplaced, hlen => by
    rw [forall_mem_cons] at hok
    have hdata : before ++ fileData (x :: blocks) = before ++ (x.bytes ++ fileData blocks) := by
      simp [fileData]
    have hlt : before.length < 2 ^ 32 := Nat.lt_of_le_of_lt (by rw [length_append]; omega) hlen
    have hoffset : x.blockMeta.offset = before.length := by
      rw [hplaced.1, Nat.mod_eq_of_lt hlt]
    have hrest := readBlocks_eq blocks (before ++ x.bytes) hok.2
      (by rw [length_append]; exact hplaced.2) (by rw [append_assoc]; exact hlen)
    rw [append_assoc, ← hdata] at hrest
    rw [map_cons, mapM_cons, hrest, hdata, readBlock_eq hok.1 hoffset, ok_bind]
    rfl

theorem SstHolds.readSst_eq {env : SstableEnv F} {out : SstableBuilderOutput} {w : Written}
    (h : SstHolds env out w) : readSst env.codec out = .ok w.entries := by
  obtain ⟨blocks, hout⟩ := h
  have hlen := hout.data_lt
  rw [hout.data] at hlen
  have hread := readBlocks_eq blocks [] hout.blocks_ok hout.placed hlen
  rw [readSst, hout.metas, hout.data, show fileData blocks = [] ++ fileData blocks from rfl,
    hread, ok_bind, ← hout.entries, fileEntries, flatMap_def]

theorem readSsts_eq {env : SstableEnv F} {outs : List SstableBuilderOutput}
    (h : List.Forall₂ (SstHolds env) outs done) :
    readSsts env.codec outs = .ok (done.flatMap (·.entries)) := by
  have hread : outs.mapM (readSst env.codec) = .ok (done.map (·.entries)) := by
    induction h with
    | nil => rfl
    | cons hout _ ih =>
      rw [mapM_cons, hout.readSst_eq, ih]
      rfl
  rw [readSsts, hread, ok_bind, flatMap_def]

theorem readSsts_append {outs outs' : List SstableBuilderOutput} {es es' : List Entry}
    (h : readSsts codec outs = .ok es) (h' : readSsts codec outs' = .ok es') :
    readSsts codec (outs ++ outs') = .ok (es ++ es') := by
  obtain ⟨xs, hxs, hes⟩ := bind_eq_ok.1 h
  obtain ⟨xs', hxs', hes'⟩ := bind_eq_ok.1 h'
  cases hes
  cases hes'
  rw [readSsts, mapM_append, hxs, hxs', ← flatten_append]
  rfl

end Hummock
