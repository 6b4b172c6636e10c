import RisingLake.Hummock.BlockIterator
import RisingLake.Hummock.Proof.Block

/-!
# Iterating over a block

`At it before s after`: the iterator stands on the slot `s` of a block whose slots are `before`, `s`
and `after`. One step forward or backward moves it by one slot (`nextInner_at`, `prevInner_at`), a
restart point is reached directly (`seekRestartPoint_at`), and the loops are inductions over the
slots they pass. `block_round_trip` puts the builder, the decoder and the iterator together.
-/

namespace Hummock

open Res Bytes List BlockIterator
open BlockSlot (restart entry)

variable {block : Block} {before after slots : List BlockSlot} {s : BlockSlot}

/-! ## Slots of a block -/

theorem exists_restart_at : ∀ {i : Nat}, i < slots.countP restart →
    ∃ a r b, slots = a ++ r :: b ∧ r.restart = true ∧ a.countP restart = i := by
  induction slots with
  | nil => intro i hi; simp at hi
  | cons s slots ih =>
    intro i hi
    by_cases hs : s.restart = true
    · cases i with
      | zero => exact ⟨[], s, slots, rfl, hs, rfl⟩
      | succ i =>
        rw [countP_cons_of_pos hs] at hi
        obtain ⟨a, r, b, rfl, hr, hcount⟩ := ih (Nat.lt_of_succ_lt_succ hi)
        exact ⟨s :: a, r, b, rfl, hr, by rw [countP_cons_of_pos hs, hcount]⟩
    · rw [countP_cons_of_neg hs] at hi
      obtain ⟨a, r, b, rfl, hr, hcount⟩ := ih hi
      exact ⟨s :: a, r, b, rfl, hr, by rw [countP_cons_of_neg hs, hcount]⟩

namespace Holds

theorem laidAfter (h : Holds block (before ++ s :: after)) : LaidAfter before.getLast? s :=
  h.linked before s after rfl

theorem len_eq (h : Holds block slots) : block.len = .ok block.dataLen := by
  unfold Block.len
  rw [isEmpty_eq_false_iff.2 h.data_ne_nil]
  rfl

theorem length_le_dataLen (h : Holds block slots) : slots.length ≤ block.dataLen := by
  rw [h.dataLen]
  clear h
  induction slots with
  | nil => exact Nat.zero_le _
  | cons s slots ih =>
    have := s.length_encode_pos
    rw [slotData_cons, length_append, length_cons]
    omega

theorem decodePrefixAt_eq (h : Holds block (before ++ s :: after)) :
    decodePrefixAt block (slotData before).length s.keyLenType s.valueLenType =
      .ok (s.keyPrefixAt (slotData before).length) := by
  have hslice : slice block.entries (slotData before).length block.entries.length =
      .ok (s.encode ++ slotData after) := by
    rw [h.entries, slotData_append, length_append]
    simpa using slice_append (slotData before) (s.encode ++ slotData after) [] rfl rfl
  rw [decodePrefixAt, hslice, ok_bind, h.laidAfter.decode_encode]

theorem slice_diffKey (h : Holds block (before ++ s :: after)) :
    slice block.entries (s.keyPrefixAt (slotData before).length).diffKeyRange.1
      (s.keyPrefixAt (slotData before).length).diffKeyRange.2 = .ok (s.key.drop s.overlap) := by
  have hentries : block.entries =
      (slotData before ++ s.header) ++ (s.key.drop s.overlap ++ (s.value ++ slotData after)) := by
    rw [h.entries, slotData_append]
    simp [BlockSlot.encode]
  rw [hentries]
  refine slice_append _ _ _ ?_ ?_ <;> simp [KeyPrefix.diffKeyRange, BlockSlot.keyPrefixAt,
    BlockSlot.length_header]

theorem slice_value (h : Holds block (before ++ s :: after)) :
    slice block.entries (s.keyPrefixAt (slotData before).length).valueRange.1
      (s.keyPrefixAt (slotData before).length).valueRange.2 = .ok s.value := by
  have hentries : block.entries =
      (slotData before ++ s.header ++ s.key.drop s.overlap) ++ (s.value ++ slotData after) := by
    rw [h.entries, slotData_append]
    simp [BlockSlot.encode]
  rw [hentries]
  refine slice_append _ _ _ ?_ ?_ <;>
    simp [KeyPrefix.valueRange, BlockSlot.keyPrefixAt, BlockSlot.length_header, Nat.add_assoc]

theorem restartPoint_head (h : Holds block (before ++ after)) :
    (block.restartPoints[before.countP restart]?).map RestartPoint.mark =
      (restarts (slotData before).length after).head? := by
  rw [← getElem?_map, h.points, restarts_append, Nat.zero_add,
    getElem?_append_right (by rw [length_restarts]), length_restarts, Nat.sub_self,
    head?_eq_getElem?]

theorem restartPoint_of_restart (h : Holds block (before ++ s :: after)) (hs : s.restart = true) :
    ∃ point, block.restartPoint (before.countP restart) = .ok point ∧
      point.offset.val = (slotData before).length ∧ point.keyLenType = s.keyLenType ∧
      point.valueLenType = s.valueLenType := by
  have hhead := h.restartPoint_head
  rw [restarts, if_pos hs] at hhead
  obtain ⟨point, hpoint, hmark⟩ := Option.map_eq_some_iff.1 hhead
  simp only [RestartPoint.mark, BlockSlot.types, Prod.mk.injEq] at hmark
  exact ⟨point, index_eq_ok.2 hpoint, hmark⟩

theorem restart_first (h : Holds block (s :: after)) : s.restart = true := by
  by_contra hs
  obtain ⟨l, hl, -⟩ := (h.linked [] s after rfl).shared (by simpa using hs)
  cases hl

theorem exists_last_restart (h : Holds block (before ++ after)) (hne : before ≠ []) :
    ∃ a r b, before = a ++ r :: b ∧ r.restart = true ∧ a.countP restart + 1 =
      before.countP restart := by
  obtain ⟨t, rest, rfl⟩ := exists_cons_of_ne_nil hne
  have hpos : 0 < (t :: rest).countP restart := countP_pos_iff.2 ⟨t, .head _, h.restart_first⟩
  obtain ⟨a, r, b, heq, hr, hcount⟩ := exists_restart_at (Nat.sub_lt hpos one_pos)
  exact ⟨a, r, b, heq, hr, by omega⟩

end Holds

/-! ## Where an iterator stands -/

/-- The iterator stands on `s`. -/
structure At (block : Block) (it : BlockIterator) (before : List BlockSlot) (s : BlockSlot) :
    Prop where
  block_eq : it.block = block
  offset : it.offset = (slotData before).length
  keyBuf : it.keyBuf = s.key
  valueRange : it.valueRange = (s.keyPrefixAt (slotData before).length).valueRange
  entryLen : it.entryLen = s.encode.length
  types : (it.lastKeyLenType, it.lastValueLenType) = s.types
  point : it.restartPointIndex + 1 = (before ++ [s]).countP restart

theorem At.length_lt_rounds {it : BlockIterator} (ha : At block it before s)
    (h : Holds block slots) : slots.length < it.rounds := by
  rw [rounds, ha.block_eq]
  exact Nat.lt_succ_of_le h.length_le_dataLen

/-- The iterator is past the entries. -/
structure Ended (block : Block) (it : BlockIterator) : Prop where
  block_eq : it.block = block
  isValid : it.isValid = .ok false

namespace At

variable {it : BlockIterator}

section

variable (ha : At block it before s) (h : Holds block (before ++ s :: after))
include ha h

theorem isValid : it.isValid = .ok true := by
  have hpos := s.length_encode_pos
  unfold BlockIterator.isValid
  rw [ha.block_eq, h.len_eq, ok_bind, ha.offset, h.dataLen, slotData_append, slotData_cons,
    length_append, length_append, decide_eq_true (by omega)]

theorem key_eq : it.key = .ok s.fullKey := by
  unfold key assertValid
  rw [ha.isValid h, ok_bind, assert_true, ok_bind, ha.block_eq, ha.keyBuf, BlockSlot.key,
    ← h.tables s (by simp), FullKey.fromSliceWithoutTableId_encode]

theorem value_eq : it.value = .ok s.value := by
  unfold value assertValid
  rw [ha.isValid h, ok_bind, assert_true, ok_bind, ha.block_eq, ha.valueRange, h.slice_value]

end

end At

variable {it : BlockIterator} {k : FullKey}

theorem invalidate_ended (h : Holds block slots) (hit : it.block = block) :
    ∃ it', it.invalidate = .ok it' ∧ Ended block it' := by
  subst hit
  unfold invalidate
  rw [h.len_eq]
  refine ⟨_, rfl, rfl, ?_⟩
  unfold isValid
  simp [h.len_eq]

theorem seekRestartPoint_at (h : Holds block (before ++ s :: after)) (hs : s.restart = true)
    (hit : it.block = block) : ∃ it', it.seekRestartPointByIndex (before.countP restart) = .ok it' ∧
      At block it' before s := by
  obtain ⟨point, hpoint, hoffset, hkt, hvt⟩ := h.restartPoint_of_restart hs
  have hzero := h.laidAfter.restart hs
  subst hit
  unfold seekRestartPointByIndex
  rw [hpoint, ok_bind]
  dsimp only
  rw [hoffset, hkt, hvt, h.decodePrefixAt_eq, ok_bind, h.slice_diffKey, ok_bind,
    updateRestartPoint, hpoint]
  refine ⟨_, rfl, rfl, rfl, ?_, rfl, (s.length_encode _).symm, ?_, ?_⟩
  · rw [hzero, drop_zero]
  · rw [hkt, hvt]
    rfl
  · simp [hs]

variable {t : BlockSlot}

theorem enterRestartPoint_ok (h : Holds block (before ++ s :: t :: after))
    (ha : At block it before s) :
    ∃ n k v, it.enterRestartPoint ((slotData before).length + s.encode.length) =
        .ok { it with restartPointIndex := n, lastKeyLenType := k, lastValueLenType := v } ∧
      (k, v) = t.types ∧ n + 1 = (before ++ [s] ++ [t]).countP restart := by
  have h' : Holds block ((before ++ [s]) ++ t :: after) := by simpa using h
  have hlen : (slotData (before ++ [s])).length = (slotData before).length + s.encode.length := by simp
  have hpoint := ha.point
  obtain rfl := ha.block_eq
  unfold enterRestartPoint
  by_cases ht : t.restart = true
  · -- the next restart point is that of `t`
    obtain ⟨point, hget, hoffset, hkt, hvt⟩ := h'.restartPoint_of_restart ht
    rw [← hpoint] at hget
    obtain ⟨hlt, -⟩ := List.getElem?_eq_some_iff.1 (index_eq_ok.1 hget)
    rw [if_pos hlt, hget, ok_bind, if_pos (by omega), updateRestartPoint, hget]
    refine ⟨_, _, _, rfl, ?_, ?_⟩
    · rw [hkt, hvt]
      rfl
    · rw [countP_append, ← hpoint]
      simp [ht]
  · -- the next restart point, if any, is behind `t`, which has the widths of `s`
    obtain ⟨l, hl, hltypes, -⟩ := h'.laidAfter.shared (by simpa using ht)
    have hls : l = s := by simpa using hl.symm
    have hstay : ∀ next, it.block.restartPoints[it.restartPointIndex + 1]? = some next →
        (slotData before).length + s.encode.length < next.offset.val := by
      intro next hnext
      have hhead := h'.restartPoint_head
      rw [← hpoint, hnext, restarts, if_neg ht] at hhead
      have hge := le_of_mem_restarts (mem_of_mem_head? hhead.symm)
      have hpos := t.length_encode_pos
      simp only [RestartPoint.mark] at hge
      omega
    refine ⟨it.restartPointIndex, it.lastKeyLenType, it.lastValueLenType, ?_, ?_, ?_⟩
    · split
      · rename_i hlt
        have hnext : it.block.restartPoints[it.restartPointIndex + 1]? = some _ :=
          getElem?_eq_getElem hlt
        rw [Block.restartPoint, index_eq_ok.2 hnext, ok_bind, if_neg (Nat.not_le.2 (hstay _ hnext))]
      · rfl
    · rw [ha.types, ← hltypes, hls]
    · rw [countP_append, ← hpoint]
      simp [ht]

theorem nextInner_at (h : Holds block (before ++ s :: t :: after))
    (ha : At block it before s) : ∃ it', it.nextInner = .ok it' ∧
      At block it' (before ++ [s]) t := by
  have h' : Holds block ((before ++ [s]) ++ t :: after) := by simpa using h
  have hlen : (slotData before).length + s.encode.length = (slotData (before ++ [s])).length := by simp
  have hpos := t.length_encode_pos
  have hmore : ¬block.dataLen ≤ (slotData before).length + s.encode.length := by
    rw [h.dataLen]
    simp only [slotData_append, slotData_cons, length_append]
    omega
  obtain ⟨n, k, v, henter, htypes, hpoint⟩ := enterRestartPoint_ok h ha
  obtain rfl := ha.block_eq
  have hkt : k = t.keyLenType := congrArg Prod.fst htypes
  have hvt : v = t.valueLenType := congrArg Prod.snd htypes
  unfold nextInner tryNextInner
  dsimp only
  rw [ha.offset, ha.entryLen, h.len_eq, ok_bind, if_neg hmore, henter, ok_bind]
  rw [hlen, hkt, hvt, h'.decodePrefixAt_eq, ok_bind, h'.slice_diffKey, ok_bind]
  refine ⟨_, rfl, rfl, rfl, ?_, rfl, (t.length_encode _).symm, rfl, hpoint⟩
  show it.keyBuf.take t.overlap ++ t.key.drop t.overlap = t.key
  rw [ha.keyBuf]
  by_cases ht : t.restart = true
  · rw [h'.laidAfter.restart ht, take_zero, drop_zero, nil_append]
  · obtain ⟨l, hl, -, hshared⟩ := h'.laidAfter.shared (by simpa using ht)
    have hls : l = s := by simpa using hl.symm
    rw [← hls, hshared, take_append_drop]

theorem nextInner_last (h : Holds block (before ++ [s])) (ha : At block it before s) :
    ∃ it', it.nextInner = .ok it' ∧ Ended block it' := by
  have hend : block.dataLen ≤ (slotData before).length + s.encode.length := by
    rw [h.dataLen]
    simp
  unfold nextInner tryNextInner
  rw [ha.offset, ha.entryLen, ha.block_eq, h.len_eq, ok_bind, if_pos hend]
  exact invalidate_ended h ha.block_eq

/-! ## Stepping back -/

theorem nextUntilPrevOffset_at {mid rest : List BlockSlot}
    (h : Holds block (before ++ s :: mid ++ rest)) (ha : At block it before s) :
    ∃ it' front t, it.nextUntilPrevOffset (slotData (before ++ s :: mid)).length = .ok it' ∧
      front ++ [t] = before ++ s :: mid ∧ At block it' front t := by
  generalize hfront : before ++ s :: mid = front at h
  have htarget : (slotData front).length ≤ block.dataLen := by
    rw [h.dataLen, slotData_append, length_append]
    omega
  let P : Nat → BlockIterator → Prop := fun n it => ∃ before s mid,
    before ++ s :: mid = front ∧ At block it before s ∧ n = mid.length
  have hinit : P mid.length it := ⟨before, s, mid, hfront, ha, rfl⟩
  have hfuel : mid.length < it.rounds := by
    have hlen := ha.length_lt_rounds h
    rw [← hfront] at hlen
    simp only [length_append, length_cons] at hlen
    omega
  let Q : BlockIterator → Prop :=
    fun it' => ∃ front' t, front' ++ [t] = front ∧ At block it' front' t
  have hstep : ∀ n it, P n it → (it.endsBefore (slotData front).length = .ok false ∧ Q it) ∨
      (it.endsBefore (slotData front).length = .ok true ∧ ∃ it', it.nextInner = .ok it' ∧ ∃ m < n,
        P m it') := by
    intro n it hP
    obtain ⟨before, s, mid, hsplit, ha, rfl⟩ := hP
    rw [endsBefore, ha.block_eq, h.len_eq, ok_bind, ha.offset, ha.entryLen,
      Nat.min_eq_right htarget, ← hsplit]
    cases mid with
    | nil =>
      refine .inl ⟨?_, before, s, hsplit, ha⟩
      rw [decide_eq_false (by simp)]
    | cons t mid =>
      have hpos := t.length_encode_pos
      refine .inr ⟨?_, ?_⟩
      · rw [decide_eq_true]
        simp only [slotData_append, slotData_cons, length_append]
        omega
      · rw [← hsplit] at h
        obtain ⟨it', hrun, hat⟩ := nextInner_at
          (show Holds block (before ++ s :: t :: (mid ++ rest)) by simpa using h) ha
        exact ⟨it', hrun, mid.length, by simp, before ++ [s], t, mid, by simpa using hsplit, hat, rfl⟩
  obtain ⟨it', hrun, front', t, heq, hat⟩ := whileM_total P hstep hinit hfuel
  exact ⟨it', front', t, hrun, heq, hat⟩

theorem prevInner_at (h : Holds block (before ++ [t] ++ s :: after))
    (ha : At block it (before ++ [t]) s) : ∃ it', it.prevInner = .ok it' ∧
      At block it' before t := by
  generalize hfront : before ++ [t] = front at h ha
  have hne : front ≠ [] := by
    rw [← hfront]
    simp
  obtain ⟨a, r, b, heq, hr, hcount⟩ := h.exists_last_restart hne
  have hpoint := ha.point
  have hr' := h
  rw [heq, append_assoc] at hr'
  -- the restart point to start from is that of `r`
  have hindex : it.prevRestartPointIndex = .ok (a.countP restart) := by
    unfold prevRestartPointIndex
    by_cases hs : s.restart = true
    · obtain ⟨point, hget, hoffset, -⟩ := h.restartPoint_of_restart hs
      have hidx : it.restartPointIndex = front.countP restart := by
        simpa [hs] using hpoint
      rw [ha.block_eq, hidx, hget, ok_bind, if_pos (hoffset.trans ha.offset.symm)]
      exact checkedSub_eq_ok.2 (by omega)
    · obtain ⟨point, hget, hoffset, -⟩ := hr'.restartPoint_of_restart hr
      have hidx : it.restartPointIndex = a.countP restart := by
        rw [countP_append, ← hcount] at hpoint
        simpa [hs] using hpoint
      have hpos := r.length_encode_pos
      rw [ha.block_eq, hidx, hget, ok_bind, if_neg]
      rw [ha.offset, heq, slotData_append, slotData_cons, length_append, length_append]
      omega
  have hoffset : it.offset ≠ 0 := by
    have hpos := r.length_encode_pos
    rw [ha.offset, heq, slotData_append, slotData_cons, length_append, length_append]
    omega
  obtain ⟨it₁, hseek, hat₁⟩ := seekRestartPoint_at hr' hr
    (show ({ it with restartPointIndex := a.countP restart } : BlockIterator).block =
      block from ha.block_eq)
  obtain ⟨it', front', t', hrun, hfront', hat⟩ := nextUntilPrevOffset_at
    (show Holds block (a ++ r :: b ++ s :: after) by simpa using hr') hat₁
  rw [← heq, ← hfront] at hfront'
  obtain ⟨rfl, ht⟩ := append_inj' hfront' rfl
  cases ht
  refine ⟨it', ?_, hat⟩
  unfold prevInner tryPrevInner
  rw [if_neg hoffset, hindex, ok_bind]
  rw [hseek, ok_bind, ha.offset, heq, hrun, ok_bind]
  rfl

theorem prevInner_first (h : Holds block (s :: after)) (ha : At block it [] s) :
    ∃ it', it.prevInner = .ok it' ∧ Ended block it' := by
  unfold prevInner tryPrevInner
  rw [if_pos (show it.offset = 0 from ha.offset)]
  exact invalidate_ended h ha.block_eq

/-! ## Seeking -/

theorem seekToLast_at (h : Holds block (before ++ [s])) (hit : it.block = block) :
    ∃ it', it.seekToLast = .ok it' ∧ At block it' before s := by
  have h' : Holds block ((before ++ [s]) ++ []) := by rwa [append_nil]
  obtain ⟨a, r, b, heq, hr, hcount⟩ := h'.exists_last_restart (by simp)
  have hpoints : it.block.restartPoints.length = (before ++ [s]).countP restart := by
    rw [hit, ← length_restarts _ 0, ← h.points, length_map]
  rw [heq] at h
  obtain ⟨it₁, hseek, hat₁⟩ := seekRestartPoint_at h hr hit
  obtain ⟨it', front, t, hrun, hfront, hat⟩ := nextUntilPrevOffset_at
    (show Holds block (a ++ r :: b ++ []) by rwa [append_nil]) hat₁
  rw [← heq] at hfront
  obtain ⟨rfl, ht⟩ := append_inj' hfront rfl
  cases ht
  refine ⟨it', ?_, hat⟩
  unfold seekToLast
  rw [checkedSub_eq_ok.2 ⟨by omega, rfl⟩, ok_bind, hpoints, ← hcount, Nat.add_sub_cancel, hseek,
    ok_bind, hat₁.block_eq, h.len_eq, ok_bind, h.dataLen, hrun]

abbrev Ascends (slots : List BlockSlot) : Prop := slots.Pairwise fun x y => x.fullKey < y.fullKey

def restartsUpTo (k : FullKey) (slots : List BlockSlot) : Nat :=
  slots.countP fun s => s.restart && decide (s.fullKey ≤ k)

theorem restartsUpTo_le (k : FullKey) (slots : List BlockSlot) :
    restartsUpTo k slots ≤ slots.countP restart :=
  countP_mono_left fun _ _ hx => (Bool.and_eq_true_iff.1 hx).1

theorem le_iff_lt_restartsUpTo (hsorted : Ascends (before ++ s :: after)) (hs : s.restart = true) :
    s.fullKey ≤ k ↔ before.countP restart < restartsUpTo k (before ++ s :: after) := by
  rw [Ascends, pairwise_append, pairwise_cons] at hsorted
  obtain ⟨-, ⟨hafter, -⟩, hbefore⟩ := hsorted
  constructor
  · intro hle
    have hall : before.countP (fun s => s.restart && decide (s.fullKey ≤ k)) =
        before.countP restart := by
      refine countP_congr fun x hx => ?_
      have hxk : x.fullKey ≤ k := le_of_lt (lt_of_lt_of_le (hbefore x hx s (.head _)) hle)
      simp [hxk]
    rw [restartsUpTo, countP_append, countP_cons_of_pos (by simp [hs, hle])]
    omega
  · intro hlt
    by_contra hgt
    have hnone : (s :: after).countP (fun s => s.restart && decide (s.fullKey ≤ k)) = 0 := by
      refine countP_eq_zero.2 fun x hx => ?_
      have hxk : ¬x.fullKey ≤ k := by
        rcases mem_cons.1 hx with rfl | hx
        · exact hgt
        · exact not_le.2 (lt_trans (not_le.1 hgt) (hafter x hx))
      simp [hxk]
    rw [restartsUpTo, countP_append, hnone] at hlt
    exact absurd (restartsUpTo_le k before) (not_le.2 hlt)

theorem probe_eq (h : Holds block (before ++ s :: after)) (hs : s.restart = true)
    {point : RestartPoint} (hpoint : block.restartPoint (before.countP restart) = .ok point) :
    probe block k point = .ok (decide (s.fullKey ≤ k)) := by
  obtain ⟨point', hget, hoffset, hkt, hvt⟩ := h.restartPoint_of_restart hs
  cases hpoint.symm.trans hget
  unfold probe
  rw [hoffset, hkt, hvt, h.decodePrefixAt_eq, ok_bind]
  dsimp only
  rw [h.slice_diffKey, ok_bind, h.laidAfter.restart hs, drop_zero, BlockSlot.key,
    ← h.tables s (by simp), FullKey.fromSliceWithoutTableId_encode]
  rcases lt_trichotomy s.fullKey k with hlt | heq | hgt
  · simp [le_of_lt hlt]
  · simp [heq]
  · simp [(cmp_eq_gt_iff _ _).2 hgt, hgt]

theorem partitionPoint_probe (h : Holds block slots) (hsorted : Ascends slots) (k : FullKey) :
    Slice.partitionPoint (probe block k) block.restartPoints =
      .ok (restartsUpTo k slots) := by
  have hlen : block.restartPoints.length = slots.countP restart := by
    rw [← length_restarts slots 0, ← h.points, length_map]
  refine Slice.partitionPoint_eq ⟨?_, fun i point hpoint => ?_⟩
  · exact hlen ▸ restartsUpTo_le k slots
  · obtain ⟨hi, -⟩ := List.getElem?_eq_some_iff.1 hpoint
    obtain ⟨a, r, b, rfl, hr, rfl⟩ := exists_restart_at (hlen ▸ hi)
    rw [probe_eq h hr (index_eq_ok.2 hpoint), decide_eq_decide.2 (le_iff_lt_restartsUpTo hsorted hr)]

theorem seekRestartPointByKey_at (h : Holds block slots) (hsorted : Ascends slots) (k : FullKey)
    (hit : it.block = block) :
    ∃ it' before s after, it.seekRestartPointByKey k = .ok it' ∧ slots = before ++ s :: after ∧
      At block it' before s ∧ ∀ x ∈ before, x.fullKey < k := by
  obtain ⟨first, rest, rfl⟩ := exists_cons_of_ne_nil h.ne_nil
  have hone : 0 < (first :: rest).countP restart := by
    rw [countP_cons_of_pos h.restart_first]
    omega
  have hle := restartsUpTo_le k (first :: rest)
  obtain ⟨a, r, b, heq, hr, hcount⟩ := exists_restart_at
    (show restartsUpTo k (first :: rest) - 1 < (first :: rest).countP restart by omega)
  rw [heq] at h hsorted
  obtain ⟨it', hseek, hat⟩ := seekRestartPoint_at h hr hit
  refine ⟨it', a, r, b, ?_, heq, hat, fun x hx => ?_⟩
  · unfold seekRestartPointByKey searchRestartPointIndexByKey
    rw [hit, partitionPoint_probe h hsorted, ok_bind, ← heq, ← hcount, ok_bind, hseek]
  · have hpos : a.countP restart < restartsUpTo k (a ++ r :: b) := by
      -- a slot in front of `r` is behind the first one, or is it
      obtain ⟨y, a', rfl⟩ := exists_cons_of_ne_nil (ne_nil_of_mem hx)
      obtain rfl : first = y :=
        head_eq_of_cons_eq heq
      rw [countP_cons_of_pos h.restart_first] at hcount ⊢
      rw [← heq]
      omega
    have hrk := (le_iff_lt_restartsUpTo hsorted hr).2 hpos
    exact lt_of_lt_of_le ((pairwise_append.1 hsorted).2.2 x hx r (.head _)) hrk

/-- Where a forward search for `k` ends. -/
def OnFirstGe (block : Block) (slots : List BlockSlot) (k : FullKey) (it : BlockIterator) : Prop :=
  (∃ before s after, slots = before ++ s :: after ∧ At block it before s ∧
    (∀ x ∈ before, x.fullKey < k) ∧ k ≤ s.fullKey) ∨
  (Ended block it ∧ ∀ x ∈ slots, x.fullKey < k)

/-- Where a backward search for `k` ends. -/
def OnLastLe (block : Block) (slots : List BlockSlot) (k : FullKey) (it : BlockIterator) : Prop :=
  (∃ before s after, slots = before ++ s :: after ∧ At block it before s ∧
    (∀ x ∈ after, k < x.fullKey) ∧ s.fullKey ≤ k) ∨
  (Ended block it ∧ ∀ x ∈ slots, k < x.fullKey)

theorem At.comparesTo_eq (ha : At block it before s) (h : Holds block (before ++ s :: after))
    (k : FullKey) (o : Ordering) : it.comparesTo k o = .ok (cmp s.fullKey k == o) := by
  unfold comparesTo
  rw [ha.isValid h, ok_bind, if_pos rfl, ha.key_eq h, ok_bind]

theorem Ended.comparesTo_eq (he : Ended block it) (k : FullKey) (o : Ordering) :
    it.comparesTo k o = .ok false := by
  unfold comparesTo
  rw [he.isValid]
  rfl

theorem nextUntilKey_lands (h : Holds block slots)
    (hsplit : slots = before ++ s :: after) (ha : At block it before s)
    (hbefore : ∀ x ∈ before, x.fullKey < k) :
    ∃ it', it.nextUntilKey k = .ok it' ∧ OnFirstGe block slots k it' := by
  let P : Nat → BlockIterator → Prop := fun n it =>
    (∃ before s after, slots = before ++ s :: after ∧ At block it before s ∧
      (∀ x ∈ before, x.fullKey < k) ∧ n = after.length + 1) ∨
    (n = 0 ∧ Ended block it ∧ ∀ x ∈ slots, x.fullKey < k)
  have hinit : P (after.length + 1) it := .inl ⟨before, s, after, hsplit, ha, hbefore, rfl⟩
  have hfuel : after.length + 1 < it.rounds := by
    have hlen := ha.length_lt_rounds h
    rw [hsplit, length_append, length_cons] at hlen
    omega
  refine whileM_total P (fun n it hP => ?_) hinit hfuel
  rcases hP with ⟨before, s, after, rfl, ha, hbefore, rfl⟩ | ⟨rfl, he, hall⟩
  · rw [ha.comparesTo_eq h]
    by_cases hlt : s.fullKey < k
    · have hbefore' : ∀ x ∈ before ++ [s], x.fullKey < k :=
        forall_mem_append.2 ⟨hbefore, forall_mem_singleton.2 hlt⟩
      refine .inr ⟨by rw [(cmp_eq_lt_iff _ _).2 hlt]; rfl, ?_⟩
      cases after with
      | nil =>
        obtain ⟨it', hrun, he⟩ := nextInner_last h ha
        exact ⟨it', hrun, 0, by simp, .inr ⟨rfl, he, hbefore'⟩⟩
      | cons t after =>
        obtain ⟨it', hrun, hat⟩ := nextInner_at h ha
        exact ⟨it', hrun, after.length + 1, by simp,
          .inl ⟨before ++ [s], t, after, by simp, hat, hbefore', rfl⟩⟩
    · refine .inl ⟨?_, .inl ⟨before, s, after, rfl, ha, hbefore, not_lt.1 hlt⟩⟩
      rw [beq_false_of_ne (fun hc => hlt ((cmp_eq_lt_iff _ _).1 hc))]
  · exact .inl ⟨he.comparesTo_eq k .lt, .inr ⟨he, hall⟩⟩

theorem prevUntilKey_lands (h : Holds block slots)
    (hsplit : slots = before ++ s :: after) (ha : At block it before s)
    (hafter : ∀ x ∈ after, k < x.fullKey) :
    ∃ it', it.prevUntilKey k = .ok it' ∧ OnLastLe block slots k it' := by
  let P : Nat → BlockIterator → Prop := fun n it =>
    (∃ before s after, slots = before ++ s :: after ∧ At block it before s ∧
      (∀ x ∈ after, k < x.fullKey) ∧ n = before.length + 1) ∨
    (n = 0 ∧ Ended block it ∧ ∀ x ∈ slots, k < x.fullKey)
  have hinit : P (before.length + 1) it := .inl ⟨before, s, after, hsplit, ha, hafter, rfl⟩
  have hfuel : before.length + 1 < it.rounds := by
    have hlen := ha.length_lt_rounds h
    rw [hsplit, length_append, length_cons] at hlen
    omega
  refine whileM_total P (fun n it hP => ?_) hinit hfuel
  rcases hP with ⟨before, s, after, rfl, ha, hafter, rfl⟩ | ⟨rfl, he, hall⟩
  · rw [ha.comparesTo_eq h]
    by_cases hgt : k < s.fullKey
    · have hafter' : ∀ x ∈ s :: after, k < x.fullKey := forall_mem_cons.2 ⟨hgt, hafter⟩
      refine .inr ⟨by rw [(cmp_eq_gt_iff _ _).2 hgt]; rfl, ?_⟩
      rcases eq_nil_or_concat before with rfl | ⟨before, t, rfl⟩
      · obtain ⟨it', hrun, he⟩ := prevInner_first h ha
        exact ⟨it', hrun, 0, by simp, .inr ⟨rfl, he, hafter'⟩⟩
      · rw [concat_eq_append] at h ha
        obtain ⟨it', hrun, hat⟩ := prevInner_at h ha
        exact ⟨it', hrun, before.length + 1, by simp,
          .inl ⟨before, t, s :: after, by simp, hat, hafter', rfl⟩⟩
    · refine .inl ⟨?_, .inl ⟨before, s, after, rfl, ha, hafter, not_lt.1 hgt⟩⟩
      rw [beq_false_of_ne (fun hc => hgt ((cmp_eq_gt_iff _ _).1 hc))]
  · exact .inl ⟨he.comparesTo_eq k .gt, .inr ⟨he, hall⟩⟩

theorem seek_lands (h : Holds block slots) (hsorted : Ascends slots) (k : FullKey)
    (hit : it.block = block) : ∃ it', it.seek k = .ok it' ∧ OnFirstGe block slots k it' := by
  obtain ⟨it₁, before, s, after, hrun₁, hsplit, hat, hbefore⟩ :=
    seekRestartPointByKey_at h hsorted k hit
  obtain ⟨it', hrun, hland⟩ := nextUntilKey_lands h hsplit hat hbefore
  exact ⟨it', by rw [seek, hrun₁, ok_bind, hrun], hland⟩

theorem seekLe_lands (h : Holds block slots) (hsorted : Ascends slots) (k : FullKey)
    (hit : it.block = block) : ∃ it', it.seekLe k = .ok it' ∧ OnLastLe block slots k it' := by
  obtain ⟨it₁, before, s, after, hrun₁, hsplit, hat, hbefore⟩ :=
    seekRestartPointByKey_at h hsorted k hit
  obtain ⟨it₂, hrun₂, hland⟩ := nextUntilKey_lands h hsplit hat hbefore
  unfold seekLe
  rw [hrun₁, ok_bind, hrun₂, ok_bind]
  rcases hland with ⟨front, t, rest, rfl, hat, -, hge⟩ | ⟨he, hall⟩
  · -- an entry at or above the key: the ones behind it are above
    rw [hat.isValid h, ok_bind, if_pos rfl]
    refine prevUntilKey_lands h rfl hat fun x hx => lt_of_le_of_lt hge ?_
    rw [Ascends, pairwise_append, pairwise_cons] at hsorted
    exact hsorted.2.1.1 x hx
  · -- all entries are below: from the last one
    obtain ⟨front, t, rfl⟩ : ∃ front t, slots = front ++ [t] :=
      ⟨_, _, (dropLast_append_getLast h.ne_nil).symm⟩
    obtain ⟨it₃, hrun₃, hat⟩ := seekToLast_at h he.block_eq
    rw [he.isValid, ok_bind, if_neg (by simp), hrun₃]
    exact prevUntilKey_lands h rfl hat (by simp)

/-! ## The entries of a block -/

/-- Stepping from `it` until it is invalid visits the entries. -/
inductive Visits (step : BlockIterator → Res BlockIterator) :
    BlockIterator → List (FullKey × Bytes) → Prop
  | done {it : BlockIterator} : it.isValid = .ok false → Visits step it []
  | visit {it it' : BlockIterator} {k : FullKey} {v : Bytes} {es : List (FullKey × Bytes)} :
      it.isValid = .ok true → it.key = .ok k → it.value = .ok v → step it = .ok it' →
      Visits step it' es → Visits step it ((k, v) :: es)

section

variable (ha : At block it before s) (h : Holds block (before ++ s :: after))
include ha h

theorem At.next_eq : it.next = it.nextInner := by
  rw [BlockIterator.next, assertValid, ha.isValid h, ok_bind, assert_true, ok_bind]

theorem At.prev_eq : it.prev = it.prevInner := by
  rw [BlockIterator.prev, assertValid, ha.isValid h, ok_bind, assert_true, ok_bind]

theorem At.visits_next : Visits next it ((s :: after).map entry) := by
  induction after generalizing before s it with
  | nil =>
    obtain ⟨it', hrun, he⟩ := nextInner_last h ha
    exact .visit (ha.isValid h) (ha.key_eq h) (ha.value_eq h) ((ha.next_eq h).trans hrun)
      (.done he.isValid)
  | cons t after ih =>
    obtain ⟨it', hrun, hat⟩ := nextInner_at h ha
    exact .visit (ha.isValid h) (ha.key_eq h) (ha.value_eq h) ((ha.next_eq h).trans hrun)
      (ih hat (by simpa using h))

theorem At.visits_prev : Visits prev it ((before ++ [s]).reverse.map entry) := by
  rw [reverse_append, reverse_singleton, singleton_append]
  induction before using reverseRecOn generalizing s after it with
  | nil =>
    obtain ⟨it', hrun, he⟩ := prevInner_first h ha
    exact .visit (ha.isValid h) (ha.key_eq h) (ha.value_eq h) ((ha.prev_eq h).trans hrun)
      (.done he.isValid)
  | append_singleton before t ih =>
    obtain ⟨it', hrun, hat⟩ := prevInner_at h ha
    refine .visit (ha.isValid h) (ha.key_eq h) (ha.value_eq h) ((ha.prev_eq h).trans hrun) ?_
    rw [reverse_append, reverse_singleton, singleton_append]
    exact ih hat (by simpa using h)

end

theorem Holds.seekToFirst_visits (h : Holds block slots) (hit : it.block = block) :
    ∃ it', it.seekToFirst = .ok it' ∧ Visits next it' (slots.map entry) ∧
      slots.length < it'.rounds := by
  obtain ⟨s, after, rfl⟩ := exists_cons_of_ne_nil h.ne_nil
  obtain ⟨it', hseek, hat⟩ :=
    seekRestartPoint_at (show Holds block ([] ++ s :: after) from h) h.restart_first hit
  exact ⟨it', hseek, hat.visits_next h, hat.length_lt_rounds h⟩

theorem filter_ge_eq_nil (h : ∀ x ∈ slots, x.fullKey < k) :
    slots.filter ((fun e => decide (k ≤ e.1)) ∘ entry) = [] :=
  filter_eq_nil_iff.2 fun x hx => mt of_decide_eq_true (not_le.2 (h x hx))

theorem filter_le_eq_nil (h : ∀ x ∈ slots, k < x.fullKey) :
    slots.filter ((fun e => decide (e.1 ≤ k)) ∘ entry) = [] :=
  filter_eq_nil_iff.2 fun x hx => mt of_decide_eq_true (not_le.2 (h x hx))

theorem OnFirstGe.visits (hland : OnFirstGe block slots k it) (h : Holds block slots)
    (hsorted : Ascends slots) :
    Visits next it ((slots.map entry).filter fun e => decide (k ≤ e.1)) := by
  rw [filter_map]
  rcases hland with ⟨before, s, after, rfl, hat, hbefore, hge⟩ | ⟨he, hall⟩
  · have hrest : (s :: after).filter ((fun e => decide (k ≤ e.1)) ∘ entry) = s :: after := by
      refine filter_eq_self.2 fun x hx => decide_eq_true ?_
      rw [Ascends, pairwise_append, pairwise_cons] at hsorted
      rcases mem_cons.1 hx with rfl | hx
      · exact hge
      · exact le_of_lt (lt_of_le_of_lt hge (hsorted.2.1.1 x hx))
    rw [filter_append, filter_ge_eq_nil hbefore, hrest]
    exact hat.visits_next h
  · rw [filter_ge_eq_nil hall]
    exact .done he.isValid

theorem OnLastLe.visits (hland : OnLastLe block slots k it) (h : Holds block slots)
    (hsorted : Ascends slots) :
    Visits prev it ((slots.map entry).filter fun e => decide (e.1 ≤ k)).reverse := by
  rw [filter_map]
  rcases hland with ⟨before, s, after, rfl, hat, hafter, hle⟩ | ⟨he, hall⟩
  · have hfront : (before ++ [s]).filter ((fun e => decide (e.1 ≤ k)) ∘ entry) = before ++ [s] := by
      refine filter_eq_self.2 fun x hx => decide_eq_true ?_
      rw [Ascends, pairwise_append] at hsorted
      rcases mem_append.1 hx with hx | hx
      · exact le_of_lt (lt_of_lt_of_le (hsorted.2.2 x hx s (.head _)) hle)
      · rw [mem_singleton.1 hx]
        exact hle
    rw [show before ++ s :: after = before ++ [s] ++ after by simp, filter_append, hfront,
      filter_le_eq_nil hafter, append_nil, ← map_reverse]
    exact hat.visits_prev h
  · rw [filter_le_eq_nil hall]
    exact .done he.isValid

def buildBlock (codec : Codec) (dbg : Bool) (options : BlockBuilderOptions)
    (entries : List (FullKey × Bytes)) : Res (BlockBuilder × Bytes) := do
  let builder ← BlockBuilder.new options
  let builder ← entries.foldlM (fun builder e => builder.add dbg e.1 e.2) builder
  let (bytes, _) ← builder.build codec
  .ok (builder, bytes)

theorem buildBlock_returnsOr (codec : Codec) (dbg : Bool) {options : BlockBuilderOptions}
    (hinterval : 1 ≤ options.restartInterval) {tableId : TableId} {entries : List (FullKey × Bytes)}
    (hne : entries ≠ []) (htable : ∀ e ∈ entries, e.1.userKey.tableId = tableId)
    (hsorted : entries.Pairwise fun x y => x.1 < y.1) :
    ReturnsOr (· ∈ u32Limits) (buildBlock codec dbg options entries) fun r => ∃ slots block,
      slots.map entry = entries ∧
      Block.decode codec r.2 r.1.uncompressedBlockSize = .ok (.ok block) ∧ Holds block slots := by
  unfold buildBlock
  obtain ⟨builder, hnew⟩ : ∃ builder, BlockBuilder.new options = .ok builder := by
    rw [BlockBuilder.new, if_neg (by omega)]
    exact ⟨_, rfl⟩
  rw [hnew]
  refine (Built.addAll_returnsOr hinterval dbg htable hsorted (.of_new hnew)).bind
    fun builder ⟨slots, heq, hbuilt⟩ => ?_
  have hslots : slots ≠ [] := by
    rintro rfl
    exact hne heq.symm
  refine (decode_build codec hbuilt hslots).bind fun r ⟨_, block, hdecode, hholds⟩ => ?_
  exact ⟨slots, block, heq, hdecode, hholds⟩

/-- Unless the builder exceeds a limit of `u32`, the block it builds is decoded to one whose entries
are the entries added: forward from the first, backward from the last, from the first at or above a
key and back from the last at or below it. -/
theorem block_round_trip (codec : Codec) (dbg : Bool) {options : BlockBuilderOptions}
    (hinterval : 1 ≤ options.restartInterval) {tableId : TableId} {entries : List (FullKey × Bytes)}
    (hne : entries ≠ []) (htable : ∀ e ∈ entries, e.1.userKey.tableId = tableId)
    (hsorted : entries.Pairwise fun x y => x.1 < y.1)
    (hlimits : ∀ e ∈ u32Limits, buildBlock codec dbg options entries ≠ .error e) :
    ∃ builder bytes block, buildBlock codec dbg options entries = .ok (builder, bytes) ∧
      Block.decode codec bytes builder.uncompressedBlockSize = .ok (.ok block) ∧
      ∀ it : BlockIterator, it.block = block →
        (∃ it', it.seekToFirst = .ok it' ∧ Visits next it' entries) ∧
        (∃ it', it.seekToLast = .ok it' ∧ Visits prev it' entries.reverse) ∧
        ∀ k,
          (∃ it', it.seek k = .ok it' ∧ Visits next it' (entries.filter fun e => decide (k ≤ e.1))) ∧
          (∃ it', it.seekLe k = .ok it' ∧
          Visits prev it' (entries.filter fun e => decide (e.1 ≤ k)).reverse) := by
  obtain ⟨⟨builder, bytes⟩, hrun, slots, block, rfl, hdecode, h⟩ :=
    (buildBlock_returnsOr codec dbg hinterval hne htable hsorted).exists_ok hlimits
  have hasc : Ascends slots := by
    rw [pairwise_map] at hsorted
    exact hsorted
  refine ⟨builder, bytes, block, hrun, hdecode, fun it hit => ⟨?_, ?_, fun k => ⟨?_, ?_⟩⟩⟩
  · obtain ⟨it', hseek, hvisits, -⟩ := h.seekToFirst_visits hit
    exact ⟨it', hseek, hvisits⟩
  · obtain ⟨before, s, rfl⟩ : ∃ before s, slots = before ++ [s] :=
      ⟨_, _, (dropLast_append_getLast h.ne_nil).symm⟩
    obtain ⟨it', hseek, hat⟩ := seekToLast_at h hit
    rw [← map_reverse]
    exact ⟨it', hseek, hat.visits_prev h⟩
  · obtain ⟨it', hseek, hland⟩ := seek_lands h hasc k hit
    exact ⟨it', hseek, hland.visits h hasc⟩
  · obtain ⟨it', hseek, hland⟩ := seekLe_lands h hasc k hit
    exact ⟨it', hseek, hland.visits h hasc⟩

def plain : Codec := ⟨fun _ bs => bs, fun _ bs => some bs, fun _ => 0, fun _ _ => rfl⟩

theorem block_round_trip_widths :
    let entry (b : U8) (n : Nat) : FullKey × Bytes := (⟨⟨1, [0, b]⟩, 65536⟩, replicate n b)
    let entries := [entry 1 1, entry 2 256, entry 3 2]
    let options : BlockBuilderOptions := ⟨4096, .lz4, 16⟩
    ∃ builder bytes block, buildBlock plain true options entries = .ok (builder, bytes) ∧
      Block.decode plain bytes builder.uncompressedBlockSize = .ok (.ok block) ∧
      ∃ it', (new block).seekToLast = .ok it' ∧ Visits prev it' entries.reverse := by
  intro entry entries options
  obtain ⟨builder, bytes, block, hrun, hdecode, hit⟩ := block_round_trip plain true
    (show 1 ≤ options.restartInterval by decide) (show entries ≠ [] by decide +kernel)
    (show ∀ e ∈ entries, e.1.userKey.tableId = 1 by decide +kernel)
    (show entries.Pairwise fun x y => x.1 < y.1 by decide +kernel) (by decide +kernel)
  exact ⟨builder, bytes, block, hrun, hdecode, (hit (.new block) rfl).2.1⟩

end Hummock
