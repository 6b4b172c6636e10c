import RisingLake.Hummock.Proof.Key
import RisingLake.Hummock.Watermark
import RisingLake.Lib.AsOf

/-!
# Watermarks only advance

A reader's index is read as of an epoch: its staging watermarks over the committed ones are one log,
newest first (`readWatermark_eq`). `Wf` says how its two parts lie to each other, and that reads
from the committed epoch on only advance. A list that went through `filter_regress_watermarks` has
no watermark behind the last one (`filterRegressWatermarks_ok`), so adding it passes the debug
assertions (`debugCheckWatermarks_ok`) and keeps the reads advancing (`Wf.add`). A committed version
that reads like the index up to its epoch changes no later read (`read_commitWatermarks`).
-/

namespace Hummock

open Res AsOf List VirtualNode Bitmap TableWatermarksIndex

/-! ## Bitmaps -/

variable {i n : Nat}

namespace Bitmap

def bit (b : Bitmap) (i : Nat) : Bool := b[i]?.getD false

variable {b : Bitmap}

theorem lt_length_of_bit (h : b.bit i = true) : i < b.length := by
  rw [bit] at h
  cases hi : b[i]? with
  | none => simp [hi] at h
  | some x => exact (List.getElem?_eq_some_iff.1 hi).1

theorem isSet_eq (h : i < b.length) : b.isSet i = .ok (b.bit i) := by
  simp [isSet, h, bit]

theorem mem_iterOnes : i ∈ b.iterOnes ↔ b.bit i = true := by
  simp only [iterOnes, mem_filter, mem_range]
  exact ⟨fun h => h.2, fun h => ⟨lt_length_of_bit h, h⟩⟩

theorem nodup_iterOnes (b : Bitmap) : b.iterOnes.Nodup := nodup_range.filter _

theorem bit_zeroed (len i : Nat) : (zeroed len).bit i = false := by
  simp only [bit, zeroed, getElem?_replicate]
  split <;> rfl

theorem bit_set (h : n < b.length) (i : Nat) :
    bit (List.set b n true) i = (b.bit i || decide (i = n)) := by
  simp only [bit]
  by_cases hi : n = i
  · subst hi
    simp [h]
  · simp [hi, Ne.symm hi]

theorem set_ok (h : n < b.length) : b.set n true = .ok (List.set b n true) := by
  simp [set, h]

theorem foldlM_set {f : Bitmap → Nat → Res Bitmap} {ones : List Nat}
    (hf : ∀ b' : Bitmap, ∀ i ∈ ones, b'.length = b.length → b'.bit i = false →
      f b' i = .ok (List.set b' i true)) (hlt : ∀ i ∈ ones, i < b.length) (hnodup : ones.Nodup)
    (hclear : ∀ i ∈ ones, b.bit i = false) : ∃ b', ones.foldlM f b = .ok b' ∧ b'.length = b.length ∧
      ∀ i, b'.bit i = (b.bit i || decide (i ∈ ones)) := by
  induction ones generalizing b with
  | nil => exact ⟨b, rfl, rfl, by simp⟩
  | cons n ones ih =>
    have hn : n < b.length := hlt n (.head _)
    have hlen : (List.set b n true).length = b.length := length_set
    rw [nodup_cons] at hnodup
    obtain ⟨b', hrun, hlen', hbit⟩ := @ih (List.set b n true)
      (fun b' i hi hb' => hf b' i (.tail _ hi) (hb'.trans hlen))
      (fun i hi => by rw [hlen]; exact hlt i (.tail _ hi)) hnodup.2 fun i hi => by
        rw [bit_set hn, hclear i (.tail _ hi)]
        exact decide_eq_false fun h => hnodup.1 (h ▸ hi)
    refine ⟨b', ?_, hlen'.trans hlen, fun i => ?_⟩
    · rw [foldlM_cons, hf b n (.head _) rfl (hclear n (.head _)), ok_bind, hrun]
    · rw [hbit, bit_set hn]
      by_cases hi : i = n <;> simp [hi]

theorem ofOnes_ok (len : Nat) (ones : List Nat) (hlt : ∀ i ∈ ones, i < len) (hnodup : ones.Nodup) :
    ∃ b, ofOnes len ones = .ok b ∧ b.length = len ∧ ∀ i, b.bit i = decide (i ∈ ones) := by
  have hlen : (zeroed len).length = len := length_replicate
  obtain ⟨b, hrun, hb, hbit⟩ := foldlM_set
    (fun b' i hi hb' _ => set_ok (by rw [hb', hlen]; exact hlt i hi))
    (fun i hi => by rw [hlen]; exact hlt i hi) hnodup fun i _ => bit_zeroed len i
  exact ⟨b, hrun, hb.trans hlen, fun i => by rw [hbit, bit_zeroed, Bool.false_or]⟩

theorem iterVnodes_ok (dbg : Bool) (h : b.length ≤ vnodeMaxCount) :
    ∃ vnodes, b.iterVnodes dbg = .ok vnodes ∧ vnodes.map (·.toIndex) = b.iterOnes := by
  have hlt : ∀ i ∈ b.iterOnes, i < vnodeMaxCount := fun i hi =>
    (lt_length_of_bit (mem_iterOnes.1 hi)).trans_le h
  refine ⟨b.iterOnes.map (Fin.ofNat _), mapM_eq_ok fun i hi => fromIndex_of_lt dbg (hlt i hi), ?_⟩
  rw [map_map]
  refine (map_congr_left fun i hi => ?_).trans (map_id _)
  exact Nat.mod_eq_of_lt ((hlt i hi).trans (by decide))

end Bitmap

/-! ## Reads -/

/-- The first watermark of the list whose bitmap has the vnode. -/
def lookup (vnode : Nat) (ws : List VnodeWatermark) : Option Bytes :=
  ws.findSome? fun w => if w.vnodeBitmap.bit vnode then some w.watermark else none

def CountOk (n : Nat) (ws : List VnodeWatermark) : Prop := ∀ w ∈ ws, w.vnodeCount = n

instance {n : Nat} {ws : List VnodeWatermark} : Decidable (CountOk n ws) :=
  inferInstanceAs (Decidable (∀ w ∈ ws, w.vnodeCount = n))

namespace TableWatermarksIndex

/-- The whole log, newest first. -/
def entries (self : TableWatermarksIndex) : List EpochWatermarks :=
  self.stagingWatermarks.reverse ++ self.committedEntries.reverse

variable {vnode : VirtualNode}

theorem readVnode_eq (hv : vnode.toIndex < n) :
    ∀ {ws : List VnodeWatermark}, CountOk n ws → readVnode vnode ws = .ok (lookup vnode.toIndex ws)
  | [], _ => rfl
  | w :: ws, h => by
    have hw : vnode.toIndex < w.vnodeBitmap.length := by
      rw [show w.vnodeBitmap.length = n from h w (.head _)]
      exact hv
    rw [readVnode, isSet_eq hw, readVnode_eq hv fun w' hw' => h w' (.tail _ hw'),
      lookup, lookup, findSome?_cons]
    cases w.vnodeBitmap.bit vnode.toIndex <;> rfl

theorem readEntries_eq {epoch : HummockEpoch}
    (hv : vnode.toIndex < n) : ∀ {es : List EpochWatermarks}, (∀ e ∈ es, CountOk n e.2) →
      readEntries vnode epoch es = .ok (readAt (lookup vnode.toIndex) epoch es)
  | [], _ => rfl
  | e :: es, h => by
    rw [readEntries, readAt, readVnode_eq hv (h e (.head _)),
      readEntries_eq hv fun e' he' => h e' (.tail _ he')]
    split
    · rfl
    · cases lookup vnode.toIndex e.2 <;> rfl

theorem readWatermark_eq {idx : TableWatermarksIndex}
    (hv : vnode.toIndex < n) (h : ∀ e ∈ idx.entries, CountOk n e.2) (epoch : HummockEpoch) :
    idx.readWatermark vnode epoch = .ok (readAt (lookup vnode.toIndex) epoch idx.entries) :=
  readEntries_eq hv h

def NotBehind (direction : WatermarkDirection) (a b : Bytes) :
    Prop := isRegress direction a b = false

variable (direction : WatermarkDirection)

theorem NotBehind.refl (a : Bytes) : NotBehind direction a a := by
  cases direction <;> simp [NotBehind, isRegress]

theorem NotBehind.trans (a b c : Bytes)
    (h : NotBehind direction a b) (h' : NotBehind direction b c) : NotBehind direction a c := by
  cases direction with
  | ascending | descending =>
    simp only [NotBehind, isRegress, decide_eq_false_iff_not, not_lt] at *
    order

/-! ## The invariant -/

def SinceCommitted (idx : TableWatermarksIndex) (epoch : HummockEpoch) : Prop :=
  ∀ c, idx.committedEpoch = some c → c ≤ epoch

structure Wf (n : Nat) (idx : TableWatermarksIndex) : Prop where
  count : ∀ e ∈ idx.entries, CountOk n e.2
  sorted : idx.stagingWatermarks.Pairwise fun e e' => e.1 < e'.1
  latest : ∀ e ∈ idx.stagingWatermarks, e.1 ≤ idx.latestEpoch
  staging : ∀ e ∈ idx.stagingWatermarks, ∀ c, idx.committedEpoch = some c → c < e.1
  committed : ∀ e ∈ idx.committedEntries, ∃ c, idx.committedEpoch = some c ∧ e.1 ≤ c
  committedLatest : ∀ c, idx.committedEpoch = some c → c ≤ idx.latestEpoch
  mono : ∀ vnode < n,
    MonoFrom (lookup vnode) (NotBehind idx.watermarkDirection) idx.SinceCommitted idx.entries

def Advances (idx : TableWatermarksIndex) (vnode : Nat) (watermark : Bytes) : Prop :=
  OptLe (NotBehind idx.watermarkDirection) (readAt (lookup vnode) U64.max idx.entries) (some watermark)

theorem any_isRegress {direction : WatermarkDirection} {o : Option Bytes} {watermark : Bytes} :
    (o.any fun prev => isRegress direction prev watermark) = false ↔
      OptLe (NotBehind direction) o (some watermark) := by
  cases o with
  | none => exact ⟨fun _ => trivial, fun _ => rfl⟩
  | some prev => exact Iff.rfl

/-! ## Filtering -/

section
variable {idx : TableWatermarksIndex}

theorem filterRegress_ok (dbg : Bool) (hn : n ≤ vnodeMaxCount) (h : ∀ e ∈ idx.entries, CountOk n e.2)
    {w : VnodeWatermark} (hw : w.vnodeCount = n) : ∃ ws, idx.filterRegress dbg w = .ok ws ∧
      ws.length ≤ 1 ∧
      ∀ w' ∈ ws, w'.vnodeCount = n ∧ w'.watermark = w.watermark ∧ ∀ i, w'.vnodeBitmap.bit i = true →
          w.vnodeBitmap.bit i = true ∧ idx.Advances i w.watermark := by
  have hlen : w.vnodeBitmap.length = n := hw
  obtain ⟨vnodes, hiter, hvnodes⟩ := iterVnodes_ok dbg (by rw [hlen]; exact hn)
  have hbit : ∀ v : VirtualNode, v ∈ vnodes ↔ w.vnodeBitmap.bit v.toIndex = true := fun v => by
    rw [← mem_iterOnes, ← hvnodes, mem_map]
    exact ⟨fun h => ⟨v, h, rfl⟩, fun ⟨v', hv', heq⟩ => Fin.ext heq ▸ hv'⟩
  have hlt : ∀ v ∈ vnodes, v.toIndex < n := fun v hv => by
    rw [← hlen]
    exact lt_length_of_bit ((hbit v).1 hv)
  let behind : VirtualNode → Bool := fun v =>
    (readAt (lookup v.toIndex) U64.max idx.entries).any fun prev =>
      isRegress idx.watermarkDirection prev w.watermark
  have hretain : Slice.retain (idx.regresses w.watermark) vnodes = .ok (vnodes.filter behind) :=
    Slice.retain_eq fun v hv => by
      rw [regresses, latestWatermark, readWatermark_eq (hlt v hv) h, ok_bind]
  have hadvances : ∀ v : VirtualNode, behind v = false → idx.Advances v.toIndex w.watermark :=
    fun v hv => any_isRegress.1 hv
  rw [filterRegress, hiter, ok_bind, hretain, ok_bind]
  split
  · rename_i hempty
    refine ⟨[w], rfl, le_rfl, fun w' hw' => ?_⟩
    rw [mem_singleton] at hw'
    subst hw'
    refine ⟨hw, rfl, fun i hi => ⟨hi, ?_⟩⟩
    obtain ⟨v, hv, rfl⟩ := mem_map.1 (hvnodes ▸ mem_iterOnes.2 hi)
    have hnone := filter_eq_nil_iff.1 (isEmpty_iff.1 hempty) v hv
    exact hadvances v (by simpa using hnone)
  · dsimp only
    split
    · exact ⟨[], rfl, Nat.zero_le _, by simp⟩
    have hnodup : vnodes.Nodup := List.Nodup.of_map _ (hvnodes ▸ nodup_iterOnes _)
    let kept := vnodes.filter fun v => !(vnodes.filter behind).contains v
    obtain ⟨b, hb, hblen, hbbit⟩ := ofOnes_ok w.vnodeCount (kept.map (·.toIndex)) (fun i hi => by
        obtain ⟨v, hv, rfl⟩ := mem_map.1 hi
        rw [hw]
        exact hlt v (mem_filter.1 hv).1)
      (List.Nodup.map Fin.val_injective (hnodup.filter _))
    refine ⟨[⟨b, w.watermark⟩], by rw [hb, ok_bind], le_rfl, fun w' hw' => ?_⟩
    rw [mem_singleton] at hw'
    subst hw'
    refine ⟨hblen.trans hw, rfl, fun i hi => ?_⟩
    rw [hbbit, decide_eq_true_iff] at hi
    obtain ⟨v, hv, rfl⟩ := mem_map.1 hi
    obtain ⟨hv, hkeep⟩ := mem_filter.1 hv
    refine ⟨(hbit v).1 hv, hadvances v ?_⟩
    simpa [hv] using hkeep

def Disjoint (ws : List VnodeWatermark) : Prop :=
  ws.Pairwise fun w w' => ∀ i, w.vnodeBitmap.bit i = true → w'.vnodeBitmap.bit i = false

/-- A filtered list: it has the table's vnodes, no vnode twice, and advances where it has one. -/
structure Filtered (n : Nat) (idx : TableWatermarksIndex) (ws : List VnodeWatermark) : Prop where
  count : CountOk n ws
  disjoint : Disjoint ws
  advances : ∀ w ∈ ws, ∀ i, w.vnodeBitmap.bit i = true → idx.Advances i w.watermark

variable {ws : List VnodeWatermark} {direction : WatermarkDirection} {epoch : HummockEpoch}

section

variable (hn : n ≤ vnodeMaxCount) (h : ∀ e ∈ idx.entries, CountOk n e.2)
include hn h

theorem filterRegressWatermarks_ok (dbg : Bool) (hcount : CountOk n ws) (hdisj : Disjoint ws) :
    ∃ ws', idx.filterRegressWatermarks dbg ws = .ok ws' ∧ Filtered n idx ws' := by
  choose! kept hkept using fun w hw => filterRegress_ok dbg hn h (hcount w hw)
  refine ⟨ws.flatMap kept, ?_, ?_, ?_, ?_⟩
  · rw [filterRegressWatermarks, mapM_eq_ok fun w hw => (hkept w hw).1, ok_bind, flatMap]
  · intro w' hw'
    obtain ⟨w, hw, hw'⟩ := mem_flatMap.1 hw'
    exact ((hkept w hw).2.2 w' hw').1
  · refine pairwise_flatMap.2 ⟨fun w hw => ?_, ?_⟩
    · obtain ⟨-, hle, -⟩ := hkept w hw
      match kept w, hle with
      | [], _ => exact .nil
      | [w'], _ => exact pairwise_singleton _ _
    · refine hdisj.imp_of_mem fun {w w2} hw hw2 hdisj w' hw' w2' hw2' i hi => ?_
      have hfalse := hdisj i (((hkept w hw).2.2 w' hw').2.2 i hi).1
      rw [← Bool.not_eq_true]
      intro hi2
      rw [(((hkept w2 hw2).2.2 w2' hw2').2.2 i hi2).1] at hfalse
      cases hfalse
  · intro w' hw' i hi
    obtain ⟨w, hw, hw'⟩ := mem_flatMap.1 hw'
    obtain ⟨-, hwm, hbits⟩ := (hkept w hw).2.2 w' hw'
    rw [hwm]
    exact (hbits i hi).2

/-! ## The debug assertions -/

theorem debugCheckVnode_ok {watermark : Bytes} {b : Bitmap} (hi : i < n) (hb : b.length = n)
    (hclear : b.bit i = false) (hadv : idx.Advances i watermark) :
    idx.debugCheckVnode watermark b i = .ok (List.set b i true) := by
  have hib : i < b.length := by rw [hb]; exact hi
  have hv := fromIndex_of_lt true (hi.trans_le hn)
  have hvi : toIndex (Fin.ofNat _ i) = i := Nat.mod_eq_of_lt ((hi.trans_le hn).trans (by decide))
  have hassert : ((readAt (lookup i) U64.max idx.entries).all fun prev =>
      !isRegress idx.watermarkDirection prev watermark) = true := by
    have := any_isRegress.2 hadv
    cases hread : readAt (lookup i) U64.max idx.entries with
    | none => rfl
    | some prev => simpa [hread] using this
  rw [debugCheckVnode, isSet_eq hib, ok_bind, hclear, Bool.not_false, assert_true, ok_bind,
    set_ok hib, ok_bind, hv, ok_bind, latestWatermark, readWatermark_eq (hvi.trans_lt hi) h, hvi]
  simp only [hassert, assert_true, ok_bind]

/-- **A filtered list passes the debug assertions.** -/
theorem debugCheckWatermarks_ok (hws : Filtered n idx ws) :
    idx.debugCheckWatermarks ws = .ok () := by
  match ws, hws with
  | [], _ => rfl
  | first :: tail, hws =>
    -- before each watermark, the bits set so far are not in it or a later one
    let P : List VnodeWatermark → Bitmap → Prop := fun rest b =>
      b.length = n ∧ Filtered n idx rest ∧ ∀ w ∈ rest, ∀ i, w.vnodeBitmap.bit i = true →
        b.bit i = false
    have hstep : ∀ w rest b, P (w :: rest) b → ∃ b',
        w.vnodeBitmap.iterOnes.foldlM (idx.debugCheckVnode w.watermark) b = .ok b' ∧ P rest b' := by
      rintro w rest b ⟨hlen, ⟨hcount, hdisj, hadv⟩, hclear⟩
      have hlt : ∀ i ∈ w.vnodeBitmap.iterOnes, i < n := fun i hi => by
        rw [← hcount w (.head _)]
        exact lt_length_of_bit (mem_iterOnes.1 hi)
      obtain ⟨b', hrun, hlen', hbit⟩ := foldlM_set
        (fun b' i hi hb' hbi => debugCheckVnode_ok hn h (hlt i hi) (hb'.trans hlen) hbi
          (hadv w (.head _) i (mem_iterOnes.1 hi)))
        (fun i hi => by rw [hlen]; exact hlt i hi) w.vnodeBitmap.nodup_iterOnes
        fun i hi => hclear w (.head _) i (mem_iterOnes.1 hi)
      have hdisj := pairwise_cons.1 hdisj
      refine ⟨b', hrun, hlen'.trans hlen, ⟨fun w' hw' => hcount w' (.tail _ hw'), hdisj.2,
        fun w' hw' => hadv w' (.tail _ hw')⟩, fun w' hw' i hi => ?_⟩
      rw [hbit, hclear w' (.tail _ hw') i hi, Bool.false_or, decide_eq_false_iff_not, mem_iterOnes]
      intro hwi
      rw [hdisj.1 w' hw' i hwi] at hi
      cases hi
    have hinit : P (first :: tail) (zeroed first.vnodeCount) := by
      refine ⟨?_, hws, fun w _ i _ => bit_zeroed _ i⟩
      rw [zeroed, length_replicate]
      exact hws.count first (.head _)
    obtain ⟨b, hrun, -⟩ := foldlM_total P hstep hinit
    rw [debugCheckWatermarks, hrun, ok_bind]

end

/-! ## Steps -/

theorem new_wf {c : Option HummockEpoch} (hcount : CountOk n ws)
    (hrun : new direction epoch ws c = .ok idx) : Wf n idx := by
  obtain ⟨_, hassert, hrun⟩ := bind_eq_ok.1 hrun
  cases hrun
  have hlt : ∀ c', c = some c' → c' < epoch := by
    rintro c' rfl
    exact of_decide_eq_true (assert_eq_ok.1 hassert)
  refine ⟨?_, pairwise_singleton _ _, ?_, ?_, ?_, fun c' hc' => (hlt c' hc').le, fun v _ => ?_⟩
  · simpa [entries, committedEntries] using hcount
  · simp
  · simpa using hlt
  · simp [committedEntries]
  · refine MonoFrom.cons (NotBehind.refl _) (NotBehind.trans _) U64.le_max (fun _ _ _ _ => trivial) ?_
    intro _ _
    trivial

/-- Committed watermarks: none is later than the committed epoch. -/
structure CommittedOk (n : Nat) (watermarks : TableWatermarks) (epoch : HummockEpoch) : Prop where
  count : ∀ e ∈ watermarks.watermarks, CountOk n e.2
  le : ∀ e ∈ watermarks.watermarks, e.1 ≤ epoch

theorem newCommitted_wf {watermarks : TableWatermarks} (h : CommittedOk n watermarks epoch) :
    Wf n (newCommitted watermarks epoch) := by
  refine ⟨fun e he => h.count e (mem_reverse.1 he),
    .nil, by simp [newCommitted], by simp [newCommitted], ?_, ?_, fun v _ t t' hP hle => ?_⟩
  · intro e he
    exact ⟨epoch, rfl, h.le e he⟩
  · rintro c ⟨⟩
    exact le_rfl
  · have ht : epoch ≤ t := hP epoch rfl
    have hall : ∀ e ∈ (newCommitted watermarks epoch).entries, e.1 ≤ epoch := fun e he =>
      h.le e (mem_reverse.1 he)
    rw [readAt_congr (fun e he => (hall e he).trans ht) fun e he => (hall e he).trans (ht.trans hle)]
    exact OptLe.refl (NotBehind.refl _) _

theorem Filtered.lookup (h : Filtered n idx ws) {b : Bytes} (hb : Hummock.lookup i ws = some b)
    : idx.Advances i b := by
  obtain ⟨w, hw, hif⟩ := exists_of_findSome?_eq_some hb
  rw [Option.ite_none_right_eq_some] at hif
  obtain ⟨hbit, hb⟩ := hif
  cases hb
  exact h.advances w hw i hbit

variable {idx' : TableWatermarksIndex} {dbg : Bool}

theorem addEpochWatermark_ok (hsorted : idx.stagingWatermarks.Pairwise fun e e' => e.1 < e'.1)
    (hlatest : ∀ e ∈ idx.stagingWatermarks, e.1 ≤ idx.latestEpoch)
    (hrun : idx.addEpochWatermark dbg epoch ws direction = .ok idx') :
    idx.latestEpoch < epoch ∧ idx' = { idx with
        latestEpoch := epoch
        stagingWatermarks := idx.stagingWatermarks ++ [(epoch, ws)] } ∧
      idx'.entries = (epoch, ws) :: idx.entries ∧
      idx'.stagingWatermarks.Pairwise (fun e e' => e.1 < e'.1) ∧
      ∀ e ∈ idx'.stagingWatermarks, e.1 ≤ epoch := by
  obtain ⟨_, hassert, hrun⟩ := bind_eq_ok.1 hrun
  obtain ⟨_, -, hrun⟩ := bind_eq_ok.1 hrun
  obtain ⟨_, -, hrun⟩ := bind_eq_ok.1 hrun
  cases hrun
  have hlt : idx.latestEpoch < epoch := of_decide_eq_true (assert_eq_ok.1 hassert)
  refine ⟨hlt, rfl, by simp [entries, committedEntries], ?_, ?_⟩
  · refine pairwise_append.2 ⟨hsorted, pairwise_singleton _ _, fun e he e' he' => ?_⟩
    rw [mem_singleton.1 he']
    exact (hlatest e he).trans_lt hlt
  · simpa [or_imp, forall_and] using fun w ws' he => (hlatest (w, ws') he).trans hlt.le

theorem Wf.add (h : Wf n idx) (hws : Filtered n idx ws)
    (hrun : idx.addEpochWatermark dbg epoch ws direction = .ok idx') : Wf n idx' := by
  obtain ⟨hlt, rfl, hentries, hsorted, hlatest⟩ := addEpochWatermark_ok h.sorted h.latest hrun
  refine ⟨?_, hsorted, hlatest, ?_, h.committed, fun c hc => (h.committedLatest c hc).trans hlt.le,
    fun v hv => ?_⟩
  · rw [hentries]
    exact forall_mem_cons.2 ⟨hws.count, h.count⟩
  · intro e he c hc
    rcases mem_append.1 he with he | he
    · exact h.staging e he c hc
    · rw [mem_singleton.1 he]
      exact (h.committedLatest c hc).trans_lt hlt
  · rw [hentries]
    exact MonoFrom.cons (NotBehind.refl _) (NotBehind.trans _) U64.le_max (h.mono v hv)
      fun b hb => hws.lookup hb

/-- The committed watermarks read like the index from its committed epoch up to the new one. -/
def SameReads (n : Nat) (idx : TableWatermarksIndex) (watermarks : TableWatermarks)
    (epoch : HummockEpoch) : Prop :=
  ∀ vnode : VirtualNode, vnode.toIndex < n → ∀ e, idx.SinceCommitted e → e ≤ epoch →
    (newCommitted watermarks epoch).readWatermark vnode e = idx.readWatermark vnode e

section
variable {watermarks : TableWatermarks}

theorem entries_newCommitted :
    (newCommitted watermarks epoch).entries = watermarks.watermarks.reverse := rfl

theorem SameReads.readAt_eq (h : SameReads n idx watermarks epoch) (hn : n ≤ vnodeMaxCount)
    (hidx : Wf n idx) (hw : CommittedOk n watermarks epoch) (hi : i < n)
    (hsince : idx.SinceCommitted epoch) :
    readAt (lookup i) epoch watermarks.watermarks.reverse =
      readAt (lookup i) epoch idx.entries := by
  let vnode : VirtualNode := ⟨i, (hi.trans_le hn).trans (by decide)⟩
  have hi' : vnode.toIndex < n := hi
  have hread := h vnode hi epoch hsince le_rfl
  rw [readWatermark_eq hi' (newCommitted_wf hw).count, readWatermark_eq hi' hidx.count] at hread
  exact Except.ok.inj hread

theorem lt_of_left (hsorted : idx.stagingWatermarks.Pairwise fun e e' => e.1 < e'.1)
    {e : EpochWatermarks} (he : e ∈ idx.stagingWatermarks.dropWhile fun e => e.1 ≤ epoch) :
    epoch < e.1 := by
  rw [Runs.dropWhile_eq_filter (hsorted.imp fun hlt h =>
    decide_eq_true (hlt.le.trans (of_decide_eq_true h))), mem_filter] at he
  simpa using he.2

/-- **A commit changes no read at or after its epoch.** -/
theorem read_commitWatermarks (h : SameReads n idx watermarks epoch) (hn : n ≤ vnodeMaxCount)
    (hidx : Wf n idx) (hw : CommittedOk n watermarks epoch) (hsince : idx.SinceCommitted epoch)
    (hi : i < n) {e : HummockEpoch} (he : epoch ≤ e) :
    readAt (lookup i) e (idx.commitWatermarks watermarks epoch).entries =
      readAt (lookup i) e idx.entries := by
  let popped := idx.stagingWatermarks.takeWhile fun e => e.1 ≤ epoch
  let left := idx.stagingWatermarks.dropWhile fun e => e.1 ≤ epoch
  have hleft : ∀ x ∈ left.reverse, epoch < x.1 :=
    fun x hx => lt_of_left hidx.sorted (mem_reverse.1 hx)
  -- everything but what is left is at most as late as the commit, before and after it
  have hold : ∀ x ∈ popped.reverse ++ idx.committedEntries.reverse, x.1 ≤ epoch := fun x hx => by
    rcases mem_append.1 hx with hx | hx
    · have hx : x ∈ popped := mem_reverse.1 hx
      have hle := mem_takeWhile_imp hx
      exact of_decide_eq_true hle
    · obtain ⟨c, hc, hle⟩ := hidx.committed x (mem_reverse.1 hx)
      exact hle.trans (hsince c hc)
  have hnew : ∀ x ∈ watermarks.watermarks.reverse, x.1 ≤ epoch :=
    fun x hx => hw.le x (mem_reverse.1 hx)
  have hsplit : idx.entries = left.reverse ++ (popped.reverse ++ idx.committedEntries.reverse) := by
    rw [← append_assoc, ← reverse_append, takeWhile_append_dropWhile]
    rfl
  have hcommit : (idx.commitWatermarks watermarks epoch).entries =
      left.reverse ++ watermarks.watermarks.reverse := rfl
  have hat := h.readAt_eq hn hidx hw hi hsince
  rw [hsplit, readAt_append, readAt_of_lt hleft, Option.none_or] at hat
  rw [hcommit, hsplit, readAt_append, readAt_append,
    readAt_congr (fun x hx => (hnew x hx).trans he) hnew, hat,
      readAt_congr (fun x hx => (hold x hx).trans he) hold]

theorem applyCommittedWatermarks_ok
    (hrun : idx.applyCommittedWatermarks watermarks epoch = .ok idx') : idx.SinceCommitted epoch ∧
      (idx' = idx ∧ idx.committedEpoch = some epoch ∨
        idx' = idx.commitWatermarks watermarks epoch) := by
  obtain ⟨_, -, hrun⟩ := bind_eq_ok.1 hrun
  obtain ⟨_, hassert, hrun⟩ := bind_eq_ok.1 hrun
  refine ⟨fun c hc => ?_, ?_⟩
  · rw [assert_eq_ok, hc] at hassert
    exact of_decide_eq_true hassert
  · split at hrun
    · rename_i hc
      cases hrun
      exact .inl ⟨rfl, hc⟩
    · cases hrun
      exact .inr rfl

theorem Wf.commit (h : Wf n idx) (hn : n ≤ vnodeMaxCount) (hw : CommittedOk n watermarks epoch)
    (hsame : SameReads n idx watermarks epoch) (hsince : idx.SinceCommitted epoch) :
    Wf n (idx.commitWatermarks watermarks epoch) := by
  have hsub : (idx.stagingWatermarks.dropWhile fun e => e.1 ≤ epoch).Sublist idx.stagingWatermarks :=
    dropWhile_sublist _
  refine ⟨?_, h.sorted.sublist hsub, ?_, ?_, fun e he => ⟨epoch, rfl, hw.le e he⟩, ?_,
    fun v hv t t' hP hle => ?_⟩
  · intro e he
    rcases mem_append.1 he with he | he
    · exact h.count e (mem_append_left _ (mem_reverse.2 (hsub.subset (mem_reverse.1 he))))
    · exact hw.count e (mem_reverse.1 he)
  · intro e he
    exact (h.latest e (hsub.subset he)).trans (le_max_left _ _)
  · rintro e he c ⟨⟩
    exact lt_of_left h.sorted he
  · rintro c ⟨⟩
    exact le_max_right _ _
  · have ht : epoch ≤ t := hP epoch rfl
    rw [read_commitWatermarks hsame hn h hw hsince hv ht,
      read_commitWatermarks hsame hn h hw hsince hv (ht.trans hle)]
    exact h.mono v hv t t' (fun c hc => (hsince c hc).trans ht) hle

end

/-! ## Runs -/

/-- An index of a table with `n` vnodes, made and then changed by the two operations in any order.
-/
inductive Reachable (dbg : Bool) (n : Nat) : TableWatermarksIndex → Prop where
  | new {direction epoch ws c idx} : CountOk n ws → new direction epoch ws c = .ok idx →
    Reachable dbg n idx
  | newCommitted {watermarks epoch} : CommittedOk n watermarks epoch →
      Reachable dbg n (newCommitted watermarks epoch)
  | add {idx ws ws' epoch direction idx'} : Reachable dbg n idx → CountOk n ws → Disjoint ws →
      idx.filterRegressWatermarks dbg ws = .ok ws' →
      idx.addEpochWatermark dbg epoch ws' direction = .ok idx' → Reachable dbg n idx'
  | commit {idx watermarks epoch idx'} : Reachable dbg n idx → CommittedOk n watermarks epoch →
      SameReads n idx watermarks epoch →
      idx.applyCommittedWatermarks watermarks epoch = .ok idx' → Reachable dbg n idx'

theorem Reachable.wf (hn : n ≤ vnodeMaxCount) (h : Reachable dbg n idx) : Wf n idx := by
  induction h with
  | new hcount hrun => exact new_wf hcount hrun
  | newCommitted hw => exact newCommitted_wf hw
  | add _ hcount hdisj hfilter hrun ih =>
    obtain ⟨ws', hfilter', hws'⟩ := filterRegressWatermarks_ok hn ih.count dbg hcount hdisj
    cases hfilter.symm.trans hfilter'
    exact ih.add hws' hrun
  | commit _ hw hsame hrun ih =>
    obtain ⟨hsince, ⟨rfl, -⟩ | rfl⟩ := applyCommittedWatermarks_ok hrun
    · exact ih
    · exact ih.commit hn hw hsame hsince

theorem Wf.mono_all (h : Wf n idx) (hi : i < n)
    (hcommitted : MonoFrom (lookup i) (NotBehind idx.watermarkDirection) (fun _ => True)
      idx.committedEntries.reverse) :
    MonoFrom (lookup i) (NotBehind idx.watermarkDirection) (fun _ => True) idx.entries := by
  intro t t' _ hle
  by_cases hsince : idx.SinceCommitted t
  · exact h.mono i hi t t' hsince hle
  -- before the committed epoch only the committed watermarks are read
  simp only [SinceCommitted, not_forall, not_le] at hsince
  obtain ⟨c, hc, htc⟩ := hsince
  have hread : ∀ e ≤ c, readAt (lookup i) e idx.entries =
      readAt (lookup i) e idx.committedEntries.reverse := fun e he => by
    rw [entries, readAt_append, readAt_of_lt fun x hx =>
      he.trans_lt (h.staging x (mem_reverse.1 hx) c hc), Option.none_or]
  rcases le_total t' c with ht' | ht'
  · rw [hread t htc.le, hread t' ht']
    exact hcommitted t t' trivial hle
  · have hfirst := hcommitted t c trivial htc.le
    rw [← hread t htc.le, ← hread c le_rfl] at hfirst
    refine hfirst.trans (NotBehind.trans _) (h.mono i hi c t' (fun c' hc' => ?_) ht')
    rw [Option.mem_unique hc' hc]

/-- **Watermarks only advance**: in every reachable index the reads of a vnode from the committed
epoch on do, and all reads if the committed watermarks do. A filtered list can always be added, also
with debug assertions, and a commit changes no read at or after its epoch. -/
theorem reachable_watermarks (hn : n ≤ vnodeMaxCount) (h : Reachable dbg n idx) :
    (∀ vnode : VirtualNode, vnode.toIndex < n → ∀ e e', e ≤ e' →
      (idx.SinceCommitted e ∨ MonoFrom (lookup vnode.toIndex) (NotBehind idx.watermarkDirection)
        (fun _ => True) idx.committedEntries.reverse) →
      ∃ o o', idx.readWatermark vnode e = .ok o ∧ idx.readWatermark vnode e' = .ok o' ∧
        OptLe (NotBehind idx.watermarkDirection) o o') ∧
    (∀ ws epoch, CountOk n ws → Disjoint ws → idx.latestEpoch < epoch →
      ∃ ws' idx', idx.filterRegressWatermarks dbg ws = .ok ws' ∧
        idx.addEpochWatermark true epoch ws' idx.watermarkDirection = .ok idx') ∧
    ∀ watermarks epoch idx', CommittedOk n watermarks epoch → SameReads n idx watermarks epoch →
      idx.applyCommittedWatermarks watermarks epoch = .ok idx' →
      ∀ vnode : VirtualNode, vnode.toIndex < n → ∀ e, epoch ≤ e →
        idx'.readWatermark vnode e = idx.readWatermark vnode e := by
  have hwf := h.wf hn
  refine ⟨fun vnode hv e e' hle hor => ?_, fun ws epoch hcount hdisj hlt => ?_,
    fun watermarks epoch idx' hw hsame hrun vnode hv e he => ?_⟩
  · refine ⟨_, _, readWatermark_eq hv hwf.count e, readWatermark_eq hv hwf.count e', ?_⟩
    rcases hor with hsince | hcommitted
    · exact hwf.mono _ hv e e' hsince hle
    · exact hwf.mono_all hv hcommitted e e' trivial hle
  · obtain ⟨ws', hfilter, hws'⟩ := filterRegressWatermarks_ok hn hwf.count dbg hcount hdisj
    have hdebug : idx.debugAssertions true ws' = .ok () := debugCheckWatermarks_ok hn hwf.count hws'
    refine ⟨ws', { idx with
      latestEpoch := epoch
      stagingWatermarks := idx.stagingWatermarks ++ [(epoch, ws')] }, hfilter, ?_⟩
    simp [addEpochWatermark, hlt, hdebug]
  · obtain ⟨hsince, ⟨rfl, -⟩ | rfl⟩ := applyCommittedWatermarks_ok hrun
    · rfl
    · rw [readWatermark_eq hv (hwf.commit hn hw hsame hsince).count, readWatermark_eq hv hwf.count,
        read_commitWatermarks hsame hn hwf hw hsince hv he]

end

/-- Committed watermarks that hold a later epoch than their own change a later read, and those that
go back are read as they are below the committed epoch. -/
theorem commit_later_epoch :
    let idx : TableWatermarksIndex := ⟨.ascending, [(5, [⟨[true], [1]⟩])], none, 5, none⟩
    let watermarks : TableWatermarks := ⟨[(5, [⟨[true], [1]⟩]), (100, [⟨[true], [9]⟩])], .ascending⟩
    let regressed : TableWatermarks := ⟨[(1, [⟨[true], [9]⟩]), (2, [⟨[true], [1]⟩])], .ascending⟩
    (new .ascending 5 [⟨[true], [1]⟩] none = .ok idx ∧ SameReads 1 idx watermarks 5 ∧
      idx.applyCommittedWatermarks watermarks 5 = .ok (idx.commitWatermarks watermarks 5) ∧
      idx.readWatermark 0 100 = .ok (some [1]) ∧
      (idx.commitWatermarks watermarks 5).readWatermark 0 100 = .ok (some [9])) ∧
    CommittedOk 1 regressed 2 ∧ (newCommitted regressed 2).readWatermark 0 1 = .ok (some [9]) ∧
      (newCommitted regressed 2).readWatermark 0 2 = .ok (some [1]) := by
  refine ⟨⟨by decide +kernel, ?_, by decide +kernel, by decide +kernel, by decide +kernel⟩, ?_,
    by decide +kernel, by decide +kernel⟩
  rotate_left
  · constructor <;> simp [CountOk, VnodeWatermark.vnodeCount]
  intro vnode hv e _ he
  have hv : vnode = 0 := Fin.ext (Nat.lt_one_iff.1 hv)
  subst hv
  rcases lt_or_eq_of_le he with he | rfl
  · have he' : e < 100 := he.trans (by decide)
    simp [readWatermark, readEntries, newCommitted, committedEntries, he']
  · decide +kernel

theorem reachable_watermarks_two : let idx : TableWatermarksIndex :=
      ⟨.ascending, [(5, [⟨[true], [1]⟩]), (6, [⟨[true], [2]⟩])], none, 6, none⟩
    let watermarks : TableWatermarks := ⟨[(5, [⟨[true], [1]⟩])], .ascending⟩
    ∃ o o', idx.readWatermark 0 5 = .ok o ∧ idx.readWatermark 0 6 = .ok o' ∧
      OptLe (NotBehind .ascending) o o' ∧
      (idx.commitWatermarks watermarks 5).readWatermark 0 6 = .ok o' := by
  intro idx watermarks
  have hcount : ∀ b, CountOk 1 [⟨[true], b⟩] := fun b w hw => by
    rw [mem_singleton.1 hw]
    rfl
  have hnew : new .ascending 5 [⟨[true], [1]⟩] none =
      .ok ⟨.ascending, [(5, [⟨[true], [1]⟩])], none, 5, none⟩ := by decide +kernel
  have hfilter : filterRegressWatermarks true ⟨.ascending, [(5, [⟨[true], [1]⟩])], none, 5, none⟩
      [⟨[true], [2]⟩] = .ok [⟨[true], [2]⟩] := by decide +kernel
  have hadd : addEpochWatermark true ⟨.ascending, [(5, [⟨[true], [1]⟩])], none, 5, none⟩ 6
      [⟨[true], [2]⟩] .ascending = .ok idx := by decide +kernel
  have hidx : Reachable true 1 idx :=
    .add (.new (hcount _) hnew) (hcount _) (pairwise_singleton _ _) hfilter hadd
  have hn : 1 ≤ vnodeMaxCount := by decide
  obtain ⟨hmono, -, hcommit⟩ := reachable_watermarks hn hidx
  obtain ⟨o, o', ho, ho', hle⟩ := hmono 0 (by decide) 5 6 (by decide) (.inl nofun)
  refine ⟨o, o', ho, ho', hle, ?_⟩
  rw [← ho']
  refine hcommit watermarks 5 _ ⟨?_, ?_⟩ ?_ (by decide +kernel) 0 (by decide) 6 (by decide)
  · intro e he
    rw [mem_singleton.1 he]
    exact hcount _
  · intro e he
    rw [mem_singleton.1 he]
  · intro vnode hv e _ he
    have hv : vnode = 0 := Fin.ext (Nat.lt_one_iff.1 hv)
    subst hv
    rcases lt_or_eq_of_le he with he | rfl
    · have he' : e < 6 := he.trans (by decide)
      simp [readWatermark, readEntries, newCommitted, committedEntries, idx, watermarks, he']
    · decide +kernel

end TableWatermarksIndex

end Hummock
