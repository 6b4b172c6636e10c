import RisingLake.Hummock.Proof.Watermark
import RisingLake.Hummock.ReadVersion

/-!
# Watermark reads of a read version across commits

A read version seals watermarks, epoch by epoch, and takes in committed versions. What was sealed is
a log, and a committed version reads like the log up to its epoch (`Commits`). A commit drops the
staged watermarks up to the new epoch, but puts the watermarks of the version before in their place.
So a commit changes no read just if the sealed watermarks did not change between the two committed
epochs (`commitSnapshot_keeps_reads_iff`); a watermark sealed in between is lost
(`commitSnapshot_regresses`).

`Tracks` is the invariant of runs in which no commit lost a watermark: from the committed epoch on
the reader sees the log.
-/

namespace Hummock

open Res AsOf List HummockVersion

def HummockVersion.watermarkEntries (version : HummockVersion) (tableId : TableId) :
    List EpochWatermarks :=
  version.tableWatermarks[tableId]?.elim [] (·.watermarks)

namespace HummockReadVersion

open TableWatermarksIndex

/-- The watermark that a reader of the table applies. -/
def readWatermark (rv : HummockReadVersion) (vnode : VirtualNode) (epoch : HummockEpoch) :
    Res (Option Bytes) :=
  match rv.tableWatermarks with
  | some idx => idx.readWatermark vnode epoch
  | none => .ok none

section
variable (n : Nat) (direction : WatermarkDirection) (tableId : TableId)

/-- The version has committed the table up to `c`, and its watermarks read like the ones sealed up
to `c`. -/
structure Commits (log : List EpochWatermarks) (version : HummockVersion) (c : HummockEpoch) :
    Prop where
  epoch : version.tableCommittedEpoch tableId = some c
  count : ∀ e ∈ version.watermarkEntries tableId, CountOk n e.2
  direction : ∀ w, version.tableWatermarks[tableId]? = some w → w.direction = direction
  reads : ∀ i < n, ∀ e, c ≤ e →
    readAt (lookup i) e (version.watermarkEntries tableId).reverse = readAt (lookup i) c log

/-- The version before has no watermarks, or the sealed ones are the same at both epochs. -/
def LosesNone (log : List EpochWatermarks) (rv : HummockReadVersion) (c c' : HummockEpoch) : Prop :=
  rv.committed.tableWatermarks[tableId]? = none ∨ ∀ i < n, readAt (lookup i) c log =
    readAt (lookup i) c' log

/-- A run of seals and commits that lost no watermark: the read version, what was sealed (newest
first) and the committed epoch. -/
inductive SealRun (dbg : Bool) :
    HummockReadVersion → List EpochWatermarks → HummockEpoch → Prop where
  | new {log version c instanceId isReplicated rv} : Commits n direction tableId log version c →
      (∀ e ∈ log, e.1 ≤ c) →
      newWithReplicationOption tableId instanceId version isReplicated = .ok rv →
        SealRun dbg rv log c
  | sealEpoch {rv log c ws ws' epoch rv'} : SealRun dbg rv log c → CountOk n ws →
      rv.filterRegressWatermarks dbg ws = .ok ws' → (∀ e ∈ log, e.1 < epoch) → c < epoch →
      rv.update dbg (.newTableWatermark direction epoch ws') = .ok rv' →
      SealRun dbg rv' ((epoch, ws') :: log) c
  | commit {rv log c version c' rv'} : SealRun dbg rv log c →
      Commits n direction tableId log version c' → c ≤ c' → LosesNone n tableId log rv c c' →
      rv.update dbg (.committedSnapshot version) = .ok rv' → SealRun dbg rv' log c'

/-! ## The invariant -/

/-- The index reads like the log from `c` on. -/
structure IndexTracks (log : List EpochWatermarks) (c : HummockEpoch) (idx : TableWatermarksIndex) :
    Prop where
  direction : idx.watermarkDirection = direction
  count : ∀ e ∈ idx.entries, CountOk n e.2
  sorted : idx.stagingWatermarks.Pairwise fun e e' => e.1 < e'.1
  latest : ∀ e ∈ idx.stagingWatermarks, e.1 ≤ idx.latestEpoch
  committedEpoch : ∃ c', idx.committedEpoch = some c' ∧ c' ≤ c
  committed : ∀ i < n, ∀ e, c ≤ e → readAt (lookup i) e idx.committedEntries.reverse =
    readAt (lookup i) c idx.committedEntries.reverse
  reads : ∀ i < n, ∀ e, c ≤ e → readAt (lookup i) e idx.entries = readAt (lookup i) e log

/-- The read version reads like the log from `c` on. -/
structure Tracks (rv : HummockReadVersion) (log : List EpochWatermarks) (c : HummockEpoch) : Prop where
  table : rv.tableId = tableId
  staging : rv.staging = ⟨[], []⟩
  commits : Commits n direction tableId log rv.committed c
  index : ∀ idx, rv.tableWatermarks = some idx → IndexTracks n direction log c idx
  noIndex : rv.tableWatermarks = none → ∀ i < n, ∀ e, c ≤ e → readAt (lookup i) e log = none

end

section
variable {n : Nat} {direction : WatermarkDirection} {tableId : TableId} {dbg : Bool}
  {rv rv' : HummockReadVersion} {log : List EpochWatermarks} {c c' : HummockEpoch}
  {version : HummockVersion} {vnode : VirtualNode} {e : HummockEpoch}

theorem Tracks.readWatermark_eq (h : Tracks n direction tableId rv log c) (hv : vnode.toIndex < n)
    (he : c ≤ e) : rv.readWatermark vnode e = .ok (readAt (lookup vnode.toIndex) e log) := by
  unfold readWatermark
  split
  · rename_i idx hidx
    have hi := h.index idx hidx
    rw [TableWatermarksIndex.readWatermark_eq hv hi.count, hi.reads _ hv e he]
  · rename_i hnone
    rw [h.noIndex hnone _ hv e he]

variable {w : TableWatermarks} {idx : TableWatermarksIndex}

theorem Commits.newCommitted {c₀ : HummockEpoch} (h : Commits n direction tableId log version c₀)
    (hw : version.tableWatermarks[tableId]? = some w) (hle : c₀ ≤ c)
    (hreads : ∀ i < n, ∀ e, c ≤ e → readAt (lookup i) c₀ log = readAt (lookup i) e log) :
    IndexTracks n direction log c (newCommitted w c) := by
  have hentries : version.watermarkEntries tableId = w.watermarks := by
    rw [watermarkEntries, hw]
    rfl
  have hstable : ∀ i < n, ∀ e, c ≤ e → readAt (lookup i) e w.watermarks.reverse =
      readAt (lookup i) c₀ log := by
    intro i hi e he
    rw [← hentries]
    exact h.reads i hi e (hle.trans he)
  refine ⟨h.direction w hw, ?_, .nil, by simp [TableWatermarksIndex.newCommitted],
    ⟨c, rfl, le_rfl⟩, ?_, ?_⟩
  · intro e he
    rw [entries_newCommitted, mem_reverse, ← hentries] at he
    exact h.count e he
  · intro i hi e he
    exact (hstable i hi e he).trans (hstable i hi c le_rfl).symm
  · intro i hi e he
    rw [entries_newCommitted, hstable i hi e he, hreads i hi e he]

theorem Commits.newWithReplicationOption (h : Commits n direction tableId log version c)
    (hlog : ∀ e ∈ log, e.1 ≤ c) {instanceId : LocalInstanceId} {isReplicated : Bool}
    (hrun : newWithReplicationOption tableId instanceId version isReplicated = .ok rv) :
    Tracks n direction tableId rv log c := by
  have hlast : ∀ i < n, ∀ e, c ≤ e → readAt (lookup i) c log = readAt (lookup i) e log :=
    fun i _ e he => readAt_congr hlog fun x hx => (hlog x hx).trans he
  obtain ⟨_, -, hrun⟩ := bind_eq_ok.1 hrun
  cases hw : version.tableWatermarks[tableId]? with
  | none =>
    simp only [hw] at hrun
    cases hrun
    refine ⟨rfl, rfl, h, by simp, fun _ i hi e he => ?_⟩
    rw [← hlast i hi e he, ← h.reads i hi c le_rfl, watermarkEntries, hw]
    rfl
  | some w =>
    simp only [hw, h.epoch, unwrap] at hrun
    cases hrun
    refine ⟨rfl, rfl, h, fun idx hidx => ?_, by simp⟩
    cases hidx
    exact h.newCommitted hw le_rfl hlast

/-! ## Seals -/

theorem Commits.cons (h : Commits n direction tableId log version c) {e : EpochWatermarks}
    (he : c < e.1) : Commits n direction tableId (e :: log) version c := by
  refine ⟨h.epoch, h.count, h.direction, fun i hi e' he' => ?_⟩
  rw [readAt, if_pos he]
  exact h.reads i hi e' he'

variable {ws : List VnodeWatermark} {epoch : HummockEpoch}

theorem IndexTracks.add {idx' : TableWatermarksIndex} (h : IndexTracks n direction log c idx)
    (hws : CountOk n ws) (hrun : idx.addEpochWatermark dbg epoch ws direction = .ok idx') :
    IndexTracks n direction ((epoch, ws) :: log) c idx' := by
  obtain ⟨-, rfl, hentries, hsorted, hlatest⟩ := addEpochWatermark_ok h.sorted h.latest hrun
  refine ⟨h.direction, ?_, hsorted, hlatest, h.committedEpoch, h.committed, fun i hi e he => ?_⟩
  · rw [hentries]
    exact forall_mem_cons.2 ⟨hws, h.count⟩
  · rw [hentries, readAt, readAt, h.reads i hi e he]

variable {ws' : List VnodeWatermark}

theorem IndexTracks.count_filterRegressWatermarks
    (h : IndexTracks n direction log c idx) (hn : n ≤ vnodeMaxCount) (hws : CountOk n ws)
    (hrun : idx.filterRegressWatermarks dbg ws = .ok ws') : CountOk n ws' := by
  obtain ⟨kept, hkept, hrun⟩ := bind_eq_ok.1 hrun
  cases hrun
  intro w hw
  obtain ⟨ws₁, hws₁, hw⟩ := mem_flatten.1 hw
  obtain ⟨w₀, hw₀, hrun⟩ := exists_of_mem_mapM hkept ws₁ hws₁
  obtain ⟨ws₂, hrun₂, -, hcount⟩ := filterRegress_ok dbg hn h.count (hws w₀ hw₀)
  cases hrun.symm.trans hrun₂
  exact (hcount w hw).1

theorem Tracks.count_filterRegressWatermarks (h : Tracks n direction tableId rv log c)
    (hn : n ≤ vnodeMaxCount) (hws : CountOk n ws)
    (hrun : rv.filterRegressWatermarks dbg ws = .ok ws') : CountOk n ws' := by
  rw [HummockReadVersion.filterRegressWatermarks] at hrun
  split at hrun
  · rename_i idx hidx
    exact (h.index idx hidx).count_filterRegressWatermarks hn hws hrun
  · cases hrun
    exact hws

theorem Tracks.sealEpoch (h : Tracks n direction tableId rv log c) (hws : CountOk n ws)
    (hlt : c < epoch) (hrun : rv.update dbg (.newTableWatermark direction epoch ws) = .ok rv') :
    Tracks n direction tableId rv' ((epoch, ws) :: log) c := by
  have hcommits : Commits n direction tableId ((epoch, ws) :: log) rv.committed c :=
    h.commits.cons hlt
  rw [update, addTableWatermark] at hrun
  cases hcur : rv.tableWatermarks with
  | some idx =>
    rw [hcur] at hrun
    obtain ⟨idx', hidx', hrun⟩ := bind_eq_ok.1 hrun
    cases hrun
    refine ⟨h.table, h.staging, hcommits, fun idx₁ hidx₁ => ?_, by simp⟩
    cases hidx₁
    exact (h.index idx hcur).add hws hidx'
  | none =>
    rw [hcur] at hrun
    obtain ⟨idx', hidx', hrun⟩ := bind_eq_ok.1 hrun
    cases hrun
    refine ⟨h.table, h.staging, hcommits, fun idx₁ hidx₁ => ?_, by simp⟩
    cases hidx₁
    obtain ⟨_, -, hidx'⟩ := bind_eq_ok.1 hidx'
    cases hidx'
    refine ⟨rfl, ?_, pairwise_singleton _ _, by simp, ⟨c, ?_, le_rfl⟩,
      fun _ _ _ _ => rfl, fun i hi e he => ?_⟩
    · simpa [entries, committedEntries] using hws
    · rw [h.table]
      exact h.commits.epoch
    · have hnone := h.noIndex hcur i hi e he
      simp only [entries, committedEntries, Option.elim_none, reverse_nil, append_nil,
        reverse_singleton, readAt, hnone]

/-! ## Commits -/

section

variable (h : IndexTracks n direction log c idx)
include h

theorem IndexTracks.readAt_commitWatermarks (hle : c ≤ c')
    {i : Nat} (hi : i < n) (he : c' ≤ e) : ∃ later, readAt (lookup i) c' later = none ∧
      readAt (lookup i) e (idx.commitWatermarks w c').entries =
        (readAt (lookup i) e later).or (readAt (lookup i) e w.watermarks.reverse) ∧
      readAt (lookup i) e log = (readAt (lookup i) e later).or (readAt (lookup i) c' log) := by
  let popped := idx.stagingWatermarks.takeWhile fun x => x.1 ≤ c'
  let left := idx.stagingWatermarks.dropWhile fun x => x.1 ≤ c'
  have hleft : ∀ x ∈ left.reverse, c' < x.1 := fun x hx => lt_of_left h.sorted (mem_reverse.1 hx)
  have hpopped : ∀ x ∈ popped.reverse, x.1 ≤ c' := by
    intro x hx
    have hle := mem_takeWhile_imp (mem_reverse.1 hx)
    exact of_decide_eq_true hle
  have hsplit : idx.entries = left.reverse ++ (popped.reverse ++ idx.committedEntries.reverse) := by
    rw [← append_assoc, ← reverse_append, takeWhile_append_dropWhile]
    rfl
  -- past the commit the rest of the index reads the same at every epoch
  have hrest : readAt (lookup i) e (popped.reverse ++ idx.committedEntries.reverse) =
      readAt (lookup i) c' (popped.reverse ++ idx.committedEntries.reverse) := by
    rw [readAt_append, readAt_append, readAt_congr (fun x hx => (hpopped x hx).trans he) hpopped,
      h.committed i hi e (hle.trans he), h.committed i hi c' hle]
  have hnone : readAt (lookup i) c' left.reverse = none := readAt_of_lt hleft
  refine ⟨left.reverse, hnone, ?_, ?_⟩
  · exact readAt_append e left.reverse w.watermarks.reverse
  · rw [← h.reads i hi e (hle.trans he), ← h.reads i hi c' hle, hsplit, readAt_append e, hrest,
      readAt_append c' left.reverse, hnone, Option.none_or]

theorem IndexTracks.applyCommittedWatermarks (hdir : w.direction = direction) (hle : c ≤ c') :
    ∃ idx', idx.applyCommittedWatermarks w c' = .ok idx' ∧
      (c = c' ∧ idx' = idx ∨ idx' = idx.commitWatermarks w c') := by
  obtain ⟨c₀, hc₀, hle₀⟩ := h.committedEpoch
  have hprev : idx.committedEpoch.all (fun prev => decide (prev ≤ c')) = true := by
    rw [hc₀]
    exact decide_eq_true (hle₀.trans hle)
  simp only [TableWatermarksIndex.applyCommittedWatermarks, h.direction, hdir, assert_true, hprev]
  split
  · rename_i heq
    rw [hc₀, Option.some.injEq] at heq
    exact ⟨idx, rfl, .inl ⟨le_antisymm hle (heq ▸ hle₀), rfl⟩⟩
  · exact ⟨_, rfl, .inr rfl⟩

theorem IndexTracks.count_commitWatermarks (hcount : ∀ e ∈ w.watermarks, CountOk n e.2) :
    ∀ e ∈ (idx.commitWatermarks w c').entries, CountOk n e.2 := by
  intro e he
  rcases mem_append.1 he with he | he
  · exact h.count e
      (mem_append_left _ (mem_reverse.2 ((dropWhile_sublist _).subset (mem_reverse.1 he))))
  · exact hcount e (mem_reverse.1 he)

theorem IndexTracks.commitWatermarks (hle : c ≤ c') (hcount : ∀ e ∈ w.watermarks, CountOk n e.2)
    (hreads : ∀ i < n, ∀ e, c' ≤ e → readAt (lookup i) e w.watermarks.reverse =
      readAt (lookup i) c' log)
    : IndexTracks n direction log c' (idx.commitWatermarks w c') := by
  have hsub : (idx.stagingWatermarks.dropWhile fun e => e.1 ≤ c').Sublist idx.stagingWatermarks :=
    dropWhile_sublist _
  refine ⟨h.direction, h.count_commitWatermarks hcount, h.sorted.sublist hsub, ?_,
    ⟨c', rfl, le_rfl⟩, ?_, fun i hi e he => ?_⟩
  · intro e he
    exact (h.latest e (hsub.subset he)).trans (le_max_left _ _)
  · intro i hi e he
    exact (hreads i hi e he).trans (hreads i hi c' le_rfl).symm
  · obtain ⟨later, -, hafter, hbefore⟩ := h.readAt_commitWatermarks hle hi he
    rw [hafter, hbefore, hreads i hi e he]

theorem IndexTracks.weaken (hle : c ≤ c') : IndexTracks n direction log c' idx := by
  obtain ⟨c₀, hc₀, hle₀⟩ := h.committedEpoch
  refine ⟨h.direction, h.count, h.sorted, h.latest, ⟨c₀, hc₀, hle₀.trans hle⟩, fun i hi e he => ?_,
    fun i hi e he => h.reads i hi e (hle.trans he)⟩
  rw [h.committed i hi e (hle.trans he), h.committed i hi c' hle]

end

/-- A commit never fails, and what it does to the index depends on the version before. -/
theorem Tracks.commitSnapshot_ok (h : Tracks n direction tableId rv log c) (dbg : Bool)
    (hversion : version.tableCommittedEpoch tableId = some c') (hle : c ≤ c') :
    ∃ index', rv.update dbg (.committedSnapshot version) =
        .ok { rv with tableWatermarks := index', committed := version } ∧
      ((rv.committed.tableWatermarks[tableId]? = none ∨ c = c' ∧ rv.tableWatermarks ≠ none) ∧
          index' = rv.tableWatermarks ∨
        ∃ w, rv.committed.tableWatermarks[tableId]? = some w ∧
          (rv.tableWatermarks = none ∧ index' = some (newCommitted w c') ∨
            ∃ idx, rv.tableWatermarks = some idx ∧ index' = some (idx.commitWatermarks w c'))) := by
  have hrun : rv.update dbg (.committedSnapshot version) = (do
      .ok { rv with tableWatermarks := ← rv.commitTableWatermarks c', committed := version }) := by
    simp only [update, commitSnapshot, h.table, hversion, h.staging]
    rfl
  rw [hrun]
  unfold commitTableWatermarks
  rw [h.table]
  cases hw : rv.committed.tableWatermarks[tableId]? with
  | none => exact ⟨_, rfl, .inl ⟨.inl rfl, rfl⟩⟩
  | some w =>
    cases hidx : rv.tableWatermarks with
    | none => exact ⟨_, rfl, .inr ⟨w, rfl, .inl ⟨rfl, rfl⟩⟩⟩
    | some idx =>
      obtain ⟨idx', hcommit, hidx'⟩ :=
        (h.index idx hidx).applyCommittedWatermarks (h.commits.direction w hw) hle
      simp only [hcommit]
      refine ⟨some idx', rfl, ?_⟩
      rcases hidx' with ⟨hc, rfl⟩ | rfl
      · exact .inl ⟨.inr ⟨hc, by simp⟩, rfl⟩
      · exact .inr ⟨w, rfl, .inr ⟨idx, rfl, rfl⟩⟩

theorem Tracks.commit (h : Tracks n direction tableId rv log c)
    (hversion : Commits n direction tableId log version c') (hle : c ≤ c')
    (hloses : LosesNone n tableId log rv c c')
    (hrun : rv.update dbg (.committedSnapshot version) = .ok rv') :
    Tracks n direction tableId rv' log c' := by
  obtain ⟨index', hupdate, hindex'⟩ := h.commitSnapshot_ok dbg hversion.epoch hle
  cases hrun.symm.trans hupdate
  rcases hindex' with ⟨-, rfl⟩ | ⟨w, hw, hcases⟩
  · exact ⟨h.table, h.staging, hversion, fun idx hidx => (h.index idx hidx).weaken hle,
      fun hnone i hi e he => h.noIndex hnone i hi e (hle.trans he)⟩
  have hsame : ∀ i < n, readAt (lookup i) c log = readAt (lookup i) c' log := by
    rcases hloses with hnone | hsame
    · rw [hw] at hnone
      cases hnone
    · exact hsame
  rcases hcases with ⟨hnone, rfl⟩ | ⟨idx, hidx, rfl⟩
  · refine ⟨h.table, h.staging, hversion, fun idx hidx => ?_, by simp⟩
    cases hidx
    refine h.commits.newCommitted hw hle fun i hi e he => ?_
    rw [h.noIndex hnone i hi c le_rfl, h.noIndex hnone i hi e (hle.trans he)]
  refine ⟨h.table, h.staging, hversion, fun idx' hidx' => ?_, by simp⟩
  cases hidx'
  have hentries : rv.committed.watermarkEntries tableId = w.watermarks := by
    rw [watermarkEntries, hw]
    rfl
  refine (h.index idx hidx).commitWatermarks hle (hentries ▸ h.commits.count) fun i hi e he => ?_
  rw [← hentries, h.commits.reads i hi e (hle.trans he), hsame i hi]

theorem SealRun.tracks (hn : n ≤ vnodeMaxCount) (h : SealRun n direction tableId dbg rv log c) :
    Tracks n direction tableId rv log c := by
  induction h with
  | new hcommits hlog hrun => exact hcommits.newWithReplicationOption hlog hrun
  | sealEpoch _ hws hfilter _ hlt hrun ih =>
    exact ih.sealEpoch (ih.count_filterRegressWatermarks hn hws hfilter) hlt hrun
  | commit _ hversion hle hloses hrun ih => exact ih.commit hversion hle hloses hrun

theorem Tracks.readAt_eq_of_keeps (h : Tracks n direction tableId rv log c)
    (hversion : version.tableCommittedEpoch tableId = some c') (hle : c ≤ c')
    (hrun : rv.update dbg (.committedSnapshot version) = .ok rv')
    (hv : vnode.toIndex < n) (hkeep : rv'.readWatermark vnode c' = rv.readWatermark vnode c')
    (hsome : rv.committed.tableWatermarks[tableId]? ≠ none) :
    readAt (lookup vnode.toIndex) c log = readAt (lookup vnode.toIndex) c' log := by
  obtain ⟨index', hupdate, hindex'⟩ := h.commitSnapshot_ok dbg hversion hle
  cases hrun.symm.trans hupdate
  rw [h.readWatermark_eq hv hle] at hkeep
  rcases hindex' with ⟨hnone | ⟨rfl, -⟩, -⟩ | ⟨w, hw, hcases⟩
  · exact absurd hnone hsome
  · rfl
  · have hentries : rv.committed.watermarkEntries tableId = w.watermarks := by
      rw [watermarkEntries, hw]
      rfl
    have hcount : ∀ e ∈ w.watermarks, CountOk n e.2 := hentries ▸ h.commits.count
    have hold := h.commits.reads _ hv c' hle
    rw [hentries] at hold
    rcases hcases with ⟨-, rfl⟩ | ⟨idx, hidx, rfl⟩
    · have hread : (newCommitted w c').readWatermark vnode c' =
          .ok (readAt (lookup vnode.toIndex) c' w.watermarks.reverse) := by
        rw [TableWatermarksIndex.readWatermark_eq hv (by simpa [entries_newCommitted] using hcount),
          entries_newCommitted]
      exact hold.symm.trans (Except.ok.inj (hread.symm.trans hkeep))
    · have hi := h.index idx hidx
      obtain ⟨later, hlater, hafter, -⟩ := hi.readAt_commitWatermarks hle hv le_rfl
      rw [hlater, Option.none_or] at hafter
      have hread : (idx.commitWatermarks w c').readWatermark vnode c' =
          .ok (readAt (lookup vnode.toIndex) c' (idx.commitWatermarks w c').entries) := by
        rw [TableWatermarksIndex.readWatermark_eq hv (hi.count_commitWatermarks hcount)]
      rw [← hold, ← hafter]
      exact Except.ok.inj (hread.symm.trans hkeep)

/-- In every run a reader sees the latest sealed watermarks, and the next commit keeps all reads
from its epoch on just if the watermarks that were sealed since the last one change nothing. -/
theorem commitSnapshot_keeps_reads_iff (hn : n ≤ vnodeMaxCount)
    (hrun : SealRun n direction tableId dbg rv log c)
    (hversion : Commits n direction tableId log version c') (hle : c ≤ c') :
    (∀ vnode : VirtualNode, vnode.toIndex < n → ∀ e, c ≤ e →
      rv.readWatermark vnode e = .ok (readAt (lookup vnode.toIndex) e log)) ∧
    ∃ rv', rv.update dbg (.committedSnapshot version) = .ok rv' ∧
      ((∀ vnode : VirtualNode, vnode.toIndex < n → ∀ e, c' ≤ e →
        rv'.readWatermark vnode e = rv.readWatermark vnode e) ↔ LosesNone n tableId log rv c c') := by
  have h := hrun.tracks hn
  obtain ⟨index', hupdate, -⟩ := h.commitSnapshot_ok dbg hversion.epoch hle
  refine ⟨fun vnode hv e he => h.readWatermark_eq hv he, _, hupdate, fun hkeep => ?_, fun hloses => ?_⟩
  · by_cases hnone : rv.committed.tableWatermarks[tableId]? = none
    · exact .inl hnone
    · refine .inr fun i hi => ?_
      let vnode : VirtualNode := ⟨i, (hi.trans_le hn).trans (by decide)⟩
      exact h.readAt_eq_of_keeps hversion.epoch hle hupdate (show vnode.toIndex < n from hi)
        (hkeep vnode hi c' le_rfl) hnone
  · intro vnode hv e he
    have h' := h.commit hversion hle hloses hupdate
    rw [h'.readWatermark_eq hv he, h.readWatermark_eq hv (hle.trans he)]

end

/-! ## A run with one seal -/

/-- A version with watermarks of the one vnode of table 5. -/
private def versionAt (id : HummockVersionId) (watermarks : List EpochWatermarks)
    (c : HummockEpoch) : HummockVersion :=
  { createInitVersion ⟨1⟩ with
    id
    tableWatermarks := (∅ : HashMap _ _).insert 5 ⟨watermarks, .ascending⟩
    stateTableInfo := ⟨(∅ : HashMap _ _).insert 5 ⟨c, 2⟩, ∅⟩ }

private def log5 : List EpochWatermarks := [(196608, [⟨[true], [2]⟩]), (65536, [⟨[true], [1]⟩])]

/-- Watermark `[1]` is committed at its epoch, `[2]` is sealed at the third. -/
private def rv5 : HummockReadVersion where
  tableId := 5
  instanceId := 0
  staging := ⟨[], []⟩
  committed := versionAt 2 [(65536, [⟨[true], [1]⟩])] 65536
  isReplicated := false
  tableWatermarks := some {
    watermarkDirection := .ascending
    stagingWatermarks := [(196608, [⟨[true], [2]⟩])]
    committedWatermarks := some ⟨[(65536, [⟨[true], [1]⟩])], .ascending⟩
    latestEpoch := 196608
    committedEpoch := some 65536 }

private theorem commits_versionAt {log : List EpochWatermarks} {id : HummockVersionId}
    {watermarks : List EpochWatermarks} {c : HummockEpoch}
    (hcount : ∀ e ∈ watermarks, CountOk 1 e.2) (hle : ∀ e ∈ watermarks, e.1 ≤ c)
    (hlog : readAt (lookup 0) c watermarks.reverse = readAt (lookup 0) c log) :
    Commits 1 .ascending 5 log (versionAt id watermarks c) c := by
  have hw : (versionAt id watermarks c).tableWatermarks[(5 : TableId)]? =
      some ⟨watermarks, .ascending⟩ := by simp [versionAt]
  have hentries : (versionAt id watermarks c).watermarkEntries 5 = watermarks := by
    rfl
  refine ⟨by simp [versionAt, tableCommittedEpoch], hentries ▸ hcount,
    fun w hw' => ?_, fun i hi e he => ?_⟩
  · cases hw.symm.trans hw'
    rfl
  · rw [Nat.lt_one_iff.1 hi, ← hlog]
    have hle' : ∀ e ∈ watermarks.reverse, e.1 ≤ c := fun e he => hle e (mem_reverse.1 he)
    exact readAt_congr (fun x hx => (hle' x hx).trans he) hle'

private theorem sealRun_rv5 : SealRun 1 .ascending 5 true rv5 log5 65536 := by
  let idx : TableWatermarksIndex := .newCommitted ⟨[(65536, [⟨[true], [1]⟩])], .ascending⟩ 65536
  have hcommits : Commits 1 .ascending 5 [(65536, [⟨[true], [1]⟩])] rv5.committed 65536 :=
    commits_versionAt (by decide) (by decide) rfl
  have hnew : newWithReplicationOption 5 0 rv5.committed false =
      .ok { rv5 with tableWatermarks := some idx } := by decide +kernel
  have hcount : CountOk 1 [⟨[true], [2]⟩] := by decide
  exact .sealEpoch (.new hcommits (by decide) hnew) hcount (by decide +kernel) (by decide) (by decide)
    (by decide +kernel)

theorem commitSnapshot_keeps_reads_iff_two :
    ∃ rv', rv5.update true (.committedSnapshot (versionAt 3 [(65536, [⟨[true], [1]⟩])] 131072)) =
        .ok rv' ∧
      ∀ vnode : VirtualNode, vnode.toIndex < 1 → ∀ e, 131072 ≤ e →
        rv'.readWatermark vnode e = rv5.readWatermark vnode e := by
  have hversion : Commits 1 .ascending 5 log5 (versionAt 3 [(65536, [⟨[true], [1]⟩])] 131072) 131072 :=
    commits_versionAt (by decide) (by decide) (by decide +kernel)
  obtain ⟨-, rv', hrun, hiff⟩ :=
    commitSnapshot_keeps_reads_iff (by decide) sealRun_rv5 hversion (by decide)
  exact ⟨rv', hrun, hiff.2 (.inr (by decide +kernel))⟩

/-- The commit of `[2]` brings `[1]` back. -/
theorem commitSnapshot_regresses :
    let version := versionAt 3 [(65536, [⟨[true], [1]⟩]), (196608, [⟨[true], [2]⟩])] 196608
    SealRun 1 .ascending 5 true rv5 log5 65536 ∧ Commits 1 .ascending 5 log5 version 196608 ∧
      ∃ rv', rv5.update true (.committedSnapshot version) = .ok rv' ∧
        rv5.readWatermark 0 196608 = .ok (some [2]) ∧ rv'.readWatermark 0 196608 = .ok (some [1]) ∧
        rv5.latestWatermark 0 = .ok (some [2]) ∧ rv'.latestWatermark 0 = .ok (some [1]) := by
  intro version
  have hversion : Commits 1 .ascending 5 log5 version 196608 :=
    commits_versionAt (by decide) (by decide) rfl
  refine ⟨sealRun_rv5, hversion, { rv5 with
    committed := version
    tableWatermarks := some {
      watermarkDirection := .ascending
      stagingWatermarks := []
      committedWatermarks := some ⟨[(65536, [⟨[true], [1]⟩])], .ascending⟩
      latestEpoch := 196608
      committedEpoch := some 196608 } }, ?_, ?_, ?_, ?_, ?_⟩
  all_goals decide +kernel

end HummockReadVersion

end Hummock
