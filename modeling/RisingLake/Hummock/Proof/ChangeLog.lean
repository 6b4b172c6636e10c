import RisingLake.Hummock.ChangeLog

/-!
# Change logs stay ordered

`TableChangeLog.Ordered`: every log has an epoch, and the epochs of the logs, one list after the
other, strictly increase. `applyChangeLogDelta_ordered` keeps it for every table: a new log starts
above the last epoch, dropping logs keeps the order of the others, and truncating removes epochs
from the front. On an ordered log

* `truncate_ok`: `truncate` leaves exactly the later epochs,
* `filterEpoch_ok`: the two binary searches of `filterEpoch` find the logs that meet the range.
-/

namespace Hummock

open Res List EpochNewChangeLog

variable {T : Type}

/-- The last epoch of the log is at least `epoch`, and so on, for a log with epochs. -/
def EpochNewChangeLog.lastBelow (log : EpochNewChangeLog T) (epoch : HummockEpoch) : Bool :=
  log.epochs.getLast?.any (· < epoch)

def EpochNewChangeLog.firstUpTo (log : EpochNewChangeLog T) (epoch : HummockEpoch) : Bool :=
  log.epochs.head?.any (· ≤ epoch)

namespace TableChangeLog

def allEpochs (log : TableChangeLog T) : List HummockEpoch := log.flatMap (·.epochs)

/-- Every log has an epoch and the epochs strictly increase. -/
structure Ordered (log : TableChangeLog T) : Prop where
  nonempty : ∀ l ∈ log, l.epochs ≠ []
  increasing : log.allEpochs.Pairwise (· < ·)

end TableChangeLog

/-! ## Increasing lists -/

variable {m : HummockEpoch} {xs : List HummockEpoch}

theorem le_getLast_of_pairwise (h : xs.Pairwise (· < ·)) (hm : xs.getLast? = some m) :
    ∀ x ∈ xs, x ≤ m := by
  obtain ⟨ys, rfl⟩ := getLast?_eq_some_iff.1 hm
  intro x hx
  rw [pairwise_append] at h
  rcases mem_append.1 hx with hx | hx
  · exact (h.2.2 x hx m (by simp)).le
  · simp_all

theorem head_le_of_pairwise (h : xs.Pairwise (· < ·)) (hm : xs.head? = some m) :
    ∀ x ∈ xs, m ≤ x := by
  obtain ⟨ys, rfl⟩ := head?_eq_some_iff.1 hm
  intro x hx
  rcases mem_cons.1 hx with rfl | hx
  · exact le_rfl
  · exact ((pairwise_cons.1 h).1 x hx).le

/-! ## Ordered logs -/

namespace TableChangeLog.Ordered

variable {log : TableChangeLog T}

theorem nil : TableChangeLog.Ordered ([] : TableChangeLog T) := ⟨by simp, .nil⟩

variable {l : EpochNewChangeLog T}

theorem cons_iff : TableChangeLog.Ordered (l :: log) ↔
    l.epochs ≠ [] ∧ l.epochs.Pairwise (· < ·) ∧ TableChangeLog.Ordered log ∧
      ∀ l' ∈ log, ∀ x ∈ l.epochs, ∀ y ∈ l'.epochs, x < y := by
  constructor
  · rintro ⟨hne, hinc⟩
    rw [allEpochs, flatMap_cons, pairwise_append] at hinc
    refine ⟨hne l (.head _), hinc.1, ⟨fun l' hl' => hne l' (.tail _ hl'), hinc.2.1⟩, ?_⟩
    exact fun l' hl' x hx y hy => hinc.2.2 x hx y (mem_flatMap.2 ⟨l', hl', hy⟩)
  · rintro ⟨hne, hinc, hlog, hlt⟩
    refine ⟨forall_mem_cons.2 ⟨hne, hlog.nonempty⟩, ?_⟩
    · rw [allEpochs, flatMap_cons, pairwise_append]
      refine ⟨hinc, hlog.increasing, fun x hx y hy => ?_⟩
      obtain ⟨l', hl', hy⟩ := mem_flatMap.1 hy
      exact hlt l' hl' x hx y hy

theorem lastEpoch_ok (h : TableChangeLog.Ordered log) (hl : l ∈ log) :
    ∃ m, l.epochs.getLast? = some m ∧ l.lastEpoch = .ok m := by
  have hne := h.nonempty l hl
  exact ⟨_, getLast?_eq_some_getLast hne, unwrap_eq_ok.2 (getLast?_eq_some_getLast hne)⟩

theorem firstEpoch_ok (h : TableChangeLog.Ordered log) (hl : l ∈ log) :
    ∃ m, l.epochs.head? = some m ∧ l.firstEpoch = .ok m := by
  have hne := h.nonempty l hl
  exact ⟨_, head?_eq_some_head hne, unwrap_eq_ok.2 (head?_eq_some_head hne)⟩

theorem epochs_pairwise (h : TableChangeLog.Ordered log) (hl : l ∈ log) :
    l.epochs.Pairwise (· < ·) :=
  h.increasing.sublist (by simpa [allEpochs] using (singleton_sublist.2 hl).flatMap (·.epochs))

theorem pairwise_logs : ∀ {log : TableChangeLog T}, TableChangeLog.Ordered log →
    log.Pairwise fun l l' => ∀ x ∈ l.epochs, ∀ y ∈ l'.epochs, x < y
  | [], _ => .nil
  | _ :: _, h => by
    obtain ⟨-, -, hlog, hlt⟩ := cons_iff.1 h
    exact pairwise_cons.2 ⟨hlt, hlog.pairwise_logs⟩

theorem concat (h : TableChangeLog.Ordered log) (hne : l.epochs ≠ [])
    (hinc : l.epochs.Pairwise (· < ·))
    (hlt : ∀ prev, log.getLast? = some prev → ∀ m f, prev.epochs.getLast? = some m →
      l.epochs.head? = some f → m < f) : TableChangeLog.Ordered (log ++ [l]) := by
  refine ⟨fun l' hl' => ?_, ?_⟩
  · rcases mem_append.1 hl' with hl' | hl'
    · exact h.nonempty l' hl'
    · simp_all
  · rw [allEpochs, flatMap_append, pairwise_append]
    refine ⟨h.increasing, by simpa using hinc, fun x hx y hy => ?_⟩
    obtain ⟨l', hl', hxl⟩ := mem_flatMap.1 hx
    have hy : y ∈ l.epochs := by simpa using hy
    -- `x` is at most the last epoch of the last log, which is below the first new epoch
    have hprev := getLast?_eq_some_getLast (ne_nil_of_mem hl')
    obtain ⟨init, hlog⟩ := getLast?_eq_some_iff.1 hprev
    generalize log.getLast _ = prev at hprev hlog
    subst hlog
    obtain ⟨m, hm, -⟩ := h.lastEpoch_ok (l := prev) (by simp)
    have hxm : x ≤ m := by
      rcases mem_append.1 hl' with hl' | hl'
      · have := (pairwise_append.1 h.pairwise_logs).2.2 l' hl' prev (by simp)
        exact (this x hxl m (mem_of_getLast? hm)).le
      · obtain rfl : l' = prev := by simpa using hl'
        exact le_getLast_of_pairwise (h.epochs_pairwise (by simp)) hm x hxl
    have hf := head?_eq_some_head hne
    exact hxm.trans_lt ((hlt prev (by simp) m _ hm hf).trans_le (head_le_of_pairwise hinc hf y hy))

end TableChangeLog.Ordered

/-! ## Truncation -/

namespace TableChangeLog

variable {log : TableChangeLog T} (epoch : HummockEpoch)

theorem retain_ok (h : log.Ordered) :
    Slice.retain (fun l => do .ok (decide (epoch < (← l.lastEpoch)))) log =
      .ok (log.filter fun l => l.epochs.getLast?.any (epoch < ·)) := by
  refine Slice.retain_eq fun l hl => ?_
  obtain ⟨m, hm, hl⟩ := h.lastEpoch_ok hl
  simp [hl, hm]

variable {l : EpochNewChangeLog T}

theorem filter_later_of_mem (hlog : log.Ordered)
    (hlt : ∀ l' ∈ log, ∀ x ∈ l.epochs, ∀ y ∈ l'.epochs, x < y) (hm : m ∈ l.epochs)
    (he : epoch < m) : log.filter (fun l => l.epochs.getLast?.any (epoch < ·)) = log ∧
      log.allEpochs.filter (epoch < ·) = log.allEpochs := by
  constructor
  · refine filter_eq_self.2 fun l' hl' => ?_
    obtain ⟨m', hm', -⟩ := hlog.lastEpoch_ok hl'
    simpa [hm'] using he.trans (hlt l' hl' m hm m' (mem_of_getLast? hm'))
  · refine filter_eq_self.2 fun x hx => ?_
    obtain ⟨l', hl', hx⟩ := mem_flatMap.1 hx
    simpa using he.trans (hlt l' hl' m hm x hx)

/-- **`truncate` leaves exactly the epochs above `epoch`**, in an ordered log. -/
theorem truncate_ok : ∀ {log : TableChangeLog T}, log.Ordered →
    ∃ log', log.truncate epoch = .ok log' ∧ log'.Ordered ∧
      log'.allEpochs = log.allEpochs.filter (epoch < ·)
  | [], h => ⟨[], rfl, h, rfl⟩
  | l :: log, h => by
    obtain ⟨-, hinc, hlog, hlt⟩ := Ordered.cons_iff.1 h
    obtain ⟨m, hm, -⟩ := h.lastEpoch_ok (.head _)
    have hmem := mem_of_getLast? hm
    by_cases he : epoch < m
    · -- the first log is the first one kept: only its own epochs are filtered
      obtain ⟨hkeep, hall⟩ := filter_later_of_mem epoch hlog hlt hmem he
      refine ⟨{ l with epochs := l.epochs.filter (epoch < ·) } :: log, ?_, ?_, ?_⟩
      · simp [truncate, retain_ok epoch h, hm, he, hkeep]
      · refine Ordered.cons_iff.2 ⟨?_, hinc.filter _, hlog, fun l' hl' x hx => ?_⟩
        · exact ne_nil_of_mem (mem_filter.2 ⟨hmem, by simpa using he⟩)
        · exact hlt l' hl' x (mem_filter.1 hx).1
      · rw [allEpochs, allEpochs, flatMap_cons, flatMap_cons, filter_append]
        exact congrArg _ hall.symm
    · -- the first log goes as a whole
      obtain ⟨log', hrun, hord, hep⟩ := truncate_ok hlog
      refine ⟨log', ?_, hord, ?_⟩
      · simp only [truncate, retain_ok epoch hlog] at hrun
        simpa only [truncate, retain_ok epoch h, ok_bind, filter_cons, hm, Option.any_some,
          decide_eq_true_eq, he, if_false] using hrun
      · have hnone : l.epochs.filter (epoch < ·) = [] := filter_eq_nil_iff.2 fun x hx => by
          simpa using (le_getLast_of_pairwise hinc hm x hx).trans (not_lt.1 he)
        rw [hep, allEpochs, allEpochs, flatMap_cons, filter_append, hnone, nil_append]

/-! ## Filtering by epoch -/

theorem lastBelow_of_lastEpoch (h : log.Ordered) (hl : l ∈ log) :
    (do .ok (decide ((← l.lastEpoch) < epoch)) : Res Bool) = .ok (l.lastBelow epoch) := by
  obtain ⟨m, hm, hl⟩ := h.lastEpoch_ok hl
  simp [hl, lastBelow, hm]

theorem firstUpTo_of_firstEpoch (h : log.Ordered) (hl : l ∈ log) :
    (do .ok (decide ((← l.firstEpoch) ≤ epoch)) : Res Bool) = .ok (l.firstUpTo epoch) := by
  obtain ⟨m, hm, hl⟩ := h.firstEpoch_ok hl
  simp [hl, firstUpTo, hm]

theorem pairwise_lastBelow (h : log.Ordered) :
    log.Pairwise fun l l' => l'.lastBelow epoch = true → l.lastBelow epoch = true := by
  refine h.pairwise_logs.imp_of_mem fun {l l'} hl hl' hlt hbelow => ?_
  obtain ⟨m, hm, -⟩ := h.lastEpoch_ok hl
  obtain ⟨m', hm', -⟩ := h.lastEpoch_ok hl'
  simp only [lastBelow, hm, hm', Option.any_some, decide_eq_true_eq] at hbelow ⊢
  exact (hlt m (mem_of_getLast? hm) m' (mem_of_getLast? hm')).trans hbelow

theorem pairwise_firstUpTo (h : log.Ordered) :
    log.Pairwise fun l l' => l'.firstUpTo epoch = true → l.firstUpTo epoch = true := by
  refine h.pairwise_logs.imp_of_mem fun {l l'} hl hl' hlt hupto => ?_
  obtain ⟨m, hm, -⟩ := h.firstEpoch_ok hl
  obtain ⟨m', hm', -⟩ := h.firstEpoch_ok hl'
  simp only [firstUpTo, hm, hm', Option.any_some, decide_eq_true_eq] at hupto ⊢
  exact (hlt m (mem_of_head? hm) m' (mem_of_head? hm')).le.trans hupto

variable {lo hi : HummockEpoch}

theorem firstUpTo_of_lastBelow (h : log.Ordered) (hl : l ∈ log) (hle : lo ≤ hi)
    (hb : l.lastBelow lo = true) : l.firstUpTo hi = true := by
  obtain ⟨m, hm, -⟩ := h.lastEpoch_ok hl
  obtain ⟨f, hf, -⟩ := h.firstEpoch_ok hl
  simp only [lastBelow, firstUpTo, hm, hf, Option.any_some, decide_eq_true_eq] at hb ⊢
  have hfm := head_le_of_pairwise (h.epochs_pairwise hl) hf m (mem_of_getLast? hm)
  exact hfm.trans (hb.le.trans hle)

/-- **`filterEpoch` returns the logs that meet the range**, in order, and does not panic. -/
theorem filterEpoch_ok (h : log.Ordered) (hle : lo ≤ hi) :
    log.filterEpoch lo hi = .ok (log.filter fun l => !l.lastBelow lo && l.firstUpTo hi) := by
  have hstart := Slice.partitionPoint_eq (Slice.partitionedAt_of_pairwise
    (fun l hl => lastBelow_of_lastEpoch lo h hl) (pairwise_lastBelow lo h))
  have hstop := Slice.partitionPoint_eq (Slice.partitionedAt_of_pairwise
    (fun l hl => firstUpTo_of_firstEpoch hi h hl) (pairwise_firstUpTo hi h))
  have hbelow : ∀ l ∈ log, l.lastBelow lo = true → l.firstUpTo hi = true :=
    fun l hl hb => firstUpTo_of_lastBelow h hl hle hb
  -- every log before the start is before the stop, so the slice is well formed
  have hcount : log.countP (·.lastBelow lo) ≤ log.countP (·.firstUpTo hi) := countP_mono_left hbelow
  have hcount' : log.countP (·.lastBelow lo) =
      (log.filter (·.firstUpTo hi)).countP (·.lastBelow lo) := by
    rw [countP_filter]
    refine countP_congr fun l hl => ?_
    simp only [Bool.and_eq_true]
    exact ⟨fun hb => ⟨hb, hbelow l hl hb⟩, fun hb => hb.1⟩
  simp only [filterEpoch, hstart, hstop, ok_bind, hcount, if_true,
    Slice.take_countP_eq_filter (pairwise_firstUpTo hi h)]
  rw [hcount', Slice.drop_countP_eq_filter ((pairwise_lastBelow lo h).filter _), filter_filter]

end TableChangeLog

/-! ## The logs of all tables -/

def AllOrdered (logs : HashMap TableId (TableChangeLog T)) : Prop :=
  ∀ (t : TableId) (log : TableChangeLog T), logs[t]? = some log → log.Ordered

/-- Every new log of the delta has epochs, in increasing order. -/
def ChangeLogDeltaOk (delta : IterMap TableId (ChangeLogDelta T)) : Prop :=
  ∀ e ∈ delta.entries, ∀ l, e.2.newLog = some l → l.epochs ≠ [] ∧ l.epochs.Pairwise (· < ·)

theorem AllOrdered.empty : AllOrdered (∅ : HashMap TableId (TableChangeLog T)) := by
  intro t log h
  simp at h

variable {logs : HashMap TableId (TableChangeLog T)}

theorem AllOrdered.insert (h : AllOrdered logs)
    {t : TableId} {log : TableChangeLog T} (hlog : log.Ordered) :
    AllOrdered (logs.insert t log) := by
  intro t' log' h'
  rw [HashMap.getElem?_insert_eq] at h'
  split at h'
  · cases h'; exact hlog
  · exact h t' log' h'

variable {logs' : HashMap TableId (TableChangeLog T)} {e : TableId × ChangeLogDelta T}

theorem pushChangeLog_ordered (h : AllOrdered logs)
    (he : ∀ l, e.2.newLog = some l → l.epochs ≠ [] ∧ l.epochs.Pairwise (· < ·))
    (hrun : pushChangeLog logs e = .ok logs') : AllOrdered logs' := by
  simp only [pushChangeLog, bind_eq_ok, unwrap_eq_ok] at hrun
  obtain ⟨l, hl, hrun⟩ := hrun
  obtain ⟨hne, hinc⟩ := he l hl
  cases hlog : logs[e.1]? with
  | none =>
    rw [hlog] at hrun
    cases hrun
    exact h.insert (TableChangeLog.Ordered.nil.concat hne hinc (by simp))
  | some log =>
    rw [hlog] at hrun
    cases hlast : log.getLast? with
    | none =>
      simp only [hlast] at hrun
      cases hrun
      exact h.insert ((h _ _ hlog).concat hne hinc (by simp [hlast]))
    | some prev =>
      simp only [hlast, bind_eq_ok, lastEpoch, firstEpoch, unwrap_eq_ok, assert_eq_ok] at hrun
      obtain ⟨m, hm, f, hf, -, hlt, hrun⟩ := hrun
      cases hrun
      refine h.insert ((h _ _ hlog).concat hne hinc fun prev' hp m' f' hm' hf' => ?_)
      simp_all

theorem truncateChangeLog_ordered (h : AllOrdered logs)
    (hrun : truncateChangeLog logs e = .ok logs') : AllOrdered logs' := by
  unfold truncateChangeLog at hrun
  split at hrun
  · rename_i log hlog
    obtain ⟨log', hlog', hord, -⟩ := TableChangeLog.truncate_ok e.2.truncateEpoch (h _ _ hlog)
    simp only [hlog'] at hrun
    cases hrun
    exact h.insert hord
  · cases hrun; exact h

theorem applyChangeLogDelta_ordered {delta : IterMap TableId (ChangeLogDelta T)}
    {removed : List TableId} {infoDelta : IterMap TableId StateTableInfoDelta}
    {changed : HashMap TableId (Option StateTableInfo)} (h : AllOrdered logs)
    (hd : ChangeLogDeltaOk delta) (hrun : applyChangeLogDelta logs delta removed infoDelta changed =
      .ok logs') : AllOrdered logs' := by
  simp only [applyChangeLogDelta, bind_eq_ok] at hrun
  obtain ⟨logs1, hpush, htrunc⟩ := hrun
  have h1 : AllOrdered logs1 :=
    foldlM_inv AllOrdered (fun e he s s' hs => pushChangeLog_ordered hs (hd e he)) h hpush
  refine foldlM_inv AllOrdered (fun e _ s s' hs => truncateChangeLog_ordered hs) ?_ htrunc
  intro t log hlog
  rw [HashMap.getElem?_filter_eq, Option.filter_eq_some_iff] at hlog
  exact h1 t log hlog.1

/-- The logs that a sequence of `apply_change_log_delta` calls makes out of no logs. -/
inductive ReachableLogs : HashMap TableId (TableChangeLog T) → Prop where
  | empty : ReachableLogs ∅
  | step {logs logs' delta removed infoDelta changed} : ReachableLogs logs →
      ChangeLogDeltaOk delta →
      applyChangeLogDelta logs delta removed infoDelta changed = .ok logs' → ReachableLogs logs'

theorem ReachableLogs.ordered (h : ReachableLogs logs) : AllOrdered logs := by
  induction h with
  | empty => exact .empty
  | step _ hd hrun ih => exact applyChangeLogDelta_ordered ih hd hrun

/-- **Reachable change logs are ordered**; truncating one leaves the later epochs, and filtering one
by a range of epochs finds the logs that meet the range. -/
theorem reachable_changeLog (h : ReachableLogs logs)
    {t : TableId} {log : TableChangeLog T} (hlog : logs[t]? = some log) :
    (∀ l ∈ log, l.epochs ≠ []) ∧ log.allEpochs.Pairwise (· < ·) ∧
    (∀ epoch, ∃ log', log.truncate epoch = .ok log' ∧
    log'.allEpochs = log.allEpochs.filter (epoch < ·)) ∧
    ∀ lo hi, lo ≤ hi → log.filterEpoch lo hi = .ok (log.filter fun l =>
      l.epochs.getLast?.any (lo ≤ ·) && l.epochs.head?.any (· ≤ hi)) := by
  have hord := h.ordered t log hlog
  refine ⟨hord.nonempty, hord.increasing, fun epoch => ?_, fun lo hi hle => ?_⟩
  · obtain ⟨log', hrun, -, hep⟩ := TableChangeLog.truncate_ok epoch hord
    exact ⟨log', hrun, hep⟩
  · rw [TableChangeLog.filterEpoch_ok hord hle]
    refine congrArg _ (filter_congr fun l hl => ?_)
    obtain ⟨m, hm, -⟩ := hord.lastEpoch_ok hl
    simp only [lastBelow, firstUpTo, hm, Option.any_some, ← decide_not, not_lt]

/-- Two deltas for one table; the first one's truncation cuts its own log. -/
theorem reachable_changeLog_two :
    let log : TableChangeLog Unit := [⟨[()], [], [5]⟩, ⟨[], [()], [7, 9]⟩]
    log.allEpochs.Pairwise (· < ·) ∧ log.filterEpoch 6 8 = .ok [⟨[], [()], [7, 9]⟩] := by
  let d1 : IterMap TableId (ChangeLogDelta Unit) := ⟨[(1, ⟨3, some ⟨[()], [], [3, 5]⟩⟩)], by decide⟩
  let d2 : IterMap TableId (ChangeLogDelta Unit) := ⟨[(1, ⟨3, some ⟨[], [()], [7, 9]⟩⟩)], by decide⟩
  have h1 : ReachableLogs ((∅ : HashMap TableId (TableChangeLog Unit)).insert 1 [⟨[()], [], [5]⟩]) :=
    .step .empty (show ChangeLogDeltaOk d1 by simp [ChangeLogDeltaOk, d1])
      (show applyChangeLogDelta ∅ d1 [] .empty ∅ = _ by decide +kernel)
  have h2 : ReachableLogs ((∅ : HashMap TableId (TableChangeLog Unit)).insert 1
      [⟨[()], [], [5]⟩, ⟨[], [()], [7, 9]⟩]) :=
    .step h1 (show ChangeLogDeltaOk d2 by simp [ChangeLogDeltaOk, d2])
      (show applyChangeLogDelta _ d2 [] .empty ∅ = _ by decide +kernel)
  obtain ⟨-, hinc, -, hfilter⟩ := reachable_changeLog h2 (t := 1) rfl
  exact ⟨hinc, hfilter 6 8 (by decide)⟩

end Hummock
