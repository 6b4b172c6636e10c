import RisingLake.Hummock.Proof.Key
import RisingLake.Hummock.UserIterator
import RisingLake.Lib.Runs

/-!
# What the user iterators show

`visible window range entries` is what a scan should show: of each user key in the range the newest
entry whose epoch the window admits, if it is a put. `forward_shows` and `backward_shows` prove that
the forward iterator shows this for the window `[min_epoch, read_epoch]` and the backward iterator
its reverse for the window `(min_epoch, read_epoch]`, the documented one. They differ exactly if the
newest entry up to `read_epoch` of some user key in the range is a put in `min_epoch` itself
(`scans_exact_iff`).
-/

namespace Hummock

open Res Runs List Bound UserKey EpochWithGap

/-! ## The specification -/

def keyOf (e : Entry) : UserKey := e.1.userKey
def epochOf (e : Entry) : HummockEpoch := e.1.epochWithGap.pureEpoch

/-- The newest entry of each user key among those that the window admits. -/
def newest (window : HummockEpoch → Bool) (entries : List Entry) : List Entry :=
  firsts keyOf none (entries.filter fun e => window (epochOf e))

/-- The puts among the entries, of the admitted user keys. -/
def shown (admits : UserKey → Bool) (es : List Entry) : List (FullKey × Bytes) :=
  es.filterMap fun e => match e.2 with
    | .put val => if admits (keyOf e) then some (e.1, val) else none
    | .delete => none

/-- What a scan of the range should show. -/
def visible (window : HummockEpoch → Bool) (range : UserKeyRange) (entries : List Entry) :
    List (FullKey × Bytes) :=
  shown (Bound.contains range) (newest window entries)

def Sorted (entries : List Entry) : Prop := entries.Pairwise fun e e' => e.1 ≤ e'.1

/-- `min_epoch < epoch <= read_epoch`. -/
def inWindow (readEpoch minEpoch epoch : HummockEpoch) :
    Bool := minEpoch < epoch && epoch ≤ readEpoch

/-- `min_epoch <= epoch <= read_epoch`. -/
def inClosedWindow (readEpoch minEpoch epoch : HummockEpoch) : Bool :=
  minEpoch ≤ epoch && epoch ≤ readEpoch

/-! ### Its parts -/

variable {readEpoch minEpoch epoch : HummockEpoch}

theorem inWindow_iff : inWindow readEpoch minEpoch epoch = true ↔ minEpoch < epoch ∧
    epoch ≤ readEpoch := by
  rw [inWindow, Bool.and_eq_true, decide_eq_true_iff, decide_eq_true_iff]

theorem inClosedWindow_iff :
    inClosedWindow readEpoch minEpoch epoch = true ↔ minEpoch ≤ epoch ∧ epoch ≤ readEpoch := by
  rw [inClosedWindow, Bool.and_eq_true, decide_eq_true_iff, decide_eq_true_iff]

theorem UserKey.default_le (k : UserKey) : default ≤ k := by
  rw [← not_lt, lt_iff]
  rintro (h | ⟨-, h⟩)
  · exact absurd h (Fin.not_lt_zero _)
  · exact absurd h (not_lt_nil _)

theorem userKey_le {a b : FullKey} (h : a ≤ b) : a.userKey ≤ b.userKey := by
  rcases lt_or_eq_of_le h with h | rfl
  · rcases FullKey.lt_iff.1 h with h | ⟨h, -⟩
    · exact h.le
    · exact h.le
  · exact le_rfl

theorem epoch_le {a b : FullKey} (h : a ≤ b) (hk : a.userKey = b.userKey) :
    b.epochWithGap ≤ a.epochWithGap := by
  rcases lt_or_eq_of_le h with h | rfl
  · rcases FullKey.lt_iff.1 h with h | ⟨-, h⟩
    · exact absurd hk h.ne
    · exact h.le
  · exact le_rfl

theorem pureEpoch_mono {a b : EpochWithGap} (h : a ≤ b) : a.pureEpoch ≤ b.pureEpoch := by
  rw [Fin.le_def] at *
  simp only [pureEpoch]
  omega

variable {entries : List Entry} {window : HummockEpoch → Bool} {admits : UserKey → Bool}
  {es : List Entry} {range : UserKeyRange} {readEpoch minEpoch : HummockEpoch}

theorem Sorted.keys (h : Sorted entries) : entries.Pairwise fun e e' => keyOf e ≤ keyOf e' :=
  h.imp userKey_le

theorem newest_filter {p : FullKey → Bool} (h : Sorted entries)
    (hp : ∀ a b : FullKey, a ≤ b → a.userKey = b.userKey → p b = true → p a = true) :
    newest window (entries.filter fun e => p e.1) = (newest window entries).filter
      fun e => p e.1 := by
  have hpw : (entries.filter fun e => window (epochOf e)).Pairwise fun e e' =>
      keyOf e ≤ keyOf e' ∧ (keyOf e = keyOf e' → p e'.1 = true → p e.1 = true) :=
    (List.Pairwise.filter _ h).imp fun hle => ⟨userKey_le hle, hp _ _ hle⟩
  rw [newest, newest, filter_firsts hpw (by simp), filter_filter, filter_filter]
  simp only [Bool.and_comm]

theorem newest_filter_key (h : Sorted entries) (q : UserKey → Bool) :
    newest window (entries.filter fun e => q (keyOf e)) = (newest window entries).filter
      fun e => q (keyOf e) :=
  newest_filter (p := fun k => q k.userKey) h fun a b _ hk hq => by rw [hk]; exact hq

theorem newest_and {p : HummockEpoch → Bool} (h : Sorted entries)
    (hp : ∀ a b : HummockEpoch, a ≤ b → p a = true → p b = true) :
    newest (fun epoch => p epoch && window epoch) entries =
      (newest window entries).filter fun e => p (epochOf e) := by
  refine Eq.trans ?_ (newest_filter h fun a b hle hk =>
    hp _ _ (pureEpoch_mono (epoch_le hle hk)))
  rw [newest, newest, filter_filter]
  simp only [Bool.and_comm, epochOf]

theorem shown_filter (p : FullKey → Bool) :
    shown admits (es.filter fun e => p e.1) = (shown admits es).filter fun x => p x.1 := by
  rw [shown, shown, filterMap_filter, filter_filterMap]
  refine filterMap_congr fun e _ => ?_
  cases e.2 with
  | delete => simp
  | put val => cases admits (keyOf e) <;> simp [Option.filter]

theorem shown_and (q : UserKey → Bool) :
    (shown admits es).filter (fun x => q x.1.userKey) = shown (fun k => admits k && q k) es := by
  rw [shown, shown, filter_filterMap]
  refine filterMap_congr fun e _ => ?_
  cases e.2 with
  | delete => rfl
  | put val => cases admits (keyOf e) <;> simp [Option.filter, keyOf]

theorem shown_congr {admits' : UserKey → Bool} (h : ∀ k, admits k = admits' k) :
    shown admits es = shown admits' es := by
  rw [funext h]

theorem shown_put {k : FullKey} (h : admits k.userKey = true) (val : Bytes) :
    shown admits ((k, .put val) :: es) = (k, val) :: shown admits es := by
  simp [shown, keyOf, h]

theorem shown_eq_nil (h : ∀ e ∈ es, admits (keyOf e) = false) : shown admits es = [] := by
  refine filterMap_eq_nil_iff.2 fun e he => ?_
  cases e.2 with
  | delete => rfl
  | put val => simp [h e he]

variable {x : FullKey × Bytes}

theorem mem_shown : x ∈ shown admits es ↔ (x.1, .put x.2) ∈ es ∧ admits x.1.userKey = true := by
  simp only [shown, mem_filterMap]
  constructor
  · rintro ⟨⟨k, v⟩, he, heq⟩
    cases v with
    | delete => cases heq
    | put val =>
      simp only [Option.ite_none_right_eq_some, Option.some.injEq] at heq
      obtain ⟨ha, rfl⟩ := heq
      exact ⟨he, ha⟩
  · rintro ⟨he, ha⟩
    exact ⟨_, he, by simp [keyOf, ha]⟩

theorem shown_pairwise (h : es.Pairwise fun e e' => keyOf e < keyOf e') :
    (shown admits es).Pairwise fun x y => x.1.userKey < y.1.userKey := by
  refine List.Pairwise.filterMap _ (fun e e' hlt x hx y hy => ?_) h
  have hkey : ∀ (e : Entry) x, (match e.2 with
      | .put val => if admits (keyOf e) then some (e.1, val) else none
      | .delete => none) = some x → x.1 = e.1 := by
    intro e x hx
    split at hx
    · simp only [Option.ite_none_right_eq_some, Option.some.injEq] at hx
      rw [← hx.2]
    · cases hx
  rw [hkey e x hx, hkey e' y hy]
  exact hlt

theorem newest_pairwise (h : Sorted entries) :
    (newest window entries).Pairwise fun e e' => keyOf e < keyOf e' :=
  (firsts_pairwise (h.keys.filter _) (by simp : ∀ k, none = some k → _)).1

/-! ## Scans -/

/-- From this state on, exactly these items are shown. -/
inductive Shows {σ α : Type} (isValid : σ → Bool) (item : σ → Res α) (next : σ → Res σ) :
    σ → List α → Prop where
  | done {s} : isValid s = false → Shows isValid item next s []
  | more {s s' a as} : isValid s = true → item s = .ok a → next s = .ok s' →
      Shows isValid item next s' as → Shows isValid item next s (a :: as)

theorem collect_of_shows {σ α : Type} {isValid : σ → Bool} {item : σ → Res α} {next : σ → Res σ}
    {s : σ} {as : List α} (h : Shows isValid item next s as) :
    ∀ fuel, as.length < fuel → collect isValid item next fuel s = .ok (some as) := by
  induction h with
  | done hv =>
    intro fuel hf
    cases fuel with
    | zero => simp at hf
    | succ fuel => simp [collect, hv]
  | more hv hi hn _ ih =>
    intro fuel hf
    cases fuel with
    | zero => simp at hf
    | succ fuel =>
      have := ih fuel (by simpa using hf)
      simp [collect, hv, hi, hn, this]

variable {items : List (FullKey × Bytes)} {b : Bound UserKey}

/-- Passing over the first item if its user key is the excluded one. -/
theorem Shows.skipExcluded {σ : Type} {isValid : σ → Bool} {key : σ → Res FullKey}
    {value : σ → Res Bytes} {next : σ → Res σ} {s : σ} {before : UserKey → UserKey → Prop}
    {closed : UserKey → Bool} (keeps : UserKey → Bool)
    (h : Shows isValid (fun s => do .ok (← key s, ← value s)) next s items)
    (hpw : items.Pairwise fun x y => before x.1.userKey y.1.userKey)
    (hclosed : ∀ x ∈ items, closed x.1.userKey = true)
    (hb : ∀ j k, before j k → closed j = true → b ≠ .excluded k)
    (hkeeps : ∀ k, keeps k = (closed k && decide (b ≠ .excluded k))) : ∃ s', (match b with
      | .excluded k => if isValid s then do
          if (← key s).userKey = k then next s else .ok s
        else .ok s
      | _ => .ok s) = .ok s' ∧
        Shows isValid (fun s => do .ok (← key s, ← value s)) next s'
          (items.filter fun x => keeps x.1.userKey) := by
  have hpw : items.Pairwise fun _ y => b ≠ .excluded y.1.userKey :=
    hpw.imp_of_mem fun hx _ hlt => hb _ _ hlt (hclosed _ hx)
  rw [filter_congr fun x hx => by rw [hkeeps, hclosed x hx, Bool.true_and]]
  cases b with
  | unbounded | included => exact ⟨s, rfl, by simpa using h⟩
  | excluded k =>
    cases h with
    | done hv => exact ⟨s, by simp [hv], .done hv⟩
    | @more _ s' x items hv hi hn hshow =>
      have htail : (items.filter fun x => excluded k ≠ .excluded x.1.userKey) = items :=
        filter_eq_self.2 fun y hy => decide_eq_true ((pairwise_cons.1 hpw).1 y hy)
      obtain ⟨fullKey, hkey, hi'⟩ := bind_eq_ok.1 hi
      obtain ⟨val, -, hx⟩ := bind_eq_ok.1 hi'
      cases hx
      dsimp only
      rw [if_pos hv, hkey, ok_bind, filter_cons, htail]
      by_cases heq : fullKey.userKey = k
      · rw [if_pos heq, if_neg (by simp [heq])]
        exact ⟨s', hn, hshow⟩
      · rw [if_neg heq, if_pos (by simpa using Ne.symm heq)]
        exact ⟨s, rfl, .more hv hi hn hshow⟩

/-! ## The forward iterator -/

namespace UserIterator

theorem userKeyOutOfRange_eq (self : UserIterator) (k : UserKey) :
    self.userKeyOutOfRange k = !self.keyRange.2.belowEnd k := by
  unfold userKeyOutOfRange belowEnd
  cases self.keyRange.2 with
  | included e => simp only [← decide_not, not_le]
  | excluded e => simp only [← decide_not, not_lt]
  | unbounded => rfl

/-- The admitted entries come after what the tracker has observed. -/
def TrackerOk (window : HummockEpoch → Bool) (tracker : FullKeyTracker) (rest : List Entry) : Prop :=
  ∀ e ∈ rest, window (epochOf e) = true → tracker.latestFullKey.userKey ≤ keyOf e ∧
    (tracker.latestFullKey.userKey = keyOf e → e.1.epochWithGap ≤ tracker.lastObservedEpochWithGap)

variable {tracker : FullKeyTracker} {key : FullKey}

theorem observe_new (h : tracker.latestFullKey.userKey < key.userKey) :
    tracker.observe true key = .ok (true, ⟨key, key.epochWithGap⟩) := by
  simp [FullKeyTracker.observe, FullKeyTracker.observeMultiVersion, unwrap, (cmp_eq_lt_iff _ _).2 h]

theorem observe_old (h : tracker.latestFullKey.userKey = key.userKey)
    (hle : key.epochWithGap ≤ tracker.lastObservedEpochWithGap) : tracker.observe true key =
      .ok (false, { tracker with lastObservedEpochWithGap := key.epochWithGap }) := by
  simp [FullKeyTracker.observe, FullKeyTracker.observeMultiVersion, unwrap, h, hle]

theorem advance_shows : ∀ (rest : List Entry) (self : UserIterator) (tracker : FullKeyTracker),
    Sorted rest → TrackerOk (inClosedWindow self.readEpoch self.minEpoch) tracker rest →
      ∃ it, self.advance tracker rest = .ok it ∧ it.keyRange = self.keyRange ∧
        Shows isValid item next it (shown self.keyRange.2.belowEnd
          (firsts keyOf (some tracker.latestFullKey.userKey)
            (rest.filter fun e => inClosedWindow self.readEpoch self.minEpoch (epochOf e))))
  | [], self, tracker, _, _ => ⟨_, rfl, rfl, .done rfl⟩
  | (fullKey, value) :: rest, self, tracker, hs, ht => by
    have hs' := hs
    rw [Sorted, pairwise_cons] at hs'
    rw [advance, filter_cons]
    have hout : fullKey.epochWithGap.pureEpoch < self.minEpoch ∨ self.readEpoch <
        fullKey.epochWithGap.pureEpoch ↔
          ¬inClosedWindow self.readEpoch self.minEpoch (epochOf (fullKey, value)) = true := by
      rw [inClosedWindow_iff, not_and_or, not_le, not_le]
      rfl
    by_cases hwin : inClosedWindow self.readEpoch self.minEpoch (epochOf (fullKey, value)) = true
    · rw [if_neg (hout.not_left.2 hwin), if_pos hwin, firsts]
      obtain ⟨hle, hep⟩ := ht _ (.head _) hwin
      rcases lt_or_eq_of_le hle with hlt | heq
      · -- a new user key: the newest admitted entry of it
        have hnew : TrackerOk (inClosedWindow self.readEpoch self.minEpoch)
            ⟨fullKey, fullKey.epochWithGap⟩ rest := fun e he _ =>
          ⟨userKey_le (hs'.1 e he), fun heq => epoch_le (hs'.1 e he) heq⟩
        have hne : ¬some tracker.latestFullKey.userKey = some (keyOf (fullKey, value)) := fun h =>
          hlt.ne (Option.some.inj h)
        rw [if_neg hne]
        simp only [observe_new hlt, ok_bind, Bool.not_true, Bool.false_eq_true, userKeyOutOfRange_eq]
        cases hend : self.keyRange.2.belowEnd fullKey.userKey with
        | false =>
          -- the keys after it are out of range too
          refine ⟨_, rfl, rfl, ?_⟩
          rw [shown_eq_nil]
          · exact .done rfl
          · intro e he
            rw [← Bool.not_eq_true]
            intro hb
            rcases mem_cons.1 he with rfl | he
            · simp [keyOf, hend] at hb
            · have hmem := (mem_filter.1 (firsts_sublist.subset he)).1
              simp [belowEnd_mono hb (userKey_le (hs'.1 e hmem))] at hend
        | true =>
          cases value with
          | put val =>
            refine ⟨_, rfl, rfl, ?_⟩
            rw [shown_put hend]
            obtain ⟨it, hrun, -, hshow⟩ := advance_shows rest { self with
              rest := rest, fullKeyTracker := ⟨fullKey, fullKey.epochWithGap⟩,
              isCurrentPosValid := false } ⟨fullKey, fullKey.epochWithGap⟩ hs'.2 hnew
            exact .more rfl rfl hrun hshow
          | delete =>
            obtain ⟨it, hrun, hrange, hshow⟩ := advance_shows rest self _ hs'.2 hnew
            exact ⟨it, hrun, hrange, by rw [shown]; exact hshow⟩
      · -- an older version of the user key
        have hold := hep heq
        simp only [observe_old heq hold, ok_bind, Bool.not_false, if_true]
        rw [if_pos (by rw [heq])]
        refine advance_shows rest self _ hs'.2 fun e he hw => ⟨(ht e (.tail _ he) hw).1, fun hk => ?_⟩
        exact epoch_le (hs'.1 e he) (heq.symm.trans hk)
    · rw [if_pos (hout.2 hwin), if_neg hwin]
      exact advance_shows rest self tracker hs'.2 fun e he => ht e (.tail _ he)

variable (dbg : Bool)

theorem new_ge (h : dbg = true → isMaxEpoch readEpoch = true ∨ readEpoch.val % 2 ^ 16 = 0) :
    ∃ seekEpoch, EpochWithGap.new dbg readEpoch maxSpillTimes = .ok seekEpoch ∧
      ∀ e : EpochWithGap, e.pureEpoch ≤ readEpoch → e ≤ seekEpoch := by
  rw [EpochWithGap.new]
  split
  · exact ⟨_, rfl, fun e _ => U64.le_max e⟩
  rename_i hmax
  have halign : dbg = true → readEpoch.val % 2 ^ 16 = 0 := fun hd => (h hd).resolve_left hmax
  refine ⟨readEpoch + Fin.ofNat _ maxSpillTimes.val, ?_, fun e he => ?_⟩
  · cases dbg with
    | false => rfl
    | true => rw [halign rfl]; rfl
  · have hlt : readEpoch.val < 2 ^ 64 - 2 ^ 16 := by
      rw [isMaxEpoch, decide_eq_true_iff, not_le] at hmax
      exact hmax
    rw [Fin.le_def] at he ⊢
    simp only [pureEpoch] at he
    rw [Fin.val_add]
    simp only [maxSpillTimes, Fin.val_last, Fin.val_ofNat]
    omega

theorem seekStart_ok (self : UserIterator) (hs : Sorted self.entries)
    (hread : dbg = true → isMaxEpoch self.readEpoch = true ∨ self.readEpoch.val % 2 ^ 16 = 0) :
    ∃ rest, self.seekStart dbg = .ok { self with rest := rest } ∧ rest.Sublist self.entries ∧
      ∀ window : HummockEpoch → Bool, (∀ epoch, window epoch = true → epoch ≤ self.readEpoch) →
        rest.filter (fun e => window (epochOf e)) =
          (self.entries.filter fun e => self.keyRange.1.closedStart (keyOf e)).filter
            fun e => window (epochOf e) := by
  obtain ⟨seekEpoch, hnew, hge⟩ := new_ge dbg hread
  have hseek : ∀ beginKey : UserKey, ∀ window : HummockEpoch → Bool,
      (∀ epoch, window epoch = true → epoch ≤ self.readEpoch) →
      (self.entries.dropWhile fun e => e.1 < ⟨beginKey, seekEpoch⟩).filter
        (fun e => window (epochOf e)) =
        (self.entries.filter fun e => beginKey ≤ keyOf e).filter fun e => window (epochOf e) := by
    intro beginKey window hwindow
    rw [dropWhile_eq_filter (hs.imp fun hle h => by
      simp only [decide_eq_true_eq] at h ⊢; exact hle.trans_lt h), filter_filter, filter_filter]
    refine filter_congr fun e _ => ?_
    cases hw : window (epochOf e) with
    | false => rfl
    | true =>
      have hep : e.1.epochWithGap ≤ seekEpoch := hge _ (hwindow _ hw)
      simp only [Bool.true_and, ← decide_not, decide_eq_decide, FullKey.lt_iff, not_or,
        not_lt, not_and]
      exact ⟨fun h => h.1, fun h => ⟨h, fun _ => hep⟩⟩
  unfold seekStart
  cases self.keyRange.1 with
  | included beginKey | excluded beginKey =>
    exact ⟨_, by simp only [hnew]; rfl, dropWhile_sublist _, hseek beginKey⟩
  | unbounded => exact ⟨_, rfl, .refl _, by simp [closedStart]⟩

/-- **The forward iterator shows the puts that are newest in `[min_epoch, read_epoch]`.** -/
theorem forward_shows (range : UserKeyRange)
    (minEpoch : HummockEpoch) (hs : Sorted entries) (hdef : ∀ e ∈ entries, keyOf e ≠ default)
    (hread : dbg = true → isMaxEpoch readEpoch = true ∨ readEpoch.val % 2 ^ 16 = 0) :
    ∃ it, (new entries range readEpoch minEpoch).rewind dbg = .ok it ∧
      Shows isValid item next it (visible (inClosedWindow readEpoch minEpoch) range entries) := by
  let self : UserIterator := new entries range readEpoch minEpoch
  obtain ⟨rest, hseek, hsub, hrest⟩ := seekStart_ok dbg self hs hread
  have hrest := hrest (inClosedWindow readEpoch minEpoch) fun epoch h => (inClosedWindow_iff.1 h).2
  have hne : ∀ e ∈ rest, keyOf e ≠ default := fun e he => hdef e (hsub.subset he)
  obtain ⟨it, hadv, hrange, hshow⟩ :=
    advance_shows rest { self with rest := rest } self.fullKeyTracker
    (List.Pairwise.sublist hsub hs) fun e he _ => ⟨default_le _, fun h => absurd h.symm (hne e he)⟩
  have hitems : shown range.2.belowEnd (firsts keyOf (some default)
      (rest.filter fun e => inClosedWindow readEpoch minEpoch (epochOf e))) =
        shown (fun k => range.2.belowEnd k && range.1.closedStart k)
          (newest (inClosedWindow readEpoch minEpoch) entries) := by
    rw [firsts_congr none (fun e he h => hne e (mem_filter.1 he).1 (Option.some.inj h).symm)
      (by simp), hrest]
    exact (congrArg _ (newest_filter_key hs range.1.closedStart)).trans
      ((shown_filter fun k => range.1.closedStart k.userKey).trans (shown_and range.1.closedStart))
  have hshow : Shows isValid item next it (shown (fun k => range.2.belowEnd k && range.1.closedStart k)
      (newest (inClosedWindow readEpoch minEpoch) entries)) := hitems ▸ hshow
  have hrange : it.keyRange.1 = range.1 := congrArg _ hrange
  obtain ⟨it', hskip, hshow'⟩ :=
    hshow.skipExcluded range.1.aboveStart (shown_pairwise (newest_pairwise hs))
      (fun x hx => (Bool.and_eq_true_iff.1 (mem_shown.1 hx).2).2)
    (fun j k hlt hj hb =>
      (of_decide_eq_true (hb ▸ hj : closedStart (.excluded k) j = true)).not_gt hlt)
    (fun k => by rw [aboveStart_eq]; congr)
  refine ⟨it', ?_, ?_⟩
  · refine bind_eq_ok.2 ⟨_, hseek, bind_eq_ok.2 ⟨it, hadv, ?_⟩⟩
    rw [skipExcluded, hrange]
    exact hskip
  · have hcontains : ∀ k, (range.2.belowEnd k && range.1.closedStart k && range.1.aboveStart k) =
        contains range k := fun k => by
      rw [Bound.contains, aboveStart_eq, Bool.and_assoc, ← Bool.and_assoc (range.1.closedStart k),
        Bool.and_self, Bool.and_comm]
    rw [visible, ← shown_congr hcontains, ← shown_and range.1.aboveStart]
    exact hshow'

end UserIterator

/-! ## The backward iterator -/

namespace BackwardUserIterator

theorem keyOutOfRange_eq (self : BackwardUserIterator) (k : UserKey) :
    self.keyOutOfRange k = !self.keyRange.1.aboveStart k := by
  unfold keyOutOfRange aboveStart
  cases self.keyRange.1 with
  | included b => simp only [← decide_not, not_le]
  | excluded b => simp only [← decide_not, not_lt]
  | unbounded => rfl

variable {self : BackwardUserIterator}

theorem item_eq (h : self.isValid = true) : self.item = .ok (self.lastKey, self.lastVal) := by
  simp [item, key, value, h]

/-- The iterator has seen `e` last, of the user key it is deciding on. -/
structure Holds (self : BackwardUserIterator) (e : Entry) : Prop where
  open_ : self.outOfRange = false ∧ self.justMetNewKey = false
  key : self.lastKey.userKey = keyOf e
  value : match e.2 with
    | .put val => self.lastDelete = false ∧ self.lastKey = e.1 ∧ self.lastVal = val
    | .delete => self.lastDelete = true

theorem setLast_holds (self : BackwardUserIterator) (e : Entry)
    (hopen : self.outOfRange = false ∧ self.justMetNewKey = false)
    (hkey : self.lastKey.userKey = keyOf e) : (self.setLast e.1 e.2).Holds e := by
  obtain ⟨fullKey, value⟩ := e
  cases value with
  | put val => exact ⟨hopen, rfl, rfl, rfl, rfl⟩
  | delete => exact ⟨hopen, hkey, rfl⟩

theorem setLast_params (self : BackwardUserIterator) (fullKey : FullKey) (value : HummockValue) :
    (self.setLast fullKey value).keyRange = self.keyRange ∧
      (self.setLast fullKey value).readEpoch = self.readEpoch ∧
      (self.setLast fullKey value).minEpoch = self.minEpoch := by
  cases value <;> exact ⟨rfl, rfl, rfl⟩

theorem shown_lasts_eq_nil {e : Entry} (hle : ∀ e' ∈ es, keyOf e' ≤ keyOf e)
    (h : b.aboveStart (keyOf e) = false) : shown b.aboveStart (lasts keyOf (e :: es)) = [] := by
  refine shown_eq_nil fun e' he' => ?_
  rw [← Bool.not_eq_true] at h ⊢
  intro hb
  rcases mem_cons.1 (lasts_sublist.subset he') with rfl | he'
  · exact h hb
  · exact h (aboveStart_mono hb (hle e' he'))

theorem advance_shows : ∀ (rest : List Entry) (self : BackwardUserIterator) (e : Entry),
    self.Holds e → rest.Pairwise (fun e e' => keyOf e' ≤ keyOf e) →
      (self.keyRange.1.aboveStart (keyOf e) = true ∨ e.2 = .delete ∧ ∀ e' ∈ rest, keyOf e' ≠ keyOf e) →
      (self.advance rest).keyRange = self.keyRange ∧ Shows isValid item (fun it => .ok it.next)
      (self.advance rest)
          (shown self.keyRange.1.aboveStart (lasts keyOf
            (e :: rest.filter fun e => inWindow self.readEpoch self.minEpoch (epochOf e))))
  | [], self, (fullKey, value), hself, _, hin => by
    obtain ⟨⟨hout, -⟩, hkey, hval⟩ := hself
    refine ⟨rfl, ?_⟩
    cases value with
    | delete => exact .done (by simp [advance, isValid, show self.lastDelete = true from hval])
    | put val =>
      obtain ⟨hdel, hlast, hlval⟩ := hval
      have hstart : self.keyRange.1.aboveStart fullKey.userKey = true :=
        hin.resolve_right fun h => by cases h.1
      have hvalid : ({ self with rest := [] } : BackwardUserIterator).isValid = true := by
        simp [isValid, hdel, hout]
      rw [advance, filter_nil, show lasts keyOf [(fullKey, HummockValue.put val)] = [_] from rfl,
        shown_put hstart]
      refine .more hvalid ((item_eq hvalid).trans ?_) rfl (.done (by simp [next, isValid]))
      rw [hlast, hlval]
  | (fullKey, value) :: rest, self, e, hself, hpw, hin => by
    rw [pairwise_cons] at hpw
    obtain ⟨⟨hout, hnew⟩, hkey, hval⟩ := hself
    rw [filter_cons]
    set es := rest.filter fun e => inWindow self.readEpoch self.minEpoch (epochOf e)
    have hiff : inWindow self.readEpoch self.minEpoch (epochOf (fullKey, value)) = true ↔
        self.minEpoch < fullKey.epochWithGap.pureEpoch ∧ fullKey.epochWithGap.pureEpoch ≤
          self.readEpoch :=
      inWindow_iff
    by_cases hwin : inWindow self.readEpoch self.minEpoch (epochOf (fullKey, value)) = true
    · have hwin' := hiff.1 hwin
      -- the entry begins a new user key
      have hbegin : ∀ it : BackwardUserIterator, it.keyRange = self.keyRange →
          it.readEpoch = self.readEpoch → it.minEpoch = self.minEpoch → it.outOfRange = false →
          it.justMetNewKey = false → it.lastKey = fullKey →
          ∀ it', it' = (if it.keyOutOfRange fullKey.userKey then
              { it with outOfRange := true, rest := (fullKey, value) :: rest }
            else (it.setLast fullKey value).advance rest) →
          it'.keyRange = self.keyRange ∧
            Shows isValid item (fun it => .ok it.next) it' (shown self.keyRange.1.aboveStart
              (lasts keyOf ((fullKey, value) :: es))) := by
        rintro it hrange hread hmin hout hnew hlast _ rfl
        have hoor : it.keyOutOfRange fullKey.userKey =
            !self.keyRange.1.aboveStart fullKey.userKey := by
          rw [keyOutOfRange_eq, hrange]
        cases hstart : self.keyRange.1.aboveStart fullKey.userKey with
        | false =>
          rw [if_pos (by rw [hoor, hstart]; rfl)]
          refine ⟨hrange, ?_⟩
          rw [shown_lasts_eq_nil (fun e' he' => hpw.1 e' (mem_filter.1 he').1) hstart]
          exact .done (by simp [isValid])
        | true =>
          have hholds := setLast_holds it (fullKey, value) ⟨hout, hnew⟩ (congrArg _ hlast)
          obtain ⟨hr, he, hm⟩ := setLast_params it fullKey value
          have := advance_shows rest _ _ hholds hpw.2 (.inl (by rw [hr, hrange]; exact hstart))
          rw [hr, he, hm, hrange, hread, hmin] at this
          rw [if_neg (by rw [hoor, hstart]; decide)]
          exact this
      rw [if_pos hwin, advance, if_pos hwin', if_neg (by rw [hnew]; decide)]
      by_cases hsame : self.lastKey.userKey = fullKey.userKey
      · -- a newer version of the user key
        have hholds := setLast_holds self (fullKey, value) ⟨hout, hnew⟩ hsame
        have hstart : self.keyRange.1.aboveStart fullKey.userKey = true := by
          rcases hin with hin | ⟨-, hne⟩
          · rw [← hsame, hkey]
            exact hin
          · exact absurd (hsame.symm.trans hkey) (hne _ (.head _))
        obtain ⟨hr, he, hm⟩ := setLast_params self fullKey value
        have := advance_shows rest _ _ hholds hpw.2 (.inl (by rw [hr]; exact hstart))
        rw [hr, he, hm] at this
        rw [if_neg (not_not.2 hsame), lasts_cons_cons,
          if_pos (show keyOf (fullKey, value) = keyOf e from hsame.symm.trans hkey)]
        exact this
      · rw [if_pos hsame, lasts_cons_cons,
          if_neg fun h : keyOf (fullKey, value) = keyOf e => hsame (hkey.trans h.symm)]
        obtain ⟨key, v⟩ := e
        cases v with
        | delete =>
          have hdel : self.lastDelete = true := hval
          rw [if_neg (by rw [hdel]; decide)]
          exact hbegin { self with lastKey := fullKey } rfl rfl rfl hout hnew rfl _ rfl
        | put val =>
          -- the decided put is shown; the next call begins with this entry
          obtain ⟨hdel, hlast, hlval⟩ := hval
          have hstart : self.keyRange.1.aboveStart key.userKey = true :=
            hin.resolve_right fun h => by cases h.1
          have hvalid : ({ self with justMetNewKey := true, rest := (fullKey, value) :: rest } :
              BackwardUserIterator).isValid = true := by simp [isValid, hout]
          obtain ⟨-, hshow⟩ := hbegin { self with
            lastKey := fullKey, justMetNewKey := false, rest := (fullKey, value) :: rest }
            rfl rfl rfl hout rfl rfl _ rfl
          rw [if_pos (by rw [hdel]; rfl)]
          refine ⟨rfl, ?_⟩
          rw [shown_put hstart]
          refine .more hvalid ((item_eq hvalid).trans ?_) rfl ?_
          · rw [hlast, hlval]
          · rw [next, advance, if_pos hwin']
            exact hshow
    · rw [if_neg hwin, advance, if_neg (mt hiff.2 hwin)]
      exact advance_shows rest self e ⟨⟨hout, hnew⟩, hkey, hval⟩ hpw.2
        (hin.imp id fun h => ⟨h.1, fun e' he' => h.2 e' (.tail _ he')⟩)

theorem seekEnd_eq (hs : self.entries.Pairwise fun e e' => e'.1 ≤ e.1) : self.seekEnd =
      { self with rest := self.entries.filter fun e => self.keyRange.2.closedEnd (keyOf e) } := by
  have hseek : ∀ endKey : UserKey,
      (self.entries.dropWhile fun e => (⟨endKey, newMinEpoch⟩ : FullKey) < e.1) =
        self.entries.filter fun e => keyOf e ≤ endKey := by
    intro endKey
    rw [dropWhile_eq_filter (hs.imp fun hle h => by
      simp only [decide_eq_true_eq] at h ⊢; exact h.trans_le hle)]
    refine filter_congr fun e _ => ?_
    simp only [← decide_not, decide_eq_decide, FullKey.lt_iff, not_or, not_lt, not_and]
    exact ⟨fun h => h.1, fun h => ⟨h, fun _ => Fin.zero_le _⟩⟩
  unfold seekEnd
  cases hb : self.keyRange.2 with
  | included | excluded => simp only [seekInner, hseek, closedEnd]
  | unbounded => simp [closedEnd]

theorem next_of_lastDelete (h : self.lastDelete = true) : self.next = self.advance self.rest := by
  unfold next
  split
  · rename_i hrest
    rw [List.isEmpty_iff] at hrest
    rw [hrest, advance, ← h]
  · rfl

/-- **The backward iterator shows, in reverse, the puts that are newest in
`(min_epoch, read_epoch]`.** -/
theorem backward_shows (range : UserKeyRange) (readEpoch minEpoch : HummockEpoch)
    (hs : Sorted entries) (hdef : ∀ e ∈ entries, keyOf e ≠ default) :
    ∃ it, (new entries.reverse range readEpoch minEpoch).rewind = .ok it ∧
      Shows isValid item (fun it => .ok it.next) it
        (visible (inWindow readEpoch minEpoch) range entries).reverse := by
  let self : BackwardUserIterator := new entries.reverse range readEpoch minEpoch
  let rest := entries.reverse.filter fun e => range.2.closedEnd (keyOf e)
  have hrev : entries.reverse.Pairwise fun e e' => e'.1 ≤ e.1 := pairwise_reverse.2 hs
  have hseek : self.seekEnd = { self with rest := rest } := seekEnd_eq hrev
  -- before the first entry, as after a delete of the default key
  have hholds : ({ self with rest := rest } : BackwardUserIterator).reset.Holds (.default, .delete) :=
    ⟨⟨rfl, rfl⟩, rfl, rfl⟩
  have hne : ∀ e ∈ rest, keyOf e ≠ default := fun e he => hdef e (mem_reverse.1 (mem_filter.1 he).1)
  obtain ⟨hrange, hshow⟩ := advance_shows rest _ _ hholds
    ((hrev.imp userKey_le).filter _) (.inr ⟨rfl, hne⟩)
  have hitems : shown range.1.aboveStart (lasts keyOf ((FullKey.default, .delete) ::
      rest.filter fun e => inWindow readEpoch minEpoch (epochOf e))) =
        (shown (fun k => range.1.aboveStart k && range.2.closedEnd k)
          (newest (inWindow readEpoch minEpoch) entries)).reverse := by
    have hnone : lasts keyOf ((FullKey.default, .delete) ::
        rest.filter fun e => inWindow readEpoch minEpoch (epochOf e)) =
          (FullKey.default, .delete) ::
          lasts keyOf (rest.filter fun e => inWindow readEpoch minEpoch (epochOf e)) := by
      rw [lasts, if_neg]
      intro h
      obtain ⟨e, he, hk⟩ := Option.map_eq_some_iff.1 h
      exact hne e (mem_filter.1 (mem_of_mem_head? he)).1 hk
    have hnewest : lasts keyOf (rest.filter fun e => inWindow readEpoch minEpoch (epochOf e)) =
        (newest (inWindow readEpoch minEpoch)
          (entries.filter fun e => range.2.closedEnd (keyOf e))).reverse := by
      rw [lasts_eq, newest, ← filter_reverse, ← filter_reverse, reverse_reverse]
    have hreverse : ∀ es, shown range.1.aboveStart es.reverse =
        (shown range.1.aboveStart es).reverse :=
      fun es => filterMap_reverse
    rw [hnone, hnewest, newest_filter_key hs, ← shown_and, ← shown_filter fun k =>
      range.2.closedEnd k.userKey, ← hreverse]
    rfl
  have hshow : Shows isValid item (fun it => .ok it.next) _
      (shown (fun k => range.1.aboveStart k && range.2.closedEnd k)
        (newest (inWindow readEpoch minEpoch) entries)).reverse := hitems ▸ hshow
  have hrange : (advance _ rest).keyRange.2 = range.2 := congrArg _ hrange
  obtain ⟨it', hskip, hshow'⟩ := hshow.skipExcluded range.2.belowEnd
    (pairwise_reverse.2 (shown_pairwise (newest_pairwise hs)))
    (fun x hx => (Bool.and_eq_true_iff.1 (mem_shown.1 (mem_reverse.1 hx)).2).2)
    (fun j k hlt hj hb => (of_decide_eq_true (hb ▸ hj : closedEnd (.excluded k) j = true)).not_gt hlt)
    (fun k => by rw [belowEnd_eq]; congr)
  refine ⟨it', ?_, ?_⟩
  · rw [rewind, show (new entries.reverse range readEpoch minEpoch).seekEnd = _ from hseek,
      next_of_lastDelete rfl, skipExcluded]
    exact hrange ▸ hskip
  · have hcontains : ∀ k, (range.1.aboveStart k && range.2.closedEnd k && range.2.belowEnd k) =
        contains range k := fun k => by
      rw [Bound.contains, belowEnd_eq, Bool.and_assoc, ← Bool.and_assoc (range.2.closedEnd k),
        Bool.and_self]
    rw [filter_reverse, shown_and range.2.belowEnd, shown_congr hcontains] at hshow'
    exact hshow'

end BackwardUserIterator

/-! ## Both scans -/

theorem length_visible_le : (visible window range entries).length ≤ entries.length :=
  (length_filterMap_le _ _).trans (firsts_sublist.trans filter_sublist).length_le

section
variable {fuel : Nat} (hs : Sorted entries) (hdef : ∀ e ∈ entries, keyOf e ≠ default)
  (hfuel : entries.length < fuel)
include hs hdef hfuel

theorem forward_scan {dbg : Bool}
    (hread : dbg = true → isMaxEpoch readEpoch = true ∨ readEpoch.val % 2 ^ 16 = 0) :
    ((UserIterator.new entries range readEpoch minEpoch).rewind dbg >>= UserIterator.scan fuel) =
      .ok (some (visible (inClosedWindow readEpoch minEpoch) range entries)) := by
  obtain ⟨it, hrun, hshow⟩ := UserIterator.forward_shows dbg range minEpoch hs hdef hread
  exact bind_eq_ok.2 ⟨it, hrun, collect_of_shows hshow fuel (length_visible_le.trans_lt hfuel)⟩

theorem backward_scan :
    ((BackwardUserIterator.new entries.reverse range readEpoch minEpoch).rewind >>=
        BackwardUserIterator.scan fuel) =
      .ok (some (visible (inWindow readEpoch minEpoch) range entries).reverse) := by
  obtain ⟨it, hrun, hshow⟩ := BackwardUserIterator.backward_shows range readEpoch minEpoch hs hdef
  refine bind_eq_ok.2 ⟨it, hrun, collect_of_shows hshow fuel ?_⟩
  rw [length_reverse]
  exact length_visible_le.trans_lt hfuel

end

/-- The two windows show the same unless a put in `min_epoch` itself is the newest. -/
theorem visible_eq_iff (hs : Sorted entries) : visible (inWindow readEpoch minEpoch) range entries =
        visible (inClosedWindow readEpoch minEpoch) range entries ↔
      ∀ e ∈ newest (· ≤ readEpoch) entries, Bound.contains range (keyOf e) = true → e.2 ≠ .delete →
        epochOf e ≠ minEpoch := by
  have hopen : newest (inWindow readEpoch minEpoch) entries =
      (newest (inClosedWindow readEpoch minEpoch) entries).filter fun e => minEpoch < epochOf e := by
    rw [← newest_and hs fun a b hle h =>
      decide_eq_true ((of_decide_eq_true h).trans_le hle)]
    congr 1
    funext epoch
    rw [inWindow, inClosedWindow, ← Bool.and_assoc]
    congr 1
    rw [← Bool.decide_and]
    exact decide_eq_decide.2 ⟨fun h => ⟨h, h.le⟩, fun h => h.1⟩
  have hclosed : newest (inClosedWindow readEpoch minEpoch) entries =
      (newest (· ≤ readEpoch) entries).filter fun e => minEpoch ≤ epochOf e :=
    newest_and hs fun a b hle h =>
      decide_eq_true ((of_decide_eq_true h).trans hle)
  have hshown : visible (inWindow readEpoch minEpoch) range entries =
      (visible (inClosedWindow readEpoch minEpoch) range entries).filter
        fun x => minEpoch < x.1.epochWithGap.pureEpoch := by
    rw [visible, hopen]
    exact shown_filter fun k => minEpoch < k.epochWithGap.pureEpoch
  rw [hshown, filter_eq_self, visible, hclosed]
  constructor
  · rintro h ⟨key, value⟩ he hin hput rfl
    cases value with
    | delete => exact hput rfl
    | put val =>
      refine lt_irrefl _ (of_decide_eq_true (h (key, val) (mem_shown.2 ⟨?_, hin⟩)))
      exact mem_filter.2 ⟨he, decide_eq_true le_rfl⟩
  · intro h x hx
    obtain ⟨he, hin⟩ := mem_shown.1 hx
    obtain ⟨he, hle⟩ := mem_filter.1 he
    exact decide_eq_true (lt_of_le_of_ne (of_decide_eq_true hle) (h _ he hin (by simp)).symm)

/-- **Both scans show what they should, in opposite orders, exactly if no put in `min_epoch` itself
is the newest entry of a user key of the range.** This is so for either reading of the window. -/
theorem scans_exact_iff {dbg : Bool} {entries : List Entry} {range : UserKeyRange}
    {readEpoch minEpoch : HummockEpoch} {fuel : Nat} {window : HummockEpoch → Bool}
    (hwindow : window = inWindow readEpoch minEpoch ∨ window = inClosedWindow readEpoch minEpoch)
    (hs : Sorted entries) (hdef : ∀ e ∈ entries, keyOf e ≠ default)
    (hread : dbg = true → isMaxEpoch readEpoch = true ∨ readEpoch.val % 2 ^ 16 = 0)
    (hfuel : entries.length < fuel) :
    (((UserIterator.new entries range readEpoch minEpoch).rewind dbg >>= UserIterator.scan fuel) =
        .ok (some (visible window range entries)) ∧
      ((BackwardUserIterator.new entries.reverse range readEpoch minEpoch).rewind >>=
          BackwardUserIterator.scan fuel) =
        .ok (some (visible window range entries).reverse)) ↔
      ∀ e ∈ newest (· ≤ readEpoch) entries, Bound.contains range (keyOf e) = true → e.2 ≠ .delete →
        epochOf e ≠ minEpoch := by
  rw [forward_scan hs hdef hfuel hread, backward_scan hs hdef hfuel, ← visible_eq_iff hs,
    Except.ok.injEq, Except.ok.injEq, Option.some.injEq, Option.some.injEq, reverse_inj]
  rcases hwindow with rfl | rfl
  · exact ⟨fun h => h.1.symm, fun h => ⟨h.symm, rfl⟩⟩
  · exact ⟨fun h => h.2, fun h => ⟨rfl, h⟩⟩

/-- A put in `min_epoch` is shown forward and not backward. -/
theorem minEpoch_put_shown_forward_only :
    let entries : List Entry := [(⟨⟨1, [0, 0, 7]⟩, 65536⟩, .put [42])]
    Sorted entries ∧
    (((UserIterator.new entries (.unbounded, .unbounded) 131072 65536).rewind true >>=
        UserIterator.scan 2) = .ok (some [(⟨⟨1, [0, 0, 7]⟩, 65536⟩, [42])])) ∧
    (((BackwardUserIterator.new entries.reverse (.unbounded, .unbounded) 131072 65536).rewind >>=
        BackwardUserIterator.scan 2) = .ok (some [])) := by
  refine ⟨pairwise_singleton _ _, by decide +kernel, by decide +kernel⟩

theorem scans_exact_two : let entries : List Entry :=
      [(⟨⟨1, [0, 0, 7]⟩, 131072⟩, .put [42]), (⟨⟨1, [0, 0, 7]⟩, 65536⟩, .put [41]),
        (⟨⟨1, [0, 0, 8]⟩, 131072⟩, .delete)]
    (((UserIterator.new entries (.unbounded, .unbounded) 131072 65536).rewind true >>=
      UserIterator.scan 4) =
        .ok (some (visible (inWindow 131072 65536) (.unbounded, .unbounded) entries)) ∧
      ((BackwardUserIterator.new entries.reverse (.unbounded, .unbounded) 131072 65536).rewind >>=
          BackwardUserIterator.scan 4) =
        .ok (some (visible (inWindow 131072 65536) (.unbounded, .unbounded) entries).reverse)) :=
  (scans_exact_iff (.inl rfl) (by unfold Sorted; decide +kernel) (by decide +kernel)
    (by decide +kernel) (by decide)).2 (by decide +kernel)

end Hummock
