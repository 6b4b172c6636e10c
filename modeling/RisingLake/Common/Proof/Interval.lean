import RisingLake.Common.Interval

/-!
# Reading intervals back

Filling up units takes all of them or stops less than a unit from the limit (`fill_spec`), so that
what remains for the months is no more than the months of an interval hold.
-/

namespace Types.Interval

open Res

variable {w : Nat} {x v : Int} (i : Interval)

theorem checked_eq_ok (h : Fits w x) : checked w x = .ok x := if_pos h

theorem toInt_ofInt (h : Fits w x) (hw : 0 < w) : (BitVec.ofInt w x).toInt = x :=
  BitVec.toInt_ofInt_eq_self hw h.1 h.2

theorem fits : Fits 32 i.months.toInt ∧ Fits 32 i.days.toInt ∧ Fits 64 i.usecs.toInt :=
  ⟨⟨BitVec.le_toInt _, BitVec.toInt_lt⟩, ⟨BitVec.le_toInt _, BitVec.toInt_lt⟩, BitVec.le_toInt _,
    BitVec.toInt_lt⟩

def total : Int := i.usecs.toInt + 86400000000 * (i.days.toInt + 30 * i.months.toInt)

theorem cmpValue_eq : i.cmpValue = .ok i.total := by
  have h := i.fits
  rw [cmpValue, usecsPerDay, checked_eq_ok (by omega), ok_bind, checked_eq_ok (by omega), ok_bind,
    checked_eq_ok (by omega), ok_bind, checked_eq_ok (by omega), total]

theorem tdiv_tmod (v : Int) {n : Int} (hn : 0 < n) :
    n * v.tdiv n + v.tmod n = v ∧ -n < v.tmod n ∧ v.tmod n < n ∧ (0 ≤ v → 0 ≤ v.tmod n) ∧
      (v ≤ 0 → v.tmod n ≤ 0) := by
  refine ⟨Int.mul_tdiv_add_tmod v n, Int.lt_tmod_of_pos v hn, Int.tmod_lt_of_pos v hn,
    Int.tmod_nonneg n, fun h => ?_⟩
  have := Int.tmod_nonneg n (Int.neg_nonneg.2 h)
  rw [Int.neg_tmod] at this
  omega

/-- The limit is on the side of the value. -/
def Towards (nearer : Int → Int → Int) (limit : Nat → Int) (v : Int) : Prop :=
  nearer = min ∧ limit = maxOf ∧ 0 ≤ v ∨ nearer = max ∧ limit = minOf ∧ v ≤ 0

variable {nearer : Int → Int → Int} {limit : Nat → Int}

theorem fill_spec {unit : Int} (hunit : w = 64 ∧ unit = 86400000000 ∨ w = 32 ∧ unit = 30)
    (hv : Fits 127 v) (h : Towards nearer limit v) :
    ∃ low rest, fill nearer limit w unit v = .ok (low, rest) ∧ Fits w low ∧
      v = unit * rest + low ∧ Towards nearer limit rest ∧
      (rest = 0 ∨ -unit < limit w - low ∧ limit w - low < unit) := by
  have hpos : 0 < unit := by omega
  obtain ⟨heq, hlt, hgt, hsign, hsign'⟩ := tdiv_tmod v hpos
  have hlow : Fits w (v.tmod unit) ∧ Fits w (limit w - v.tmod unit) := by
    obtain ⟨rfl, rfl⟩ | ⟨rfl, rfl⟩ := hunit <;> obtain ⟨-, rfl, h⟩ | ⟨-, rfl, h⟩ := h <;>
      simp only [maxOf, minOf] <;> omega
  rw [fill, cast, toInt_ofInt hlow.1 (by omega), checked_eq_ok hlow.2, ok_bind]
  have hroom := tdiv_tmod (limit w - v.tmod unit) hpos
  generalize v.tmod unit = low, v.tdiv unit = q at *
  generalize (limit w - low).tdiv unit = room, (limit w - low).tmod unit = r at *
  generalize hextra : nearer room ((tryInto w q).getD (limit w)) = extra
  have hfill : Fits w (extra * unit) ∧ Fits w (low + extra * unit) ∧ Fits 128 (q - extra) ∧
      ((0 ≤ v → 0 ≤ q - extra) ∧ (v ≤ 0 → q - extra ≤ 0)) ∧
      (q - extra = 0 ∨ -unit < limit w - (low + extra * unit) ∧
        limit w - (low + extra * unit) < unit) := by
    rw [tryInto] at hextra
    obtain ⟨rfl, rfl⟩ | ⟨rfl, rfl⟩ := hunit <;> obtain ⟨rfl, rfl, h⟩ | ⟨rfl, rfl, h⟩ := h <;>
      split at hextra <;> simp only [Option.getD_some, Option.getD_none, maxOf, minOf]
        at hextra hroom ⊢ <;> omega
  obtain ⟨hextra, hfits, hrest, hsigns, hnear⟩ := hfill
  refine ⟨low + extra * unit, q - extra, ?_, hfits, by rw [← heq]; ring, ?_, hnear⟩
  · dsimp only
    rw [checked_eq_ok hextra, ok_bind, checked_eq_ok hfits, ok_bind, checked_eq_ok hrest, ok_bind]
  · exact h.imp (fun h => ⟨h.1, h.2.1, hsigns.1 h.2.2⟩) fun h => ⟨h.1, h.2.1, hsigns.2 h.2.2⟩

theorem alternate_spec (h : Towards nearer limit i.total) :
    ∃ j : Interval, alternate nearer limit i.total = .ok (some j) ∧ j.total = i.total := by
  have hi := i.fits
  rw [total] at *
  obtain ⟨usecs, rest, hfill, husecs, heq, h', hnear⟩ := fill_spec (.inl ⟨rfl, rfl⟩) (by omega) h
  obtain ⟨days, months, hfill', hdays, heq', h'', hnear'⟩ :=
    fill_spec (.inr ⟨rfl, rfl⟩) (by omega) h'
  have hmonths : Fits 32 months := by
    obtain ⟨-, rfl, h⟩ | ⟨-, rfl, h⟩ := h'' <;> simp only [maxOf, minOf] at hnear hnear' <;> omega
  refine ⟨fromMonthDayUsec months days usecs, ?_, ?_⟩
  · rw [alternate, usecsPerDay, hfill, ok_bind]
    dsimp only
    rw [hfill', ok_bind]
    dsimp only
    rw [tryInto, if_pos hmonths]
    rfl
  · simp only [total, fromMonthDayUsec, toInt_ofInt hmonths (by decide), toInt_ofInt hdays (by decide),
      toInt_ofInt husecs (by decide)]
    omega

/-- Fields of one sign, less than 30 days and less than a day of microseconds. -/
def Justified : Prop :=
  (0 ≤ i.months.toInt ∧ 0 ≤ i.days.toInt ∧ 0 ≤ i.usecs.toInt ∨
    i.months.toInt ≤ 0 ∧ i.days.toInt ≤ 0 ∧ i.usecs.toInt ≤ 0) ∧
  -30 < i.days.toInt ∧ i.days.toInt < 30 ∧ -usecsPerDay < i.usecs.toInt ∧
  i.usecs.toInt < usecsPerDay

theorem asJustified_spec (h : asJustified v = some i) : i.Justified ∧ i.total = v := by
  have hday := tdiv_tmod v (show 0 < usecsPerDay by decide)
  have hmonth := tdiv_tmod (v.tdiv usecsPerDay) (show (0 : Int) < 30 by decide)
  obtain ⟨months, htry, h⟩ := Option.bind_eq_some_iff.1 h
  obtain ⟨hm, hmonths⟩ := Option.ite_none_right_eq_some.1 htry
  cases hmonths
  rw [usecsPerDay] at *
  have hd : Fits 32 ((v.tdiv 86400000000).tmod 30) := by omega
  have hu : Fits 64 (v.tmod 86400000000) := by omega
  rw [cast, cast, toInt_ofInt hd (by decide), toInt_ofInt hu (by decide)] at h
  cases h
  simp only [Justified, total, fromMonthDayUsec, toInt_ofInt hm (by decide),
    toInt_ofInt hd (by decide), toInt_ofInt hu (by decide), usecsPerDay]
  omega

/-- Every interval is read back from its comparison value as one that lasts as long, and every
interval that `as_justified` returns is justified. -/
theorem deserialize_cmpValue :
    (∀ i : Interval, ∃ v j, i.cmpValue = .ok v ∧ deserialize v = .ok j ∧ j.cmpValue = .ok v) ∧
    ∀ v j, asJustified v = some j → j.Justified := by
  refine ⟨fun i => ?_, fun v j h => (asJustified_spec j h).1⟩
  suffices h : ∃ j, deserialize i.total = .ok j ∧ j.total = i.total by
    obtain ⟨j, hrun, htotal⟩ := h
    exact ⟨i.total, j, i.cmpValue_eq, hrun, htotal ▸ j.cmpValue_eq⟩
  unfold deserialize
  cases hj : asJustified i.total with
  | some j => exact ⟨j, rfl, (asJustified_spec j hj).2⟩
  | none =>
    obtain ⟨j, halt, htotal⟩ : ∃ j : Interval, asAlternate i.total = .ok (some j) ∧
        j.total = i.total := by
      unfold asAlternate
      split_ifs with hzero hpos
      · exact ⟨_, rfl, by rw [hzero]; rfl⟩
      · exact alternate_spec i (.inl ⟨rfl, rfl, hpos.le⟩)
      · exact alternate_spec i (.inr ⟨rfl, rfl, by omega⟩)
    exact ⟨j, congrArg (· >>= fun j => unwrap j _) halt, htotal⟩

end Types.Interval
