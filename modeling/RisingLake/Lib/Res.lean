import Mathlib

/-!
# Panicking computations

`Res α` is the result of a computation that returns a value or panics. The kinds of `Panic` keep
an arithmetic underflow apart from a failed assertion, so that "this subtraction never
underflows" can be stated. Loops over mutable slices are `mapAccumM`.

The lemmas invert a successful run: from `(x >>= f) = .ok b` the value `x` returned and the run of
`f` on it (`bind_eq_ok`), and the same for assertions, folds and `mapAccumM`.
-/

/-- Why a computation panicked. -/
inductive Panic where
  /-- `assert!`, `assert_eq!`, `debug_assert!`. -/
  | assert (msg : String)
  /-- `unwrap` or `expect` of a missing value. -/
  | unwrap (msg : String)
  /-- `panic!`, `unreachable!`. -/
  | explicit (msg : String)
  /-- A slice index or a slice of the data beyond its end. -/
  | index
  /-- An addition beyond the type's maximum, where the build checks overflow. -/
  | overflow
  /-- A subtraction below zero. -/
  | underflow
  deriving DecidableEq, Repr

/-- The result of a computation that may panic. -/
abbrev Res (α : Type) := Except Panic α

/-- Fixed-width unsigned integers. -/
abbrev U8 := Fin 256
abbrev U16 := Fin (2 ^ 16)
abbrev U32 := Fin (2 ^ 32)
abbrev U64 := Fin (2 ^ 64)

instance (priority := high) neZeroSucc {n : Nat} : @NeZero Nat Zero.ofOfNat0 (n + 1) :=
  inferInstance
instance (priority := high) neZeroU8 : NeZero (255 + 1) := inferInstance
instance (priority := high) neZeroU32 : NeZero (2 ^ 32) := inferInstance
instance (priority := high) neZeroU64 : NeZero (2 ^ 64) := inferInstance
instance (priority := high) neZeroTwo : NeZero (1 + 1) := inferInstance
instance (priority := high) transOrdU32 : Std.TransOrd U32 := inferInstance

def U64.max : U64 := Fin.last _

theorem U64.le_max (x : U64) : x ≤ U64.max := Fin.le_last x

namespace Res

open List

variable {α β σ : Type}

/-- `assert!(c, msg)`. -/
def assert (c : Bool) (msg : String) : Res Unit :=
  if c then .ok () else .error (.assert msg)

/-- `debug_assert!(c, msg)`: checked only in builds with debug assertions. -/
def debugAssert (dbg c : Bool) (msg : String) : Res Unit := assert (!dbg || c) msg

/-- `x.unwrap()`, `x.expect(msg)`. -/
def unwrap (x : Option α) (msg : String) : Res α :=
  match x with
  | some a => .ok a
  | none => .error (.unwrap msg)

/-- `xs[i]`. -/
def index (xs : List α) (i : Nat) : Res α :=
  match xs[i]? with
  | some a => .ok a
  | none => .error .index

/-- `a - b` on unsigned counters. -/
def checkedSub (a b : Nat) : Res Nat := if b ≤ a then .ok (a - b) else .error .underflow

/-- `a / b`. -/
def checkedDiv (a b : Nat) : Res Nat :=
  if b = 0 then .error (.explicit "attempt to divide by zero") else .ok (a / b)

/-- `a % b`. -/
def checkedRem (a b : Nat) : Res Nat :=
  if b = 0 then .error (.explicit "attempt to calculate the remainder with a divisor of zero")
  else .ok (a % b)

/-- `x + 1` on `u64`: checked in debug builds, wrapping in release builds. -/
def succ (dbg : Bool) (x : U64) : Res U64 :=
  if dbg && decide (x = U64.max) then .error .overflow else .ok (x + 1)

theorem succ_eq_ok (dbg : Bool) {x : U64} (h : x.val + 1 < 2 ^ 64) :
    succ dbg x = .ok ⟨x.val + 1, h⟩ := by
  have hne : x ≠ U64.max := fun heq => by
    rw [heq, U64.max, Fin.val_last] at h
    omega
  rw [succ, decide_eq_false hne, Bool.and_false]
  exact congrArg Except.ok (Fin.ext (Fin.val_add_one_of_lt' h))

/-- `for x in &mut xs` with an accumulator: each element is replaced, the accumulator threaded. -/
def mapAccumM (f : σ → α → Res (β × σ)) : σ → List α → Res (List β × σ)
  | s, [] => .ok ([], s)
  | s, x :: xs => do
    let (y, s) ← f s x
    let (ys, s) ← mapAccumM f s xs
    .ok (y :: ys, s)

/-- `while cond(s) { body(s) }`, for at most `fuel` rounds. A run that needs more is reported as a
panic of its own, which the source does not have. -/
def whileM (cond : σ → Res Bool) (body : σ → Res σ) : Nat → σ → Res σ
  | 0, _ => .error (.explicit "out of fuel")
  | fuel + 1, s => do
    if ← cond s then whileM cond body fuel (← body s) else .ok s

/-! ## Inversion -/

@[simp] theorem ok_bind (a : α) (f : α → Res β) : (Except.ok a >>= f : Res β) = f a := rfl
@[simp] theorem error_bind (e : Panic) (f : α → Res β) :
    (Except.error e >>= f : Res β) = .error e := rfl
@[simp] theorem pure_eq_ok (a : α) : (pure a : Res α) = .ok a := rfl
@[simp] theorem assert_true (msg : String) : assert true msg = .ok () := rfl
@[simp] theorem assert_false (msg : String) : assert false msg = .error (.assert msg) := rfl

theorem bind_eq_ok {x : Res α} {f : α → Res β} {b : β} : (x >>= f) = .ok b ↔ ∃ a, x = .ok a ∧
    f a = .ok b := by
  cases x with
  | error e => simp
  | ok a => simp

variable {msg : String}

theorem assert_eq_ok {c : Bool} {u : Unit} : assert c msg = .ok u ↔ c = true := by
  cases c <;> simp

theorem debugAssert_eq_ok {dbg c : Bool} {u : Unit} : debugAssert dbg c msg = .ok u ↔
    (dbg = true → c = true) := by
  cases dbg <;> cases c <;> simp [debugAssert]

theorem unwrap_eq_ok {x : Option α} {a : α} : unwrap x msg = .ok a ↔ x = some a := by
  cases x <;> simp [unwrap]

variable {xs : List α}

theorem index_eq_ok {i : Nat} {a : α} : index xs i = .ok a ↔ xs[i]? = some a := by
  unfold index
  cases xs[i]? <;> simp

variable {a b : Nat}

theorem checkedSub_of_le (h : b ≤ a) : checkedSub a b = .ok (a - b) := if_pos h

theorem checkedDiv_of_pos (h : 0 < b) : checkedDiv a b = .ok (a / b) :=
  if_neg (Nat.pos_iff_ne_zero.1 h)

theorem checkedRem_of_pos (h : 0 < b) : checkedRem a b = .ok (a % b) :=
  if_neg (Nat.pos_iff_ne_zero.1 h)

theorem checkedSub_eq_ok {a b c : Nat} : checkedSub a b = .ok c ↔ b ≤ a ∧ c = a - b := by
  unfold checkedSub
  split
  · simp_all [eq_comm]
  · simp_all

/-! ## What a computation returns -/

/-- `x` returns a value of which `Q` holds, or panics with a panic of which `p` holds. -/
def ReturnsOr (p : Panic → Prop) (x : Res α) (Q : α → Prop) : Prop :=
  match x with
  | .ok a => Q a
  | .error e => p e

namespace ReturnsOr

variable {p : Panic → Prop} {x : Res α} {Q Q' : α → Prop} {f : α → Res β} {R : β → Prop}

theorem mono (h : ReturnsOr p x Q) (hQ : ∀ a, Q a → Q' a) : ReturnsOr p x Q' := by
  cases x with
  | ok a => exact hQ a h
  | error e => exact h

theorem bind (h : ReturnsOr p x Q) (hf : ∀ a, Q a → ReturnsOr p (f a) R) :
    ReturnsOr p (x >>= f) R := by
  cases x with
  | ok a => exact hf a h
  | error e => exact h

theorem with_eq (h : ReturnsOr p x Q) : ReturnsOr p x fun a => x = .ok a ∧ Q a := by
  cases x with
  | ok a => exact ⟨rfl, h⟩
  | error e => exact h

theorem imp {q : Panic → Prop} (h : ReturnsOr p x Q) (hpq : ∀ e, p e → q e) : ReturnsOr q x Q := by
  cases x with
  | ok a => exact h
  | error e => exact hpq e h

theorem exists_ok (h : ReturnsOr p x Q) (hx : ∀ e, p e → x ≠ .error e) : ∃ a, x = .ok a ∧ Q a := by
  cases x with
  | ok a => exact ⟨a, rfl, h⟩
  | error e => exact absurd rfl (hx e h)

/-- A fold, with a property of the accumulator and the elements left that every step keeps. -/
theorem foldlM {f : σ → α → Res σ} (P : List α → σ → Prop)
    (hstep : ∀ x xs s, P (x :: xs) s → ReturnsOr p (f s x) (P xs)) :
    ∀ {xs : List α} {s : σ}, P xs s → ReturnsOr p (xs.foldlM f s) (P [])
  | [], _, h => h
  | x :: xs, s, h => by
    exact (hstep x xs s h).bind fun s' hs' => foldlM P hstep hs'

theorem mapM {T : α → β → Prop} : ∀ {xs : List α}, (∀ x ∈ xs, ReturnsOr p (f x) (T x)) →
    ReturnsOr p (xs.mapM f) (List.Forall₂ T xs)
  | [], _ => .nil
  | x :: xs, h => by
    rw [forall_mem_cons] at h
    rw [mapM_cons]
    exact h.1.bind fun y hy => (mapM h.2).bind fun ys hys => .cons hy hys

theorem mapAccumM {f : σ → α → Res (β × σ)} (P : List β → σ → List α → Prop)
    (hf : ∀ ys s x xs, P ys s (x :: xs) → ReturnsOr p (f s x) fun r => P (ys ++ [r.1]) r.2 xs) :
    ∀ {xs : List α} {l : List β} {s : σ}, P l s xs →
      ReturnsOr p (Res.mapAccumM f s xs) fun r => P (l ++ r.1) r.2 []
  | [], l, s, h => by simpa [Res.mapAccumM, ReturnsOr] using h
  | x :: xs, l, s, h => by
    refine (hf l s x xs h).bind fun r hr => (mapAccumM P hf hr).bind fun r' hr' => ?_
    simpa [ReturnsOr] using hr'

theorem iff_exists_ok : ReturnsOr (fun _ => False) x Q ↔ ∃ a, x = .ok a ∧ Q a := by
  cases x <;> simp [ReturnsOr]

end ReturnsOr

/-! ## Folds and loops -/

variable {f : σ → α → Res σ}

theorem foldlM_inv (P : σ → Prop) :
    ∀ {xs : List α} {s s' : σ}, (∀ x ∈ xs, ∀ s s', P s → f s x = .ok s' → P s') → P s →
      xs.foldlM f s = .ok s' → P s'
  | [], s, s', _, h, hr => by
    cases hr; exact h
  | x :: xs, s, s', hs, h, hr => by
    rw [foldlM_cons, bind_eq_ok] at hr
    obtain ⟨s1, h1, hr⟩ := hr
    exact foldlM_inv P (fun y hy => hs y (.tail _ hy)) (hs x (.head _) s s1 h h1) hr

/-- The elements a fold comes to, each with the accumulator before it. -/
def visited (f : σ → α → Res σ) : σ → List α → List (σ × α)
  | _, [] => []
  | s, x :: xs => (s, x) :: match f s x with
    | .ok s' => visited f s' xs
    | .error _ => []

theorem mem_of_visited {s1 : σ} {x : α} : ∀ {xs : List α} {s : σ}, (s1, x) ∈ visited f s xs → x ∈ xs
  | [], _, h => by cases h
  | y :: ys, s, h => by
    rcases mem_cons.1 h with heq | h
    · cases heq
      exact .head _
    · split at h
      · exact .tail _ (mem_of_visited h)
      · cases h

/-- A property that every step the fold takes keeps holds after the fold. -/
theorem foldlM_visited (P : σ → Prop) : ∀ {xs : List α} {s s' : σ},
      (∀ s1 x s2, (s1, x) ∈ visited f s xs → P s1 → f s1 x = .ok s2 → P s2) → P s →
      xs.foldlM f s = .ok s' → P s'
  | [], s, s', _, h, hr => by
    cases hr; exact h
  | x :: xs, s, s', hs, h, hr => by
    rw [foldlM_cons, bind_eq_ok] at hr
    obtain ⟨s1, h1, hr⟩ := hr
    have hvisited : visited f s (x :: xs) = (s, x) :: visited f s1 xs := by rw [visited, h1]
    rw [hvisited] at hs
    exact foldlM_visited P (fun a y b hy => hs a y b (.tail _ hy)) (hs s x s1 (.head _) h h1) hr

/-- A fold that never fails: a property of the accumulator and the elements left with which every
step succeeds, and which it keeps. -/
theorem foldlM_total (P : List α → σ → Prop)
    (hstep : ∀ x xs s, P (x :: xs) s → ∃ s', f s x = .ok s' ∧ P xs s') {s : σ} (h : P xs s) :
    ∃ s', xs.foldlM f s = .ok s' ∧ P [] s' :=
  ReturnsOr.iff_exists_ok.1
    (ReturnsOr.foldlM P (fun x xs s h => ReturnsOr.iff_exists_ok.2 (hstep x xs s h)) h)

/-- A loop that ends: a property `P n` of the state under which the loop stops with `Q` or a round
succeeds and `n` falls. -/
theorem whileM_total {cond : σ → Res Bool} {body : σ → Res σ} {Q : σ → Prop} (P : Nat → σ → Prop)
    (hstep : ∀ n s, P n s → (cond s = .ok false ∧ Q s) ∨
      (cond s = .ok true ∧ ∃ s', body s = .ok s' ∧ ∃ m < n, P m s')) :
    ∀ {fuel n : Nat} {s : σ}, P n s → n < fuel → ∃ s', whileM cond body fuel s = .ok s' ∧ Q s'
  | 0, _, _, _, hlt => absurd hlt (Nat.not_lt_zero _)
  | fuel + 1, n, s, h, hlt => by
    rcases hstep n s h with ⟨hcond, hq⟩ | ⟨hcond, s₁, hbody, m, hm, h⟩
    · exact ⟨s, by simp [whileM, hcond], hq⟩
    · obtain ⟨s', hrun, hq⟩ := whileM_total P hstep h (show m < fuel by omega)
      exact ⟨s', by simp [whileM, hcond, hbody, hrun], hq⟩

theorem mapM_eq_ok {f : α → Res β} {g : α → β} :
    ∀ {xs : List α}, (∀ x ∈ xs, f x = .ok (g x)) → xs.mapM f = .ok (xs.map g)
  | [], _ => rfl
  | x :: xs, h => by
    rw [mapM_cons, h x (.head _), mapM_eq_ok fun y hy => h y (.tail _ hy)]
    rfl

variable {R : α → β → Prop}

theorem mapM_forall₂ {f : α → Res β}
    (h : ∀ x ∈ xs, ∃ y, f x = .ok y ∧ R x y) : ∃ ys, xs.mapM f = .ok ys ∧ List.Forall₂ R xs ys :=
  ReturnsOr.iff_exists_ok.1 (ReturnsOr.mapM fun x hx => ReturnsOr.iff_exists_ok.2 (h x hx))

theorem mapM_getElem? {f : α → Res β} : ∀ {xs : List α} {ys : List β}, xs.mapM f = .ok ys →
      ys.length = xs.length ∧ ∀ (i : Nat) (x : α), xs[i]? = some x →
      ∃ y, ys[i]? = some y ∧ f x = .ok y
  | [], _, h => by
    cases h
    exact ⟨rfl, fun i x hx => by simp at hx⟩
  | x :: xs, _, h => by
    rw [mapM_cons] at h
    obtain ⟨y, hy, h⟩ := bind_eq_ok.1 h
    obtain ⟨ys, hys, h⟩ := bind_eq_ok.1 h
    cases h
    obtain ⟨hlen, hget⟩ := mapM_getElem? hys
    refine ⟨by simp [hlen], fun i x' hx' => ?_⟩
    cases i with
    | zero => cases hx'; exact ⟨y, rfl, hy⟩
    | succ i => exact hget i x' hx'

theorem exists_of_mem_mapM {f : α → Res β} :
    ∀ {xs : List α} {ys : List β}, xs.mapM f = .ok ys → ∀ y ∈ ys, ∃ x ∈ xs, f x = .ok y
  | [], _, h, y, hy => by
    cases h
    cases hy
  | x :: xs, _, h, y, hy => by
    rw [mapM_cons] at h
    obtain ⟨y₁, h₁, h⟩ := bind_eq_ok.1 h
    obtain ⟨ys₁, h₂, h⟩ := bind_eq_ok.1 h
    cases h
    rcases mem_cons.1 hy with rfl | hy
    · exact ⟨x, .head _, h₁⟩
    · obtain ⟨x', hx', h'⟩ := exists_of_mem_mapM h₂ y hy
      exact ⟨x', .tail _ hx', h'⟩

theorem foldlM_hom {τ : Type} {g : τ → β → Res τ} (h : σ → τ) (k : α → β)
    (hfg : ∀ s a, g (h s) (k a) = h <$> f s a) :
    ∀ (xs : List α) (s : σ), (xs.map k).foldlM g (h s) = h <$> xs.foldlM f s
  | [], _ => rfl
  | x :: xs, s => by
    rw [map_cons, foldlM_cons, foldlM_cons, hfg]
    cases f s x with
    | error e => rfl
    | ok s' => exact foldlM_hom h k hfg xs s'

variable {f : σ → α → Res (β × σ)}

/-- An element-wise relation that each step of the loop establishes, under an invariant of the
accumulator that it keeps. -/
theorem mapAccumM_inv (P : σ → Prop) (R : α → β → Prop) : ∀ {xs : List α} {s s' : σ} {ys : List β},
      (∀ x ∈ xs, ∀ s y s', P s → f s x = .ok (y, s') → P s' ∧ R x y) → P s →
      mapAccumM f s xs = .ok (ys, s') → P s' ∧ List.Forall₂ R xs ys
  | [], s, s', ys, _, h, hr => by
    cases hr; exact ⟨h, .nil⟩
  | x :: xs, s, s', ys, hs, h, hr => by
    simp only [mapAccumM, bind_eq_ok, Prod.exists] at hr
    obtain ⟨y, s1, h1, ys1, s2, h2, hr⟩ := hr
    cases hr
    obtain ⟨hp, hxy⟩ := hs x (.head _) s y s1 h h1
    obtain ⟨hp', hrest⟩ := mapAccumM_inv P R (fun z hz => hs z (.tail _ hz)) hp h2
    exact ⟨hp', .cons hxy hrest⟩

/-- A loop that never fails: a property of the elements done, the accumulator and the elements left
with which every step succeeds, and which it keeps. -/
theorem mapAccumM_total (P : List β → σ → List α → Prop)
    (hf : ∀ ys s x xs, P ys s (x :: xs) → ∃ r, f s x = .ok r ∧ P (ys ++ [r.1]) r.2 xs)
    {s : σ} (h : P [] s xs) : ∃ r, mapAccumM f s xs = .ok r ∧ P r.1 r.2 [] :=
  ReturnsOr.iff_exists_ok.1
    (ReturnsOr.mapAccumM P (fun ys s x xs h => ReturnsOr.iff_exists_ok.2 (hf ys s x xs h)) h)

theorem exists_of_forall₂_mem {ys : List β}
    (h : List.Forall₂ R xs ys) {y : β} (hy : y ∈ ys) : ∃ x ∈ xs, R x y := by
  induction h with
  | nil => cases hy
  | @cons x y' xs ys hxy _ ih =>
    rcases mem_cons.1 hy with rfl | hy
    · exact ⟨x, .head _, hxy⟩
    · obtain ⟨x', hx', h⟩ := ih hy
      exact ⟨x', .tail _ hx', h⟩

theorem lift_ok {ε : Type} {a : α} :
    ∀ {x : Res α}, x = .ok a → (liftM x : ExceptT ε Res α) = Pure.pure a
  | _, rfl => rfl

end Res
