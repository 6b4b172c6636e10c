import RisingLake.Lib.Slice

/-!
# What a computation returns when it does not underflow

`Returns x Q`: `x` returns a value of which `Q` holds, or panics, but not because a subtraction
underflows. The rules follow the operations of `Res`; `NoUnderflow x` is the case without a
postcondition, and its rules are simp lemmas, so that it follows by unfolding for a function that
does not subtract. `Agree R x y` compares two computations.
-/

namespace Res

open Slice

variable {α β σ : Type}

def Returns (x : Res α) (Q : α → Prop) : Prop :=
  match x with
  | .ok a => Q a
  | .error e => e ≠ .underflow

abbrev NoUnderflow (x : Res α) : Prop := Returns x fun _ => True

namespace Returns

variable {x : Res α} {Q Q' : α → Prop} {f : α → Res β} {R : β → Prop}

theorem of_ok {a : α} (h : Returns x Q) (hx : x = .ok a) : Q a := by
  subst hx; exact h

theorem ne_underflow (h : Returns x Q) : x ≠ .error .underflow := by
  rintro rfl; exact h rfl

theorem mono (h : Returns x Q) (hQ : ∀ a, x = .ok a → Q a → Q' a) : Returns x Q' := by
  cases x with
  | ok a => exact hQ a rfl h
  | error e => exact h

theorem bind (h : Returns x Q) (hf : ∀ a, x = .ok a → Q a → Returns (f a) R) :
    Returns (x >>= f) R := by
  cases x with
  | ok a => exact hf a rfl h
  | error e => exact h

theorem noUnderflow (h : Returns x Q) : NoUnderflow x := h.mono fun _ _ _ => trivial

end Returns

variable {x : Res α}

theorem NoUnderflow.returns {Q : α → Prop} (h : NoUnderflow x)
    (hQ : ∀ a, x = .ok a → Q a) : Returns x Q := h.mono fun a ha _ => hQ a ha

/-! ## Computations without a subtraction -/

@[simp] theorem noUnderflow_ok (a : α) : NoUnderflow (.ok a : Res α) := trivial

@[simp] theorem noUnderflow_error (e : Panic) : NoUnderflow (.error e : Res α) ↔
    e ≠ .underflow := .rfl

@[simp] theorem noUnderflow_bind {f : α → Res β} :
    NoUnderflow (x >>= f) ↔ NoUnderflow x ∧ ∀ a, x = .ok a → NoUnderflow (f a) := by
  cases x with
  | ok a => simp
  | error e => simp

@[simp] theorem noUnderflow_ite {c : Prop} [Decidable c] {y : Res α} :
    NoUnderflow (if c then x else y) ↔ (c → NoUnderflow x) ∧ (¬c → NoUnderflow y) := by
  split <;> simp [*]

@[simp] theorem noUnderflow_assert (c : Bool) (msg : String) : NoUnderflow (assert c msg) := by
  unfold assert; split <;> simp

@[simp] theorem noUnderflow_debugAssert (dbg c : Bool) (msg : String) :
    NoUnderflow (debugAssert dbg c msg) := noUnderflow_assert _ _

@[simp] theorem noUnderflow_unwrap (x : Option α) (msg : String) : NoUnderflow (unwrap x msg) := by
  cases x <;> simp [unwrap]

@[simp] theorem noUnderflow_index (xs : List α) (i : Nat) : NoUnderflow (index xs i) := by
  unfold index; split <;> simp

@[simp] theorem noUnderflow_succ (dbg : Bool) (x : U64) : NoUnderflow (succ dbg x) := by
  unfold succ; split <;> simp

variable {f : σ → α → Res σ}

@[simp] theorem noUnderflow_foldlM (h : ∀ s x, NoUnderflow (f s x)) :
    ∀ (xs : List α) (s : σ), NoUnderflow (xs.foldlM f s)
  | [], _ => trivial
  | x :: xs, s => by
    exact noUnderflow_bind.2 ⟨h s x, fun s' _ => noUnderflow_foldlM h xs s'⟩

@[simp] theorem noUnderflow_mapM {f : α → Res β} (h : ∀ x, NoUnderflow (f x)) :
    ∀ xs : List α, NoUnderflow (xs.mapM f)
  | [] => trivial
  | x :: xs => by
    simp [h x, noUnderflow_mapM h xs]

variable {p : α → Res Bool}

@[simp] theorem noUnderflow_retain (h : ∀ x, NoUnderflow (p x)) :
    ∀ xs : List α, NoUnderflow (retain p xs)
  | [] => trivial
  | x :: xs => by simp [retain, h x, noUnderflow_retain h xs]

@[simp] theorem noUnderflow_partitionPoint (h : ∀ x, NoUnderflow (p x))
    (xs : List α) : NoUnderflow (partitionPoint p xs) := by
  have hloop : ∀ fuel left right, NoUnderflow (partitionPointLoop p xs fuel left right) := by
    intro fuel
    induction fuel with
    | zero => simp [partitionPointLoop]
    | succ fuel ih => intro left right; simp [partitionPointLoop, h, ih]
  exact hloop _ _ _

@[simp] theorem noUnderflow_sortBy {cmp : α → α → Res Ordering} (h : ∀ x y, NoUnderflow (cmp x y))
    (xs : List α) : NoUnderflow (sortBy cmp xs) := by
  have hins : ∀ x ys, NoUnderflow (insertTail cmp x ys) := by
    intro x ys
    induction ys with
    | nil => trivial
    | cons y ys ih => simp [insertTail, h, ih]
  simp [sortBy, hins]

/-! ## Loops -/

/-- A fold with an invariant under which no step underflows. -/
theorem returns_foldlM (P : σ → Prop) :
    ∀ {xs : List α} {s : σ}, (∀ x ∈ xs, ∀ s, P s → Returns (f s x) P) → P s →
      Returns (xs.foldlM f s) P
  | [], _, _, h => h
  | x :: xs, s, hf, h => by
    exact (hf x (.head _) s h).bind fun s' _ h' => returns_foldlM P (fun y hy => hf y (.tail _ hy)) h'

/-- A `mapAccumM` with an invariant of the elements done, the accumulator and the elements left. -/
theorem returns_mapAccumM {f : σ → α → Res (β × σ)} (P : List β → σ → List α → Prop)
    (hf : ∀ ys s x xs, P ys s (x :: xs) → Returns (f s x) fun r => P (ys ++ [r.1]) r.2 xs)
    {xs : List α} {s : σ} (h : P [] s xs) : Returns (mapAccumM f s xs) fun r => P r.1 r.2 [] :=
  ReturnsOr.mapAccumM P hf h

/-! ## Two computations -/

/-- Two computations that return values related by `R`, or panic alike. -/
def Agree (R : α → β → Prop) : Res α → Res β → Prop
  | .ok a, .ok b => R a b
  | .error e, .error e' => e = e'
  | _, _ => False

namespace Agree

variable {γ δ τ : Type} {R : α → β → Prop} {T : γ → δ → Prop} {y : Res β}

theorem bind {f : α → Res γ} {g : β → Res δ} (h : Agree R x y)
    (hfg : ∀ a b, R a b → Agree T (f a) (g b)) : Agree T (x >>= f) (y >>= g) := by
  match x, y, h with
  | .ok a, .ok b, h => exact hfg a b h
  | .error _, .error _, h => exact h

theorem refl : Agree (· = ·) x x := by
  cases x with
  | ok a => exact rfl
  | error e => exact rfl

theorem foldlM {S : σ → τ → Prop} {g : τ → α → Res τ}
    (hstep : ∀ x s t, S s t → Agree S (f s x) (g t x)) : ∀ {xs : List α} {s : σ} {t : τ}, S s t →
      Agree S (xs.foldlM f s) (xs.foldlM g t)
  | [], _, _, h => h
  | x :: xs, s, t, h => by
    exact (hstep x s t h).bind fun s' t' h' => foldlM hstep h'

theorem map_eq {f : α → γ} {g : β → γ} (h : Agree R x y) (hfg : ∀ a b, R a b → f a = g b) :
    x.map f = y.map g := by
  match x, y, h with
  | .ok a, .ok b, h => exact congrArg Except.ok (hfg a b h)
  | .error _, .error _, h => exact congrArg Except.error h

end Agree

end Res
