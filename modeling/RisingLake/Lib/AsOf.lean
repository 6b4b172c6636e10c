import Mathlib

/-!
# Reading a log as of a time

A log is a list of stamped entries, the newest first. `readAt` finds the first entry that is not
after the time and has a value. Entries stamped later than the time do not matter (`readAt_of_lt`),
nor does the time once it is past every stamp (`readAt_congr`). Reads only advance (`MonoFrom`) if
each entry put on the log is not behind what the log gives at last (`MonoFrom.cons`).
-/

namespace AsOf

variable {ε β γ : Type} [LinearOrder ε] {look : β → Option γ}

/-- The value of the first entry that is not after `t` and has one. -/
def readAt (look : β → Option γ) (t : ε) : List (ε × β) → Option γ
  | [] => none
  | x :: xs => if t < x.1 then readAt look t xs else (look x.2).or (readAt look t xs)

theorem readAt_append (t : ε) : ∀ xs ys : List (ε × β),
    readAt look t (xs ++ ys) = (readAt look t xs).or (readAt look t ys)
  | [], ys => rfl
  | x :: xs, ys => by
    rw [List.cons_append, readAt, readAt, readAt_append t xs ys]
    split
    · rfl
    · rw [Option.or_assoc]

theorem readAt_of_lt {t : ε} : ∀ {xs : List (ε × β)}, (∀ x ∈ xs, t < x.1) → readAt look t xs = none
  | [], _ => rfl
  | x :: xs, h => by
    rw [readAt, if_pos (h x (.head _)), readAt_of_lt fun y hy => h y (.tail _ hy)]

theorem readAt_congr {t t' : ε} : ∀ {xs : List (ε × β)}, (∀ x ∈ xs, x.1 ≤ t) →
    (∀ x ∈ xs, x.1 ≤ t') →
    readAt look t xs = readAt look t' xs
  | [], _, _ => rfl
  | x :: xs, h, h' => by
    rw [readAt, readAt, if_neg (not_lt.2 (h x (.head _))), if_neg (not_lt.2 (h' x (.head _))),
      readAt_congr (fun y hy => h y (.tail _ hy)) fun y hy => h' y (.tail _ hy)]

/-! ## Reads that only advance -/

/-- A value may appear, and then only advance. -/
def OptLe (le : γ → γ → Prop) : Option γ → Option γ → Prop
  | none, _ => True
  | some a, some b => le a b
  | some _, none => False

variable {le : γ → γ → Prop}

theorem OptLe.refl (hrefl : ∀ a, le a a) : ∀ o, OptLe le o o
  | none => trivial
  | some a => hrefl a

theorem OptLe.trans (htrans : ∀ a b c, le a b → le b c → le a c) :
    ∀ {o o' o''}, OptLe le o o' → OptLe le o' o'' → OptLe le o o''
  | none, _, _, _, _ => trivial
  | some _, some _, some _, h, h' => htrans _ _ _ h h'
  | some _, none, _, h, _ => h.elim
  | some _, some _, none, _, h' => h'.elim

/-- Reads at the times from which on `P` holds only advance. -/
def MonoFrom (look : β → Option γ) (le : γ → γ → Prop) (P : ε → Prop) (xs : List (ε × β)) : Prop :=
  ∀ t t', P t → t ≤ t' → OptLe le (readAt look t xs) (readAt look t' xs)

/-- A new entry keeps reads advancing, if it is not behind the last value. -/
theorem MonoFrom.cons {P : ε → Prop} {x : ε × β} {xs : List (ε × β)} {top : ε} (hrefl : ∀ a, le a a)
    (htrans : ∀ a b c, le a b → le b c → le a c) (htop : ∀ t, t ≤ top) (h : MonoFrom look le P xs)
    (hx : ∀ a, look x.2 = some a → OptLe le (readAt look top xs) (some a)) :
    MonoFrom look le P (x :: xs) := by
  intro t t' hP hle
  rw [readAt, readAt]
  by_cases ht : t < x.1
  · rw [if_pos ht]
    by_cases ht' : t' < x.1
    · rw [if_pos ht']
      exact h t t' hP hle
    · rw [if_neg ht']
      cases ha : look x.2 with
      | none => exact h t t' hP hle
      | some a => exact (h t top hP (htop t)).trans htrans (hx a ha)
  · rw [if_neg ht, if_neg fun ht' => ht (hle.trans_lt ht')]
    cases look x.2 with
    | none => exact h t t' hP hle
    | some a => exact OptLe.refl hrefl _

end AsOf
