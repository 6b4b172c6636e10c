import RisingLake.Lib.Res

/-!
# Byte strings

Byte strings are compared lexicographically (`List`'s order), as slices of `u8` are. `beNat` reads a
big-endian number and `beBytes n` writes one in `n` bytes; `leNat` and `leBytes` do so from the
other end. `getBe` and `getLe` read a number off the front of a buffer, and panic at its end.

* `beNat_beBytes`, `beBytes_beNat`: the two are inverse on numbers that fit and strings of the
length.
* `append_lt_append_iff`, `beNat_lt_iff`: strings with prefixes of one length are compared prefix
first, and strings of one length as the numbers they encode.
-/

/-- `&[u8]`, `Vec<u8>`, `Bytes`. -/
abbrev Bytes := List U8

instance (priority := high) transOrdBytes : @Std.TransOrd Bytes LinearOrder.toOrd := inferInstance

namespace Bytes

open Res List

variable (bs : Bytes)

/-- The number a big-endian string encodes. -/
def beNat : Nat := bs.foldl (fun acc b => acc * 256 + b.val) 0

/-- `x` in `n` big-endian bytes (the low ones, if it does not fit). -/
def beBytes : Nat → Nat → Bytes
  | 0, _ => []
  | n + 1, x => beBytes n (x / 256) ++ [Fin.ofNat 256 x]

@[simp] theorem length_beBytes : ∀ n x, (beBytes n x).length = n
  | 0, _ => rfl
  | n + 1, x => by simp [beBytes, length_beBytes n]

@[simp] theorem beNat_nil : beNat [] = 0 := rfl

@[simp] theorem beNat_append_singleton (b : U8) : beNat (bs ++ [b]) = beNat bs * 256 + b.val := by
  simp [beNat]

theorem beNat_lt : beNat bs < 256 ^ bs.length := by
  induction bs using reverseRecOn with
  | nil => simp
  | append_singleton bs b ih =>
    rw [beNat_append_singleton, length_append, length_singleton]
    omega

theorem beNat_beBytes : ∀ {n x : Nat}, x < 256 ^ n → beNat (beBytes n x) = x
  | 0, x, h => by
    simp at h; simp [beBytes, h]
  | n + 1, x, h => by
    rw [beBytes, beNat_append_singleton, beNat_beBytes (by rw [pow_succ] at h; omega)]
    simp only [Fin.ofNat_eq_cast, Fin.val_natCast]
    omega

theorem beBytes_beNat : beBytes bs.length (beNat bs) = bs := by
  induction bs using reverseRecOn with
  | nil => rfl
  | append_singleton bs b ih =>
    rw [length_append, length_singleton, beBytes, beNat_append_singleton,
      show (beNat bs * 256 + b.val) / 256 = beNat bs by omega]
    congr 2
    apply Fin.ext
    simp only [Fin.ofNat_eq_cast, Fin.val_natCast]
    omega

/-- `x` in `n` little-endian bytes. -/
def leBytes (n x : Nat) : Bytes := (beBytes n x).reverse

/-- The number a little-endian string encodes. -/
def leNat : Nat := beNat bs.reverse

@[simp] theorem length_leBytes (n x : Nat) : (leBytes n x).length = n := by simp [leBytes]

theorem leBytes_succ (n x : Nat) : leBytes (n + 1) x = Fin.ofNat 256 x :: leBytes n (x / 256) := by
  simp [leBytes, beBytes]

variable {n x : Nat}

theorem leNat_leBytes (h : x < 256 ^ n) : leNat (leBytes n x) = x := by
  rw [leNat, leBytes, reverse_reverse, beNat_beBytes h]

/-! ## Slices and readers -/

/-- `&bs[start..stop]`. -/
def slice (start stop : Nat) : Res Bytes :=
  if start ≤ stop ∧ stop ≤ bs.length then .ok ((bs.take stop).drop start) else .error .index

theorem slice_append (a b c : Bytes) {start stop : Nat} (hstart : start = a.length)
    (hstop : stop = a.length + b.length) : slice (a ++ (b ++ c)) start stop = .ok b := by
  subst hstart hstop
  unfold slice
  rw [if_pos (by simp), ← append_assoc, take_left' (by simp), drop_left]

/-- Takes `n` bytes off the front of a buffer (`Buf`). -/
def getBytes (n : Nat) (bs : Bytes) : Res (Bytes × Bytes) :=
  if n ≤ bs.length then .ok (bs.take n, bs.drop n) else .error .index

theorem getBytes_append {n : Nat} {bs : Bytes} (rest : Bytes) (h : bs.length = n) :
    getBytes n (bs ++ rest) = .ok (bs, rest) := by
  unfold getBytes
  rw [if_pos (by simp [h]), take_left' h, drop_left' h]

def getBe (n : Nat) (bs : Bytes) : Res (Nat × Bytes) := do
  let (x, bs) ← getBytes n bs
  .ok (beNat x, bs)

def getLe (n : Nat) (bs : Bytes) : Res (Nat × Bytes) := do
  let (x, bs) ← getBytes n bs
  .ok (leNat x, bs)

theorem getBe_beBytes (h : x < 256 ^ n) (rest : Bytes) :
    getBe n (beBytes n x ++ rest) = .ok (x, rest) := by
  rw [getBe, getBytes_append rest (length_beBytes n x), ok_bind]
  dsimp only
  rw [beNat_beBytes h]

theorem getLe_leBytes (h : x < 256 ^ n) (rest : Bytes) :
    getLe n (leBytes n x ++ rest) = .ok (x, rest) := by
  rw [getLe, getBytes_append rest (length_leBytes n x), ok_bind]
  dsimp only
  rw [leNat_leBytes h]

/-! ## The order -/

theorem append_lt_append_iff : ∀ {a b : Bytes} (c d : Bytes), a.length = b.length →
    (a ++ c < b ++ d ↔ a < b ∨ a = b ∧ c < d)
  | [], [], c, d, _ => by simp
  | [], _ :: _, _, _, h => by simp at h
  | _ :: _, [], _, _, h => by simp at h
  | x :: a, y :: b, c, d, h => by
    have ih := append_lt_append_iff c d (by simpa using h)
    simp only [cons_append, cons_lt_cons_iff, ih]
    grind

theorem append_le_append_left (a : Bytes) {c d : Bytes} : a ++ c ≤ a ++ d ↔ c ≤ d := by
  rw [← not_lt, append_lt_append_iff _ _ rfl]
  simp

theorem append_lt_append_left (a : Bytes) {c d : Bytes} : a ++ c < a ++ d ↔ c < d := by
  rw [append_lt_append_iff _ _ rfl]
  simp

theorem beNat_lt_iff {a b : Bytes} (h : a.length = b.length) : a < b ↔ beNat a < beNat b := by
  induction a using reverseRecOn generalizing b with
  | nil =>
    have : b = [] := length_eq_zero_iff.1 (by simpa using h.symm)
    simp [this]
  | append_singleton a x ih =>
    induction b using reverseRecOn with
    | nil => simp at h
    | append_singleton b y _ =>
      have hl : a.length = b.length := by simpa using h
      rw [append_lt_append_iff _ _ hl, ih hl, beNat_append_singleton, beNat_append_singleton]
      have hxy : ([x] : Bytes) < [y] ↔ x.val < y.val := by
        simp [cons_lt_cons_iff]
      rw [hxy]
      constructor
      · rintro (hlt | ⟨rfl, hlt⟩) <;> omega
      · intro hlt
        by_cases hab : beNat a < beNat b
        · exact .inl hab
        · have he : beNat a = beNat b := by omega
          refine .inr ⟨?_, by omega⟩
          rw [← beBytes_beNat a, ← beBytes_beNat b, hl, he]

end Bytes
