import RisingLake.Lib.Maps

/-!
# Sorted association lists

`SortedMap K V` is an ordered map as the list of its entries, in strict order of their keys. Where a
map is a part of a sorted list, an operation on the list is the operation on the part that its key
falls in (`insertEntry_append_left`, `insertEntry_append_right`, `eraseKey_append`).
-/

namespace SortedMap

open List IterMap

variable {K V : Type} [LinearOrder K] {es es' : List (K × V)} {k : K} {v : V}

/-- The entries are in strict order of their keys. -/
def Sorted (es : List (K × V)) : Prop := es.Pairwise fun e e' => e.1 < e'.1

/-- The entries with one more, which replaces the one under its key. -/
def insertEntry (k : K) (v : V) : List (K × V) → List (K × V)
  | [] => [(k, v)]
  | e :: es =>
    if k < e.1 then (k, v) :: e :: es
    else if k = e.1 then (k, v) :: es
    else e :: insertEntry k v es

def eraseKey (k : K) (es : List (K × V)) : List (K × V) := es.filter fun e => e.1 ≠ k

/-! ## Inserting -/

theorem forall_mem_insertEntry {P : K × V → Prop} (hk : P (k, v)) (h : ∀ e ∈ es, P e) :
    ∀ e ∈ insertEntry k v es, P e := by
  induction es with
  | nil => exact forall_mem_singleton.2 hk
  | cons x es ih =>
    rw [forall_mem_cons] at h
    rw [insertEntry]
    split
    · exact forall_mem_cons.2 ⟨hk, forall_mem_cons.2 h⟩
    split
    · exact forall_mem_cons.2 ⟨hk, h.2⟩
    · exact forall_mem_cons.2 ⟨h.1, ih h.2⟩

theorem sorted_insertEntry (h : Sorted es) (k : K) (v : V) : Sorted (insertEntry k v es) := by
  induction es with
  | nil => exact pairwise_singleton _ _
  | cons x es ih =>
    obtain ⟨hx, hes⟩ := pairwise_cons.1 h
    rw [insertEntry]
    split
    · rename_i hlt
      refine pairwise_cons.2 ⟨fun e he => ?_, h⟩
      rcases mem_cons.1 he with rfl | he
      · exact hlt
      · exact hlt.trans (hx e he)
    · split
      · rename_i heq
        subst heq
        exact pairwise_cons.2 ⟨hx, hes⟩
      · rename_i hlt hne
        exact pairwise_cons.2
          ⟨forall_mem_insertEntry (lt_of_le_of_ne (not_lt.1 hlt) (Ne.symm hne)) hx, ih hes⟩

theorem insertEntry_of_lt (h : ∀ e ∈ es, k < e.1) : insertEntry k v es = (k, v) :: es := by
  cases es with
  | nil => rfl
  | cons e es => rw [insertEntry, if_pos (h e (.head _))]

theorem insertEntry_append_right (h : ∀ e ∈ es, e.1 < k) :
    insertEntry k v (es ++ es') = es ++ insertEntry k v es' := by
  induction es with
  | nil => rfl
  | cons e es ih =>
    have he := h e (.head _)
    rw [cons_append, insertEntry, if_neg he.le.not_gt, if_neg he.ne',
      ih fun e' he' => h e' (.tail _ he')]
    rfl

theorem insertEntry_append_left (h : ∀ e ∈ es', k < e.1) :
    insertEntry k v (es ++ es') = insertEntry k v es ++ es' := by
  induction es with
  | nil => exact insertEntry_of_lt h
  | cons e es ih =>
    rw [cons_append, insertEntry, insertEntry, ih]
    split
    · rfl
    · split <;> rfl

theorem insertEntry_of_gt (h : ∀ e ∈ es, e.1 < k) : insertEntry k v es = es ++ [(k, v)] := by
  conv_lhs => rw [← append_nil es]
  exact insertEntry_append_right h

theorem length_insertEntry (h : ∀ e ∈ es, e.1 ≠ k) :
    (insertEntry k v es).length = es.length + 1 := by
  induction es with
  | nil => rfl
  | cons e es ih =>
    rw [insertEntry, if_neg (Ne.symm (h e (.head _)))]
    split
    · rfl
    · rw [length_cons, ih fun e' he' => h e' (.tail _ he'), length_cons]

theorem insertEntry_ne_nil : insertEntry k v es ≠ [] := by
  cases es with
  | nil => simp [insertEntry]
  | cons e es =>
    rw [insertEntry]
    split
    · simp
    · split <;> simp

theorem lookup_insertEntry (h : Sorted es) (k : K) (v : V) (a : K) :
    (insertEntry k v es).lookup a = if a = k then some v else es.lookup a := by
  induction es with
  | nil => rw [insertEntry, lookup_cons_eq]
  | cons e es ih =>
    obtain ⟨-, hes⟩ := pairwise_cons.1 h
    rw [insertEntry]
    split
    · rw [lookup_cons_eq]
    split
    · rename_i heq
      rw [lookup_cons_eq, lookup_cons_eq, heq]
      split <;> rfl
    rename_i hne
    rw [lookup_cons_eq, lookup_cons_eq, ih hes]
    by_cases hak : a = k
    · subst hak
      rw [if_neg hne, if_pos rfl, if_pos rfl]
    · rw [if_neg hak, if_neg hak]

/-! ## Erasing -/

theorem eraseKey_append : eraseKey k (es ++ es') = eraseKey k es ++ eraseKey k es' :=
  filter_append ..

theorem eraseKey_of_ne (h : ∀ e ∈ es, e.1 ≠ k) : eraseKey k es = es :=
  filter_eq_self.2 fun e he => decide_eq_true (h e he)

theorem eraseKey_cons_self (h : ∀ e ∈ es, e.1 ≠ k) : eraseKey k ((k, v) :: es) = es := by
  rw [eraseKey, filter_cons_of_neg (by simp)]
  exact eraseKey_of_ne h

theorem sorted_eraseKey (h : Sorted es) (k : K) : Sorted (eraseKey k es) := h.filter _

theorem lookup_eraseKey (k a : K) (es : List (K × V)) :
    (eraseKey k es).lookup a = if a = k then none else es.lookup a := by
  induction es with
  | nil => simp [eraseKey]
  | cons e es ih =>
    have ih' : (es.filter fun e => decide (e.1 ≠ k)).lookup a = _ := ih
    rw [eraseKey, filter_cons]
    by_cases hek : e.1 = k
    · rw [if_neg (by simp [hek]), ih', lookup_cons_eq, hek]
      split <;> rfl
    · rw [if_pos (by simp [hek]), lookup_cons_eq, lookup_cons_eq, ih']
      by_cases hak : a = e.1
      · rw [if_pos hak, if_pos hak, if_neg (hak ▸ hek)]
      · rw [if_neg hak, if_neg hak]

theorem eraseKey_of_mem (h : Sorted es) (hmem : (k, v) ∈ es) :
    ∃ before after, es = before ++ (k, v) :: after ∧ eraseKey k es = before ++ after := by
  obtain ⟨before, after, rfl⟩ := append_of_mem hmem
  refine ⟨before, after, rfl, ?_⟩
  obtain ⟨-, hafter, hcross⟩ := pairwise_append.1 h
  rw [eraseKey_append, eraseKey_of_ne fun e he => (hcross e he _ (.head _)).ne,
    eraseKey_cons_self fun e he => ((pairwise_cons.1 hafter).1 e he).ne']

theorem length_eraseKey (h : Sorted es) (hmem : (k, v) ∈ es) :
    (eraseKey k es).length + 1 = es.length := by
  obtain ⟨before, after, rfl, herase⟩ := eraseKey_of_mem h hmem
  rw [herase]
  simp
  omega

theorem mem_iff_lookup (h : Sorted es) : (k, v) ∈ es ↔ es.lookup k = some v := by
  induction es with
  | nil => simp
  | cons e es ih =>
    obtain ⟨he, hes⟩ := pairwise_cons.1 h
    rw [lookup_cons_eq, mem_cons]
    by_cases hk : k = e.1
    · subst hk
      rw [if_pos rfl]
      constructor
      · rintro (heq | hmem)
        · exact congrArg some (Prod.mk.inj heq).2.symm
        · exact absurd (he _ hmem) (lt_irrefl _)
      · intro hv
        exact .inl (congrArg (Prod.mk _) (Option.some.inj hv).symm)
    · rw [if_neg hk, ← ih hes]
      constructor
      · rintro (heq | hmem)
        · exact absurd (Prod.mk.inj heq).1 hk
        · exact hmem
      · exact .inr

theorem lookup_eq_none (h : ∀ e ∈ es, e.1 ≠ k) : es.lookup k = none := by
  rw [lookup_eq_none_iff]
  intro e he
  rw [bne_iff_ne]
  exact (h e he).symm

/-! ## Where a key falls -/

theorem sorted_append : Sorted (es ++ es') ↔
    Sorted es ∧ Sorted es' ∧ ∀ e ∈ es, ∀ e' ∈ es', e.1 < e'.1 := pairwise_append

theorem lt_last (h : Sorted (es ++ [e])) : ∀ x ∈ es, x.1 < e.1 :=
  fun x hx => (sorted_append.1 h).2.2 x hx e (.head _)

theorem le_last (h : Sorted (es ++ [e])) : ∀ x ∈ es ++ [e], x.1 ≤ e.1 :=
  forall_mem_append.2 ⟨fun x hx => (lt_last h x hx).le, forall_mem_singleton.2 le_rfl⟩

theorem insertEntry_before (h : Sorted (es ++ e :: es')) (hlt : k < e.1) :
    insertEntry k v (es ++ e :: es') = insertEntry k v es ++ e :: es' := by
  obtain ⟨-, hright, -⟩ := sorted_append.1 h
  refine insertEntry_append_left fun x hx => ?_
  rcases mem_cons.1 hx with rfl | hx
  · exact hlt
  · exact hlt.trans ((pairwise_cons.1 hright).1 x hx)

theorem insertEntry_after (h : Sorted (es ++ e :: es')) (hlt : e.1 < k) :
    insertEntry k v (es ++ e :: es') = es ++ e :: insertEntry k v es' := by
  have hleft : Sorted (es ++ [e]) := by
    rw [append_cons] at h
    exact (sorted_append.1 h).1
  rw [append_cons, insertEntry_append_right fun x hx => (le_last hleft x hx).trans_lt hlt,
    append_assoc]
  rfl

end SortedMap

/-- An ordered map, as the list of its entries. -/
structure SortedMap (K V : Type) [LinearOrder K] where
  entries : List (K × V)
  sorted : SortedMap.Sorted entries

namespace SortedMap

open List

variable {K V : Type} [LinearOrder K]

@[ext] theorem ext {m m' : SortedMap K V} (h : m.entries = m'.entries) : m = m' := by
  cases m
  cases m'
  cases h
  rfl

def empty : SortedMap K V := ⟨[], .nil⟩

def isEmpty (m : SortedMap K V) : Bool := m.entries.isEmpty

def len (m : SortedMap K V) : Nat := m.entries.length

def get? (m : SortedMap K V) (k : K) : Option V := m.entries.lookup k

def insert (m : SortedMap K V) (k : K) (v : V) : SortedMap K V :=
  ⟨insertEntry k v m.entries, sorted_insertEntry m.sorted k v⟩

/-- `BTreeMap::remove`, without the value. -/
def erase (m : SortedMap K V) (k : K) : SortedMap K V :=
  ⟨eraseKey k m.entries, sorted_eraseKey m.sorted k⟩

def firstKeyValue (m : SortedMap K V) : Option (K × V) := m.entries.head?

def lastKeyValue (m : SortedMap K V) : Option (K × V) := m.entries.getLast?

def dropFirst (m : SortedMap K V) : SortedMap K V := ⟨m.entries.tail, m.sorted.tail⟩

def dropLast (m : SortedMap K V) : SortedMap K V :=
  ⟨m.entries.dropLast, m.sorted.sublist (dropLast_sublist _)⟩

/-- `BTreeMap::retain`. -/
def retain (m : SortedMap K V) (p : K → Bool) : SortedMap K V :=
  ⟨m.entries.filter fun e => p e.1, m.sorted.filter _⟩

variable {m : SortedMap K V}

@[simp] theorem entries_empty : (empty : SortedMap K V).entries = [] := rfl

@[simp] theorem isEmpty_empty : (empty : SortedMap K V).isEmpty = true := rfl

theorem isEmpty_iff : m.isEmpty = true ↔ m.entries = [] := List.isEmpty_iff

variable (m) (k : K) (v : V)

@[simp] theorem entries_insert : (m.insert k v).entries = insertEntry k v m.entries := rfl

@[simp] theorem entries_erase : (m.erase k).entries = eraseKey k m.entries := rfl

@[simp] theorem entries_retain (p : K → Bool) :
    (m.retain p).entries = m.entries.filter fun e => p e.1 := rfl

@[simp] theorem entries_dropFirst : m.dropFirst.entries = m.entries.tail := rfl

@[simp] theorem entries_dropLast : m.dropLast.entries = m.entries.dropLast := rfl

theorem get?_insert : (m.insert k v).get? = Function.update m.get? k (some v) := by
  funext a
  rw [get?, entries_insert, lookup_insertEntry m.sorted, Function.update_apply]
  rfl

theorem get?_erase : (m.erase k).get? = Function.update m.get? k none := by
  funext a
  rw [get?, entries_erase, lookup_eraseKey, Function.update_apply]
  rfl

@[simp] theorem get?_insert_self : (m.insert k v).get? k = some v := by
  rw [get?_insert, Function.update_self]

theorem get?_insert_of_ne {a k : K} (h : a ≠ k) (m : SortedMap K V) (v : V) :
    (m.insert k v).get? a = m.get? a := by
  rw [get?_insert, Function.update_of_ne h]

@[simp] theorem get?_erase_self : (m.erase k).get? k = none := by
  rw [get?_erase, Function.update_self]

theorem get?_erase_of_ne {a k : K} (h : a ≠ k) (m : SortedMap K V) :
    (m.erase k).get? a = m.get? a := by
  rw [get?_erase, Function.update_of_ne h]

variable {m k v}

theorem get?_eq_some_iff : m.get? k = some v ↔ (k, v) ∈ m.entries :=
  (mem_iff_lookup m.sorted).symm

theorem dropLast_eq_erase {e : K × V} (h : m.lastKeyValue = some e) : m.dropLast = m.erase e.1 := by
  obtain ⟨es, hes⟩ := getLast?_eq_some_iff.1 h
  have hsorted := m.sorted
  rw [hes] at hsorted
  apply ext
  rw [entries_erase, entries_dropLast, hes, eraseKey_append,
    eraseKey_of_ne fun x hx => (lt_last hsorted x hx).ne]
  simp [eraseKey]

theorem dropFirst_eq_erase {e : K × V} (h : m.firstKeyValue = some e) :
    m.dropFirst = m.erase e.1 := by
  obtain ⟨es, hes⟩ := head?_eq_some_iff.1 h
  have hsorted := m.sorted
  rw [hes] at hsorted
  apply ext
  rw [entries_erase, entries_dropFirst, hes, tail_cons,
    eraseKey_cons_self fun x hx => ((pairwise_cons.1 hsorted).1 x hx).ne']

/-! ## Maps from lists -/

/-- `BTreeMap::from_iter`: a later entry replaces an earlier one of its key. -/
def ofList (es : List (K × V)) : SortedMap K V := es.foldl (fun m e => m.insert e.1 e.2) empty

variable {es : List (K × V)} {k : K} {v : V}

theorem insertEntry_perm (h : ∀ e ∈ es, e.1 ≠ k) : (insertEntry k v es).Perm ((k, v) :: es) := by
  induction es with
  | nil => exact .refl _
  | cons e es ih =>
    rw [insertEntry]
    split
    · exact .refl _
    · split
      · rename_i heq
        exact absurd heq.symm (h e (.head _))
      · exact ((ih fun x hx => h x (.tail _ hx)).cons e).trans (.swap ..)

theorem foldl_insert_perm (m : SortedMap K V) (h : (es.map (·.1)).Nodup)
    (hfresh : ∀ e ∈ m.entries, ∀ e' ∈ es, e.1 ≠ e'.1) :
    (es.foldl (fun m e => m.insert e.1 e.2) m).entries.Perm (es ++ m.entries) := by
  induction es generalizing m with
  | nil => exact .refl _
  | cons e es ih =>
    rw [map_cons, nodup_cons] at h
    have hperm : (m.insert e.1 e.2).entries.Perm (e :: m.entries) :=
      insertEntry_perm fun x hx => hfresh x hx e (.head _)
    refine (ih (m.insert e.1 e.2) h.2 fun x hx x' hx' => ?_).trans ?_
    · rcases mem_cons.1 (hperm.subset hx) with rfl | hx
      · exact fun heq => h.1 (heq ▸ mem_map_of_mem hx')
      · exact hfresh x hx x' (.tail _ hx')
    · exact (hperm.append_left es).trans perm_middle

theorem entries_ofList_perm (h : (es.map (·.1)).Nodup) : (ofList es).entries.Perm es := by
  have hperm := foldl_insert_perm empty h nofun
  rwa [entries_empty, append_nil] at hperm

theorem sorted_zip {W : Type} {ks : List K} (h : ks.Pairwise (· < ·)) (vs : List W) :
    Sorted (ks.zip vs) := by
  induction ks generalizing vs with
  | nil => exact .nil
  | cons k ks ih =>
    obtain ⟨hk, hks⟩ := pairwise_cons.1 h
    cases vs with
    | nil => exact .nil
    | cons v vs => exact pairwise_cons.2 ⟨fun e he => hk e.1 (of_mem_zip he).1, ih hks vs⟩

/-- The map with other values under its keys, in the order of the keys. -/
def withValues {W : Type} (m : SortedMap K V) (vs : List W) : SortedMap K W :=
  ⟨(m.entries.map (·.1)).zip vs, sorted_zip (pairwise_map.2 m.sorted) vs⟩

end SortedMap
