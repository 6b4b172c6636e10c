import RisingLake.Stream.Proof.TopNTiesRefill

/-!
# Runs of a top-N cache

The executors write a row to the table and then hand it to the cache. Over any run of inserts and
deletes that is consistent with the table the cache serves the rows of the result (`Serves`), and a
staging that is passed along a part of the run holds the changes of the middle over that part.
-/

namespace Stream.TopNCache

open Res SortedMap List

variable {V : Type}

/-! ## What the parts hold -/

/-- The first `limit` rows, with the rows that are tied with the last one of them. -/
def firstWithTies (limit : Nat) (T : Rows V) : Rows V :=
  T.take limit ++ (T.drop limit).filter
    fun e => (T.take limit).getLast?.any (·.1.sortKey = e.1.sortKey)

def result (withTies : Bool) (offset limit : Nat) (T : Rows V) : Rows V :=
  if withTies then firstWithTies limit T else (T.drop offset).take limit

/-- The parts are the first rows of the table without a gap, and the middle has the rows of the
result. -/
structure Serves (withTies : Bool) (offset limit : Nat) (T : Rows V) (c : TopNCache V) : Prop where
  first_rows : lowEntries c ++ c.middle.entries ++ c.high.entries <+: T
  low_eq : lowEntries c = T.take offset
  middle_eq : c.middle.entries = result withTies offset limit T

theorem take_drop_of_split {α : Type} {xs front back : List α} {n : Nat}
    (hsplit : xs = front ++ back) (hle : front.length ≤ n) (hback : front.length < n → back = []) :
    xs.take n = front ∧ xs.drop n = back := by
  rcases hle.lt_or_eq with hlt | rfl
  · rw [hsplit, hback hlt, append_nil]
    exact ⟨take_of_length_le hle, drop_of_length_le hle⟩
  · rw [hsplit]
    exact ⟨take_left, drop_left⟩

variable {offset limit : Nat} {T rest : Rows V} {c : TopNCache V}

theorem Holds.serves (h : Holds offset limit T rest c) : Serves false offset limit T c := by
  obtain ⟨hlow, hbelow⟩ := take_drop_of_split h.split (h.offset_eq ▸ h.low_le) (by
    intro hlt
    rw [← h.offset_eq] at hlt
    have hnil := h.low_full hlt
    rw [hnil, h.high_nil hlt, h.rest_nil (by rw [hnil]; exact h.limit_pos)]
    rfl)
  obtain ⟨hmiddle, -⟩ := take_drop_of_split hbelow (h.limit_eq ▸ h.middle_le) (by
    intro hlt
    rw [← h.limit_eq] at hlt
    rw [h.middle_full hlt, h.rest_nil hlt]
    rfl)
  refine ⟨⟨rest, ?_⟩, hlow.symm, hmiddle.symm⟩
  rw [h.split, append_assoc, append_assoc]

theorem HoldsTies.serves (h : HoldsTies limit T rest c) : Serves true 0 limit T c := by
  refine ⟨⟨rest, ?_⟩, h.lowEntries_nil, ?_⟩
  · rw [h.split, h.lowEntries_nil, nil_append, append_assoc]
  change c.middle.entries = firstWithTies limit T
  unfold firstWithTies
  have hlimit := h.limit_eq
  subst hlimit
  by_cases hfull : c.limit ≤ c.middle.entries.length
  · obtain ⟨before, ties, last, hlast, hends, hbefore, hbelow⟩ := h.exists_ties hfull
    have htake : T.take c.limit = c.middle.entries.take c.limit := by
      rw [h.split, take_append_of_le_length hfull]
    have hdrop : T.drop c.limit = c.middle.entries.drop c.limit ++ (c.high.entries ++ rest) := by
      rw [h.split, drop_append_of_le_length hfull]
    -- the first `limit` rows end with one of the ties, which are all that follows in the middle
    have hfirst : ∃ x, (c.middle.entries.take c.limit).getLast? = some x ∧
        x.1.sortKey = last.1.sortKey := by
      rw [hends.split, take_append]
      have hne : ties.take (c.limit - before.length) ≠ [] := by
        rw [hends.split, length_append] at hfull
        apply ne_nil_of_length_pos
        rw [length_take]
        omega
      rw [getLast?_append_of_ne_nil _ hne, getLast?_eq_some_getLast hne]
      exact ⟨_, rfl, hends.ties_eq _ (mem_of_mem_take (getLast_mem hne))⟩
    obtain ⟨x, hx, hxs⟩ := hfirst
    have hrest : ∀ e ∈ c.middle.entries.drop c.limit, e.1.sortKey = last.1.sortKey := by
      intro e he
      rw [hends.split, drop_append, drop_of_length_le hbefore.le] at he
      exact hends.ties_eq e (mem_of_mem_drop he)
    rw [htake, hdrop, hx, filter_append, filter_eq_self.2, filter_eq_nil_iff.2, append_nil,
      take_append_drop]
    · intro e he
      simpa [hxs] using (hbelow e he).ne
    · intro e he
      simp [hxs, hrest e he]
  · obtain ⟨hhigh, hrest⟩ := h.below_nil (by omega)
    have hT : T = c.middle.entries := by rw [h.split, hhigh, hrest, append_nil, append_nil]
    rw [hT, drop_of_length_le (by omega), take_of_length_le (by omega)]
    simp

/-! ## Runs -/

/-- A row that comes in or goes out. -/
inductive TopNOp (V : Type) where
  | insert (cacheKey : CacheKey) (row : V)
  | delete (cacheKey : CacheKey) (row : V)

namespace TopNOp

/-- The table after the row was written. -/
def onTable (table : Cache V) : TopNOp V → Cache V
  | insert k row => table.insert k row
  | delete k _ => table.erase k

/-- A new key is inserted; a row that is there is deleted. -/
def Consistent (table : Cache V) : TopNOp V → Prop
  | insert k _ => table.get? k = none
  | delete k row => table.get? k = some row

/-- The table is written before the cache is called. -/
def apply [DecidableEq V] (withTies : Bool) (build : Build) :
    Cache V × TopNCache V × TopNStaging V → TopNOp V → Res (Cache V × TopNCache V × TopNStaging V)
  | (table, c, staging), insert k row => do
    let table := table.insert k row
    let (c, staging) ← if withTies then c.insertWithTies k row staging else c.insert k row staging
    .ok (table, c, staging)
  | (table, c, staging), delete k row => do
    let table := table.erase k
    let (c, staging) ← if withTies then c.deleteWithTies build table k row staging
      else c.delete build table k row staging
    .ok (table, c, staging)

def ConsistentRun (table : Cache V) : List (TopNOp V) → Prop
  | [] => True
  | op :: ops => op.Consistent table ∧ ConsistentRun (op.onTable table) ops

instance [DecidableEq V] (table : Cache V) : (op : TopNOp V) → Decidable (op.Consistent table)
  | insert k _ => inferInstanceAs (Decidable (table.get? k = none))
  | delete k row => inferInstanceAs (Decidable (table.get? k = some row))

instance decidableConsistentRun [DecidableEq V] :
    (table : Cache V) → (ops : List (TopNOp V)) → Decidable (ConsistentRun table ops)
  | _, [] => inferInstanceAs (Decidable True)
  | table, op :: ops =>
    have := decidableConsistentRun (op.onTable table) ops
    inferInstanceAs (Decidable (op.Consistent table ∧ ConsistentRun (op.onTable table) ops))

def tableAfter (table : Cache V) (ops : List (TopNOp V)) : Cache V := ops.foldl onTable table

def applyAll [DecidableEq V] (withTies : Bool) (build : Build)
    (s : Cache V × TopNCache V × TopNStaging V) (ops : List (TopNOp V)) :
    Res (Cache V × TopNCache V × TopNStaging V) :=
  ops.foldlM (apply withTies build) s

theorem consistentRun_append {ops₁ ops₂ : List (TopNOp V)} {table : Cache V} :
    ConsistentRun table (ops₁ ++ ops₂) ↔
      ConsistentRun table ops₁ ∧ ConsistentRun (tableAfter table ops₁) ops₂ := by
  induction ops₁ generalizing table with
  | nil => exact ⟨fun h => ⟨trivial, h⟩, fun h => h.2⟩
  | cons op ops₁ ih =>
    rw [cons_append, ConsistentRun, ConsistentRun, ih, and_assoc]
    rfl

end TopNOp

/-- What is kept, for either kind of cache. -/
def Kept (withTies : Bool) (offset limit : Nat) (T : Rows V) (c : TopNCache V) : Prop :=
  match withTies with
  | false => ∃ rest, Holds offset limit T rest c
  | true => offset = 0 ∧ ∃ rest, HoldsTies limit T rest c

variable {withTies : Bool}

theorem Kept.serves (h : Kept withTies offset limit T c) : Serves withTies offset limit T c := by
  cases withTies with
  | false =>
    obtain ⟨rest, h⟩ := h
    exact h.serves
  | true =>
    obtain ⟨rfl, rest, h⟩ := h
    exact h.serves

theorem fresh_of_get? {table : Cache V} {k : CacheKey} (h : table.get? k = none) :
    ∀ e ∈ table.entries, e.1 ≠ k := by
  rintro e he rfl
  have hget : table.get? e.1 = some e.2 := get?_eq_some_iff.2 he
  rw [h] at hget
  cases hget

variable [DecidableEq V] {base : CacheKey → Option V} {staging : TopNStaging V} {table : Cache V}

theorem Yields.withTable {P : Rows V → TopNCache V → Prop} {Q : TopNCache V → Prop}
    {r : Res (TopNCache V × TopNStaging V)} (h : Yields P base r) (table : Cache V)
    (hQ : ∀ rest c, P rest c → Q c) :
    ∃ c staging, (r >>= fun r => .ok (table, r)) = .ok (table, c, staging) ∧ Q c ∧
      staging.Net base c.middle.get? := by
  obtain ⟨c, staging, rest, rfl, hP, hnet⟩ := h
  exact ⟨c, staging, rfl, hQ rest c hP, hnet⟩

section
variable (h : Kept withTies offset limit table.entries c) (hnet : staging.Net base c.middle.get?)
  (build : Build)
include h hnet

theorem step_kept {op : TopNOp V} (hop : op.Consistent table) :
    ∃ c' staging', op.apply withTies build (table, c, staging) =
      .ok (op.onTable table, c', staging') ∧
      Kept withTies offset limit (op.onTable table).entries c' ∧
      staging'.Net base c'.middle.get? := by
  cases op with
  | insert k row =>
    have hfresh := fresh_of_get? hop
    cases withTies with
    | false =>
      obtain ⟨rest, h⟩ := h
      exact (insert_spec h table.sorted hfresh row hnet).withTable _ fun rest' c' h' => ⟨rest', h'⟩
    | true =>
      obtain ⟨hoffset, rest, h⟩ := h
      exact (insertWithTies_spec h table.sorted hfresh row hnet).withTable _
        fun rest' c' h' => ⟨hoffset, rest', h'⟩
  | delete k row =>
    have hmem : (k, row) ∈ table.entries := get?_eq_some_iff.1 hop
    cases withTies with
    | false =>
      obtain ⟨rest, h⟩ := h
      exact (delete_spec h table.sorted hmem (entries_erase table k) hnet build).withTable _
        fun rest' c' h' => ⟨rest', h'⟩
    | true =>
      obtain ⟨hoffset, rest, h⟩ := h
      exact (deleteWithTies_spec hnet h table.sorted hmem (entries_erase table k) build).withTable _
        fun rest' c' h' => ⟨hoffset, rest', h'⟩

theorem run_kept {ops : List (TopNOp V)} (hops : TopNOp.ConsistentRun table ops) :
    ∃ c' staging', TopNOp.applyAll withTies build (table, c, staging) ops =
        .ok (TopNOp.tableAfter table ops, c', staging') ∧
      Kept withTies offset limit (TopNOp.tableAfter table ops).entries c' ∧
      staging'.Net base c'.middle.get? := by
  induction ops generalizing table c staging with
  | nil => exact ⟨c, staging, rfl, h, hnet⟩
  | cons op ops ih =>
    obtain ⟨c₁, staging₁, hrun, h₁, hnet₁⟩ := step_kept h hnet build hops.1
    obtain ⟨c₂, staging₂, hrun₂, h₂, hnet₂⟩ := ih h₁ hnet₁ hops.2
    refine ⟨c₂, staging₂, ?_, h₂, hnet₂⟩
    rw [TopNOp.applyAll, foldlM_cons, hrun]
    exact hrun₂

end

omit [DecidableEq V] in
theorem init_kept (hlimit : 0 < limit) (hoffset : withTies = true → offset = 0) (table : Cache V) :
    ∃ c, (do (← new withTies offset limit).initTopnCache withTies table) = .ok c ∧
      Kept withTies offset limit table.entries c := by
  rw [new_eq hlimit hoffset]
  cases withTies with
  | false =>
    obtain ⟨c, rest, hrun, h⟩ := init_spec table offset hlimit
    exact ⟨c, hrun, rest, h⟩
  | true =>
    obtain rfl := hoffset rfl
    obtain ⟨c, rest, hrun, h⟩ := initTies_spec table hlimit
    exact ⟨c, hrun, rfl, rest, h⟩

/-- From the first scan of a table on, over every run of inserts and deletes, no call fails and the
cache serves the rows of the result. A staging that is new in the middle of the run holds at its end
the difference between the middle then and there. -/
theorem top_n_cache_serves (build : Build) (withTies : Bool) (offset limit : Nat)
    (hlimit : 0 < limit) (hoffset : withTies = true → offset = 0) (table : Cache V)
    (ops₁ ops₂ : List (TopNOp V)) (hops : TopNOp.ConsistentRun table (ops₁ ++ ops₂)) :
      ∃ c₀ c₁ c₂ staging₁ staging₂,
        (do (← new withTies offset limit).initTopnCache withTies table) = .ok c₀ ∧
      TopNOp.applyAll withTies build (table, c₀, .new) ops₁ =
        .ok (TopNOp.tableAfter table ops₁, c₁, staging₁) ∧
      TopNOp.applyAll withTies build (TopNOp.tableAfter table ops₁, c₁, .new) ops₂ =
        .ok (TopNOp.tableAfter table (ops₁ ++ ops₂), c₂, staging₂) ∧
      Serves withTies offset limit table.entries c₀ ∧
      Serves withTies offset limit (TopNOp.tableAfter table (ops₁ ++ ops₂)).entries c₂ ∧
      staging₂.Net c₁.middle.get? c₂.middle.get? := by
  obtain ⟨hops₁, hops₂⟩ := TopNOp.consistentRun_append.1 hops
  obtain ⟨c₀, hinit, h₀⟩ := init_kept hlimit hoffset table
  obtain ⟨c₁, staging₁, hrun₁, h₁, -⟩ := run_kept h₀ (TopNStaging.net_new _) build hops₁
  obtain ⟨c₂, staging₂, hrun₂, h₂, hnet⟩ := run_kept h₁ (TopNStaging.net_new _) build hops₂
  have htable : TopNOp.tableAfter table (ops₁ ++ ops₂) =
      TopNOp.tableAfter (TopNOp.tableAfter table ops₁) ops₂ :=
    foldl_append ..
  rw [htable]
  exact ⟨c₀, c₁, c₂, staging₁, staging₂, hinit, hrun₁, hrun₂, h₀.serves, h₂.serves, hnet⟩

/-- Two rows are tied for the first place; when one is deleted the other stays. -/
theorem top_n_cache_serves_tied : ∃ c₁ c₂ : TopNCache Nat, ∃ staging : TopNStaging Nat,
      TopNOp.applyAll true ⟨true, true⟩
          (TopNOp.tableAfter .empty [.insert (toLex ([1], [1])) 1, .insert (toLex ([1], [2])) 2],
          c₁, .new) [.delete (toLex ([1], [1])) 1] =
        .ok (TopNOp.tableAfter .empty [.insert (toLex ([1], [1])) 1, .insert (toLex ([1], [2])) 2,
          .delete (toLex ([1], [1])) 1], c₂, staging) ∧
      c₂.middle.entries = [(toLex ([1], [2]), 2)] := by
  obtain ⟨c₀, c₁, c₂, staging₁, staging₂, -, -, hrun, -, hserves, -⟩ :=
    top_n_cache_serves ⟨true, true⟩ true 0 1 (by decide) (fun _ => rfl) .empty
      [.insert (toLex ([1], [1])) 1, .insert (toLex ([1], [2])) 2] [.delete (toLex ([1], [1])) 1]
      (by decide +kernel)
  refine ⟨c₁, c₂, staging₂, hrun, hserves.middle_eq.trans ?_⟩
  decide +kernel

end Stream.TopNCache
