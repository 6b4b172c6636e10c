import RisingLake.Hummock.MemTable

/-!
# The buffer is the net change

Operations are applied one after the other to a map (`applyOp`), where an insert needs an absent key
and a delete or an update the current value. A mem table that gets the same operations accepts all
of them, and what it buffers for a key takes the value before all operations to the one after them
(`NetChange`). So laying the buffer over a stream of the map before gives the map after
(`mergeStream_ok`), in both directions.
-/

namespace Hummock

open Res BTreeMap List

/-! ## Operations on a map -/

inductive MemTableOp where
  | insert (key : TableKey) (value : Bytes)
  | delete (key : TableKey) (oldValue : Bytes)
  | update (key : TableKey) (oldValue newValue : Bytes)
  deriving DecidableEq, Repr

def MemTableOp.key : MemTableOp → TableKey
  | insert key _ | delete key _ | update key _ _ => key

/-- The map after an operation that is consistent with it. -/
def applyOp (m : BTreeMap TableKey Bytes) : MemTableOp → Option (BTreeMap TableKey Bytes)
  | .insert key value => if m[key]? = none then some (m.insert key value) else none
  | .delete key oldValue => if m[key]? = some oldValue then some (m.erase key) else none
  | .update key oldValue newValue =>
    if m[key]? = some oldValue then some (m.insert key newValue) else none

def MemTable.call (env : Env) (self : MemTable) : MemTableOp → Except MemTableError Unit × MemTable
  | .insert key value => self.insert env key value
  | .delete key oldValue => self.delete env key oldValue
  | .update key oldValue newValue => self.update env key oldValue newValue

def MemTable.calls (env : Env) (self : MemTable) (ops : List MemTableOp) :
    Except MemTableError MemTable :=
  ops.foldlM (fun self op => (self.call env op).1.map fun _ => (self.call env op).2) self

/-- The buffered operation takes the value before to the value after. -/
def NetChange (before : Option Bytes) : Option KeyOp → Option Bytes → Prop
  | none, after => after = before
  | some (.insert value), after => before = none ∧ after = some value
  | some (.delete oldValue), after => before = some oldValue ∧ after = none
  | some (.update oldValue newValue), after => before = some oldValue ∧ after = some newValue

variable {k : TableKey} {op : KeyOp}

section
variable {env : Env} {checker : Bytes → Bytes → Bool} {isLogStore : Bool}
  {base cur next : BTreeMap TableKey Bytes} {done : List MemTableOp} {mt : MemTable}

/-- The buffer takes `base` to `cur`; it has every key that was touched, but those that were
inserted and deleted again. -/
structure Buffers (checker : Bytes → Bytes → Bool) (isLogStore : Bool)
    (base : BTreeMap TableKey Bytes) (done : List MemTableOp) (cur : BTreeMap TableKey Bytes)
    (mt : MemTable) : Prop where
  level : mt.opConsistencyLevel = .consistentOldValue checker isLogStore
  net : ∀ k : TableKey, NetChange base[k]? mt.buffer[k]? cur[k]?
  absent : ∀ k : TableKey, mt.buffer[k]? = none ↔ (∀ op ∈ done, op.key ≠ k) ∨ base[k]? = none ∧
    cur[k]? = none

theorem Buffers.new :
    Buffers checker isLogStore base [] base (.new (.consistentOldValue checker isLogStore)) :=
  ⟨rfl, fun k => by simp [MemTable.new, NetChange], fun k => by simp [MemTable.new]⟩

section

variable {call : MemTableOp} {after : MemTable} {value : Bytes}
  (h : Buffers checker isLogStore base done cur mt)
  (hlevel : after.opConsistencyLevel = mt.opConsistencyLevel)
include h

theorem Buffers.absent_of_ne (hk : call.key ≠ k) (hcur : next[k]? = cur[k]?) :
    mt.buffer[k]? = none ↔ (∀ op ∈ done ++ [call], op.key ≠ k) ∨ base[k]? = none ∧
      next[k]? = none := by
  rw [h.absent, hcur, forall_mem_append, forall_mem_singleton, and_iff_left hk]

include hlevel

theorem Buffers.put (hbuffer : after.buffer = mt.buffer.insert call.key op)
    (hcur : ∀ k : TableKey, call.key ≠ k → next[k]? = cur[k]?)
    (hpk : NetChange base[call.key]? (some op) next[call.key]?) :
    Buffers checker isLogStore base (done ++ [call]) next after := by
  refine ⟨hlevel.trans h.level, fun k => ?_, fun k => ?_⟩
  · rw [hbuffer, getElem?_insert_eq]
    by_cases hk : call.key = k
    · rw [if_pos hk, ← hk]
      exact hpk
    · rw [if_neg hk, hcur k hk]
      exact h.net k
  · rw [hbuffer, getElem?_insert_eq]
    by_cases hk : call.key = k
    · rw [← hk]
      refine ⟨fun hsome => absurd hsome (by simp), fun habsent => ?_⟩
      rcases habsent with huntouched | ⟨hbase, hnext⟩
      · exact absurd rfl (huntouched call (by simp))
      · rw [hbase, hnext] at hpk
        cases op <;> simp [NetChange] at hpk
    · rw [if_neg hk]
      exact h.absent_of_ne hk (hcur k hk)

theorem Buffers.putValue (hbuffer : after.buffer = mt.buffer.insert call.key op)
    (hpk : NetChange base[call.key]? (some op) (some value)) :
    Buffers checker isLogStore base (done ++ [call]) (cur.insert call.key value) after := by
  refine h.put hlevel hbuffer (fun k hk => ?_) ?_
  · rw [getElem?_insert_eq, if_neg hk]
  · rwa [getElem?_insert_eq, if_pos rfl]

theorem Buffers.remove (hbuffer : after.buffer = mt.buffer.erase call.key)
    (hcur : ∀ k : TableKey, call.key ≠ k → next[k]? = cur[k]?)
    (hbase : base[call.key]? = none) (hnext : next[call.key]? = none) :
    Buffers checker isLogStore base (done ++ [call]) next after := by
  refine ⟨hlevel.trans h.level, fun k => ?_, fun k => ?_⟩
  · rw [hbuffer, getElem?_erase_eq]
    by_cases hk : call.key = k
    · rw [if_pos hk, ← hk, hbase, hnext]
      rfl
    · rw [if_neg hk, hcur k hk]
      exact h.net k
  · rw [hbuffer, getElem?_erase_eq]
    by_cases hk : call.key = k
    · rw [← hk, hbase, hnext]
      simp
    · rw [if_neg hk]
      exact h.absent_of_ne hk (hcur k hk)

end

variable {pk : TableKey}

theorem Buffers.insert {value : Bytes} (h : Buffers checker isLogStore base done cur mt)
    (habsent : cur[pk]? = none) : ∃ after, mt.insert env pk value = (.ok (), after) ∧
      Buffers checker isLogStore base (done ++ [.insert pk value]) (cur.insert pk value) after := by
  have hnet := h.net pk
  rw [habsent] at hnet
  unfold MemTable.insert
  rw [h.level]
  cases hop : mt.buffer[pk]? with
  | none =>
    rw [hop] at hnet
    exact ⟨_, rfl, h.putValue rfl rfl ⟨hnet.symm, rfl⟩⟩
  | some op =>
    rw [hop] at hnet
    cases op with
    | insert | update => exact absurd hnet.2 (by simp)
    | delete o => exact ⟨_, rfl, h.putValue rfl rfl ⟨hnet.1, rfl⟩⟩

section
variable {oldValue : Bytes} (hchecker : ∀ v, checker v v = true)
  (h : Buffers checker isLogStore base done cur mt) (hpresent : cur[pk]? = some oldValue)
include hchecker h hpresent

theorem Buffers.delete : ∃ after, mt.delete env pk oldValue = (.ok (), after) ∧
      Buffers checker isLogStore base (done ++ [.delete pk oldValue]) (cur.erase pk) after := by
  have hnet := h.net pk
  have hcur : ∀ k : TableKey, pk ≠ k → (cur.erase pk)[k]? = cur[k]? := fun k hk => by
    rw [getElem?_erase_eq, if_neg hk]
  have hself : (cur.erase pk)[pk]? = none := by rw [getElem?_erase_eq, if_pos rfl]
  rw [hpresent] at hnet
  unfold MemTable.delete
  rw [h.level]
  cases hop : mt.buffer[pk]? with
  | none =>
    rw [hop] at hnet
    exact ⟨_, rfl, h.put rfl rfl hcur ⟨hnet.symm, hself⟩⟩
  | some op =>
    rw [hop] at hnet
    cases op with
    | insert v =>
      obtain ⟨hbase, hv⟩ := hnet
      cases hv
      simp only [hchecker, Bool.not_true, Bool.and_false, Bool.false_eq_true]
      exact ⟨_, rfl, h.remove rfl rfl hcur hbase hself⟩
    | update o v =>
      obtain ⟨hbase, hv⟩ := hnet
      cases hv
      simp only [hchecker, Bool.not_true, Bool.and_false, Bool.false_eq_true]
      exact ⟨_, rfl, h.put rfl rfl hcur ⟨hbase, hself⟩⟩
    | delete o => exact absurd hnet.2 (by simp)

theorem Buffers.update {newValue : Bytes} :
    ∃ after, mt.update env pk oldValue newValue = (.ok (), after) ∧
      Buffers checker isLogStore base (done ++ [.update pk oldValue newValue]) (cur.insert pk newValue)
        after := by
  have hnet := h.net pk
  rw [hpresent] at hnet
  unfold MemTable.update
  rw [h.level]
  cases hop : mt.buffer[pk]? with
  | none =>
    rw [hop] at hnet
    exact ⟨_, rfl, h.putValue rfl rfl ⟨hnet.symm, rfl⟩⟩
  | some op =>
    rw [hop] at hnet
    cases op with
    | insert | update =>
      obtain ⟨hbase, hv⟩ := hnet
      cases hv
      simp only [hchecker, Bool.not_true, Bool.and_false, Bool.false_eq_true]
      exact ⟨_, rfl, h.putValue rfl rfl ⟨hbase, rfl⟩⟩
    | delete o => exact absurd hnet.2 (by simp)

end

theorem Buffers.call (env : Env) (hchecker : ∀ v, checker v v = true)
    (h : Buffers checker isLogStore base done cur mt) {op : MemTableOp}
    (hop : applyOp cur op = some next) : ∃ after, mt.call env op = (.ok (), after) ∧
      Buffers checker isLogStore base (done ++ [op]) next after := by
  cases op with
  | insert key value =>
    obtain ⟨habsent, hnext⟩ := Option.ite_none_right_eq_some.1 hop
    cases hnext
    exact h.insert habsent
  | delete key oldValue =>
    obtain ⟨hpresent, hnext⟩ := Option.ite_none_right_eq_some.1 hop
    cases hnext
    exact h.delete hchecker hpresent
  | update key oldValue newValue =>
    obtain ⟨hpresent, hnext⟩ := Option.ite_none_right_eq_some.1 hop
    cases hnext
    exact h.update hchecker hpresent

theorem Buffers.calls (env : Env) (hchecker : ∀ v, checker v v = true) {ops : List MemTableOp}
    (h : Buffers checker isLogStore base done cur mt) (hops : ops.foldlM applyOp cur = some next) :
    ∃ after, mt.calls env ops = .ok after ∧
      Buffers checker isLogStore base (done ++ ops) next after := by
  induction ops generalizing done cur mt with
  | nil =>
    cases hops
    exact ⟨mt, rfl, by rwa [append_nil]⟩
  | cons op ops ih =>
    obtain ⟨mid, hop, hops⟩ := Option.bind_eq_some_iff.1 hops
    obtain ⟨mt', hcall, h'⟩ := h.call env hchecker hop
    obtain ⟨after, hcalls, hafter⟩ := ih h' hops
    refine ⟨after, ?_, by rwa [append_assoc] at hafter⟩
    rw [MemTable.calls, foldlM_cons, hcall]
    exact hcalls

end

/-! ## Merging -/

def KeyOp.newValue : KeyOp → Option Bytes
  | insert value => some value
  | delete _ => none
  | update _ newValue => some newValue

/-- The operation fits what the stream has for its key. -/
def KeyOp.Fits (inner : List (TableKey × Bytes)) (key : TableKey) : KeyOp → Prop
  | insert _ => ∀ value, (key, value) ∉ inner
  | delete oldValue => (key, oldValue) ∈ inner
  | update oldValue _ => (key, oldValue) ∈ inner

def rowEntry (row : StateStoreKeyedRow) : TableKey × Bytes := (row.1.userKey.tableKey, row.2)

/-- An entry of the stream with the buffer laid over it. -/
def Overlay (inner : List (TableKey × Bytes)) (mem : List (TableKey × KeyOp))
    (e : TableKey × Bytes) : Prop :=
  (∃ op, (e.1, op) ∈ mem ∧ op.newValue = some e.2) ∨ (∀ op, (e.1, op) ∉ mem) ∧ e ∈ inner

section
variable {inner inner₀ : List (TableKey × Bytes)} {mem mem₀ : List (TableKey × KeyOp)}
  {e : TableKey × Bytes}

theorem overlay_cons_inner (hmem : ∀ op, (e.1, op) ∉ mem) (e' : TableKey × Bytes) :
    Overlay (e :: inner) mem e' ↔ e' = e ∨ Overlay inner mem e' := by
  constructor
  · rintro (h | ⟨hnot, h⟩)
    · exact .inr (.inl h)
    · rcases mem_cons.1 h with rfl | h
      · exact .inl rfl
      · exact .inr (.inr ⟨hnot, h⟩)
  · rintro (rfl | h | ⟨hnot, h⟩)
    · exact .inr ⟨hmem, .head _⟩
    · exact .inl h
    · exact .inr ⟨hnot, .tail _ h⟩

theorem overlay_cons_mem (hinner₀ : ∀ e : TableKey × Bytes, e.1 ≠ k → (e ∈ inner₀ ↔ e ∈ inner))
    (hinner : ∀ v, (k, v) ∉ inner) (hmem : ∀ op, (k, op) ∉ mem) (e' : TableKey × Bytes) :
    Overlay inner₀ ((k, op) :: mem) e' ↔ (e'.1 = k ∧ op.newValue = some e'.2) ∨
      Overlay inner mem e' := by
  obtain ⟨k', v'⟩ := e'
  by_cases hk : k' = k
  · subst hk
    have hnot : ¬Overlay inner mem (k', v') := by
      rintro (⟨op', h, -⟩ | ⟨-, h⟩)
      · exact hmem op' h
      · exact hinner v' h
    simp only [hnot, or_false, true_and]
    constructor
    · rintro (⟨op', h, hv⟩ | ⟨h, -⟩)
      · rcases mem_cons.1 h with heq | h
        · cases heq
          exact hv
        · exact absurd h (hmem op')
      · exact absurd (.head _) (h op)
    · intro hv
      exact .inl ⟨op, .head _, hv⟩
  · have hcons : ∀ op', (k', op') ∈ (k, op) :: mem ↔ (k', op') ∈ mem := fun op' => by
      simp [hk]
    simp only [Overlay, hcons, hinner₀ (k', v') hk, hk, false_and, false_or]

end

/-- What the merged stream yields: the entries of the overlay, in order. -/
structure Overlays (rev : Bool) (tableId : TableId) (inner : List (TableKey × Bytes))
    (mem : List (TableKey × KeyOp)) (out : List StateStoreKeyedRow) : Prop where
  ordered : Ordered rev (out.map rowEntry)
  entry_iff : ∀ e, e ∈ out.map rowEntry ↔ Overlay inner mem e
  table : ∀ row ∈ out, row.1.userKey.tableId = tableId

variable {epoch : HummockEpoch}

section
variable {rev : Bool} {tableId : TableId} {inner inner₀ : List (TableKey × Bytes)}
  {mem mem₀ : List (TableKey × KeyOp)} {out : List StateStoreKeyedRow}

theorem Overlays.skip (h : Overlays rev tableId inner mem out)
    (hiff : ∀ e, Overlay inner₀ mem₀ e ↔ Overlay inner mem e) :
    Overlays rev tableId inner₀ mem₀ out :=
  ⟨h.ordered, fun e => (h.entry_iff e).trans (hiff e).symm, h.table⟩

theorem Overlays.cons {row : StateStoreKeyedRow} (h : Overlays rev tableId inner mem out)
    (hrow : row.1.userKey.tableId = tableId) (hinner : ∀ e ∈ inner, Before rev (rowEntry row).1 e.1)
    (hmem : ∀ e ∈ mem, Before rev (rowEntry row).1 e.1)
    (hiff : ∀ e, Overlay inner₀ mem₀ e ↔ e = rowEntry row ∨ Overlay inner mem e) :
    Overlays rev tableId inner₀ mem₀ (row :: out) := by
  refine ⟨pairwise_cons.2 ⟨fun e he => ?_, h.ordered⟩, fun e => ?_, forall_mem_cons.2 ⟨hrow, h.table⟩⟩
  · rcases (h.entry_iff e).1 he with ⟨op, he, -⟩ | ⟨-, he⟩
    · exact hmem _ he
    · exact hinner _ he
  · rw [map_cons, mem_cons, h.entry_iff, hiff]

theorem not_mem_of_before {V : Type} {es : List (TableKey × V)}
    (h : ∀ e ∈ es, Before rev k e.1) (v : V) : (k, v) ∉ es :=
  fun hv => Before.irrefl k (h _ hv)

theorem FullKey.new_ok {dbg : Bool} {e : EpochWithGap}
    (h : EpochWithGap.new dbg epoch 0 = .ok e) (tableId : TableId) (tableKey : TableKey) :
    FullKey.new dbg tableId tableKey epoch = .ok ⟨⟨tableId, tableKey⟩, e⟩ := by
  rw [FullKey.new, h]
  rfl

@[simp] theorem yieldRow_ok {ε : Type} (row : StateStoreKeyedRow) (rows : List StateStoreKeyedRow)
    (error : Option ε) : yieldRow row (.ok (rows, error)) = .ok (row :: rows, error) := rfl

theorem KeyOp.Fits.tail {e : TableKey × Bytes} (hne : k ≠ e.1) (h : op.Fits (e :: inner) k) :
    op.Fits inner k := by
  have hcons : ∀ v, (k, v) ∈ e :: inner ↔ (k, v) ∈ inner := fun v => by
    rw [mem_cons, or_iff_right fun heq => hne (congrArg Prod.fst heq)]
  cases op with
  | insert value => exact fun v hv => h v ((hcons v).2 hv)
  | delete oldValue | update oldValue _ => exact (hcons oldValue).1 h

theorem KeyOp.Fits.eq_insert (h : op.Fits inner k)
    (hinner : ∀ e ∈ inner, Before rev k e.1) : ∃ value, op = .insert value := by
  cases op with
  | insert value => exact ⟨value, rfl⟩
  | delete oldValue | update oldValue _ => exact absurd h (not_mem_of_before hinner oldValue)

theorem KeyOp.Fits.eq_delete_or_update {v : Bytes}
    (h : op.Fits ((k, v) :: inner) k) (hinner : ∀ e ∈ inner, Before rev k e.1) :
    op = .delete v ∨ ∃ newValue, op = .update v newValue := by
  have hold : ∀ oldValue, (k, oldValue) ∈ (k, v) :: inner → oldValue = v := fun oldValue hmem => by
    rcases mem_cons.1 hmem with heq | hmem
    · exact congrArg Prod.snd heq
    · exact absurd hmem (not_mem_of_before hinner oldValue)
  cases op with
  | insert value => exact absurd (.head _) (h v)
  | delete oldValue => exact .inl (by rw [hold oldValue h])
  | update oldValue newValue => exact .inr ⟨newValue, by rw [hold oldValue h]⟩

variable {dbg : Bool} {e : EpochWithGap}

/-- The merged stream yields the overlay. The induction is on what is left of both sides; the next
row comes from the side with the first key. -/
theorem mergeStream_ok (ε : Type) (hepoch : EpochWithGap.new dbg epoch 0 = .ok e) :
    ∀ (rows : List StateStoreKeyedRow) (mem : List (TableKey × KeyOp)),
      (∀ row ∈ rows, row.1.userKey.tableId = tableId) → Ordered rev (rows.map rowEntry) →
      Ordered rev mem → (∀ x ∈ mem, x.2.Fits (rows.map rowEntry) x.1) →
      ∃ out, mergeStream dbg tableId epoch rev (rows.map (Except.ok (ε := ε))) mem =
        .ok (out, none) ∧
        Overlays rev tableId (rows.map rowEntry) mem out
  | [], [], _, _, _, _ => ⟨[], by simp [mergeStream], .nil, by simp [Overlay], by simp⟩
  | row :: rows, [], hids, hrows, _, _ => by
    rw [forall_mem_cons] at hids
    obtain ⟨hbefore, hrows⟩ := pairwise_cons.1 hrows
    obtain ⟨out, hrun, hout⟩ := mergeStream_ok ε hepoch rows [] hids.2 hrows .nil (by simp)
    refine ⟨row :: out, by simp [mergeStream, hrun], ?_⟩
    exact hout.cons hids.1 hbefore (by simp) (overlay_cons_inner (by simp))
  | [], (k, op) :: mem, _, _, hmem, hfits => by
    obtain ⟨hbefore, hmem⟩ := pairwise_cons.1 hmem
    rw [forall_mem_cons] at hfits
    obtain ⟨out, hrun, hout⟩ := mergeStream_ok ε hepoch [] mem (by simp) .nil hmem hfits.2
    obtain ⟨value, hop⟩ :=
      hfits.1.eq_insert (show ∀ x ∈ ([] : List (TableKey × Bytes)), Before rev k x.1 by simp)
    subst hop
    refine ⟨(⟨⟨tableId, k⟩, e⟩, value) :: out, ?_, ?_⟩
    · rw [map_nil] at hrun ⊢
      rw [mergeStream, FullKey.new_ok hepoch, hrun]
      rfl
    · refine hout.cons rfl (by simp) hbefore fun e' => ?_
      rw [overlay_cons_mem (fun _ _ => Iff.rfl) (by simp) (not_mem_of_before hbefore)]
      simp [KeyOp.newValue, rowEntry, Prod.ext_iff, eq_comm]
  | row :: rows, (k, op) :: mem, hids, hrows, hmem, hfits => by
    obtain ⟨hbeforeRows, hrows'⟩ := pairwise_cons.1 hrows
    obtain ⟨hbeforeMem, hmem'⟩ := pairwise_cons.1 hmem
    obtain ⟨hid, hids'⟩ := forall_mem_cons.1 hids
    obtain ⟨hfit, hfits'⟩ := forall_mem_cons.1 hfits
    have hassert : debugAssert dbg (row.1.userKey.tableId == tableId)
        "inner_key.user_key.table_id == table_id" = .ok () := by
      rw [hid]
      exact debugAssert_eq_ok.2 fun _ => beq_self_eq_true tableId
    rw [map_cons, mergeStream, hassert, ok_bind]
    cases hcmp : cmpDir rev row.1.userKey.tableKey k with
    | lt =>
      have hlt : ∀ x ∈ (k, op) :: mem, Before rev row.1.userKey.tableKey x.1 :=
        forall_mem_cons.2 ⟨cmpDir_eq_lt.1 hcmp,
          fun x hx => (cmpDir_eq_lt.1 hcmp).trans (hbeforeMem x hx)⟩
      obtain ⟨out, hrun, hout⟩ := mergeStream_ok ε hepoch rows ((k, op) :: mem) hids' hrows' hmem
        fun x hx => (hfits x hx).tail (hlt x hx).ne.symm
      refine ⟨row :: out, by simp only [hrun, yieldRow_ok], ?_⟩
      exact hout.cons hid hbeforeRows hlt (overlay_cons_inner (not_mem_of_before hlt))
    | eq =>
      have hk := cmpDir_eq_eq.1 hcmp
      subst hk
      obtain ⟨out, hrun, hout⟩ := mergeStream_ok ε hepoch rows mem hids' hrows' hmem'
        fun x hx => (hfits' x hx).tail (hbeforeMem x hx).ne.symm
      have hiff : ∀ e', Overlay (rowEntry row :: rows.map rowEntry) ((_, op) :: mem) e' ↔ _ :=
        overlay_cons_mem
          (fun e' hne => by rw [mem_cons, or_iff_right fun heq => hne (congrArg Prod.fst heq)])
            (not_mem_of_before hbeforeRows) (not_mem_of_before hbeforeMem)
      rcases hfit.eq_delete_or_update hbeforeRows with hop | ⟨newValue, hop⟩
      · subst hop
        refine ⟨out, by simp only [hrun], hout.skip fun e' => (hiff e').trans ?_⟩
        simp [KeyOp.newValue]
      subst hop
      have hsame : debugAssert dbg (row.2 == row.2) "old_value == &old_value_in_inner" = .ok () :=
        debugAssert_eq_ok.2 fun _ => beq_self_eq_true row.2
      refine ⟨(row.1, newValue) :: out, by simp only [hrun, hsame, ok_bind, yieldRow_ok], ?_⟩
      refine hout.cons hid hbeforeRows hbeforeMem fun e' => (hiff e').trans ?_
      simp [KeyOp.newValue, rowEntry, Prod.ext_iff, eq_comm]
    | gt =>
      have hgt : ∀ x ∈ (row :: rows).map rowEntry, Before rev k x.1 :=
        forall_mem_cons.2 ⟨cmpDir_eq_gt.1 hcmp,
          fun x hx => (cmpDir_eq_gt.1 hcmp).trans (hbeforeRows x hx)⟩
      obtain ⟨out, hrun, hout⟩ := mergeStream_ok ε hepoch (row :: rows) mem hids hrows hmem' hfits'
      obtain ⟨value, hop⟩ := hfit.eq_insert hgt
      subst hop
      refine ⟨(⟨⟨tableId, k⟩, e⟩, value) :: out, ?_, ?_⟩
      · rw [map_cons] at hrun
        simp only [FullKey.new_ok hepoch, ok_bind, hrun, yieldRow_ok]
      · refine hout.cons rfl hgt hbeforeMem fun e' => ?_
        rw [overlay_cons_mem (fun _ _ => Iff.rfl) (not_mem_of_before hgt)
          (not_mem_of_before hbeforeMem)]
        simp [KeyOp.newValue, rowEntry, Prod.ext_iff, eq_comm]
termination_by rows mem => rows.length + mem.length

end

/-! ## The merged stream of a mem table -/

/-- The rows are the entries of the map in the range, in the order of the direction. -/
structure IsStream (rev : Bool) (tableId : TableId) (m : BTreeMap TableKey Bytes)
    (range : TableKeyRange) (rows : List StateStoreKeyedRow) : Prop where
  entries : rows.map rowEntry = m.traverse rev range
  table : ∀ row ∈ rows, row.1.userKey.tableId = tableId

def MemTable.iterDir (rev : Bool) (mt : MemTable) (range : TableKeyRange) :
    Res (List (TableKey × KeyOp)) :=
  if rev then mt.revIter range else mt.iter range

theorem MemTable.iterDir_ok {rev : Bool} {mt : MemTable} {range : TableKeyRange}
    (h : rangeOk range = true ∨ mt.rooted = false) :
    mt.iterDir rev range = .ok (mt.buffer.traverse rev range) := by
  cases rev with
  | false => exact range_eq_ok h
  | true =>
    rw [iterDir, if_pos rfl, revIter, range_eq_ok h]
    rfl

section
variable {base cur : BTreeMap TableKey Bytes} {mt : MemTable} {range : TableKeyRange} {rev : Bool}

section
variable (hnet : ∀ k : TableKey, NetChange base[k]? mt.buffer[k]? cur[k]?)
include hnet

theorem KeyOp.fits_of_netChange {x : TableKey × KeyOp} (hx : x ∈ mt.buffer.traverse rev range) :
    x.2.Fits (base.traverse rev range) x.1 := by
  obtain ⟨k, op⟩ := x
  obtain ⟨hop, hrange⟩ := mem_traverse.1 hx
  have hk := hnet k
  rw [hop] at hk
  cases op with
  | insert value =>
    intro v hv
    have hv := (mem_traverse.1 hv).1
    rw [hk.1] at hv
    cases hv
  | delete | update => exact mem_traverse.2 ⟨hk.1, hrange⟩

/-- Laid over the map before, the buffer gives the map after. -/
theorem overlay_traverse_iff (e : TableKey × Bytes) :
    Overlay (base.traverse rev range) (mt.buffer.traverse rev range) e ↔
      e ∈ cur.traverse rev range := by
  obtain ⟨k, v⟩ := e
  have hk := hnet k
  simp only [Overlay, BTreeMap.mem_traverse]
  by_cases hrange : Bound.contains range k = true
  · simp only [hrange]
    cases hop : mt.buffer[k]? with
    | none =>
      rw [hop] at hk
      rw [show cur[k]? = base[k]? from hk]
      simp
    | some op =>
      rw [hop] at hk
      cases op with
      | insert value => simp [hk.2, KeyOp.newValue]
      | delete oldValue => simp [hk.2, KeyOp.newValue]
      | update oldValue newValue => simp [hk.2, KeyOp.newValue]
  · simp [hrange]

theorem IsStream.merge {dbg : Bool} {tableId : TableId} {e : EpochWithGap}
    {rows : List StateStoreKeyedRow} (ε : Type) (hepoch : EpochWithGap.new dbg epoch 0 = .ok e)
    (hrows : IsStream rev tableId base range rows) :
    ∃ out, mergeStream dbg tableId epoch rev (rows.map (Except.ok (ε := ε)))
        (mt.buffer.traverse rev range) = .ok (out, none) ∧ IsStream rev tableId cur range out := by
  obtain ⟨out, hrun, hout⟩ :=
    mergeStream_ok ε hepoch rows (mt.buffer.traverse rev range) hrows.table
      (hrows.entries ▸ ordered_traverse base range) (ordered_traverse mt.buffer range)
    (fun x hx => hrows.entries ▸ KeyOp.fits_of_netChange hnet hx)
  refine ⟨out, hrun, eq_of_ordered hout.ordered (ordered_traverse cur range) fun x => ?_, hout.table⟩
  rw [hout.entry_iff, hrows.entries]
  exact overlay_traverse_iff hnet x

end

end

/-- Calls that fit the map all succeed, the buffer is their net change, and merged with the map
before it gives the map after, over every range and in both directions. The bounds matter only once
there was a call. -/
theorem memTable_calls {env : Env} {dbg : Bool} {checker : Bytes → Bytes → Bool} {isLogStore : Bool}
    {base cur : BTreeMap TableKey Bytes} {ops : List MemTableOp}
    (hchecker : ∀ v, checker v v = true) (hops : ops.foldlM applyOp base = some cur) :
    ∃ mt, (MemTable.new (.consistentOldValue checker isLogStore)).calls env ops = .ok mt ∧
      (∀ k : TableKey, NetChange base[k]? mt.buffer[k]? cur[k]?) ∧
      (∀ k : TableKey, mt.buffer[k]? = none ↔ (∀ op ∈ ops, op.key ≠ k) ∨ base[k]? = none ∧
      cur[k]? = none) ∧
      ∀ (range : TableKeyRange) (tableId : TableId) (epoch : HummockEpoch) (e : EpochWithGap)
        (ε : Type) (rev : Bool) (rows : List StateStoreKeyedRow), rangeOk range = true ∨ ops = [] →
        EpochWithGap.new dbg epoch 0 = .ok e → IsStream rev tableId base range rows →
        ∃ mem out, mt.iterDir rev range = .ok mem ∧
          mergeStream dbg tableId epoch rev (rows.map (Except.ok (ε := ε))) mem = .ok (out, none) ∧
          IsStream rev tableId cur range out := by
  obtain ⟨mt, hcalls, h⟩ := Buffers.calls env hchecker Buffers.new hops
  refine ⟨mt, hcalls, h.net, h.absent, ?_⟩
  intro range tableId epoch e ε rev rows hrange hepoch hrows
  obtain ⟨out, hrun, hout⟩ := hrows.merge h.net ε hepoch
  refine ⟨_, out, MemTable.iterDir_ok (hrange.imp_right fun hnil => ?_), hrun, hout⟩
  subst hnil
  cases hcalls
  rfl

/-- Key 1 is inserted and deleted again, key 2 is updated, key 3 deleted and inserted. -/
theorem memTable_calls_three :
    let base : BTreeMap TableKey Bytes := ((∅ : BTreeMap _ _).insert [2] [20]).insert [3] [30]
    let cur : BTreeMap TableKey Bytes := ((∅ : BTreeMap _ _).insert [2] [21]).insert [3] [31]
    let rows : List StateStoreKeyedRow := [(⟨⟨5, [3]⟩, 0⟩, [30]), (⟨⟨5, [2]⟩, 0⟩, [20])]
    IsStream true 5 base (.unbounded, .unbounded) rows ∧
    ∃ mt mem out, (MemTable.new (.consistentOldValue (· == ·) false)).calls ⟨true, 32, 72⟩
        [.insert [1] [10], .update [2] [20] [21], .delete [3] [30], .delete [1] [10],
          .insert [3] [31]] =
          .ok mt ∧
      mt.revIter (.unbounded, .unbounded) = .ok mem ∧
      mergeStream true 5 65536 true (rows.map (Except.ok (ε := Empty))) mem = .ok (out, none) ∧
      IsStream true 5 cur (.unbounded, .unbounded) out := by
  intro base cur rows
  have hops : [.insert [1] [10], .update [2] [20] [21], .delete [3] [30], .delete [1] [10],
      .insert [3] [31]].foldlM applyOp base = some cur := by decide +kernel
  obtain ⟨mt, hcalls, -, -, hmerge⟩ :=
    @memTable_calls ⟨true, 32, 72⟩ true (· == ·) false _ _ _ (by simp) hops
  have hrows : IsStream true 5 base (.unbounded, .unbounded) rows :=
    ⟨by decide +kernel, by decide +kernel⟩
  obtain ⟨mem, out, hiter, hrun, hout⟩ :=
    hmerge (.unbounded, .unbounded) 5 65536 65536 Empty true rows (.inl rfl) (by decide +kernel) hrows
  exact ⟨hrows, mt, mem, out, hcalls, hiter, hrun, hout⟩

/-- Bounds that are the wrong way round hold no entry, and a mem table with a key panics on them. -/
theorem memTable_iter_panics : let range : TableKeyRange := (.included [2], .included [1])
    let base : BTreeMap TableKey Bytes := ∅
    let cur : BTreeMap TableKey Bytes := base.insert [5] [50]
    ([.insert [5] [50]].foldlM applyOp base = some cur ∧ IsStream false 5 base range [] ∧
      IsStream false 5 cur range []) ∧
      ((MemTable.new (.consistentOldValue (· == ·) false)).call ⟨true, 32, 72⟩
          (.insert [5] [50])).2.iter range =
        .error (.explicit "range start is greater than range end in BTreeMap") :=
  ⟨⟨by decide +kernel, ⟨by decide +kernel, by simp⟩, by decide +kernel, by simp⟩,
    by decide +kernel⟩

end Hummock
