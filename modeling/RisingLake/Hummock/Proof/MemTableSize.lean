import RisingLake.Hummock.Proof.MemTable

/-!
# The size of a mem table

`kv_size` is meant to be the size of the buffer. A call that succeeds keeps it so (`call_sized`). A
call that fails has already taken the buffered operation off the size (`call_eq`), so the size is
exact along a run just if the buffer accepts every call (`Accepts`).
-/

namespace Hummock

open List BTreeMap KvSize MemTable

theorem toList_insert_perm (m : MemTableStore) (k : TableKey) (op : KeyOp) :
    (m.insert k op).toList.Perm ((k, op) :: (m.erase k).toList) := by
  have hnodup : ∀ m : MemTableStore, m.toList.Nodup :=
    fun m => (ordered_toList m).imp fun h heq => h.ne (by rw [heq])
  refine (perm_ext_iff_of_nodup (hnodup _) (nodup_cons.2 ⟨?_, hnodup _⟩)).2 fun e => ?_
  · rw [mem_toList, getElem?_erase_eq, if_pos rfl]
    nofun
  · rw [mem_cons, mem_toList, mem_toList, getElem?_insert_eq, getElem?_erase_eq]
    by_cases hk : k = e.1
    · simp [hk, Prod.ext_iff, eq_comm]
    · simp [hk, Prod.ext_iff, eq_comm]

variable (env : Env) {m : MemTableStore} {k : TableKey} {op : KeyOp} {mt : MemTable}
  {c : MemTableOp}

def entrySize (e : TableKey × KeyOp) : Nat := keyLen env e.1 + e.2.estimatedSize env

def bufferSize (m : MemTableStore) : Nat := (m.toList.map (entrySize env)).sum

theorem bufferSize_insert (m : MemTableStore) (k : TableKey) (op : KeyOp) :
    bufferSize env (m.insert k op) = entrySize env (k, op) + bufferSize env (m.erase k) := by
  rw [bufferSize, ((toList_insert_perm m k op).map _).sum_nat, map_cons, sum_cons, bufferSize]

theorem bufferSize_of_some (h : m[k]? = some op) :
    bufferSize env m = entrySize env (k, op) + bufferSize env (m.erase k) := by
  have hm : m.insert k op = m := ext fun a => by
    rw [getElem?_insert_eq]
    split <;> simp_all
  rw [← bufferSize_insert, hm]

theorem bufferSize_of_none (h : m[k]? = none) : bufferSize env (m.erase k) = bufferSize env m := by
  have hm : m.erase k = m := ext fun a => by
    rw [getElem?_erase_eq]
    split <;> simp_all
  rw [hm]

def MemTableOp.keyOp : MemTableOp → KeyOp
  | insert _ value => .insert value
  | delete _ oldValue => .delete oldValue
  | update _ oldValue newValue => .update oldValue newValue

/-- What the call would count in an empty buffer. -/
def callSize (c : MemTableOp) : Nat := entrySize env (c.key, c.keyOp)

/-- A call puts its own operation, replaces or removes the buffered one, or fails after taking that
off the size. -/
theorem call_eq (mt : MemTable) (c : MemTableOp) :
    mt.call env c = (.ok (), mt.insertInconsistent env c.key c.keyOp) ∨ ∃ old,
      mt.buffer[c.key]? = some old ∧
        ((∃ op : KeyOp, op.estimatedHeapSize ≤ old.estimatedHeapSize + c.keyOp.estimatedHeapSize ∧
          mt.call env c = (.ok (), (mt.subVal env old).replaceOccupied env c.key op)) ∨
        mt.call env c = (.ok (), { mt.subVal env old with
          buffer := mt.buffer.erase c.key
          kvSize := (mt.subVal env old).kvSize.subSize (keyLen env c.key) }) ∨
        ∃ e, mt.call env c = (.error e, mt.subVal env old)) := by
  cases hlevel : mt.opConsistencyLevel with
  | inconsistent =>
    exact .inl (by cases c <;> simp only [call, MemTable.insert, delete, update, hlevel] <;> rfl)
  | consistentOldValue checker isLogStore =>
    cases hget : mt.buffer[c.key]? with
    | none =>
      have hvacant : mt.insertInconsistent env c.key c.keyOp =
          mt.insertVacant env c.key c.keyOp := by
        rw [insertInconsistent, hget]
      rw [hvacant]
      exact .inl (by
        cases c <;> simp only [MemTableOp.key] at hget <;>
          simp only [call, MemTable.insert, delete, update, hlevel, hget] <;> rfl)
    | some old =>
      refine .inr ⟨old, rfl, ?_⟩
      -- each operation over each buffered one, with and without the sanity check
      cases c <;> simp only [MemTableOp.key] at hget <;> cases old <;>
        simp only [call, MemTable.insert, delete, update, hlevel, hget,
          inconsistentOperation] <;> (try split)
      all_goals first
        | exact .inr (.inr ⟨_, rfl⟩)
        | exact .inr (.inl rfl)
        | exact .inl ⟨_, by simp only [KeyOp.estimatedHeapSize, MemTableOp.keyOp]; omega, rfl⟩

variable {env}

section
variable (h : bufferSize env mt.buffer = mt.kvSize)
  (hfits : bufferSize env mt.buffer + callSize env c ≤ U64.max.val)
include h hfits

theorem call_sized (hok : (mt.call env c).1 = .ok ()) :
    bufferSize env (mt.call env c).2.buffer = (mt.call env c).2.kvSize ∧
      bufferSize env (mt.call env c).2.buffer ≤ bufferSize env mt.buffer + callSize env c := by
  rcases call_eq env mt c with hcall | ⟨old, hold, ⟨op, hle, hcall⟩ | hcall | ⟨e, hcall⟩⟩
  · rw [hcall, insertInconsistent]
    cases hget : mt.buffer[c.key]? with
    | none =>
      have := bufferSize_of_none env hget
      simp only [insertVacant, addSize, bufferSize_insert, callSize, entrySize] at *
      omega
    | some old =>
      have := bufferSize_of_some env hget
      simp only [insertVacant, addSize, subSize, bufferSize_insert, callSize, entrySize] at *
      omega
  · have := bufferSize_of_some env hold
    rw [hcall]
    simp only [replaceOccupied, subVal, addSize, subSize, bufferSize_insert, callSize, entrySize,
      KeyOp.estimatedSize] at *
    omega
  · have := bufferSize_of_some env hold
    rw [hcall]
    simp only [subVal, subSize, entrySize] at *
    omega
  · rw [hcall] at hok
    cases hok

/-- The call leaves the exact size, and a mem table that is as before if it fails. -/
def Accounted (env : Env) (mt : MemTable) (c : MemTableOp) : Prop :=
  bufferSize env (mt.call env c).2.buffer = (mt.call env c).2.kvSize ∧ ((mt.call env c).1 ≠ .ok () →
      (mt.call env c).2.buffer = mt.buffer ∧ (mt.call env c).2.kvSize = mt.kvSize)

/-- Of each call in turn, in the mem table that the ones before it left, failed or not. -/
def EachCall (env : Env) (P : MemTable → MemTableOp → Prop) : MemTable → List MemTableOp → Prop
  | _, [] => True
  | mt, c :: cs => P mt c ∧ EachCall env P (mt.call env c).2 cs

theorem accounted_iff (hsize : 0 < env.sizeOfKeyOp) : Accounted env mt c ↔
    (mt.call env c).1 = .ok () := by
  refine ⟨fun hacc => ?_, fun hok => ⟨(call_sized h hfits hok).1, fun hne => absurd hok hne⟩⟩
  by_contra hne
  obtain ⟨-, hkv⟩ := hacc.2 hne
  rcases call_eq env mt c with hcall | ⟨old, hold, ⟨op, -, hcall⟩ | hcall | ⟨e, hcall⟩⟩
  · exact hne (by rw [hcall])
  · exact hne (by rw [hcall])
  · exact hne (by rw [hcall])
  · -- the size has lost the buffered operation
    have hbuffer := bufferSize_of_some env hold
    rw [hcall] at hkv
    have hkv : @Eq Nat (mt.kvSize - old.estimatedSize env) mt.kvSize := hkv
    rw [entrySize] at hbuffer
    rw [KeyOp.estimatedSize] at *
    omega

end

/-- A buffered operation over which the call makes sense, for the level's `check_old_value`. -/
def KeyOp.Accepts (checkOldValue : Bytes → Bytes → Bool) : KeyOp → MemTableOp → Prop
  | .delete _, .insert _ _ => True
  | .insert value, .delete _ oldValue | .insert value, .update _ oldValue _
  | .update _ value, .delete _ oldValue | .update _ value, .update _ oldValue _ =>
    checkOldValue value oldValue = true
  | .insert _, .insert _ _ | .update _ _, .insert _ _ | .delete _, .delete _ _
  | .delete _, .update _ _ _ => False

/-- With the sanity check and at level `ConsistentOldValue`, an operation that is buffered for the
key of the call is one that the call makes sense over. -/
def Accepts (env : Env) (mt : MemTable) (c : MemTableOp) : Prop :=
  env.sanityCheckEnabled = true → ∀ checkOldValue isLogStore old,
    mt.opConsistencyLevel = .consistentOldValue checkOldValue isLogStore →
    mt.buffer[c.key]? = some old → old.Accepts checkOldValue c

theorem call_ok_iff : (mt.call env c).1 = .ok () ↔ Accepts env mt c := by
  rw [Accepts]
  cases hlevel : mt.opConsistencyLevel with
  | inconsistent => cases c <;> simp [call, MemTable.insert, delete, update, hlevel]
  | consistentOldValue checker isLogStore =>
    cases hget : mt.buffer[c.key]? with
    | none =>
      cases c <;> simp only [MemTableOp.key] at hget <;>
        simp [call, MemTable.insert, delete, update, hlevel, hget]
    | some old =>
      -- each operation over each buffered one
      cases c <;> simp only [MemTableOp.key] at hget <;> cases old <;>
        cases hcheck : env.sanityCheckEnabled <;>
        simp [call, MemTable.insert, delete, update, hlevel, hget, inconsistentOperation, hcheck,
          KeyOp.Accepts] <;> (try split) <;> simp_all

/-- **Sizes of a run**: they are exact after every call just if the mem table before each call
accepts it. -/
theorem kvSize_exact_iff (hsize : 0 < env.sizeOfKeyOp) (level : OpConsistencyLevel)
    {cs : List MemTableOp} (hfits : (cs.map (callSize env)).sum ≤ U64.max.val) :
    EachCall env (Accounted env) (.new level) cs ↔ EachCall env (Accepts env) (.new level) cs := by
  have hrun : ∀ cs mt, bufferSize env mt.buffer = mt.kvSize →
      bufferSize env mt.buffer + (cs.map (callSize env)).sum ≤ U64.max.val →
      (EachCall env (Accounted env) mt cs ↔ EachCall env (Accepts env) mt cs) := by
    intro cs
    induction cs with
    | nil => exact fun _ _ _ => .rfl
    | cons c cs ih =>
      intro mt h hfits
      rw [map_cons, sum_cons] at hfits
      rw [EachCall, accounted_iff h (by omega) hsize, call_ok_iff]
      refine and_congr_right fun haccepts => ?_
      obtain ⟨hnext, hle⟩ := call_sized h (by omega) (call_ok_iff.2 haccepts)
      exact ih _ hnext (by omega)
  exact hrun cs (.new level) rfl (by rwa [show bufferSize env (new level).buffer = 0 from rfl,
    Nat.zero_add])

def checkedEnv : Env := ⟨true, 32, 72⟩

/-- The second of two inserts of a key fails, and the size has lost the operation of the first. -/
theorem kvSize_doubleInsert :
    let mt := ((new (.consistentOldValue (· == ·) false)).call checkedEnv (.insert [0] [7])).2
    let failed := mt.call checkedEnv (.insert [0] [8])
    failed.1 = .error ⟨[0], .insert [7], .insert [8]⟩ ∧
      bufferSize checkedEnv failed.2.buffer = 106 ∧
      mt.kvSize = 106 ∧ failed.2.kvSize = 33 := by
  decide +kernel

theorem kvSize_exact_iff_insertDelete : EachCall checkedEnv (Accounted checkedEnv)
    (.new (.consistentOldValue (· == ·) false)) [.insert [0] [7], .delete [0] [7]] :=
  (kvSize_exact_iff (by decide) _ (by decide)).2 ⟨by simp [Accepts, new], by
    simp [Accepts, call, MemTable.insert, insertVacant, new, MemTableOp.key, KeyOp.Accepts], trivial⟩

end Hummock
