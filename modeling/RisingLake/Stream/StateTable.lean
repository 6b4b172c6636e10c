import RisingLake.Lib.BTreeMap

/-!
# State tables

A state table keeps rows under their primary keys, spread over the vnodes that the actor owns. It is
modelled with its sanity checks: writing outside of the vnodes, inserting under a key that is
present and deleting what is not there all panic. What is written is seen by the scans of the same
epoch.
-/

namespace Stream

open Res

/-- How a table finds the rows: the primary key of a row, the vnode of a key, and the vnodes of the
actor. -/
structure TableDesc (R K : Type) where
  pk : R → K
  vnodeByPk : K → Nat
  vnodes : List Nat
  nodup : vnodes.Nodup

abbrev StateTable (R K : Type) [LinearOrder K] := BTreeMap K R

namespace TableDesc

variable {R K : Type} [LinearOrder K] [DecidableEq R]

theorem singleton_nodup : [0].Nodup := List.nodup_singleton 0

/-- A table without a primary key, for one row. -/
def singleton (R : Type) : TableDesc R Unit where
  pk _ := ()
  vnodeByPk _ := 0
  vnodes := [0]
  nodup := singleton_nodup

/-- `compute_vnode_by_pk`. -/
def checkVnode (d : TableDesc R K) (row : R) : Res Unit :=
  assert (d.vnodes.contains (d.vnodeByPk (d.pk row))) "vnode should not be accessed by this table"

def insert (d : TableDesc R K) (t : StateTable R K) (row : R) : Res (StateTable R K) := do
  d.checkVnode row
  match t[d.pk row]? with
  | some _ => .error (.explicit "double insert")
  | none => .ok (Std.ExtTreeMap.insert t (d.pk row) row)

def delete (d : TableDesc R K) (t : StateTable R K) (oldRow : R) : Res (StateTable R K) := do
  d.checkVnode oldRow
  match t[d.pk oldRow]? with
  | some row =>
    if row = oldRow then .ok (Std.ExtTreeMap.erase t (d.pk oldRow))
    else .error (.explicit "mismatched old value")
  | none => .error (.explicit "double delete")

/-- The new row takes the place of the old one, under the same key. -/
def update (d : TableDesc R K) (t : StateTable R K) (oldRow newRow : R) : Res (StateTable R K) := do
  assert (d.pk oldRow == d.pk newRow) "pk should not change"
  d.checkVnode newRow
  match t[d.pk oldRow]? with
  | some row =>
    if row = oldRow then .ok (Std.ExtTreeMap.insert t (d.pk newRow) newRow)
    else .error (.explicit "mismatched old value")
  | none => .error (.explicit "update a non-existing record")

/-- The rows of the vnode in a range, in the order of their keys. -/
def iterWithVnode (d : TableDesc R K) (t : StateTable R K) (vnode : Nat) (inRange : R → Bool) :
    List R :=
  (t.toList.filter fun e => d.vnodeByPk e.1 == vnode && inRange e.2).map (·.2)

end TableDesc

end Stream
