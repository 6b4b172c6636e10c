import RisingLake.Delta.LogReplay
import RisingLake.Delta.Proof.ActionsIterator

/-!
# Histories of a table and the segments that describe them

A history gives the actions of every commit. `before commit n` lists the actions of the commits `0,
…, n - 1` from the newest commit to the oldest, so that the newest action of a kind at or before
version `v` is the first one of that kind in `before commit (v + 1)`. A log segment of the history
(`SegmentOf`) holds the commit files of the versions from `base` up to its own, and, where `base` is
not `0`, the files of a checkpoint at version `base - 1`.
-/

namespace Delta

def before (commit : Nat → List Action) : Nat → List Action
  | 0 => []
  | n + 1 => commit n ++ before commit n

def rowsOf (wrappers : List ActionWrapper) : List Action :=
  wrappers.flatMap ActionWrapper.columnarBatch

@[simp] theorem rowsOf_nil : rowsOf [] = [] := rfl

theorem rowsOf_cons (w : ActionWrapper) (ws : List ActionWrapper) :
    rowsOf (w :: ws) = w.columnarBatch ++ rowsOf ws := List.flatMap_cons

theorem rowsOf_append (xs ys : List ActionWrapper) : rowsOf (xs ++ ys) = rowsOf xs ++ rowsOf ys :=
  List.flatMap_append

/-- A file of the commit at its version. -/
structure IsCommitFile (engine : Engine) (commit : Nat → List Action) (version : Nat)
    (f : DeltaLogFile) : Prop where
  logType : f.logType = .commit
  version_eq : f.version = version
  name : f.file.nameVersion = some version
  rows : (engine.read f.file).flatten = commit version

/-- The files of the commits `base, …, top - 1`, newest first. -/
inductive CommitFiles (engine : Engine) (commit : Nat → List Action) (base : Nat) :
    Nat → List DeltaLogFile → Prop
  | nil : CommitFiles engine commit base base []
  | cons {top : Nat} {f : DeltaLogFile} {files : List DeltaLogFile} :
    IsCommitFile engine commit top f → CommitFiles engine commit base top files →
      CommitFiles engine commit base (top + 1) (f :: files)

/-- A file of the checkpoint at `version`: a whole checkpoint, a part of one or a manifest. -/
structure IsCheckpointFile (version : Nat) (f : DeltaLogFile) : Prop where
  not_commit : f.logType ≠ .commit
  not_sidecar : f.logType ≠ .sidecar
  version_eq : f.version = version
  name : f.file.nameVersion = some version

/-- A segment that describes the history: the commits from `base` on and, unless `base` is `0`, a
checkpoint at `base - 1`. -/
structure SegmentOf (engine : Engine) (commit : Nat → List Action) (base : Nat)
    (segment : LogSegment) : Prop where
  deltas : CommitFiles engine commit base (segment.version + 1) segment.deltas
  checkpoints : ∀ f ∈ segment.checkpoints, ∃ version, base = version + 1 ∧
    IsCheckpointFile version f
  whole : segment.checkpoints = [] → base = 0

namespace CommitFiles

variable {engine : Engine} {commit : Nat → List Action} {base top : Nat} {files : List DeltaLogFile}

open ActionsIterator

section

variable (h : CommitFiles engine commit base top files)
include h

theorem le : base ≤ top := by
  induction h with
  | nil => exact Nat.le_refl _
  | cons _ _ ih => exact Nat.le_succ_of_le ih

theorem split {m : Nat} (hbase : base ≤ m) (htop : m ≤ top) :
    ∃ newer older, files = newer ++ older ∧ CommitFiles engine commit m top newer ∧
      CommitFiles engine commit base m older := by
  induction h with
  | nil =>
    obtain rfl : m = base := Nat.le_antisymm htop hbase
    exact ⟨[], [], rfl, .nil, .nil⟩
  | @cons top f files hf hfiles ih =>
    by_cases hm : m = top + 1
    · subst hm
      exact ⟨[], f :: files, rfl, .nil, .cons hf hfiles⟩
    · obtain ⟨newer, older, rfl, hnewer, holder⟩ := ih (by omega)
      exact ⟨f :: newer, older, rfl, .cons hf hnewer, holder⟩

theorem of_mem : ∀ f ∈ files, IsCommitFile engine commit f.version f ∧ base ≤ f.version ∧
    f.version < top := by
  induction h with
  | nil => simp
  | cons hf hfiles ih =>
    have hle := hfiles.le
    rw [List.forall_mem_cons, hf.version_eq]
    exact ⟨⟨hf, hle, Nat.lt_succ_self _⟩,
      fun g hg => (ih g hg).imp_right (.imp_right Nat.lt_succ_of_lt)⟩

theorem isCommit : ∀ f ∈ files, f.logType = .commit := fun f hf => (h.of_mem f hf).1.logType

theorem named : ∀ f ∈ files, f.file.nameVersion = some f.version :=
  fun f hf => (h.of_mem f hf).1.name

end

end CommitFiles

namespace ActionsIterator

variable {engine : Engine} {commit : Nat → List Action} {withFiles : Bool} {f : DeltaLogFile}

theorem rowsOf_fileWrappers_commit (h : f.logType = .commit) :
    rowsOf (fileWrappers engine withFiles f) = (engine.read f.file).flatten := by
  have hsearched : searched withFiles f = false := by simp [searched, h]
  rw [rowsOf, fileWrappers, hsearched, List.flatMap_map]
  exact List.flatMap_id

variable {files : List DeltaLogFile} {base top : Nat}

theorem rowsOf_commitFiles (h : CommitFiles engine commit base top files) :
    rowsOf (files.flatMap (fileWrappers engine withFiles)) ++ before commit base =
      before commit top := by
  induction h with
  | nil => rfl
  | cons hf _ ih =>
    rw [List.flatMap_cons, rowsOf_append, rowsOf_fileWrappers_commit hf.logType, hf.rows, before,
      List.append_assoc, ih]

variable {w : ActionWrapper}

theorem version_of_mem_fileWrappers (h : w ∈ fileWrappers engine withFiles f) :
    w.version = f.version := by
  obtain ⟨batch, -, rfl⟩ := List.mem_map.1 h
  rfl

theorem version_of_mem_flatMap
    (h : w ∈ files.flatMap (fileWrappers engine withFiles)) :
    ∃ f ∈ files, w.version = f.version := by
  obtain ⟨f, hf, hw⟩ := List.mem_flatMap.1 h
  exact ⟨f, hf, version_of_mem_fileWrappers hw⟩

theorem versions_of_commitFiles
    (h : CommitFiles engine commit base top files)
    (hw : w ∈ files.flatMap (fileWrappers engine withFiles)) :
    base ≤ w.version ∧ w.version < top := by
  obtain ⟨f, hf, hwf⟩ := version_of_mem_flatMap hw
  rw [hwf]
  exact (h.of_mem f hf).2

end ActionsIterator

end Delta
