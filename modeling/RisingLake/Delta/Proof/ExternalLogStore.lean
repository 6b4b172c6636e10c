import RisingLake.Delta.ExternalLogStore

/-!
# A version is committed once

The entry of a version is put by one call of `write`, and keeps that call's temp path: whoever
completes it or copies its temp file has read it. `Changes` is what an operation does to the
storage, `Proc.Ok` what a process relies on; the operations of other processes keep it, as temp
paths are not shared (`Proc.Ok.frame`).
-/

namespace Delta.ExternalLogStore

variable {T C α : Type} {s s' : Storage T C} {w : Write T C} {e : ExternalCommitEntry T}
  {n : Nat} {t : T} {own : Option T} {o : Outcome}

/-! ## The storage -/

namespace Storage

def HasEntry (s : Storage T C) (n : Nat) (t : T) : Prop := ∃ e, s.entries[n]? = some e ∧
    e.tempPath = t

def Unused (s : Storage T C) (t : T) : Prop := ∀ n, ¬s.HasEntry n t

/-- A commit file is the temp file of its entry. -/
structure Ok (s : Storage T C) : Prop where
  entry : ∀ n (e : ExternalCommitEntry T), s.entries[n]? = some e → e.fileName = n
  file : ∀ n c, s.files n = some c → ∃ t, s.HasEntry n t ∧ s.temps t = some c

/-- Entries keep their temp paths and temp files, and commit files stay. -/
structure Keeps (s s' : Storage T C) : Prop where
  entries : ∀ n t, s.HasEntry n t → s'.HasEntry n t ∧ s'.temps t = s.temps t
  files : ∀ n c, s.files n = some c → s'.files n = some c

/-- What an operation may do: an entry is added for the temp path `own`, or its temp file is
written. -/
structure Changes (own : Option T) (s s' : Storage T C) : Prop extends Keeps s s' where
  new : ∀ n t, s'.HasEntry n t → s.HasEntry n t ∨ own = some t
  temps : ∀ t, own ≠ some t → s'.temps t = s.temps t

theorem HasEntry.unique {t' : T} (h : s.HasEntry n t) (h' : s.HasEntry n t') : t = t' := by
  obtain ⟨e, he, rfl⟩ := h
  obtain ⟨e', he', rfl⟩ := h'
  rw [he] at he'
  cases he'
  rfl

theorem Ok.hasEntry (h : s.Ok) (he : s.entries[n]? = some e) :
    s.HasEntry e.fileName e.tempPath := by
  rw [h.entry n e he]
  exact ⟨e, he, rfl⟩

theorem Keeps.refl : Keeps s s := ⟨fun _ _ h => ⟨h, rfl⟩, fun _ _ => id⟩

theorem Keeps.trans {s'' : Storage T C} (h : Keeps s s') (h' : Keeps s' s'') : Keeps s s'' := by
  refine ⟨fun n t ht => ?_, fun n c hc => h'.files n c (h.files n c hc)⟩
  obtain ⟨ht', heq⟩ := h.entries n t ht
  exact (h'.entries n t ht').imp_right fun heq' => heq'.trans heq

theorem Changes.refl : Changes own s s := ⟨.refl, fun _ _ => .inl, fun _ _ => rfl⟩

theorem insert_changes (h : s.Ok) (he : s.entries[e.fileName]? = none ∧ own = some e.tempPath ∨
    s.HasEntry e.fileName e.tempPath) :
    let s' : Storage T C := { s with entries := s.entries.insert e.fileName e }
    s'.Ok ∧ Changes own s s' ∧ s'.HasEntry e.fileName e.tempPath := by
  intro s'
  have hentry : ∀ n, s'.entries[n]? = if e.fileName = n then some e else s.entries[n]? := fun n =>
    BTreeMap.getElem?_insert_eq ..
  have hkeep : ∀ n t, s.HasEntry n t → s'.HasEntry n t := by
    intro n t ht
    by_cases hn : e.fileName = n
    · subst hn
      rcases he with ⟨hnone, -⟩ | he
      · obtain ⟨e', he', -⟩ := ht
        simp [hnone] at he'
      · exact ⟨e, by simp [hentry], he.unique ht⟩
    · obtain ⟨e', he', ht⟩ := ht
      exact ⟨e', by rw [hentry, if_neg hn, he'], ht⟩
  refine ⟨⟨fun n e' he' => ?_, fun n c hc => ?_⟩,
    ⟨⟨fun n t ht => ⟨hkeep n t ht, rfl⟩, fun _ _ => id⟩, ?_, fun _ _ => rfl⟩, e, by simp [hentry], rfl⟩
  · rw [hentry] at he'
    split at he'
    · simp_all
    · exact h.entry n e' he'
  · obtain ⟨t, ht, hc⟩ := h.file n c hc
    exact ⟨t, hkeep n t ht, hc⟩
  · rintro n t ⟨e', he', ht⟩
    rw [hentry] at he'
    split at he'
    · cases he'
      simp_all only
      exact he.symm.imp_right And.right
    · exact .inl ⟨e', he', ht⟩

theorem putExternalEntry_new (h : s.Ok) :
    (putExternalEntry e false s).2.Ok ∧ Changes (some e.tempPath) s (putExternalEntry e false s).2 ∧
      ((putExternalEntry e false s).1 = .ok () → (putExternalEntry e false s).2.temps = s.temps ∧
        (putExternalEntry e false s).2.HasEntry e.fileName e.tempPath) := by
  unfold putExternalEntry
  split
  · exact ⟨h, .refl, nofun⟩
  · rename_i hnone
    obtain ⟨hok, hc, he⟩ := insert_changes h (.inl ⟨by simpa using hnone, rfl⟩)
    exact ⟨hok, hc, fun _ => ⟨rfl, he⟩⟩

theorem putExternalEntry_complete (h : s.Ok) (he : s.HasEntry e.fileName e.tempPath) :
    (putExternalEntry e.asComplete true s).2.Ok ∧
      Changes own s (putExternalEntry e.asComplete true s).2 := by
  obtain ⟨hok, hc, -⟩ := insert_changes (e := e.asComplete) h (.inr he)
  exact ⟨hok, hc⟩

theorem copyFile_changes {missed : Bool} (h : s.Ok) (he : s.HasEntry n t) :
    (copyFile missed t n s).2.Ok ∧ Changes own s (copyFile missed t n s).2 := by
  unfold copyFile
  split
  · exact ⟨h, .refl⟩
  rename_i c hc
  split
  · exact ⟨h, .refl⟩
  refine ⟨⟨h.entry, ?_⟩, ⟨fun _ _ ht => ⟨ht, rfl⟩, ?_⟩, fun _ _ => .inl, fun _ _ => rfl⟩
  · simp only [Function.update_apply]
    intro m c' hm
    split at hm
    · cases hm
      subst_vars
      exact ⟨t, he, hc⟩
    · exact h.file m c' hm
  · simp only [Function.update_apply]
    intro m c' hm
    split
    · -- the file that is there is of the same entry
      subst_vars
      obtain ⟨t', ht', hc'⟩ := h.file _ c' hm
      rw [← hc, he.unique ht', hc']
    · exact hm

theorem writeActions_changes [DecidableEq T] (h : s.Ok) (ht : s.Unused t) (c : C) :
    (writeActions t c s).2.Ok ∧ Changes (some t) s (writeActions t c s).2 := by
  have hne : ∀ n t', s.HasEntry n t' → (writeActions t c s).2.temps t' = s.temps t' :=
    fun n t' ht' =>
    Function.update_of_ne (fun heq : t' = t => ht n (heq ▸ ht')) ..
  refine ⟨⟨h.entry, fun n c' hc' => ?_⟩, ⟨fun n t' ht' => ⟨ht', hne n t' ht'⟩, fun _ _ => id⟩,
    fun _ _ => .inl, fun t' ht' => Function.update_of_ne (by simpa [eq_comm] using ht') ..⟩
  obtain ⟨t', ht', hc'⟩ := h.file n c' hc'
  exact ⟨t', ht', (hne n t' ht').trans hc'⟩

end Storage

open Storage List

/-! ## The processes -/

namespace Proc

/-- What a process relies on. -/
def Ok (s : Storage T C) : Proc T C → Prop
  | .write w .copyTempFile | .write w .putCompleteEntry | .write w .returned =>
    s.HasEntry w.version w.tempPath ∧ s.temps w.tempPath = some w.actions
  | .write w .putEntry => s.Unused w.tempPath ∧ s.temps w.tempPath = some w.actions
  | .write w _ => s.Unused w.tempPath
  | .fix w e .. => s.HasEntry e.fileName e.tempPath ∧ ∀ w' ∈ w, s.Unused w'.tempPath
  | .listFrom | .listed | .thrown .. => True

/-- A process of the call relies on what holds. -/
def Runs (s : Storage T C) (w : Option (Write T C)) (p : Proc T C) : Prop := p.call = w ∧ p.Ok s

/-- What one operation of the call leaves. -/
def Advances (own : Option T) (s : Storage T C) (w : Option (Write T C))
    (r : Proc T C × Storage T C) : Prop :=
  r.2.Ok ∧ Changes own s r.2 ∧ r.1.Runs r.2 w

variable {p p' : Proc T C} {w? : Option (Write T C)}

theorem Ok.frame (h : p.Ok s) (hc : Changes own s s')
    (hown : ∀ t, p.tempPath? = some t → own ≠ some t) : p.Ok s' := by
  have hunused : ∀ w ∈ p.call, s.Unused w.tempPath → s'.Unused w.tempPath := fun w hw hu n hn =>
    (hc.new n _ hn).elim (hu n) (hown _ (congrArg _ hw))
  cases p with
  | write w p =>
    have hu := hunused w rfl
    have ht := hc.temps _ (hown _ rfl)
    cases p with
    | copyTempFile | putCompleteEntry | returned => exact ⟨(hc.entries _ _ h.1).1, ht.trans h.2⟩
    | putEntry => exact ⟨hu h.1, ht.trans h.2⟩
    | _ => exact hu h
  | fix w e retry copied p =>
    exact ⟨(hc.entries _ _ h.1).1, fun w' hw' => hunused w' hw' (h.2 w' hw')⟩
  | listFrom | listed | thrown => trivial

section

variable {op : Storage T C → Answer T C α} {handler : Throwable → Proc T C}
  {k : α → Proc T C} (hs : s.Ok)

include hs

theorem perform_runs (hop : (op s).2.Ok ∧ Changes own s (op s).2)
    (hh : ∀ e, (handler e).Runs s w? ∧ (handler e).Runs (op s).2 w?)
    (hk : ∀ a, (op s).1 = .ok a → (k a).Runs (op s).2 w?) :
    Advances own s w? (perform o s op handler k) := by
  unfold perform
  split
  · rename_i a s' heq
    simp only [heq] at hop hk
    exact ⟨hop.1, hop.2, hk a rfl⟩
  · rename_i e s' heq
    simp only [heq] at hop hh
    exact ⟨hop.1, hop.2, (hh e).2⟩
  · rename_i e after r s' heq
    simp only [heq] at hop hh
    cases after with
    | true => exact ⟨hop.1, hop.2, (hh e).2⟩
    | false => exact ⟨hs, .refl, (hh e).1⟩

theorem perform_quiet (hop : (op s).2.Ok ∧ Changes none s (op s).2)
    (hh : ∀ e, (handler e).Runs s w?) (hk : ∀ a, (op s).1 = .ok a → (k a).Runs s w?) :
    Advances own s w? (perform o s op handler k) := by
  have hframe : ∀ p : Proc T C, p.Runs s w? → p.Runs (op s).2 w? := fun p hp =>
    ⟨hp.1, hp.2.frame hop.2 (by simp)⟩
  refine perform_runs hs ⟨hop.1, ?_⟩ (fun e => ⟨hh e, hframe _ (hh e)⟩) fun a ha => hframe _ (hk a ha)
  exact ⟨hop.2.toKeeps, fun n t ht => .inl ((hop.2.new n t ht).resolve_right (by simp)),
    fun t _ => hop.2.temps t (by simp)⟩

end

section

variable (he : s.HasEntry e.fileName e.tempPath) (hw : ∀ w ∈ w?, s.Unused w.tempPath)

include hw

theorem fixed_runs : (fixed w?).Runs s w? := by
  cases w? with
  | none => exact ⟨rfl, trivial⟩
  | some w => exact ⟨rfl, hw w rfl⟩

include he

theorem fixLoop_runs (retry : Nat) (copied : Bool) : (fixLoop w? e retry copied).Runs s w? :=
  ⟨rfl, he, hw⟩

theorem fixDeltaLog_runs : (fixDeltaLog w? e).Runs s w? := by
  unfold fixDeltaLog
  split
  · exact fixed_runs hw
  · exact fixLoop_runs he hw 0 false

theorem fixCatch_runs (retry : Nat) (copied : Bool) (x : Throwable) :
    (fixCatch w? e retry copied x).Runs s w? := by
  unfold fixCatch
  split
  · exact fixLoop_runs he hw ..
  · split
    · exact ⟨rfl, trivial⟩
    · exact fixLoop_runs he hw ..

end

theorem step_runs [DecidableEq T] (hs : s.Ok) (hp : p.Ok s) {r : Proc T C × Storage T C}
    (h : p.step o s = some r) : Advances p.tempPath? s p.call r := by
  have hread : s.Ok ∧ Changes none s s := ⟨hs, .refl⟩
  have hthrow : ∀ {w} e, (thrown w e : Proc T C).Runs s w := fun _ => ⟨rfl, trivial⟩
  cases p with
  | write w p =>
    cases p with
    | existsFile =>
      cases h
      refine perform_quiet hs hread hthrow fun there _ => ?_
      split
      · exact hthrow _
      · split <;> exact ⟨rfl, hp⟩
    | getPrevEntry =>
      cases h
      refine perform_quiet hs hread hthrow fun found hfound => ?_
      split
      · split
        · exact fixDeltaLog_runs (hs.hasEntry (Except.ok.inj hfound)) fun _ hw => by
            cases hw; exact hp
        · exact ⟨rfl, hp⟩
      · exact ⟨rfl, hp⟩
    | getEntry =>
      cases h
      refine perform_quiet hs hread hthrow fun found _ => ?_
      split
      · split <;> exact ⟨rfl, hp⟩
      · exact ⟨rfl, hp⟩
    | existsPrevFile | existsOldFile =>
      cases h
      refine perform_quiet hs hread hthrow fun there _ => ?_
      split
      · exact ⟨rfl, trivial⟩
      · exact ⟨rfl, hp⟩
    | writeActions =>
      cases h
      refine perform_runs hs (writeActions_changes hs hp w.actions)
        (fun e => ⟨⟨rfl, trivial⟩, rfl, trivial⟩) fun _ _ => ⟨rfl, hp, Function.update_self ..⟩
    | putEntry =>
      cases h
      obtain ⟨hok, hc, hput⟩ := putExternalEntry_new hs
      refine perform_runs hs ⟨hok, hc⟩ (fun e => ⟨⟨rfl, trivial⟩, rfl, trivial⟩)
        fun _ hr => ⟨rfl, ?_⟩
      obtain ⟨htemps, he⟩ := hput hr
      exact ⟨he, (congrFun htemps _).trans hp.2⟩
    | copyTempFile =>
      cases h
      exact perform_quiet hs (copyFile_changes hs hp.1) (fun e => ⟨rfl, hp⟩) fun _ _ => ⟨rfl, hp⟩
    | putCompleteEntry =>
      cases h
      exact perform_quiet hs (putExternalEntry_complete hs hp.1) (fun e => ⟨rfl, hp⟩)
        fun _ _ => ⟨rfl, hp⟩
    | returned => cases h
  | listFrom =>
    cases h
    refine perform_quiet hs hread hthrow fun found hfound => ?_
    split
    · obtain ⟨x, hx, rfl⟩ := Option.map_eq_some_iff.1 (Except.ok.inj hfound)
      have he := BTreeMap.mem_toList.1 (mem_of_getLast? hx)
      split
      · exact fixDeltaLog_runs (hs.hasEntry he) (by simp [call])
      · exact ⟨rfl, trivial⟩
    · exact ⟨rfl, trivial⟩
  | listed | thrown => cases h
  | fix w? e retry copied p =>
    have hcatch := fixCatch_runs hp.1 hp.2 retry copied
    cases p with
    | existsFile =>
      cases h
      exact perform_quiet hs hread hcatch fun _ _ => ⟨rfl, hp⟩
    | copyTempFile =>
      cases h
      exact perform_quiet hs (copyFile_changes hs hp.1) hcatch fun _ _ => ⟨rfl, hp⟩
    | putCompleteEntry =>
      cases h
      exact perform_quiet hs (putExternalEntry_complete hs hp.1) hcatch fun _ _ => fixed_runs hp.2

end Proc

/-! ## Interleavings -/

namespace System

variable {sys sys' : System T C} {events : List (Event T C)}

structure Inv (sys : System T C) : Prop where
  storage : sys.storage.Ok
  ok : ∀ p ∈ sys.procs, p.Ok sys.storage
  fresh : ∀ (i j : Nat) (p q : Proc T C), sys.procs[i]? = some p → sys.procs[j]? = some q →
    p.tempPath? = q.tempPath? → p.tempPath? ≠ none → i = j
  used : ∀ n t, sys.storage.HasEntry n t → some t ∈ sys.procs.map Proc.tempPath?

theorem inv_init : (init : System T C).Inv :=
  ⟨⟨by simp [init], by simp [init]⟩, by simp [init], by simp [init], by simp [init, HasEntry]⟩

theorem Inv.start (h : sys.Inv) {p : Proc T C} (hp : p.Ok sys.storage)
    (hfresh : ∀ q ∈ sys.procs, q.tempPath? = p.tempPath? → p.tempPath? = none) :
    Inv ⟨sys.storage, sys.procs ++ [p]⟩ := by
  refine ⟨h.storage, ?_, ?_, fun n t ht => ?_⟩
  · simp only [forall_mem_append, forall_mem_singleton]
    exact ⟨h.ok, hp⟩
  · have := h.fresh
    grind
  · rw [map_append]
    exact mem_append_left _ (h.used n t ht)

variable [DecidableEq T]

theorem next_inv {event : Event T C} (h : sys.Inv) (hnext : sys.next event = some sys') :
    sys'.Inv ∧ Keeps sys.storage sys'.storage := by
  cases event with
  | write w =>
    dsimp only [next] at hnext
    split at hnext
    · rename_i hfresh
      cases hnext
      refine ⟨h.start (fun n hn => ?_) fun q hq heq => absurd heq (hfresh q hq), .refl⟩
      obtain ⟨q, hq, ht⟩ := mem_map.1 (h.used n _ hn)
      exact hfresh q hq ht
    · cases hnext
  | listFrom =>
    cases hnext
    exact ⟨h.start trivial fun _ _ _ => rfl, .refl⟩
  | step i o =>
    obtain ⟨p, hp, hnext⟩ := Option.bind_eq_some_iff.1 hnext
    obtain ⟨r, hr, hnext⟩ := Option.bind_eq_some_iff.1 hnext
    cases hnext
    have hmem := mem_of_getElem? hp
    obtain ⟨hok, hc, hcall, hp'⟩ := Proc.step_runs h.storage (h.ok p hmem) hr
    have hpath : r.1.tempPath? = p.tempPath? := congrArg (Option.map _) hcall
    refine ⟨⟨hok, fun q hq => ?_, ?_, fun n t ht => ?_⟩, hc.toKeeps⟩
    · obtain ⟨j, hj⟩ := mem_iff_getElem?.1 hq
      rw [getElem?_set] at hj
      split at hj
      · split at hj
        · cases hj
          exact hp'
        · cases hj
      · rename_i hij
        refine (h.ok q (mem_of_getElem? hj)).frame hc fun t ht ht' => hij ?_
        exact h.fresh i j p q hp hj (ht'.trans ht.symm) (by simp [ht'])
    · have := h.fresh
      grind
    have hpaths : (sys.procs.set i r.1).map Proc.tempPath? = sys.procs.map Proc.tempPath? :=
      ext_getElem? fun j => by grind
    rw [hpaths]
    rcases hc.new n t ht with ht | ht
    · exact h.used n t ht
    · exact ht ▸ mem_map_of_mem hmem

theorem run_inv (h : sys.Inv) (hrun : sys.run events = some sys') :
    sys'.Inv ∧ Keeps sys.storage sys'.storage := by
  induction events generalizing sys with
  | nil =>
    cases hrun
    exact ⟨h, .refl⟩
  | cons event events ih =>
    obtain ⟨mid, hnext, hrun⟩ := Option.bind_eq_some_iff.1 hrun
    obtain ⟨hmid, hkeep⟩ := next_inv h hnext
    obtain ⟨hinv, hkeep'⟩ := ih hmid hrun
    exact ⟨hinv, hkeep.trans hkeep'⟩

end System

/-- In every interleaving: a commit file has the content of the temp file of its entry; an entry
keeps its temp path, the temp file and a commit file their contents; and at most one call of `write`
for a version returns, the one whose actions the temp file and the commit file hold. -/
theorem commits_once [DecidableEq T] {events : List (Event T C)} {procs : List (Proc T C)}
    (h : System.init.run events = some ⟨s, procs⟩) :
    (∀ n c, s.files n = some c → ∃ e, s.entries[n]? = some e ∧ s.temps e.tempPath = some c) ∧
    (∀ later s' procs', System.run ⟨s, procs⟩ later = some ⟨s', procs'⟩ →
      (∀ (n : Nat) (e : ExternalCommitEntry T), s.entries[n]? = some e →
        (∃ e' : ExternalCommitEntry T, s'.entries[n]? = some e' ∧ e'.tempPath = e.tempPath) ∧
          s'.temps e.tempPath = s.temps e.tempPath) ∧
      ∀ n c, s.files n = some c → s'.files n = some c) ∧
    (∀ (i j : Nat) w w', procs[i]? = some (.write w .returned) →
      procs[j]? = some (.write w' .returned) →
      w.version = w'.version → i = j) ∧
    ∀ w, .write w .returned ∈ procs →
      (∃ e, s.entries[w.version]? = some e ∧ e.tempPath = w.tempPath) ∧ s.temps w.tempPath =
        some w.actions ∧
      ∀ c, s.files w.version = some c → c = w.actions := by
  obtain ⟨hinv, -⟩ := System.run_inv System.inv_init h
  have hret : ∀ w, .write w .returned ∈ procs →
      s.HasEntry w.version w.tempPath ∧ s.temps w.tempPath = some w.actions :=
        fun w hw => hinv.ok _ hw
  refine ⟨fun n c hc => ?_,
    fun later s' procs' hlater => ?_, fun i j w w' hi hj hv => ?_, fun w hw => ?_⟩
  · obtain ⟨t, ⟨e, he, rfl⟩, hc⟩ := hinv.storage.file n c hc
    exact ⟨e, he, hc⟩
  · obtain ⟨-, hkeep⟩ := System.run_inv hinv hlater
    exact ⟨fun n e he => hkeep.entries n e.tempPath ⟨e, he, rfl⟩, hkeep.files⟩
  · have hw := (hret w (mem_of_getElem? hi)).1
    rw [hv] at hw
    have heq := hw.unique (hret w' (mem_of_getElem? hj)).1
    exact hinv.fresh i j _ _ hi hj (congrArg some heq) (by simp [Proc.tempPath?, Proc.call])
  · obtain ⟨he, hc⟩ := hret w hw
    refine ⟨he, hc, fun c hfile => ?_⟩
    obtain ⟨t, ht, hc'⟩ := hinv.storage.file _ c hfile
    rw [ht.unique he, hc] at hc'
    exact (Option.some.inj hc').symm

/-- Two calls write version `0`. The copy of the first one fails, and a `listFrom` copies its temp
file. -/
def recovery : List (Event Nat Nat) := [.write ⟨0, 0, 10⟩, .write ⟨0, 1, 11⟩, .listFrom] ++
  [0, 0, 0, 0, 1, 1, 1, 1, 2, 2].map (.step · (.proceeds false)) ++
  [.step 0 (.raises .other false), .step 2 (.proceeds false)]

theorem commits_once_recovered : (System.init.run recovery).map (·.storage.files 0) =
    some (some 10) ∧
    ∃ s procs, System.init.run recovery = some ⟨s, procs⟩ ∧
      ∀ w, .write w .returned ∈ procs → w.version = 0 → w.actions = 10 := by
  have hfile : (System.init.run recovery).map (·.storage.files 0) = some (some 10) := by
    decide +kernel
  obtain ⟨⟨s, procs⟩, hrun, hs⟩ := Option.map_eq_some_iff.1 hfile
  refine ⟨hfile, s, procs, hrun, fun w hw hv => ?_⟩
  exact (((commits_once hrun).2.2.2 w hw).2.2 10 (hv ▸ hs)).symm

end Delta.ExternalLogStore
