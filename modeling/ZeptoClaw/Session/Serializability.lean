import ZeptoClaw.Session.LocalStep
import ZeptoClaw.Session.Abstract

/-!
# Per-key exclusion makes interleavings serializable

The serial order is the order of the linearization points (`ZeptoClaw.Session.LocalStep`). The
proof is a forward simulation: along the schedule we keep, beside the configuration, the list
`lin` of the threads past their point, and the relation `Sim` between the configuration and
`serial` run over `lin`:

* the cache is the serial cache;
* a file agrees with the serial directory unless a committed `save` or `delete` still owes it its
  write or removal, and then the serial directory already shows that change;
* what each thread in flight has read is still true of the serial store (`ThreadOK`);
* the replies of the committed threads are the serial replies.

A step of thread `i` is `localStep` for `i` itself; the other threads are untouched because a step
changes the store only at its own key and file, and — this is where exclusion is used — no other
thread in flight has that file (`Sim.step`). When every call has returned, nothing is owed and
`lin` holds every thread, so the final store and replies are the serial ones
(`serializable_of_runExclusive`). Since a call run alone never fails, neither does any call of
such a run (`no_ioError_of_runExclusive`). Composed with the refinement of the abstract store
(`ZeptoClaw.Session.Abstract`), the same argument shows that the concurrent manager implements
that store: each finished run answers every call as the abstract store does, with the calls in
some order (`concurrent_refines_absStore`).

Exclusion is what rules out the interleavings that lose an update: without it,
`getOrCreate_overwrites_save` is reachable.
-/

namespace ZeptoClaw

/-! ### The simulation -/

/-- The threads at the indices of `lin`, in its order. -/
def inOrder (ts : List Thread) (lin : List Nat) : List Thread :=
  lin.filterMap fun i ↦ ts[i]?

/-- The serial execution of the calls at the indices of `lin`, in its order. -/
def linRun (m : SessionManager) (st : Store) (c : Config) (lin : List Nat) :
    Store × List Reply :=
  serial m st ((inOrder c.threads lin).map Thread.op)

/-- No thread owes file `n` a change. -/
def NoneOwes (ts : List Thread) (n : String) : Prop :=
  ∀ (j : Nat) (t : Thread), ts[j]? = some t → t.owes ≠ some n

/-- **The simulation relation** between a configuration reached from `st` and the serial
execution of the threads of `lin`, the committed ones in the order they committed. -/
structure Sim (m : SessionManager) (st : Store) (c : Config) (lin : List Nat) : Prop where
  nodup : lin.Nodup
  mem_iff : ∀ i, i ∈ lin ↔ ∃ t, c.threads[i]? = some t ∧ t.committed
  sessions : c.store.sessions = (linRun m st c lin).1.sessions
  files : ∀ n, NoneOwes c.threads n →
    c.store.files.lookup n = (linRun m st c lin).1.files.lookup n
  ok : ∀ (j : Nat) (t : Thread), c.threads[j]? = some t →
    ThreadOK m c.store (linRun m st c lin).1 t
  replies : (linRun m st c lin).2.map Pc.done = (inOrder c.threads lin).map Thread.settled

theorem filterMap_getElem?_range {α : Type} (ts : List α) :
    (List.range ts.length).filterMap (fun i ↦ ts[i]?) = ts := by
  induction ts with
  | nil => rfl
  | cons a ts ih =>
    rw [List.length_cons, List.range_succ_eq_map, List.filterMap_cons, List.filterMap_map]
    simpa [Function.comp_def] using ih

/-- When `lin` lists every index once, its threads are all the threads, in another order. -/
theorem inOrder_perm {ts : List Thread} {lin : List Nat} (hnd : lin.Nodup)
    (hmem : ∀ i, i ∈ lin ↔ i < ts.length) : (inOrder ts lin).Perm ts := by
  have hp : lin.Perm (List.range ts.length) :=
    (List.perm_ext_iff_of_nodup hnd (List.nodup_range _)).2 fun i ↦ by rw [hmem, List.mem_range]
  simpa only [inOrder, filterMap_getElem?_range] using hp.filterMap fun i ↦ ts[i]?

theorem inOrder_append_singleton {ts : List Thread} {i : Nat} {t : Thread} (ht : ts[i]? = some t)
    (lin : List Nat) : inOrder ts (lin ++ [i]) = inOrder ts lin ++ [t] := by
  simp [inOrder, List.filterMap_append, ht]

section Set

variable {ts : List Thread} {i : Nat} {t t' : Thread}

theorem getElem?_set_of (ht : ts[i]? = some t) (j : Nat) :
    (ts.set i t')[j]? = if i = j then some t' else ts[j]? := by
  rw [List.getElem?_set, if_congr Iff.rfl (if_pos (List.getElem?_eq_some_iff.1 ht).1) rfl]

/-- Replacing thread `i` changes what `lin` sees through `f` only if `i` is in `lin`. -/
theorem map_inOrder_set {α : Type} (f : Thread → α) {lin : List Nat} (ht : ts[i]? = some t)
    (hf : i ∈ lin → f t' = f t) : (inOrder (ts.set i t') lin).map f = (inOrder ts lin).map f := by
  simp only [inOrder, List.map_filterMap]
  refine List.filterMap_congr fun j hj ↦ ?_
  rw [getElem?_set_of ht]
  split
  · subst_vars
    simp [ht, hf hj]
  · rfl

theorem NoneOwes.of_set {n : String} (h : NoneOwes (ts.set i t') n) (ht : ts[i]? = some t)
    (hn : t.owes ≠ some n) : NoneOwes ts n := by
  intro j u hu
  by_cases hij : i = j
  · subst hij
    obtain rfl := Option.some.inj (ht.symm.trans hu)
    exact hn
  · exact h j u (by rw [List.getElem?_set_ne hij, hu])

end Set

section Step

variable {m : SessionManager} {st : Store} {c : Config} {lin : List Nat} {i : Nat} {t : Thread}

/-- Under exclusion, no other thread in flight shares the stepping thread's file. -/
theorem Config.Exclusive.other (hex : c.Exclusive i) (ht : c.threads[i]? = some t) {j : Nat}
    {u : Thread} (hu : c.threads[j]? = some u) (hji : j ≠ i) (ha : u.pc.isActive) :
    ∀ f ∈ t.file?, u.file? ≠ some f := by
  intro f hf
  obtain ⟨hj, rfl⟩ := List.getElem?_eq_some_iff.1 hu
  exact hex t ht f hf j hj hji ha

/-- The stepping thread starts from the serial store. -/
theorem Sim.ready (hs : Sim m st c lin) (hex : c.Exclusive i) (ht : c.threads[i]? = some t) :
    Ready m c.store (linRun m st c lin).1 t where
  ok := hs.ok i t ht
  sessions := hs.sessions
  file n hn hown := hs.files n fun j u hu hun ↦ by
    by_cases hji : j = i
    · subst hji
      obtain rfl := Option.some.inj (ht.symm.trans hu)
      simp [hown] at hun
    · exact hex.other ht hu hji (Thread.owes_active hun) n hn (Thread.owes_eq_file hun)

/-- The threads that do not step keep their invariant. -/
theorem Sim.ok_set (hs : Sim m st c lin) (hex : c.Exclusive i) (ht : c.threads[i]? = some t)
    {t' : Thread} {C' A' : Store} (hC : Frame t.op.key? c.store C')
    (hA : Frame t.op.key? (linRun m st c lin).1 A') (ht' : ThreadOK m C' A' t') :
    ∀ (j : Nat) (u : Thread), (c.threads.set i t')[j]? = some u → ThreadOK m C' A' u := by
  intro j u hu
  rw [getElem?_set_of ht] at hu
  split at hu
  · cases hu
    exact ht'
  · rename_i hij
    cases ha : u.pc.isActive
    · exact threadOK_of_not_active ha
    · exact (hs.ok j u hu).frame (fun f hf htf ↦ hex.other ht hu (Ne.symm hij) ha f htf hf) hC hA

/-- The files agree wherever nothing is owed. -/
theorem Sim.files_set (hs : Sim m st c lin) (ht : c.threads[i]? = some t) {t' : Thread}
    {C' A' : Store} (hC : Frame t.op.key? c.store C') (hA : Frame t.op.key? (linRun m st c lin).1 A')
    (hfile : ∀ n, t.file? = some n → t'.owes ≠ some n → C'.files.lookup n = A'.files.lookup n) :
    ∀ n, NoneOwes (c.threads.set i t') n → C'.files.lookup n = A'.files.lookup n := by
  intro n hn
  by_cases htn : t.file? = some n
  · exact hfile n htn (hn i t' (by simp [getElem?_set_of ht]))
  · rw [hC.2 n htn, hA.2 n htn]
    exact hs.files n (hn.of_set ht fun h ↦ htn (Thread.owes_eq_file h))

theorem Sim.mem_iff_set (hs : Sim m st c lin) (ht : c.threads[i]? = some t) {t' : Thread}
    {lin' : List Nat} (hi : i ∈ lin' ↔ t'.committed) (hj : ∀ j, j ≠ i → (j ∈ lin' ↔ j ∈ lin)) :
    ∀ j, j ∈ lin' ↔ ∃ u, (c.threads.set i t')[j]? = some u ∧ u.committed := by
  intro j
  rw [getElem?_set_of ht]
  split
  · subst_vars
    simp [hi]
  · rename_i hij
    rw [hj j (Ne.symm hij), hs.mem_iff]

/-- A thread is in `lin` exactly when it is committed. -/
theorem Sim.mem_iff_committed (hs : Sim m st c lin) (ht : c.threads[i]? = some t) :
    i ∈ lin ↔ t.committed := by
  rw [hs.mem_iff, ht]
  simp

/-- **One step keeps the simulation**: a committing step appends its thread to `lin`. -/
theorem Sim.step (hs : Sim m st c lin) (hex : c.Exclusive i) :
    ∃ lin', Sim m st (c.step m i) lin' := by
  rcases ht : c.threads[i]? with _ | t
  · exact ⟨lin, by simpa [Config.step, ht] using hs⟩
  have hstep : c.step m i = ⟨(t.op.step m t.pc c.store).2,
      c.threads.set i ⟨t.op, (t.op.step m t.pc c.store).1⟩⟩ := by
    simp [Config.step, ht]
  rw [hstep]
  have hC := Op.step_frame m t.op t.pc c.store
  rcases localStep (hs.ready hex ht) with
    ⟨hc, hc', hsess, hset, hok, hfile⟩ | ⟨hc, hsess, hset, hok, hfile⟩
  · have hnot : i ∉ lin := by
      rw [hs.mem_iff_committed ht, hc]
      decide
    have hrun : linRun m st ⟨(t.op.step m t.pc c.store).2,
        c.threads.set i ⟨t.op, (t.op.step m t.pc c.store).1⟩⟩ (lin ++ [i]) =
        ((t.op.exec m (linRun m st c lin).1).2,
          (linRun m st c lin).2 ++ [(t.op.exec m (linRun m st c lin).1).1]) := by
      simp only [linRun, inOrder_append_singleton (getElem?_set_of ht i ▸ if_pos rfl),
        List.map_append, map_inOrder_set Thread.op ht fun h ↦ absurd h hnot]
      exact serial_append_singleton m st _ t.op
    refine ⟨lin ++ [i], ⟨?_, ?_, ?_, ?_, ?_, ?_⟩⟩
    · simpa [List.nodup_append] using ⟨hs.nodup, hnot⟩
    · refine hs.mem_iff_set ht (by simp [hc']) fun j hj ↦ ?_
      simp [hj]
    · rw [hrun]
      exact hsess
    · rw [hrun]
      exact hs.files_set ht hC (Op.exec_frame m t.op _) hfile
    · rw [hrun]
      exact hs.ok_set hex ht hC (Op.exec_frame m t.op _) hok
    · rw [hrun, List.map_append, hs.replies, inOrder_append_singleton (getElem?_set_of ht i ▸ if_pos rfl),
        List.map_append, map_inOrder_set Thread.settled ht fun h ↦ absurd h hnot]
      simp [hset]
  · have hrun : linRun m st ⟨(t.op.step m t.pc c.store).2,
        c.threads.set i ⟨t.op, (t.op.step m t.pc c.store).1⟩⟩ lin = linRun m st c lin := by
      have hops : (inOrder (c.threads.set i ⟨t.op, (t.op.step m t.pc c.store).1⟩) lin).map
          Thread.op = (inOrder c.threads lin).map Thread.op :=
        map_inOrder_set Thread.op ht fun _ ↦ rfl
      simp only [linRun, hops]
    refine ⟨lin, ⟨hs.nodup, ?_, ?_, ?_, ?_, ?_⟩⟩
    · refine hs.mem_iff_set ht ?_ fun j _ ↦ Iff.rfl
      rw [hs.mem_iff_committed ht, hc]
    · rw [hrun]
      exact hsess.trans hs.sessions
    · rw [hrun]
      exact hs.files_set ht hC Frame.refl hfile
    · rw [hrun]
      exact hs.ok_set hex ht hC Frame.refl hok
    · rw [hrun, hs.replies,
        map_inOrder_set Thread.settled ht fun h ↦ hset ((hs.mem_iff_committed ht).1 h)]

/-- **A whole run keeps the simulation.** -/
theorem Sim.run {sched : List Nat} (hs : Sim m st c lin) (hex : c.RunExclusive m sched) :
    ∃ lin', Sim m st (c.run m sched) lin' := by
  induction sched generalizing c lin with
  | nil => exact ⟨lin, hs⟩
  | cons i sched ih =>
    obtain ⟨lin', hs'⟩ := hs.step hex.1
    exact ih hs' hex.2

/-- Once every call has returned, the simulation is the serial execution it tracks. -/
theorem Sim.serializable (hs : Sim m st c lin) (hdone : c.AllDone) : Serializable m st c := by
  have hdone' : ∀ (j : Nat) (t : Thread), c.threads[j]? = some t → t.pc.isDone :=
    fun _ t h ↦ hdone t (List.getElem?_mem h)
  have hmem : ∀ i, i ∈ lin ↔ i < c.threads.length := fun i ↦ by
    rw [hs.mem_iff]
    refine ⟨fun ⟨_, ht, _⟩ ↦ (List.getElem?_eq_some_iff.1 ht).1, fun hi ↦ ?_⟩
    have ht := List.getElem?_eq_getElem hi
    exact ⟨_, ht, Thread.committed_of_isDone (hdone' i _ ht)⟩
  have hperm := inOrder_perm hs.nodup hmem
  refine ⟨inOrder c.threads lin, hperm, ?_, ?_⟩
  · refine Store.ext hs.sessions.symm (Finmap.ext_lookup fun n ↦ (hs.files n ?_).symm)
    intro j t ht
    simp [Thread.owes_of_isDone (hdone' j t ht)]
  · exact hs.replies.trans (List.map_congr_left fun t ht ↦
      Thread.settled_of_isDone (hdone t (hperm.subset ht)))

end Step

theorem Sim.init (m : SessionManager) (st : Store) (ops : List Op) :
    Sim m st (Config.init st ops) [] where
  nodup := List.nodup_nil
  mem_iff i := by simp [Config.init, Thread.committed]
  sessions := rfl
  files _ _ := rfl
  ok j t h := by
    simp only [Config.init, List.getElem?_map, Option.map_eq_some'] at h
    obtain ⟨op, -, rfl⟩ := h
    exact threadOK_of_not_active rfl
  replies := rfl

/-- **Per-key exclusion makes every interleaving serializable.** Run the calls `ops` from `st`
under a schedule in which a call steps only while no other call on its file is in flight. Once
every call has returned, the threads are still the calls `ops`, and the store and every reply
are those of the same calls run one after another in some order. -/
theorem serializable_of_runExclusive (m : SessionManager) (st : Store) (ops : List Op)
    (sched : List Nat) (hex : (Config.init st ops).RunExclusive m sched)
    (hdone : (Config.run m (Config.init st ops) sched).AllDone) :
    (Config.run m (Config.init st ops) sched).threads.map Thread.op = ops ∧
      Serializable m st (Config.run m (Config.init st ops) sched) := by
  refine ⟨by rw [Config.run_ops, init_ops], ?_⟩
  obtain ⟨lin, hs⟩ := (Sim.init m st ops).run hex
  exact hs.serializable hdone

/-- **Under per-key exclusion no filesystem call fails**: once every call has returned, none of
them returned an I/O error. -/
theorem no_ioError_of_runExclusive (m : SessionManager) (st : Store) (ops : List Op)
    (sched : List Nat) (hex : (Config.init st ops).RunExclusive m sched)
    (hdone : (Config.run m (Config.init st ops) sched).AllDone) :
    ∀ t ∈ (Config.run m (Config.init st ops) sched).threads, t.pc ≠ .done .ioError := by
  obtain ⟨lin, hs⟩ := (Sim.init m st ops).run hex
  obtain ⟨ts, hperm, -, hreplies⟩ := hs.serializable hdone
  intro t ht hio
  have hmem : t.pc ∈ ts.map Thread.pc := List.mem_map_of_mem _ (hperm.mem_iff.2 ht)
  rw [← hreplies] at hmem
  obtain ⟨r, hr, hrt⟩ := List.mem_map.1 hmem
  exact serial_ne_ioError m st _ r hr (Pc.done.inj (hrt.trans hio))

/-- With persistence, `save("a")` is interrupted by `delete("b")` and followed by `get("a")`;
the schedule keeps exclusion and every call returns. -/
theorem save_interleaved_with_delete :
    let m : SessionManager := ⟨some "sessions"⟩
    let ops := [Op.save ⟨"a", []⟩, .get "a", .delete "b"]
    (Config.init Store.empty ops).RunExclusive m [0, 2, 0, 2, 1] ∧
      (Config.run m (Config.init Store.empty ops) [0, 2, 0, 2, 1]).AllDone ∧
      ∀ t ∈ (Config.run m (Config.init Store.empty ops) [0, 2, 0, 2, 1]).threads,
        t.pc ≠ .done .ioError :=
  ⟨by decide, by decide, no_ioError_of_runExclusive _ _ _ _ (by decide) (by decide)⟩

/-- `get_or_create("a")` is interrupted by a `save` on another key and then followed by
`get("a")`; the schedule keeps exclusion and every call returns. -/
theorem getOrCreate_interleaved_with_save :
    let m : SessionManager := ⟨none⟩
    let ops := [Op.getOrCreate "a", .save ⟨"b", []⟩, .get "a"]
    (Config.init Store.empty ops).RunExclusive m [0, 1, 0, 2] ∧
      (Config.run m (Config.init Store.empty ops) [0, 1, 0, 2]).AllDone ∧
      ((Config.run m (Config.init Store.empty ops) [0, 1, 0, 2]).threads.map Thread.op = ops ∧
        Serializable m Store.empty (Config.run m (Config.init Store.empty ops) [0, 1, 0, 2])) :=
  ⟨by decide, by decide, serializable_of_runExclusive _ _ _ _ (by decide) (by decide)⟩

/-- **Under per-key exclusion the concurrent manager implements the abstract store.** Run calls
on keys that do not share files, from an empty directory or in memory, under a schedule that keeps
per-key exclusion, until every call has returned. Then the calls can be put in an order in which
the abstract store gives each of them exactly the reply it got, and ends related to the final
cache and directory. -/
theorem concurrent_refines_absStore (m : SessionManager) (K : KeySpace) (ops : List Op)
    (hops : ∀ op ∈ ops, op.KeyIn K) (sched : List Nat)
    (hex : (Config.init Store.empty ops).RunExclusive m sched)
    (hdone : (Config.run m (Config.init Store.empty ops) sched).AllDone) :
    ∃ ts : List Thread, ts.Perm (Config.run m (Config.init Store.empty ops) sched).threads ∧
      (AbsStore.serial m.storagePath.isSome AbsStore.empty (ts.map Thread.op)).2.map Pc.done =
        ts.map Thread.pc ∧
      Refines m K (Config.run m (Config.init Store.empty ops) sched).store
        (AbsStore.serial m.storagePath.isSome AbsStore.empty (ts.map Thread.op)).1 := by
  obtain ⟨lin, hs⟩ := (Sim.init m Store.empty ops).run hex
  obtain ⟨ts, hperm, hstore, hreplies⟩ := hs.serializable hdone
  have hts : ∀ op ∈ ts.map Thread.op, op.KeyIn K := fun op hop ↦ hops op <| by
    rw [← init_ops Store.empty ops, ← Config.run_ops m _ sched]
    exact (hperm.map Thread.op).subset hop
  obtain ⟨hr, hrel⟩ := Refines.empty.serial hts
  exact ⟨ts, hperm, hr ▸ hreplies, hstore ▸ hrel⟩

/-- With persistence, over the key space `{a, b}`: `save("a")` is interrupted by `delete("b")`
and followed by `get("a")`. -/
theorem concurrent_refines_absStore_ab :
    let m : SessionManager := ⟨some "sessions"⟩
    let K : KeySpace := ⟨{"a", "b"}, by
      rintro x (rfl | rfl) y (rfl | rfl) h <;> first | rfl | exact absurd h (by decide)⟩
    let ops := [Op.save ⟨"a", []⟩, .get "a", .delete "b"]
    let c := Config.run m (Config.init Store.empty ops) [0, 2, 0, 2, 1]
    (∀ op ∈ ops, op.KeyIn K) ∧
      (Config.init Store.empty ops).RunExclusive m [0, 2, 0, 2, 1] ∧ c.AllDone ∧
      ∃ ts : List Thread, ts.Perm c.threads ∧
        (AbsStore.serial m.storagePath.isSome AbsStore.empty (ts.map Thread.op)).2.map Pc.done =
          ts.map Thread.pc ∧
        Refines m K c.store
          (AbsStore.serial m.storagePath.isSome AbsStore.empty (ts.map Thread.op)).1 :=
  have hops : ∀ op ∈ [Op.save ⟨"a", []⟩, .get "a", .delete "b"], op.KeyIn ⟨{"a", "b"}, by
      rintro x (rfl | rfl) y (rfl | rfl) h <;> first | rfl | exact absurd h (by decide)⟩ := by
    simp [Op.KeyIn, Op.key?]
  ⟨hops, by decide, by decide, concurrent_refines_absStore _ _ _ hops _ (by decide) (by decide)⟩

end ZeptoClaw
