import ZeptoClaw.Session.Interleaving
import ZeptoClaw.Session.Invariant

/-!
# What holds in every interleaving

Per-key exclusion is what makes concurrent calls serializable
(`ZeptoClaw.Session.Serializability`); without it `get_or_create` can overwrite a `save`
(`getOrCreate_overwrites_save`). Two things hold without any exclusion, whatever order the steps of
any calls interleave in.

**Isolation.** Over keys that do not share files, a session is only ever cached under its own key,
a file only ever holds a session whose key it is named after, and no call returns, or is about to
cache, another key's session. These are what every atomic step keeps (`KeyedStore` for the store,
`Thread.Keyed` for a thread). A read of `key`'s file finds a session keyed `key`, because the file
is named after the key of the session it holds and keys of a key space do not share files; an
insert into the cache puts a session under the key it was read or made for; a write names the file
after the session's key. There is one lemma per step (`Op.step_keyed`), one per step of a schedule
(`Isolated.step`), and the run (`keys_isolated_of_run`).

**Progress.** No call waits for another or runs forever: each returns within four of its own
steps, whatever the others do in between (`returns_within_four_steps`). Every step of a call that
has not returned brings it closer to its return (`Op.step_rank`), and other calls' steps do not
move it (`Config.step_getElem?_ne`).
-/

namespace ZeptoClaw

/-- The store's half of isolation: every session is cached under its own key, and every file is
named after the key of the session it holds, a key of `K`. -/
structure KeyedStore (K : KeySpace) (st : Store) : Prop where
  cache_key : ∀ k s, st.sessions.lookup k = some s → s.key = k
  file_name : ∀ n d, st.files.lookup n = some d → n = fileName d.key
  file_mem : ∀ n d, st.files.lookup n = some d → d.key ∈ K.keys

/-- A thread's half: the session it has read and will cache, or has returned, has the call's
key. -/
def Thread.Keyed (t : Thread) : Prop :=
  match t.pc with
  | .fill s | .done (.session s) | .done (.lookup (some s)) => t.op.key? = some s.key
  | _ => True

/-- **Isolation** of a configuration: the store's half, and each thread's half for a call on a
key of `K`. -/
structure Isolated (K : KeySpace) (c : Config) : Prop where
  store : KeyedStore K c.store
  threads : ∀ t ∈ c.threads, t.op.KeyIn K ∧ t.Keyed

namespace KeyedStore

variable {K : KeySpace} {st : Store}

theorem empty : KeyedStore K Store.empty :=
  ⟨by simp, by simp, by simp⟩

theorem cache (h : KeyedStore K st) {key : String} {s : Session} (hs : s.key = key) :
    KeyedStore K (st.cache key s) := by
  refine ⟨fun k s' hk ↦ ?_, h.file_name, h.file_mem⟩
  rcases lookup_insert_eq_some.1 hk with ⟨rfl, rfl⟩ | ⟨-, hk⟩
  exacts [hs, h.cache_key _ _ hk]

theorem write (h : KeyedStore K st) {s : Session} (hk : s.key ∈ K.keys) :
    KeyedStore K { st with files := st.files.insert (fileName s.key) s } := by
  refine ⟨h.cache_key, fun n d hn ↦ ?_, fun n d hn ↦ ?_⟩ <;>
    rcases lookup_insert_eq_some.1 hn with ⟨rfl, rfl⟩ | ⟨-, hn⟩
  exacts [rfl, h.file_name _ _ hn, hk, h.file_mem _ _ hn]

theorem eraseSession (h : KeyedStore K st) (key : String) :
    KeyedStore K { st with sessions := st.sessions.erase key } := by
  refine ⟨fun k s hk ↦ h.cache_key k s ?_, h.file_name, h.file_mem⟩
  by_cases e : k = key
  · subst e; simp at hk
  · rwa [Finmap.lookup_erase_ne e] at hk

theorem eraseFile (h : KeyedStore K st) (n : String) :
    KeyedStore K { st with files := st.files.erase n } := by
  have hsub : ∀ n' d, (st.files.erase n).lookup n' = some d → st.files.lookup n' = some d :=
    fun n' d hn ↦ by
      by_cases e : n' = n
      · subst e; simp at hn
      · rwa [Finmap.lookup_erase_ne e] at hn
  exact ⟨h.cache_key, fun n' d hn ↦ h.file_name _ _ (hsub _ _ hn),
    fun n' d hn ↦ h.file_mem _ _ (hsub _ _ hn)⟩

theorem clearCache (h : KeyedStore K st) : KeyedStore K (SessionManager.clearCache st) :=
  ⟨by simp, h.file_name, h.file_mem⟩

/-- **A read of `key`'s file finds a session keyed `key`.** -/
theorem readStep_keyed (h : KeyedStore K st) {key : String} (hk : key ∈ K.keys) :
    Thread.Keyed ⟨.get key, Op.readStep key st⟩ ∧
      Thread.Keyed ⟨.getOrCreate key, Op.readStep key st⟩ := by
  unfold Op.readStep
  split
  · rename_i d hd
    have hdk : d.key = key := K.eq_of_fileName_eq (h.file_mem _ _ hd) hk (h.file_name _ _ hd).symm
    simp [Thread.Keyed, Op.key?, hdk]
  · simp [Thread.Keyed]

end KeyedStore

namespace Op

variable (m : SessionManager) {K : KeySpace}

/-- **Every step keeps isolation**, the store's half and the stepping thread's. -/
theorem step_keyed {op : Op} {pc : Pc} {st : Store} (hs : KeyedStore K st) (hop : op.KeyIn K)
    (ht : Thread.Keyed ⟨op, pc⟩) :
    KeyedStore K (op.step m pc st).2 ∧ Thread.Keyed ⟨op, (op.step m pc st).1⟩ := by
  cases op with
  | getOrCreate key =>
    cases pc <;> simp only [step, stepGetOrCreate]
    case start =>
      split
      · exact ⟨hs, by simp [Thread.Keyed, key?, hs.cache_key _ _ ‹_›]⟩
      · exact ⟨hs, by split <;> trivial⟩
    case probe => exact ⟨hs, by split <;> trivial⟩
    case read => exact ⟨hs, (hs.readStep_keyed (hop key rfl)).2⟩
    case fill s => exact ⟨hs.cache (Option.some.inj ht).symm, ht⟩
    case create => exact ⟨hs.cache (Session.new_key key), by simp [Thread.Keyed, key?]⟩
    all_goals exact ⟨hs, ht⟩
  | get key =>
    cases pc <;> simp only [step, stepGet]
    case start =>
      split
      · exact ⟨hs, by simp [Thread.Keyed, key?, hs.cache_key _ _ ‹_›]⟩
      · exact ⟨hs, by split <;> trivial⟩
    case probe => exact ⟨hs, by split <;> trivial⟩
    case read => exact ⟨hs, (hs.readStep_keyed (hop key rfl)).1⟩
    case fill s => exact ⟨hs.cache (Option.some.inj ht).symm, ht⟩
    all_goals exact ⟨hs, ht⟩
  | save s =>
    cases pc <;> simp only [step, stepSave]
    case start => exact ⟨hs.cache rfl, by split <;> trivial⟩
    case write => exact ⟨hs.write (hop s.key rfl), trivial⟩
    all_goals exact ⟨hs, ht⟩
  | delete key =>
    cases pc <;> simp only [step, stepDelete]
    case start => exact ⟨hs.eraseSession key, by split <;> trivial⟩
    case probe => exact ⟨hs, by split <;> trivial⟩
    case unlink => split <;> exact ⟨by first | exact hs.eraseFile _ | exact hs, trivial⟩
    all_goals exact ⟨hs, ht⟩
  | «exists» key =>
    cases pc <;> simp only [step, stepExists]
    case start => split <;> exact ⟨hs, by first | trivial | split <;> trivial⟩
    case probe => exact ⟨hs, trivial⟩
    all_goals exact ⟨hs, ht⟩
  | clearCache =>
    cases pc <;> simp only [step, stepClearCache]
    case start => exact ⟨hs.clearCache, trivial⟩
    all_goals exact ⟨hs, ht⟩

end Op

namespace Isolated

variable {m : SessionManager} {K : KeySpace} {c : Config}

theorem init {st : Store} {ops : List Op} (hst : KeyedStore K st)
    (hops : ∀ op ∈ ops, op.KeyIn K) : Isolated K (Config.init st ops) :=
  ⟨hst, by
    simp only [Config.init, List.mem_map]
    rintro _ ⟨op, hop, rfl⟩
    exact ⟨hops op hop, trivial⟩⟩

/-- One step of a schedule, whichever thread takes it. -/
theorem step (h : Isolated K c) (i : Nat) : Isolated K (c.step m i) := by
  unfold Config.step
  split
  · rename_i t ht
    obtain ⟨hkin, hkeyed⟩ := h.threads t (List.getElem?_mem ht)
    obtain ⟨hs, ht'⟩ := Op.step_keyed m h.store hkin hkeyed
    refine ⟨hs, fun u hu ↦ ?_⟩
    rcases List.mem_or_eq_of_mem_set hu with hu | rfl
    exacts [h.threads u hu, ⟨hkin, ht'⟩]
  · exact h

theorem run (h : Isolated K c) (sched : List Nat) : Isolated K (c.run m sched) := by
  induction sched generalizing c with
  | nil => exact h
  | cons i sched ih => exact ih (h.step i)

end Isolated

/-- **No call sees another key's session, in any interleaving.** Start from a store whose
sessions sit under their own keys (an empty directory, or any store reached one call at a time),
run calls on keys that do not share files, and interleave their steps in any order, with no
exclusion: the cache holds every session under its own key, every file is named after the key of
the session it holds, and every session a call returned has that call's key. -/
theorem keys_isolated_of_run (m : SessionManager) (K : KeySpace) (st : Store) (ops : List Op)
    (hst : KeyedStore K st) (hops : ∀ op ∈ ops, op.KeyIn K) (sched : List Nat) :
    let c := Config.run m (Config.init st ops) sched
    (∀ k s, c.store.sessions.lookup k = some s → s.key = k) ∧
      (∀ n d, c.store.files.lookup n = some d → n = fileName d.key) ∧
      ∀ t ∈ c.threads, ∀ s, t.pc = .done (.session s) ∨ t.pc = .done (.lookup (some s)) →
        t.op.key? = some s.key := by
  intro c
  have h : Isolated K c := (Isolated.init hst hops).run sched
  refine ⟨h.store.cache_key, h.store.file_name, fun t ht s hs ↦ ?_⟩
  have hk := (h.threads t ht).2
  rcases hs with hs | hs <;> simpa [Thread.Keyed, hs] using hk

/-- The lost-save interleaving, with persistence: `get_or_create("chat")` misses the cache and
finds no file, `save` runs to completion, then `get_or_create` inserts a new session. The run is
not serializable, and still every session stays under its own key. -/
theorem keys_isolated_of_lost_save :
    let m : SessionManager := ⟨some "sessions"⟩
    let K : KeySpace := ⟨{"chat"}, Set.injOn_singleton _ _⟩
    let ops : List Op :=
      [.getOrCreate "chat", .save ⟨"chat", [⟨"hello"⟩]⟩]
    let c := Config.run m (Config.init Store.empty ops) [0, 0, 1, 1, 0]
    KeyedStore K Store.empty ∧ (∀ op ∈ ops, op.KeyIn K) ∧
      ((∀ k s, c.store.sessions.lookup k = some s → s.key = k) ∧
        (∀ n d, c.store.files.lookup n = some d → n = fileName d.key) ∧
        ∀ t ∈ c.threads, ∀ s,
          t.pc = .done (.session s) ∨ t.pc = .done (.lookup (some s)) →
            t.op.key? = some s.key) :=
  have hops : ∀ op ∈
      [Op.getOrCreate "chat", .save ⟨"chat", [⟨"hello"⟩]⟩],
      op.KeyIn ⟨{"chat"}, Set.injOn_singleton _ _⟩ := by simp [Op.KeyIn, Op.key?]
  ⟨KeyedStore.empty, hops, keys_isolated_of_run _ _ _ _ KeyedStore.empty hops _⟩

/-! ### Progress -/

/-- The most steps a call at `pc` may still take before it returns. -/
def Pc.rank : Pc → Nat
  | .start => 4
  | .probe => 3
  | .read => 2
  | .fill _ | .create | .write | .unlink => 1
  | .done _ => 0

theorem Pc.isDone_of_rank_eq_zero {pc : Pc} (h : pc.rank = 0) : pc.isDone := by
  cases pc <;> simp_all [rank, isDone]

theorem Pc.exists_eq_done {pc : Pc} (h : pc.isDone) : ∃ r, pc = .done r := by
  cases pc with
  | done r => exact ⟨r, rfl⟩
  | _ => cases h

/-- The places a call of `op` passes through. -/
def Op.visits : Op → Pc → Bool
  | _, .start | _, .done _ => true
  | .getOrCreate _, .probe | .getOrCreate _, .read | .getOrCreate _, .fill _
  | .getOrCreate _, .create => true
  | .get _, .probe | .get _, .read | .get _, .fill _ => true
  | .save _, .write => true
  | .delete _, .probe | .delete _, .unlink => true
  | .«exists» _, .probe => true
  | _, _ => false

@[simp] theorem Op.visits_start (op : Op) : op.visits .start := by
  cases op <;> rfl

@[simp] theorem Op.visits_done (op : Op) (r : Reply) : op.visits (.done r) := by
  cases op <;> rfl

/-- **Every step of a call that has not returned brings it closer to its return**, and to a place
the call passes through. -/
theorem Op.step_rank (m : SessionManager) {op : Op} {pc : Pc} (st : Store) (hv : op.visits pc)
    (hd : pc.isDone = false) :
    op.visits (op.step m pc st).1 ∧ (op.step m pc st).1.rank < pc.rank := by
  cases op <;> cases pc <;> (try cases hd) <;> (try cases hv) <;>
    simp only [step, stepGetOrCreate, stepGet, stepSave, stepDelete, stepExists, stepClearCache,
      readStep]
  all_goals (repeat' split) <;> exact ⟨rfl, by simp [Pc.rank]⟩

namespace Config

variable {m : SessionManager}

/-- Every thread is at a place its call passes through. -/
def OnPath (c : Config) : Prop :=
  ∀ t ∈ c.threads, t.op.visits t.pc

theorem step_getElem?_self (c : Config) (i : Nat) :
    (c.step m i).threads[i]? =
      c.threads[i]?.map fun t ↦ ⟨t.op, (t.op.step m t.pc c.store).1⟩ := by
  unfold step
  split
  · rename_i t ht
    simp [List.getElem?_set, ht, (List.getElem?_eq_some_iff.1 ht).1]
  · simp [*]

/-- Another thread's step does not move a thread. -/
theorem step_getElem?_ne (c : Config) {i j : Nat} (h : i ≠ j) :
    (c.step m i).threads[j]? = c.threads[j]? := by
  unfold step
  split
  · simp [List.getElem?_set, h]
  · rfl

theorem OnPath.step {c : Config} (h : c.OnPath) (i : Nat) : (c.step m i).OnPath := by
  unfold Config.step
  split
  · rename_i t ht
    intro u hu
    rcases List.mem_or_eq_of_mem_set hu with hu | rfl
    · exact h u hu
    · cases hd : t.pc.isDone
      · exact (t.op.step_rank m c.store (h t (List.getElem?_mem ht)) hd).1
      · obtain ⟨r, hr⟩ := Pc.exists_eq_done hd
        simp [hr]
  · exact h

/-- A thread at `pc` has returned once the schedule has given it `pc.rank` more steps. -/
theorem done_of_rank_le {c : Config} (h : c.OnPath) (sched : List Nat) {i : Nat} {t : Thread}
    (ht : c.threads[i]? = some t) (hr : t.pc.rank ≤ sched.count i) :
    ∀ t' ∈ (c.run m sched).threads[i]?, t'.pc.isDone := by
  induction sched generalizing c t with
  | nil =>
    intro t' ht'
    obtain rfl : t = t' := Option.some.inj (ht.symm.trans ht')
    exact Pc.isDone_of_rank_eq_zero (by simpa using hr)
  | cons j sched ih =>
    rw [run_cons]
    by_cases e : j = i
    · subst e
      refine ih (h.step j) (by rw [step_getElem?_self, ht]; rfl) ?_
      cases hd : t.pc.isDone
      · have := (t.op.step_rank m c.store (h t (List.getElem?_mem ht)) hd).2
        simp only [List.count_cons, beq_self_eq_true, if_true] at hr
        show (t.op.step m t.pc c.store).1.rank ≤ sched.count j
        omega
      · obtain ⟨r, hr⟩ := Pc.exists_eq_done hd
        simp [hr, Pc.rank]
    · refine ih (h.step j) ((step_getElem?_ne c e).trans ht) ?_
      simpa [List.count_cons, e] using hr

end Config

/-- **Every call returns within four of its own steps**, whatever the other calls do between
them and whatever the store holds: no call waits for another or runs forever. -/
theorem returns_within_four_steps (m : SessionManager) (st : Store) (ops : List Op)
    (sched : List Nat) (i : Nat) (hi : 4 ≤ sched.count i) :
    ∀ t ∈ (Config.run m (Config.init st ops) sched).threads[i]?, t.pc.isDone := by
  have hpath : (Config.init st ops).OnPath := by
    simp only [Config.OnPath, Config.init, List.mem_map]
    rintro _ ⟨op, -, rfl⟩
    exact op.visits_start
  rcases h0 : (Config.init st ops).threads[i]? with _ | t
  · have hlen := congrArg List.length (Config.run_ops m (Config.init st ops) sched)
    rw [List.length_map, List.length_map] at hlen
    rw [List.getElem?_eq_none_iff.2 (hlen ▸ List.getElem?_eq_none_iff.1 h0)]
    exact fun _ h ↦ nomatch h
  · have hstart : t.pc = .start := by
      simp only [Config.init, List.getElem?_map, Option.map_eq_some'] at h0
      obtain ⟨_, -, rfl⟩ := h0
      rfl
    exact Config.done_of_rank_le hpath sched h0 (by rw [hstart]; exact hi)

/-- The lost-save interleaving, continued until `get_or_create` has had four steps. -/
theorem returns_within_four_steps_lost_save :
    let ops : List Op :=
      [.getOrCreate "chat", .save ⟨"chat", [⟨"hello"⟩]⟩]
    let sched := [0, 1, 0, 1, 0, 0]
    4 ≤ sched.count 0 ∧
      ∀ t ∈ (Config.run ⟨some "sessions"⟩ (Config.init Store.empty ops) sched).threads[0]?,
        t.pc.isDone :=
  ⟨by decide, returns_within_four_steps _ _ _ _ 0 (by decide)⟩

end ZeptoClaw
