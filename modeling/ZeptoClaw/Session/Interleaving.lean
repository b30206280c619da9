import ZeptoClaw.Session.Manager

/-!
# Calls that interleave

The manager is cloned into every task that needs it, and the clones share one cache. Each call
is a sequence of atomic steps: every section that holds the `RwLock` is one step, and so is every
filesystem call (`file_path.exists()`, `read_to_string`, `write`, `remove_file`). Between two steps
of a call, any other call may run steps of its own. For `get_or_create`:

```
start   read lock: cache hit → done; miss → probe (with persistence) or create
probe   file_path.exists() → read or create
read    read_to_string + from_str → fill s, or an I/O error if the file has gone
fill s  write lock: insert s → done
create  write lock: insert Session::new(key) → done
```

`Pc` records where a call stands, `Op.step` is one step of one call, and a `Config` is the
shared store with one thread per call; a schedule is the list of threads that step, in order.

## What the model is compared with

`Op.exec` is the call run without interruption, and `serial` runs calls that way one after
another. A configuration is `Serializable` when its final store and every call's reply are those
of some serial execution of the same calls. `Exclusive` is the discipline under which that holds:
a call steps only when no other call on a key with the same file is in flight (`ZeptoClaw.Session.Serializability`). Without
it, `get_or_create` can overwrite a `save` that completed in the middle of it
(`getOrCreate_overwrites_save`).
-/

namespace ZeptoClaw

/-- Where a call stands between two of its atomic steps. -/
inductive Pc
  /-- Not started. -/
  | start
  /-- The cache missed (for `delete`: its entry is removed); next is `file_path.exists()`. -/
  | probe
  /-- The file exists; next is `read_to_string` and `from_str`. -/
  | read
  /-- The file was read; next is the write-locked insert of its session. -/
  | fill (s : Session)
  /-- Nothing to load; next is the write-locked insert of `Session::new(key)`. -/
  | create
  /-- `save` has updated the cache; next is `tokio::fs::write`. -/
  | write
  /-- `delete` saw the file; next is `remove_file`. -/
  | unlink
  /-- Returned. -/
  | done (r : Reply)
  deriving DecidableEq, Repr

namespace Pc

/-- Started and not returned: the call is in flight. -/
def isActive : Pc → Bool
  | start | done _ => false
  | _ => true

/-- Returned. -/
def isDone : Pc → Bool
  | done _ => true
  | _ => false

end Pc

namespace Op

variable (m : SessionManager)

/-- `read_to_string` and `from_str` of `key`'s file: its session, or an I/O error if the file
is gone. -/
def readStep (key : String) (st : Store) : Pc :=
  match st.files.lookup (fileName key) with
  | some s => .fill s
  | none => .done .ioError

/-- The steps of `get_or_create`. -/
def stepGetOrCreate (key : String) : Pc → Store → Pc × Store
  | .start, st =>
    match st.sessions.lookup key with
    | some s => (.done (.session s), st)
    | none => (if m.storagePath.isSome then .probe else .create, st)
  | .probe, st => (if fileName key ∈ st.files then .read else .create, st)
  | .read, st => (readStep key st, st)
  | .fill s, st => (.done (.session s), st.cache key s)
  | .create, st => (.done (.session (Session.new key)), st.cache key (Session.new key))
  | pc, st => (pc, st)

/-- The steps of `get`. -/
def stepGet (key : String) : Pc → Store → Pc × Store
  | .start, st =>
    match st.sessions.lookup key with
    | some s => (.done (.lookup (some s)), st)
    | none => (if m.storagePath.isSome then .probe else .done (.lookup none), st)
  | .probe, st => (if fileName key ∈ st.files then .read else .done (.lookup none), st)
  | .read, st => (readStep key st, st)
  | .fill s, st => (.done (.lookup (some s)), st.cache key s)
  | pc, st => (pc, st)

/-- The steps of `save`. -/
def stepSave (session : Session) : Pc → Store → Pc × Store
  | .start, st =>
    (if m.storagePath.isSome then .write else .done .unit, st.cache session.key session)
  | .write, st =>
    (.done .unit, { st with files := st.files.insert (fileName session.key) session })
  | pc, st => (pc, st)

/-- The steps of `delete`. -/
def stepDelete (key : String) : Pc → Store → Pc × Store
  | .start, st =>
    (if m.storagePath.isSome then .probe else .done .unit,
      { st with sessions := st.sessions.erase key })
  | .probe, st => (if fileName key ∈ st.files then .unlink else .done .unit, st)
  | .unlink, st =>
    if fileName key ∈ st.files then
      (.done .unit, { st with files := st.files.erase (fileName key) })
    else (.done .ioError, st)
  | pc, st => (pc, st)

/-- The steps of `exists`. -/
def stepExists (key : String) : Pc → Store → Pc × Store
  | .start, st =>
    if key ∈ st.sessions then (.done (.flag true), st)
    else (if m.storagePath.isSome then .probe else .done (.flag false), st)
  | .probe, st => (.done (.flag (decide (fileName key ∈ st.files))), st)
  | pc, st => (pc, st)

/-- The one step of `clear_cache`. -/
def stepClearCache : Pc → Store → Pc × Store
  | .start, st => (.done .unit, SessionManager.clearCache st)
  | pc, st => (pc, st)

/-- **One atomic step of a call.** -/
def step : Op → Pc → Store → Pc × Store
  | getOrCreate key => stepGetOrCreate m key
  | get key => stepGet m key
  | save session => stepSave m session
  | delete key => stepDelete m key
  | «exists» key => stepExists m key
  | clearCache => stepClearCache

/-- A returned call takes no more steps. -/
@[simp] theorem step_done (op : Op) (r : Reply) (st : Store) :
    op.step m (.done r) st = (.done r, st) := by
  cases op <;> rfl

end Op

/-! ### Configurations and schedules -/

/-- A call and where it stands. -/
structure Thread where
  op : Op
  pc : Pc
  deriving DecidableEq, Repr

/-- The file a thread's call reads or writes; `clear_cache` has none. -/
def Thread.file? (t : Thread) : Option String :=
  t.op.key?.map fileName

/-- The shared store and one thread per call. -/
structure Config where
  store : Store
  threads : List Thread
  deriving DecidableEq

namespace Config

variable (m : SessionManager)

/-- All calls about to start on `st`. -/
def init (st : Store) (ops : List Op) : Config :=
  ⟨st, ops.map fun op ↦ ⟨op, .start⟩⟩

/-- Thread `i` takes one step; an index with no thread changes nothing. -/
def step (c : Config) (i : Nat) : Config :=
  match c.threads[i]? with
  | some t => ⟨(t.op.step m t.pc c.store).2, c.threads.set i ⟨t.op, (t.op.step m t.pc c.store).1⟩⟩
  | none => c

/-- The threads step in the order the schedule lists them. -/
def run (c : Config) (sched : List Nat) : Config :=
  sched.foldl (step m) c

@[simp] theorem run_nil (c : Config) : run m c [] = c := rfl

@[simp] theorem run_cons (c : Config) (i : Nat) (sched : List Nat) :
    run m c (i :: sched) = run m (step m c i) sched := rfl

/-- **Per-key exclusion at one step**: when thread `i` steps, no other thread whose call shares
its file is in flight. `clear_cache` has no file and excludes nothing. -/
def Exclusive (c : Config) (i : Nat) : Prop :=
  ∀ t ∈ c.threads[i]?, ∀ f ∈ t.file?, ∀ j (hj : j < c.threads.length), j ≠ i →
    c.threads[j].pc.isActive → c.threads[j].file? ≠ some f

/-- Per-key exclusion at every step of a schedule. -/
def RunExclusive (c : Config) : List Nat → Prop
  | [] => True
  | i :: sched => Exclusive c i ∧ RunExclusive (step m c i) sched

/-- Every call has returned. -/
def AllDone (c : Config) : Prop :=
  ∀ t ∈ c.threads, t.pc.isDone

instance (c : Config) : Decidable (AllDone c) :=
  inferInstanceAs (Decidable (∀ t ∈ c.threads, _))

instance (c : Config) (i : Nat) : Decidable (Exclusive c i) :=
  inferInstanceAs (Decidable (∀ t ∈ c.threads[i]?, _))

instance (c : Config) (sched : List Nat) : Decidable (RunExclusive m c sched) := by
  induction sched generalizing c with
  | nil => exact isTrue trivial
  | cons i sched ih => exact @instDecidableAnd _ _ _ (ih _)

/-- A step leaves every thread's call as it was. -/
theorem step_ops (c : Config) (i : Nat) :
    (step m c i).threads.map Thread.op = c.threads.map Thread.op := by
  unfold step
  split
  · rename_i t ht
    refine List.ext_getElem? fun j ↦ ?_
    by_cases hj : i = j
    · subst hj
      obtain ⟨hlt, ht'⟩ := List.getElem?_eq_some_iff.1 ht
      simp [List.getElem?_set, ht, hlt, ht']
    · simp [List.getElem?_set_ne hj]
  · rfl

/-- A schedule leaves every thread's call as it was. -/
theorem run_ops (c : Config) (sched : List Nat) :
    (run m c sched).threads.map Thread.op = c.threads.map Thread.op := by
  induction sched generalizing c with
  | nil => rfl
  | cons i sched ih => rw [run_cons, ih, step_ops]

end Config

/-- **Serializability** of a finished configuration: some ordering of its calls, run one after
another from `st`, leaves the same store and gives every call the reply it got. -/
def Serializable (m : SessionManager) (st : Store) (c : Config) : Prop :=
  ∃ ts : List Thread, ts.Perm c.threads ∧
    (serial m st (ts.map Thread.op)).1 = c.store ∧
    (serial m st (ts.map Thread.op)).2.map Pc.done = ts.map Thread.pc

theorem init_ops (st : Store) (ops : List Op) : (Config.init st ops).threads.map Thread.op = ops := by
  simp [Config.init, Function.comp_def]

/-- Without exclusion, `get_or_create` can undo a `save` that completed in the middle of it: in
memory, `get_or_create("chat")` misses the cache, `save` of a non-empty session keyed `chat`
runs to completion, then `get_or_create` inserts a new empty session over it. Every call
returns, no filesystem call fails, and no serial order of the two calls gives this outcome. -/
theorem getOrCreate_overwrites_save :
    let m : SessionManager := ⟨none⟩
    let saved : Session := ⟨"chat", [⟨"hello"⟩]⟩
    let c := Config.run m (Config.init Store.empty [.getOrCreate "chat", .save saved]) [0, 1, 0]
    c.store.sessions.lookup "chat" = some (Session.new "chat") ∧ c.AllDone ∧
      ¬ Serializable m Store.empty c := by
  intro m saved c
  have hc : c = ⟨⟨(∅ : Finmap _).insert "chat" (Session.new "chat"), ∅⟩,
      [⟨.getOrCreate "chat", .done (.session (Session.new "chat"))⟩, ⟨.save saved, .done .unit⟩]⟩ := by
    decide
  refine ⟨by rw [hc]; rfl, by rw [hc]; decide, ?_⟩
  rintro ⟨ts, hperm, hstore, hreplies⟩
  rw [hc] at hperm hstore
  obtain ⟨a, b, rfl⟩ := List.length_eq_two.1 hperm.length_eq
  have ha := hperm.subset (List.mem_cons_self a _)
  have hb := hperm.subset (List.mem_cons_of_mem a (List.mem_singleton_self b))
  simp only [List.mem_cons, List.mem_singleton, List.not_mem_nil, or_false] at ha hb
  rcases ha with rfl | rfl <;> rcases hb with rfl | rfl <;> revert hperm hstore hreplies <;> decide

end ZeptoClaw
