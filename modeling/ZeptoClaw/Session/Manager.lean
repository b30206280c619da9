import Mathlib.Data.Finmap
import Mathlib.Data.List.Sort
import ZeptoClaw.Session.Types
import ZeptoClaw.Session.Path

/-!
# The session manager, one call at a time

`SessionManager` (`session/mod.rs`) is a handle: an `Arc<RwLock<HashMap<String, Session>>>` that
every clone shares, and an optional storage path. The model separates the two. `Store` is what the
handle and its clones share — the cache and the storage directory — and `SessionManager` keeps only
the storage path, so that every operation reads as a function of a manager and a store.

The directory is a finite map from file names to the session each file holds. A file is written
only by `save`, as `serde_json::to_string_pretty(session)`, and read back with
`serde_json::from_str`; the model takes that round trip as given and stores the session itself.
Hence in a run of one call at a time no filesystem call fails: `read_to_string` runs right after
`file_path.exists()` returned `true`. What concurrent calls can make fail is the subject of
`ZeptoClaw.Session.Interleaving`.

Each operation below is the code's sequence of lock sections and filesystem calls, collapsed into
one function; `Op` and `Op.exec` gather them as one call type, the atomic semantics the
interleaved model is compared with. `list` takes the two orders the code does not choose — the
`HashMap`'s iteration order and `read_dir`'s — as arguments (`Listing`).
-/

namespace ZeptoClaw

/-- What a manager and all its clones share: the cache behind the `RwLock`, and the JSON files
of the storage directory, by file name. -/
@[ext]
structure Store where
  sessions : Finmap fun _ : String ↦ Session
  files : Finmap fun _ : String ↦ Session
  deriving DecidableEq

/-- `SessionManager`, less the shared cache: the storage path, `None` for `new_memory()`. -/
structure SessionManager where
  storagePath : Option String

/-- What a lookup finds after an insert: the inserted entry, or an entry that was there. -/
theorem lookup_insert_eq_some {β : Type*} {s : Finmap fun _ : String ↦ β} {a k : String}
    {b v : β} : (s.insert a b).lookup k = some v ↔ k = a ∧ b = v ∨ k ≠ a ∧ s.lookup k = some v := by
  by_cases e : k = a
  · subst e
    simp
  · simp [Finmap.lookup_insert_of_ne _ e, e]

namespace Store

/-- A fresh process over a directory: nothing cached. -/
def empty : Store :=
  ⟨∅, ∅⟩

/-- The write-locked `sessions.insert(key, session)`. -/
def cache (st : Store) (key : String) (session : Session) : Store :=
  { st with sessions := st.sessions.insert key session }

@[simp] theorem cache_sessions (st : Store) (key : String) (session : Session) :
    (st.cache key session).sessions = st.sessions.insert key session := rfl

@[simp] theorem cache_files (st : Store) (key : String) (session : Session) :
    (st.cache key session).files = st.files := rfl

@[simp] theorem empty_sessions : empty.sessions = ∅ := rfl

@[simp] theorem empty_files : empty.files = ∅ := rfl

end Store

namespace SessionManager

variable (m : SessionManager)

/-- The session the storage directory holds for `key`, when persistence is on: the
`if let Some(ref storage_path)` … `if file_path.exists()` … `from_str(&content)` branch shared by
`get_or_create` and `get`. -/
def loadFile (key : String) (st : Store) : Option Session :=
  m.storagePath.bind fun _ ↦ st.files.lookup (fileName key)

/-- `get_or_create`: the cached session; else the one on disk, now cached; else a new empty one,
cached but not written. -/
def getOrCreate (key : String) (st : Store) : Session × Store :=
  match st.sessions.lookup key with
  | some session => (session, st)
  | none =>
    match m.loadFile key st with
    | some session => (session, st.cache key session)
    | none => (Session.new key, st.cache key (Session.new key))

/-- `get`: the same lookup order as `get_or_create`, and nothing is created. -/
def get (key : String) (st : Store) : Option Session × Store :=
  match st.sessions.lookup key with
  | some session => (some session, st)
  | none =>
    match m.loadFile key st with
    | some session => (some session, st.cache key session)
    | none => (none, st)

/-- `save`: upsert into the cache, then write the whole session to its file. -/
def save (session : Session) (st : Store) : Store :=
  match m.storagePath with
  | some _ =>
    { st.cache session.key session with
      files := st.files.insert (fileName session.key) session }
  | none => st.cache session.key session

/-- `delete`: drop the cache entry, then remove the file if it exists. -/
def delete (key : String) (st : Store) : Store :=
  match m.storagePath with
  | some _ => ⟨st.sessions.erase key, st.files.erase (fileName key)⟩
  | none => { st with sessions := st.sessions.erase key }

/-- `exists`: a cache hit, else (with persistence) whether the file exists. -/
def «exists» (key : String) (st : Store) : Bool :=
  decide (key ∈ st.sessions) || (m.storagePath.isSome && decide (fileName key ∈ st.files))

/-- `clear_cache`: empty the cache; the directory is left alone. -/
def clearCache (st : Store) : Store :=
  { st with sessions := ∅ }

/-- `cache_size`: the number of cached sessions, `sessions.len()`. -/
def cacheSize (st : Store) : Nat :=
  st.sessions.keys.card

end SessionManager

/-! ### Making a manager -/

namespace SessionManager

/-- `new_memory()`, which `Default` also calls: no storage path and an empty cache. -/
def newMemory : SessionManager × Store :=
  (⟨none⟩, Store.empty)

/-- `with_path(path)`: `create_dir_all` leaves a directory that exists as it is, so a manager made
over `dir` starts with its files and nothing cached. -/
def withPath (path : String) (dir : Finmap fun _ : String ↦ Session) : SessionManager × Store :=
  (⟨some path⟩, ⟨∅, dir⟩)

/-- `new()`: `with_path` over `Config::dir().join("sessions")`, the configuration directory given
as `configDir`. -/
def new (configDir : String) (dir : Finmap fun _ : String ↦ Session) : SessionManager × Store :=
  withPath (join configDir "sessions") dir

end SessionManager

/-! ### What each call does -/

namespace SessionManager

variable {m : SessionManager} {key : String} {st : Store}

theorem loadFile_of_storagePath {p : String} (hp : m.storagePath = some p) :
    m.loadFile key st = st.files.lookup (fileName key) := by
  simp [loadFile, hp]

@[simp] theorem loadFile_of_memory (hp : m.storagePath = none) : m.loadFile key st = none := by
  simp [loadFile, hp]

/-- The three outcomes of `get_or_create`. -/
theorem getOrCreate_cases (m : SessionManager) (key : String) (st : Store) :
    (∃ s, st.sessions.lookup key = some s ∧ m.getOrCreate key st = (s, st)) ∨
    (st.sessions.lookup key = none ∧ ∃ s, m.loadFile key st = some s ∧
      m.getOrCreate key st = (s, st.cache key s)) ∨
    (st.sessions.lookup key = none ∧ m.loadFile key st = none ∧
      m.getOrCreate key st = (Session.new key, st.cache key (Session.new key))) := by
  unfold getOrCreate
  rcases hc : st.sessions.lookup key with _ | s
  · rcases hl : m.loadFile key st with _ | s
    · exact .inr (.inr ⟨rfl, rfl, rfl⟩)
    · exact .inr (.inl ⟨rfl, s, rfl, rfl⟩)
  · exact .inl ⟨s, rfl, rfl⟩

/-- The three outcomes of `get`. -/
theorem get_cases (m : SessionManager) (key : String) (st : Store) :
    (∃ s, st.sessions.lookup key = some s ∧ m.get key st = (some s, st)) ∨
    (st.sessions.lookup key = none ∧ ∃ s, m.loadFile key st = some s ∧
      m.get key st = (some s, st.cache key s)) ∨
    (st.sessions.lookup key = none ∧ m.loadFile key st = none ∧ m.get key st = (none, st)) := by
  unfold get
  rcases hc : st.sessions.lookup key with _ | s
  · rcases hl : m.loadFile key st with _ | s
    · exact .inr (.inr ⟨rfl, rfl, rfl⟩)
    · exact .inr (.inl ⟨rfl, s, rfl, rfl⟩)
  · exact .inl ⟨s, rfl, rfl⟩

theorem save_sessions (m : SessionManager) (session : Session) (st : Store) :
    (m.save session st).sessions = st.sessions.insert session.key session := by
  unfold save; split <;> rfl

theorem save_files (m : SessionManager) (session : Session) (st : Store) :
    (m.save session st).files =
      if m.storagePath.isSome then st.files.insert (fileName session.key) session else st.files := by
  unfold save; split <;> simp [*]

theorem delete_sessions (m : SessionManager) (key : String) (st : Store) :
    (m.delete key st).sessions = st.sessions.erase key := by
  unfold delete; split <;> rfl

theorem delete_files (m : SessionManager) (key : String) (st : Store) :
    (m.delete key st).files =
      if m.storagePath.isSome then st.files.erase (fileName key) else st.files := by
  unfold delete; split <;> simp [*]

theorem getOrCreate_files (m : SessionManager) (key : String) (st : Store) :
    (m.getOrCreate key st).2.files = st.files := by
  rcases getOrCreate_cases m key st with ⟨_, -, he⟩ | ⟨-, _, -, he⟩ | ⟨-, -, he⟩ <;> simp [he]

/-- After `get_or_create`, the cache holds the returned session under the key, and nothing else
changed. -/
theorem getOrCreate_lookup (m : SessionManager) (key k : String) (st : Store) :
    (m.getOrCreate key st).2.sessions.lookup k =
      if k = key then some (m.getOrCreate key st).1 else st.sessions.lookup k := by
  by_cases hk : k = key
  · subst hk
    rcases getOrCreate_cases m k st with ⟨s, hc, he⟩ | ⟨hc, s, -, he⟩ | ⟨hc, -, he⟩ <;>
      simp [he, hc]
  · rcases getOrCreate_cases m key st with ⟨s, -, he⟩ | ⟨-, s, -, he⟩ | ⟨-, -, he⟩ <;>
      simp [he, hk, Finmap.lookup_insert_of_ne]

theorem get_files (m : SessionManager) (key : String) (st : Store) :
    (m.get key st).2.files = st.files := by
  rcases get_cases m key st with ⟨_, -, he⟩ | ⟨-, _, -, he⟩ | ⟨-, -, he⟩ <;> simp [he]

/-- After `get`, the cache holds under the key what `get` returned, and nothing else changed. -/
theorem get_lookup (m : SessionManager) (key k : String) (st : Store) :
    (m.get key st).2.sessions.lookup k =
      if k = key then (m.get key st).1 else st.sessions.lookup k := by
  by_cases hk : k = key
  · subst hk
    rcases get_cases m k st with ⟨s, hc, he⟩ | ⟨hc, s, -, he⟩ | ⟨hc, -, he⟩ <;> simp [he, hc]
  · rcases get_cases m key st with ⟨s, -, he⟩ | ⟨-, s, -, he⟩ | ⟨-, -, he⟩ <;>
      simp [he, hk, Finmap.lookup_insert_of_ne]

/-- **Reads are idempotent**: calling `get_or_create`, or `get`, a second time with nothing in
between returns the same and changes nothing more, in the cache or on disk. -/
theorem reads_idempotent (m : SessionManager) (key : String) (st : Store) :
    m.getOrCreate key (m.getOrCreate key st).2 = m.getOrCreate key st ∧
      m.get key (m.get key st).2 = m.get key st := by
  constructor
  · rcases getOrCreate_cases m key st with ⟨s, -, he⟩ | ⟨-, s, -, he⟩ | ⟨-, -, he⟩ <;> rw [he]
    · exact he
    all_goals simp [getOrCreate]
  · rcases get_cases m key st with ⟨s, -, he⟩ | ⟨-, s, -, he⟩ | ⟨-, -, he⟩ <;> rw [he]
    · exact he
    · simp [get]
    · exact he

@[simp] theorem clearCache_sessions (st : Store) : (clearCache st).sessions = ∅ := rfl

@[simp] theorem clearCache_files (st : Store) : (clearCache st).files = st.files := rfl

end SessionManager

/-! ### `list` -/

/-- An order in which a loop meets the members of a finite set exactly once: what
`HashMap::keys` yields for the cache, and what `read_dir` yields for the directory. Neither order
is chosen by the code. -/
structure Listing (s : Finset String) where
  order : List String
  nodup : order.Nodup
  mem_iff : ∀ x, x ∈ order ↔ x ∈ s

theorem Listing.order_eq_nil {s : Finset String} (l : Listing s) (hs : s = ∅) : l.order = [] :=
  List.eq_nil_iff_forall_not_mem.2 fun x hx ↦ by simpa [hs] using (l.mem_iff x).1 hx

theorem Listing.order_eq_singleton {s : Finset String} (l : Listing s) {a : String}
    (hs : s = {a}) : l.order = [a] := by
  have hmem : ∀ x, x ∈ l.order ↔ x = a := fun x ↦ by rw [l.mem_iff, hs, Finset.mem_singleton]
  have hset : l.order.toFinset = {a} := Finset.ext fun x ↦ by simp [hmem]
  obtain ⟨b, hb⟩ := List.length_eq_one.1
    ((List.toFinset_card_of_nodup l.nodup).symm.trans (by rw [hset, Finset.card_singleton]))
  rw [hb, (hmem b).1 (by simp [hb])]

/-- One pass of the `while let Some(entry) = dir_entries.next_entry()` loop: an entry whose
extension is `json` contributes its stem, unless `keys` already contains it. -/
def pushStem (keys : List String) (entry : String) : List String :=
  match jsonStem entry with
  | some key => if key ∈ keys then keys else keys ++ [key]
  | none => keys

/-- The `read_dir` loop of `list`, over the entries in the order they come. -/
def collectStems (keys : List String) (entries : List String) : List String :=
  entries.foldl pushStem keys

namespace SessionManager

variable (m : SessionManager)

/-- `list`: the cached keys, then the stems of the directory's `.json` entries not already
there, sorted (`keys.sort()`: a stable sort, so insertion sort computes the same list). -/
def list (st : Store) (cacheOrder : Listing st.sessions.keys) (dirOrder : Listing st.files.keys) :
    List String :=
  let keys := cacheOrder.order
  let keys := if m.storagePath.isSome then collectStems keys dirOrder.order else keys
  keys.insertionSort (· ≤ ·)

end SessionManager

/-! ### One call type -/

/-- The operations of the store that concurrent callers interleave. -/
inductive Op
  | getOrCreate (key : String)
  | get (key : String)
  | save (session : Session)
  | delete (key : String)
  | «exists» (key : String)
  | clearCache
  deriving DecidableEq, Repr

/-- What an operation returns; `ioError` is a failed filesystem call, which only an interleaving
can cause (`read_to_string` or `remove_file` on a file another caller removed in between). -/
inductive Reply
  | session (s : Session)
  | lookup (s : Option Session)
  | unit
  | flag (b : Bool)
  | ioError
  deriving DecidableEq, Repr

namespace Op

/-- The key whose cache entry and file an operation reads or writes; `clear_cache` has none. -/
def key? : Op → Option String
  | getOrCreate key | get key | delete key | «exists» key => some key
  | save session => some session.key
  | clearCache => none

/-- One call, run alone: the operation as the atomic step a caller sees. -/
def exec (m : SessionManager) : Op → Store → Reply × Store
  | getOrCreate key, st => (.session (m.getOrCreate key st).1, (m.getOrCreate key st).2)
  | get key, st => (.lookup (m.get key st).1, (m.get key st).2)
  | save session, st => (.unit, m.save session st)
  | delete key, st => (.unit, m.delete key st)
  | «exists» key, st => (.flag (m.exists key st), st)
  | clearCache, st => (.unit, SessionManager.clearCache st)

end Op

/-- A call run as one step never fails: only an interleaving makes a filesystem call fail. -/
theorem Op.exec_ne_ioError (m : SessionManager) (op : Op) (st : Store) :
    (op.exec m st).1 ≠ .ioError := by
  cases op <;> simp [Op.exec]

/-- One call after another, from `st`: the final store and each call's reply, in call order. -/
def serial (m : SessionManager) : Store → List Op → Store × List Reply
  | st, [] => (st, [])
  | st, op :: ops =>
    let rest := serial m (op.exec m st).2 ops
    (rest.1, (op.exec m st).1 :: rest.2)

/-- The store after a sequence of calls. -/
def runOps (m : SessionManager) (st : Store) (ops : List Op) : Store :=
  (serial m st ops).1

@[simp] theorem runOps_nil (m : SessionManager) (st : Store) : runOps m st [] = st := rfl

@[simp] theorem runOps_cons (m : SessionManager) (st : Store) (op : Op) (ops : List Op) :
    runOps m st (op :: ops) = runOps m (op.exec m st).2 ops := rfl

theorem runOps_append (m : SessionManager) (st : Store) (ops ops' : List Op) :
    runOps m st (ops ++ ops') = runOps m (runOps m st ops) ops' := by
  induction ops generalizing st with
  | nil => rfl
  | cons op ops ih => exact ih _

theorem serial_ne_ioError (m : SessionManager) (st : Store) (ops : List Op) :
    ∀ r ∈ (serial m st ops).2, r ≠ .ioError := by
  induction ops generalizing st with
  | nil => simp [serial]
  | cons op ops ih =>
    simp only [serial, List.mem_cons, forall_eq_or_imp]
    exact ⟨Op.exec_ne_ioError m op st, ih _⟩

/-- One more call at the end of a serial execution. -/
theorem serial_append_singleton (m : SessionManager) (st : Store) (ops : List Op) (op : Op) :
    serial m st (ops ++ [op]) = ((op.exec m (serial m st ops).1).2,
      (serial m st ops).2 ++ [(op.exec m (serial m st ops).1).1]) := by
  induction ops generalizing st with
  | nil => rfl
  | cons o ops ih => simp [serial, ih]

end ZeptoClaw
