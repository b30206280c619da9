import ZeptoClaw.Session.List

/-!
# The store as a map, one call at a time

Over any sequence of calls that starts from an empty directory, the cache and the directory
keep three agreements (`StoreInv`): a cached session is cached under its own key, a file is named
after the key of the session it holds, and a key's cache entry and file, when both exist, hold the
same session. All three rest on one assumption, which the code documents as an accepted risk:
no two keys in use sanitize to the same file name (`KeySpace`). The invariant is proved once per
call (`StoreInv.exec`) and then along every run (`StoreInv.runOps`).

From it, and from the way each call is written, the store behaves as a map from keys to sessions
(`store_behaves_as_map`): a saved session is what `get` and `get_or_create` return until the key
is saved or deleted again — across `clear_cache` too, but only when the sessions are persisted:
in memory, `clear_cache` drops every session and `get` returns none after it
(`get_clearCache_in_memory`, and `get_none_after_clearCache_in_memory` on one run).
-/

namespace ZeptoClaw

/-- A set of session keys on which `sanitize_key` is injective: no two of them share a file. -/
structure KeySpace where
  keys : Set String
  sanitize_injOn : Set.InjOn sanitizeKey keys

namespace Op

/-- The call's key, if it has one, lies in `K`. -/
def KeyIn (K : KeySpace) (op : Op) : Prop :=
  ∀ k ∈ op.key?, k ∈ K.keys

end Op

/-- Two keys of a key space share a file only if they are equal. -/
theorem KeySpace.eq_of_fileName_eq (K : KeySpace) {a b : String} (ha : a ∈ K.keys)
    (hb : b ∈ K.keys) (h : fileName a = fileName b) : a = b :=
  K.sanitize_injOn ha hb (fileName_inj_iff.1 h)

/-- **The store's invariant**: the agreements between cache and directory that every call keeps.
The in-memory manager has no directory at all. -/
structure StoreInv (m : SessionManager) (K : KeySpace) (st : Store) : Prop where
  cache_key : ∀ k s, st.sessions.lookup k = some s → s.key = k
  cache_mem : ∀ k ∈ st.sessions, k ∈ K.keys
  file_name : ∀ n d, st.files.lookup n = some d → n = fileName d.key
  file_mem : ∀ n d, st.files.lookup n = some d → d.key ∈ K.keys
  cache_eq_file : ∀ k s d, st.sessions.lookup k = some s →
    st.files.lookup (fileName k) = some d → s = d
  no_files : m.storagePath = none → st.files = ∅

namespace StoreInv

variable {m : SessionManager} {K : KeySpace} {st : Store}

theorem empty : StoreInv m K Store.empty where
  cache_key := by simp
  cache_mem _ hk := absurd hk (Finmap.not_mem_empty)
  file_name := by simp
  file_mem := by simp
  cache_eq_file := by simp
  no_files _ := rfl

/-- The session in `key`'s file is the one saved under `key`. -/
theorem key_of_file (h : StoreInv m K st) {key : String} {d : Session} (hk : key ∈ K.keys)
    (hd : st.files.lookup (fileName key) = some d) : d.key = key :=
  K.eq_of_fileName_eq (h.file_mem _ _ hd) hk (h.file_name _ _ hd).symm

/-- Caching a session under its own key keeps the invariant, provided it agrees with the key's
file. -/
theorem cache (h : StoreInv m K st) {key : String} {s : Session} (hk : key ∈ K.keys)
    (hs : s.key = key) (hf : ∀ d, st.files.lookup (fileName key) = some d → s = d) :
    StoreInv m K (st.cache key s) where
  cache_key k s' h' := by
    rcases lookup_insert_eq_some.1 h' with ⟨rfl, rfl⟩ | ⟨-, h'⟩
    exacts [hs, h.cache_key _ _ h']
  cache_mem k hmem := by
    rcases Finmap.mem_insert.1 hmem with rfl | hmem
    exacts [hk, h.cache_mem k hmem]
  file_name := h.file_name
  file_mem := h.file_mem
  cache_eq_file k s' d h' hd := by
    rcases lookup_insert_eq_some.1 h' with ⟨rfl, rfl⟩ | ⟨-, h'⟩
    exacts [hf d hd, h.cache_eq_file _ _ _ h' hd]
  no_files := h.no_files

/-- What `get_or_create` and `get` load is the key's own session, and cacheable. -/
theorem cache_loaded (h : StoreInv m K st) {key : String} {s : Session} (hk : key ∈ K.keys)
    (hl : m.loadFile key st = some s) : StoreInv m K (st.cache key s) := by
  rcases hp : m.storagePath with _ | p
  · simp [hp] at hl
  · rw [SessionManager.loadFile_of_storagePath hp] at hl
    exact h.cache hk (h.key_of_file hk hl) fun d hd ↦ Option.some.inj (hl.symm.trans hd)

/-- A new session is cacheable when there is nothing to load. -/
theorem cache_new (h : StoreInv m K st) {key : String} (hk : key ∈ K.keys)
    (hl : m.loadFile key st = none) : StoreInv m K (st.cache key (Session.new key)) := by
  refine h.cache hk rfl fun d hd ↦ ?_
  rcases hp : m.storagePath with _ | p
  · simp [h.no_files hp] at hd
  · rw [SessionManager.loadFile_of_storagePath hp, hd] at hl
    cases hl

theorem getOrCreate (h : StoreInv m K st) {key : String} (hk : key ∈ K.keys) :
    StoreInv m K (m.getOrCreate key st).2 := by
  rcases SessionManager.getOrCreate_cases m key st with
    ⟨s, -, he⟩ | ⟨-, s, hl, he⟩ | ⟨-, hl, he⟩ <;> rw [he]
  · exact h
  · exact h.cache_loaded hk hl
  · exact h.cache_new hk hl

theorem get (h : StoreInv m K st) {key : String} (hk : key ∈ K.keys) :
    StoreInv m K (m.get key st).2 := by
  rcases SessionManager.get_cases m key st with
    ⟨s, -, he⟩ | ⟨-, s, hl, he⟩ | ⟨-, -, he⟩ <;> rw [he]
  · exact h
  · exact h.cache_loaded hk hl
  · exact h

theorem save (h : StoreInv m K st) {s : Session} (hk : s.key ∈ K.keys) :
    StoreInv m K (m.save s st) := by
  rcases hp : m.storagePath with _ | p
  · have hc := h.cache (s := s) hk rfl fun d hd ↦ by simp [h.no_files hp] at hd
    simpa [SessionManager.save, hp] using hc
  · have hfiles : (m.save s st).files = st.files.insert (fileName s.key) s := by
      simp [SessionManager.save_files, hp]
    have hsess := SessionManager.save_sessions m s st
    refine ⟨fun k s' h' ↦ ?_, fun k hmem ↦ ?_, fun n d hd ↦ ?_, fun n d hd ↦ ?_,
      fun k s' d h' hd ↦ ?_, fun hn ↦ absurd hn (by simp [hp])⟩
    · rcases lookup_insert_eq_some.1 (hsess ▸ h') with ⟨rfl, rfl⟩ | ⟨-, h'⟩
      exacts [rfl, h.cache_key _ _ h']
    · rcases Finmap.mem_insert.1 (hsess ▸ hmem) with rfl | hmem
      exacts [hk, h.cache_mem k hmem]
    · rcases lookup_insert_eq_some.1 (hfiles ▸ hd) with ⟨rfl, rfl⟩ | ⟨-, hd⟩
      exacts [rfl, h.file_name _ _ hd]
    · rcases lookup_insert_eq_some.1 (hfiles ▸ hd) with ⟨rfl, rfl⟩ | ⟨-, hd⟩
      exacts [hk, h.file_mem _ _ hd]
    · rw [hfiles] at hd
      rcases lookup_insert_eq_some.1 (hsess ▸ h') with ⟨rfl, rfl⟩ | ⟨e, h'⟩
      · exact Option.some.inj ((Finmap.lookup_insert _).symm.trans hd)
      · have hn : fileName k ≠ fileName s.key := fun hn ↦
          e (K.eq_of_fileName_eq (h.cache_mem k (Finmap.mem_of_lookup_eq_some h')) hk hn)
        exact h.cache_eq_file _ _ _ h' (by rwa [Finmap.lookup_insert_of_ne _ hn] at hd)

theorem delete (h : StoreInv m K st) (key : String) : StoreInv m K (m.delete key st) := by
  have hsub : ∀ k s, (m.delete key st).sessions.lookup k = some s → st.sessions.lookup k = some s :=
    fun k s hk ↦ by
      rw [SessionManager.delete_sessions] at hk
      by_cases e : k = key
      · subst e; simp at hk
      · rwa [Finmap.lookup_erase_ne e] at hk
  have hfsub : ∀ n d, (m.delete key st).files.lookup n = some d → st.files.lookup n = some d :=
    fun n d hn ↦ by
      rw [SessionManager.delete_files] at hn
      split at hn
      · by_cases e : n = fileName key
        · subst e; simp at hn
        · rwa [Finmap.lookup_erase_ne e] at hn
      · exact hn
  refine ⟨fun k s hk ↦ h.cache_key _ _ (hsub _ _ hk), fun k hk ↦ ?_,
    fun n d hn ↦ h.file_name _ _ (hfsub _ _ hn), fun n d hn ↦ h.file_mem _ _ (hfsub _ _ hn),
    fun k s d hk hd ↦ h.cache_eq_file _ _ _ (hsub _ _ hk) (hfsub _ _ hd), fun hp ↦ ?_⟩
  · obtain ⟨s, hs⟩ := Finmap.mem_iff.1 hk
    exact h.cache_mem k (Finmap.mem_of_lookup_eq_some (hsub _ _ hs))
  · simp [SessionManager.delete_files, hp, h.no_files hp]

theorem clearCache (h : StoreInv m K st) : StoreInv m K (SessionManager.clearCache st) :=
  ⟨by simp, fun _ hk ↦ absurd hk (Finmap.not_mem_empty), h.file_name, h.file_mem, by simp,
    h.no_files⟩

/-- **Every call keeps the invariant.** -/
theorem exec (h : StoreInv m K st) {op : Op} (hop : op.KeyIn K) :
    StoreInv m K (op.exec m st).2 := by
  cases op with
  | getOrCreate key => exact h.getOrCreate (hop key rfl)
  | get key => exact h.get (hop key rfl)
  | save s => exact h.save (hop s.key rfl)
  | delete key => exact h.delete key
  | «exists» key => exact h
  | clearCache => exact h.clearCache

/-- **Every reachable state satisfies the invariant.** -/
theorem runOps (h : StoreInv m K st) {ops : List Op} (hops : ∀ op ∈ ops, op.KeyIn K) :
    StoreInv m K (ZeptoClaw.runOps m st ops) := by
  induction ops generalizing st with
  | nil => exact h
  | cons op ops ih =>
    exact ih (h.exec (hops op (List.mem_cons_self _ _)))
      fun o ho ↦ hops o (List.mem_cons_of_mem _ ho)

end StoreInv

/-! ### The store behaves as a map -/

namespace SessionManager

variable {m : SessionManager} {K : KeySpace} {st : Store}

/-- `s` is what the store answers for its key: it is cached, or — with persistence — the cache
has no entry for the key; and with persistence the key's file holds `s` either way. -/
def Answers (m : SessionManager) (s : Session) (st : Store) : Prop :=
  (st.sessions.lookup s.key = some s ∨ st.sessions.lookup s.key = none ∧ m.storagePath.isSome) ∧
    (m.storagePath.isSome → st.files.lookup (fileName s.key) = some s)

/-- The calls after which a saved session still answers for its key: anything but a save or a
delete of that key, and, for the in-memory manager, anything but `clear_cache`. -/
def Op.Keeps (m : SessionManager) (key : String) : Op → Prop
  | .save s => s.key ≠ key
  | .delete k => k ≠ key
  | .clearCache => m.storagePath.isSome
  | _ => True

theorem answers_save (s : Session) (st : Store) : m.Answers s (m.save s st) := by
  refine ⟨.inl (by simp [save_sessions]), fun hp ↦ ?_⟩
  simp [save_files, hp]

theorem Answers.loadFile {s : Session} (h : m.Answers s st)
    (hc : st.sessions.lookup s.key = none) : m.loadFile s.key st = some s := by
  rcases hp : m.storagePath with _ | p
  · obtain h1 | ⟨-, h2⟩ := h.1 <;> simp_all
  · rw [loadFile_of_storagePath hp]
    exact h.2 (by simp [hp])

theorem Answers.get {s : Session} (h : m.Answers s st) : (m.get s.key st).1 = some s := by
  rcases get_cases m s.key st with ⟨s', hc, he⟩ | ⟨hc, s', hl, he⟩ | ⟨hc, hl, -⟩
  · rw [he]
    rcases h.1 with h1 | h1 <;> simp_all
  · rw [he, ← Option.some.inj (hl.symm.trans (h.loadFile hc))]
  · simp [h.loadFile hc] at hl

theorem Answers.getOrCreate {s : Session} (h : m.Answers s st) :
    (m.getOrCreate s.key st).1 = s := by
  rcases getOrCreate_cases m s.key st with ⟨s', hc, he⟩ | ⟨hc, s', hl, he⟩ | ⟨hc, hl, -⟩
  · rw [he]
    rcases h.1 with h1 | h1 <;> simp_all
  · rw [he, ← Option.some.inj (hl.symm.trans (h.loadFile hc))]
  · simp [h.loadFile hc] at hl

/-- **A saved session keeps answering** through every call that keeps it: calls on other keys
cannot reach its cache entry, and cannot reach its file since keys of a key space do not share
files. -/
theorem Answers.exec {s : Session} (h : m.Answers s st) (hs : s.key ∈ K.keys) {op : Op}
    (hop : op.KeyIn K) (hkeep : Op.Keeps m s.key op) : m.Answers s (op.exec m st).2 := by
  have hfile : ∀ k ∈ K.keys, k ≠ s.key → fileName s.key ≠ fileName k :=
    fun k hk hne he ↦ hne (K.eq_of_fileName_eq hk hs he.symm)
  cases op with
  | getOrCreate key =>
    refine ⟨?_, fun hp ↦ (getOrCreate_files m key st).symm ▸ h.2 hp⟩
    rw [Op.exec, getOrCreate_lookup]
    split
    · rename_i he; subst he; exact .inl (by rw [h.getOrCreate])
    · exact h.1
  | get key =>
    refine ⟨?_, fun hp ↦ (get_files m key st).symm ▸ h.2 hp⟩
    rw [Op.exec, get_lookup]
    split
    · rename_i he; subst he; exact .inl h.get
    · exact h.1
  | save s' =>
    have hne : s.key ≠ s'.key := Ne.symm hkeep
    refine ⟨?_, fun hp ↦ ?_⟩
    · simpa [Op.exec, save_sessions, Finmap.lookup_insert_of_ne _ hne] using h.1
    · simpa [Op.exec, save_files, hp, Finmap.lookup_insert_of_ne _ (hfile _ (hop _ rfl) hkeep)]
        using h.2 hp
  | delete k =>
    have hne : s.key ≠ k := Ne.symm hkeep
    refine ⟨?_, fun hp ↦ ?_⟩
    · simpa [Op.exec, delete_sessions, Finmap.lookup_erase_ne hne] using h.1
    · simpa [Op.exec, delete_files, hp, Finmap.lookup_erase_ne (hfile _ (hop _ rfl) hkeep)]
        using h.2 hp
  | «exists» key => exact h
  | clearCache => exact ⟨.inr ⟨rfl, hkeep⟩, h.2⟩

theorem Answers.runOps {s : Session} (h : m.Answers s st) (hs : s.key ∈ K.keys) {ops : List Op}
    (hops : ∀ op ∈ ops, op.KeyIn K ∧ Op.Keeps m s.key op) :
    m.Answers s (ZeptoClaw.runOps m st ops) := by
  induction ops generalizing st with
  | nil => exact h
  | cons op ops ih =>
    have hop := hops op (List.mem_cons_self _ _)
    exact ih (h.exec hs hop.1 hop.2) fun o ho ↦ hops o (List.mem_cons_of_mem _ ho)

/-- Right after `delete(key)`, neither `exists` nor `get` sees the key. -/
theorem exists_delete_and_get_delete (key : String) (st : Store) :
    m.exists key (m.delete key st) = false ∧ (m.get key (m.delete key st)).1 = none := by
  have hc : (m.delete key st).sessions.lookup key = none := by simp [delete_sessions]
  have hl : m.loadFile key (m.delete key st) = none := by
    rcases hp : m.storagePath with _ | p
    · simp [hp]
    · simp [loadFile_of_storagePath hp, delete_files, hp]
  refine ⟨?_, by simp [SessionManager.get, hc, hl]⟩
  rcases hp : m.storagePath with _ | p
  · simp [SessionManager.exists, hp, Finmap.mem_iff, hc]
  · simp [loadFile_of_storagePath hp, Finmap.lookup_eq_none] at hl
    simp [SessionManager.exists, Finmap.mem_iff, hc, hl]

/-- `get` caches only what it read from the key's file, and writes nothing. -/
theorem get_adds_only_from_disk (key : String) (st : Store) :
    (m.get key st).2.files = st.files ∧ ∀ k s, (m.get key st).2.sessions.lookup k = some s →
      st.sessions.lookup k = some s ∨ k = key ∧ m.loadFile key st = some s := by
  refine ⟨get_files m key st, fun k s hk ↦ ?_⟩
  rw [get_lookup] at hk
  split at hk
  · rename_i he
    subst he
    rcases get_cases m k st with ⟨s', hc, he⟩ | ⟨-, s', hl, he⟩ | ⟨-, -, he⟩ <;>
      simp_all
  · exact .inl hk

/-- `exists(key)` is `get(key).is_some()`. -/
theorem exists_eq_get_isSome (key : String) (st : Store) :
    m.exists key st = (m.get key st).1.isSome := by
  rcases hp : m.storagePath with _ | p <;>
    rcases get_cases m key st with ⟨s, hc, he⟩ | ⟨hc, s, hl, he⟩ | ⟨hc, hl, he⟩ <;> rw [he]
  all_goals simp_all [SessionManager.exists, Finmap.mem_iff, loadFile, Finmap.lookup_eq_none]

/-- In memory, `clear_cache` empties the whole store: `get` finds no key afterwards. -/
theorem get_clearCache_in_memory (key : String) (st : Store) :
    (SessionManager.get ⟨none⟩ key (clearCache st)).1 = none := by
  simp [get, loadFile]

end SessionManager

/-- **The store behaves as a map from keys to sessions**, for one call at a time from an empty
directory, over keys that do not share files: every reachable state satisfies `StoreInv`; a saved
session is returned by `get` and `get_or_create` until its key is saved or deleted again; in
memory, `clear_cache` drops every session, so that `get` then returns none; a deleted key is gone
for `exists` and `get`; `get` caches nothing that is not on disk; and `exists` agrees with
`get`. -/
theorem store_behaves_as_map (m : SessionManager) (K : KeySpace) :
    (∀ ops : List Op, (∀ op ∈ ops, op.KeyIn K) → StoreInv m K (runOps m Store.empty ops)) ∧
    (∀ (pre : List Op) (s : Session) (post : List Op),
      (∀ op ∈ pre ++ Op.save s :: post, op.KeyIn K) →
      (∀ op ∈ post, SessionManager.Op.Keeps m s.key op) →
        (m.get s.key (runOps m Store.empty (pre ++ Op.save s :: post))).1 = some s ∧
        (m.getOrCreate s.key (runOps m Store.empty (pre ++ Op.save s :: post))).1 = s) ∧
    (∀ (key : String) (st : Store),
      (SessionManager.get ⟨none⟩ key (SessionManager.clearCache st)).1 = none) ∧
    (∀ (key : String) (st : Store),
      m.exists key (m.delete key st) = false ∧ (m.get key (m.delete key st)).1 = none) ∧
    (∀ (key : String) (st : Store), (m.get key st).2.files = st.files ∧
      ∀ k s, (m.get key st).2.sessions.lookup k = some s →
        st.sessions.lookup k = some s ∨ k = key ∧ m.loadFile key st = some s) ∧
    (∀ (key : String) (st : Store), m.exists key st = (m.get key st).1.isSome) := by
  refine ⟨fun ops hops ↦ StoreInv.empty.runOps hops, fun pre s post hops hkeep ↦ ?_,
    SessionManager.get_clearCache_in_memory, SessionManager.exists_delete_and_get_delete, SessionManager.get_adds_only_from_disk,
    SessionManager.exists_eq_get_isSome⟩
  have hs : s.key ∈ K.keys := hops (.save s) (by simp) s.key rfl
  have hans : m.Answers s (runOps m Store.empty (pre ++ Op.save s :: post)) := by
    rw [runOps_append, runOps_cons]
    exact (SessionManager.answers_save s _).runOps hs fun op hop ↦
      ⟨hops op (by simp [hop]), hkeep op hop⟩
  exact ⟨hans.get, hans.getOrCreate⟩

/-- In memory, `clear_cache` is the whole store: a session saved and then cleared is gone. -/
theorem get_none_after_clearCache_in_memory :
    (SessionManager.get ⟨none⟩ "telegram:chat123"
      (runOps ⟨none⟩ Store.empty [.save ⟨"telegram:chat123", []⟩, .clearCache])).1 = none :=
  rfl

end ZeptoClaw
