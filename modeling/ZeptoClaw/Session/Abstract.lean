import Mathlib.Data.Finset.Sort
import ZeptoClaw.Session.Keys

/-!
# What the store is for

A caller of the manager sees a map from session keys to sessions, and behind it the sessions that
outlive the process. `AbsStore` is that pair, by key: `view`, what `get` answers for each key, and
`saved`, the sessions saved and not deleted since (always empty for the in-memory manager, which
keeps nothing). `AbsStore.exec` is each call on the pair, written from what the calls are for and
not from their code: `get_or_create` puts an empty session in the view when the key has none,
`save` sets the key in both maps, `delete` removes it from both, and `clear_cache` forgets
whatever was not saved.

Over keys that do not share files, the manager's cache and directory refine this store
(`Refines`): for every key, `get` answers what `view` says and the key's file holds what `saved`
says. Each call keeps the relation and gives the abstract call's reply (`Refines.exec`), so every
run does (`Refines.serial`), and the manager gives exactly the abstract store's replies to every
sequence of calls (`manager_refines_absStore`). Sanitized file names and the cache do not show.

For keys that `sanitize_key` leaves alone, `list` returns exactly the keys of the view, sorted
(`list_refines_absStore`); for other keys it does not (`list_reports_sanitized_stem`).

A restart is a new manager over the same directory (`with_path`). It keeps `saved` and nothing
else: every key answers the session last saved under it and not deleted since, and a session that
`get_or_create` made and nobody saved is gone (`restart_keeps_last_saved`).
-/

namespace ZeptoClaw

/-- The store as its callers see it, by session key. -/
structure AbsStore where
  /-- What `get` answers for each key. -/
  view : Finmap fun _ : String ↦ Session
  /-- The sessions that outlive the process: saved, and not deleted since. -/
  saved : Finmap fun _ : String ↦ Session
  deriving DecidableEq

namespace AbsStore

/-- Nothing seen and nothing saved. -/
def empty : AbsStore :=
  ⟨∅, ∅⟩

/-- One call on the abstract store; `persist` says whether saved sessions outlive the cache. -/
def exec (persist : Bool) : Op → AbsStore → Reply × AbsStore
  | .getOrCreate key, A =>
    match A.view.lookup key with
    | some s => (.session s, A)
    | none => (.session (Session.new key), { A with view := A.view.insert key (Session.new key) })
  | .get key, A => (.lookup (A.view.lookup key), A)
  | .save s, A =>
    (.unit, ⟨A.view.insert s.key s, if persist then A.saved.insert s.key s else A.saved⟩)
  | .delete key, A => (.unit, ⟨A.view.erase key, A.saved.erase key⟩)
  | .«exists» key, A => (.flag (decide (key ∈ A.view)), A)
  | .clearCache, A => (.unit, { A with view := A.saved })

/-- Calls one after another: the final abstract store and each call's reply. -/
def serial (persist : Bool) : AbsStore → List Op → AbsStore × List Reply
  | A, [] => (A, [])
  | A, op :: ops =>
    let rest := serial persist (exec persist op A).2 ops
    (rest.1, (exec persist op A).1 :: rest.2)

end AbsStore

/-- What one call leaves saved under `key`, given what was saved before it. -/
def savedAfter (key : String) (cur : Option Session) : Op → Option Session
  | .save s => if s.key = key then some s else cur
  | .delete k => if k = key then none else cur
  | _ => cur

/-- The session last saved under `key` and not deleted since, over a sequence of calls. -/
def lastSaved (key : String) (ops : List Op) : Option Session :=
  ops.foldl (savedAfter key) none

/-- With persistence, one call changes `saved` at `key` as `savedAfter` says. -/
theorem AbsStore.saved_exec (A : AbsStore) (op : Op) (key : String) :
    (exec true op A).2.saved.lookup key = savedAfter key (A.saved.lookup key) op := by
  cases op with
  | getOrCreate k =>
    simp only [exec]
    split <;> rfl
  | save s =>
    by_cases h : s.key = key
    · subst h; simp [exec, savedAfter]
    · simp [exec, savedAfter, h, Finmap.lookup_insert_of_ne _ (Ne.symm h)]
  | delete k =>
    by_cases h : k = key
    · subst h; simp [exec, savedAfter]
    · simp [exec, savedAfter, h, Finmap.lookup_erase_ne (Ne.symm h)]
  | _ => rfl

/-- With persistence, the abstract `saved` is, key by key, what the calls last saved. -/
theorem AbsStore.saved_serial (A : AbsStore) (ops : List Op) (key : String) :
    (serial true A ops).1.saved.lookup key = ops.foldl (savedAfter key) (A.saved.lookup key) := by
  induction ops generalizing A with
  | nil => rfl
  | cons op ops ih => rw [List.foldl_cons, ← saved_exec, ← ih]; rfl

namespace AbsStore

variable {persist : Bool} {A : AbsStore} {key : String}

theorem exec_getOrCreate_fst :
    (A.exec persist (.getOrCreate key)).1 =
      .session ((A.view.lookup key).getD (Session.new key)) := by
  simp only [exec]
  split <;> simp [*]

theorem view_getOrCreate (k : String) :
    (A.exec persist (.getOrCreate key)).2.view.lookup k =
      if k = key then some ((A.view.lookup key).getD (Session.new key)) else A.view.lookup k := by
  by_cases e : k = key
  · subst e
    simp only [exec, if_true]
    split <;> simp [*]
  · simp only [exec, if_neg e]
    split <;> simp [Finmap.lookup_insert_of_ne _ e]

theorem saved_getOrCreate : (A.exec persist (.getOrCreate key)).2.saved = A.saved := by
  simp only [exec]
  split <;> rfl

/-- Every key the abstract store holds is a key of `K`. -/
def KeysIn (K : KeySpace) (A : AbsStore) : Prop :=
  (∀ k ∈ A.view, k ∈ K.keys) ∧ ∀ k ∈ A.saved, k ∈ K.keys

theorem KeysIn.empty {K : KeySpace} : AbsStore.empty.KeysIn K :=
  ⟨fun _ hk ↦ absurd hk (Finmap.not_mem_empty), fun _ hk ↦ absurd hk (Finmap.not_mem_empty)⟩

theorem KeysIn.exec {K : KeySpace} (h : A.KeysIn K) {op : Op} (hop : op.KeyIn K) :
    (A.exec persist op).2.KeysIn K := by
  have hins : ∀ {M : Finmap fun _ : String ↦ Session} {key : String} {s : Session},
      (∀ k ∈ M, k ∈ K.keys) → key ∈ K.keys → ∀ k ∈ M.insert key s, k ∈ K.keys :=
    fun hM hkey k hk ↦ (Finmap.mem_insert.1 hk).elim (· ▸ hkey) (hM k)
  cases op with
  | getOrCreate key =>
    simp only [AbsStore.exec]
    split
    · exact h
    · exact ⟨hins h.1 (hop key rfl), h.2⟩
  | save s =>
    refine ⟨hins h.1 (hop s.key rfl), ?_⟩
    cases persist
    · exact h.2
    · exact hins h.2 (hop s.key rfl)
  | delete key =>
    exact ⟨fun k hk ↦ h.1 k (Finmap.mem_erase.1 hk).2, fun k hk ↦ h.2 k (Finmap.mem_erase.1 hk).2⟩
  | clearCache => exact ⟨h.2, h.2⟩
  | _ => exact h

theorem KeysIn.serial {K : KeySpace} (h : A.KeysIn K) {ops : List Op}
    (hops : ∀ op ∈ ops, op.KeyIn K) : (AbsStore.serial persist A ops).1.KeysIn K := by
  induction ops generalizing A with
  | nil => exact h
  | cons op ops ih =>
    exact ih (h.exec (hops op (List.mem_cons_self _ _))) fun o ho ↦ hops o (List.mem_cons_of_mem _ ho)

end AbsStore

/-! ### What `get` answers after each call -/

namespace SessionManager

variable {m : SessionManager} {k : String} {st st' : Store}

theorem get_fst_of_lookup {s : Session} (h : st.sessions.lookup k = some s) :
    (m.get k st).1 = some s := by
  simp [get, h]

theorem get_fst_of_lookup_none (h : st.sessions.lookup k = none) :
    (m.get k st).1 = m.loadFile k st := by
  unfold get
  rw [h]
  cases m.loadFile k st <;> rfl

theorem loadFile_congr (h : st'.files = st.files) : m.loadFile k st' = m.loadFile k st := by
  simp [loadFile, h]

/-- `get`'s answer depends only on the key's cache entry and its file. -/
theorem get_fst_congr (hc : st'.sessions.lookup k = st.sessions.lookup k)
    (hl : m.loadFile k st' = m.loadFile k st) : (m.get k st').1 = (m.get k st).1 := by
  rcases hs : st.sessions.lookup k with _ | s
  · rw [get_fst_of_lookup_none (hc.trans hs), get_fst_of_lookup_none hs, hl]
  · rw [get_fst_of_lookup (hc.trans hs), get_fst_of_lookup hs]

/-- `get_or_create` returns what `get` would, or a new session. -/
theorem getOrCreate_fst (key : String) (st : Store) :
    (m.getOrCreate key st).1 = (m.get key st).1.getD (Session.new key) := by
  rcases getOrCreate_cases m key st with
    ⟨s, hc, he⟩ | ⟨hc, s, hl, he⟩ | ⟨hc, hl, he⟩ <;> rw [he]
  · simp [get, hc]
  all_goals simp [get, hc, hl]

theorem get_fst_getOrCreate (key : String) :
    (m.get k (m.getOrCreate key st).2).1 =
      if k = key then some (m.getOrCreate key st).1 else (m.get k st).1 := by
  split
  · exact get_fst_of_lookup (by rw [getOrCreate_lookup, if_pos ‹_›])
  · exact get_fst_congr (by rw [getOrCreate_lookup, if_neg ‹_›])
      (loadFile_congr (getOrCreate_files m key st))

theorem get_fst_get (key : String) : (m.get k (m.get key st).2).1 = (m.get k st).1 := by
  rcases get_cases m key st with ⟨s, -, he⟩ | ⟨-, s, -, he⟩ | ⟨-, -, he⟩ <;> rw [he]
  by_cases hk : k = key
  · subst hk
    rw [get_fst_of_lookup (Finmap.lookup_insert _), he]
  · exact get_fst_congr (Finmap.lookup_insert_of_ne _ hk) (loadFile_congr rfl)

end SessionManager

/-! ### The refinement -/

/-- **The abstraction**: over the keys of `K`, `get` on the cache and the directory answers what
`view` says, and the key's file, read as `get` reads it, is what `saved` says. -/
structure Refines (m : SessionManager) (K : KeySpace) (st : Store) (A : AbsStore) : Prop where
  view : ∀ k ∈ K.keys, A.view.lookup k = (m.get k st).1
  saved : ∀ k ∈ K.keys, A.saved.lookup k = m.loadFile k st

namespace Refines

open SessionManager

variable {m : SessionManager} {K : KeySpace} {st : Store} {A : AbsStore}

theorem empty : Refines m K Store.empty AbsStore.empty :=
  ⟨fun _ _ ↦ by rw [get_fst_of_lookup_none (by simp)]; simp [AbsStore.empty, loadFile],
    fun _ _ ↦ by simp [AbsStore.empty, loadFile]⟩

theorem getOrCreate (h : Refines m K st A) {key : String} (hkey : key ∈ K.keys) :
    ((Op.getOrCreate key).exec m st).1 = (A.exec m.storagePath.isSome (.getOrCreate key)).1 ∧
      Refines m K ((Op.getOrCreate key).exec m st).2
        (A.exec m.storagePath.isSome (.getOrCreate key)).2 := by
  refine ⟨by rw [AbsStore.exec_getOrCreate_fst, h.view key hkey, ← getOrCreate_fst]; rfl,
    fun k hk ↦ ?_, fun k hk ↦ ?_⟩
  · rw [AbsStore.view_getOrCreate, h.view key hkey, h.view k hk, ← getOrCreate_fst]
    exact (get_fst_getOrCreate key).symm
  · rw [AbsStore.saved_getOrCreate, h.saved k hk]
    exact (loadFile_congr (getOrCreate_files m key st)).symm

theorem get (h : Refines m K st A) {key : String} (hkey : key ∈ K.keys) :
    ((Op.get key).exec m st).1 = (A.exec m.storagePath.isSome (.get key)).1 ∧
      Refines m K ((Op.get key).exec m st).2 (A.exec m.storagePath.isSome (.get key)).2 :=
  ⟨by simp [Op.exec, AbsStore.exec, h.view key hkey],
    fun k hk ↦ (h.view k hk).trans (get_fst_get key).symm,
    fun k hk ↦ (h.saved k hk).trans (loadFile_congr (get_files m key st)).symm⟩

theorem save (h : Refines m K st A) {s : Session} (hkey : s.key ∈ K.keys) :
    ((Op.save s).exec m st).1 = (A.exec m.storagePath.isSome (.save s)).1 ∧
      Refines m K ((Op.save s).exec m st).2 (A.exec m.storagePath.isSome (.save s)).2 := by
  have hfile : ∀ k ∈ K.keys, k ≠ s.key → m.loadFile k (m.save s st) = m.loadFile k st := by
    intro k hk e
    rcases hp : m.storagePath with _ | p
    · simp [hp]
    · have hn : fileName k ≠ fileName s.key := fun hn ↦ e (K.eq_of_fileName_eq hk hkey hn)
      simp [loadFile_of_storagePath hp, save_files, hp, Finmap.lookup_insert_of_ne _ hn]
  refine ⟨rfl, fun k hk ↦ ?_, fun k hk ↦ ?_⟩
  · by_cases e : k = s.key
    · subst e
      simp only [Op.exec, AbsStore.exec, Finmap.lookup_insert]
      rw [get_fst_of_lookup (by rw [save_sessions, Finmap.lookup_insert])]
    · simp only [Op.exec, AbsStore.exec]
      rw [Finmap.lookup_insert_of_ne _ e, h.view k hk]
      exact (get_fst_congr (by rw [save_sessions, Finmap.lookup_insert_of_ne _ e])
        (hfile k hk e)).symm
  · simp only [Op.exec, AbsStore.exec]
    rcases hp : m.storagePath with _ | p
    · simpa [hp] using h.saved k hk
    · by_cases e : k = s.key
      · subst e; simp [loadFile_of_storagePath hp, save_files, hp]
      · simp only [Option.isSome_some, if_true]
        rw [Finmap.lookup_insert_of_ne _ e, h.saved k hk, hfile k hk e]

theorem delete (h : Refines m K st A) {key : String} (hkey : key ∈ K.keys) :
    ((Op.delete key).exec m st).1 = (A.exec m.storagePath.isSome (.delete key)).1 ∧
      Refines m K ((Op.delete key).exec m st).2 (A.exec m.storagePath.isSome (.delete key)).2 := by
  have hfile : ∀ k ∈ K.keys, m.loadFile k (m.delete key st) =
      if k = key then none else m.loadFile k st := by
    intro k hk
    rcases hp : m.storagePath with _ | p
    · simp [hp]
    · split
      · subst_vars; simp [loadFile_of_storagePath hp, delete_files, hp]
      · have hn : fileName k ≠ fileName key :=
          fun hn ↦ ‹k ≠ key› (K.eq_of_fileName_eq hk hkey hn)
        simp [loadFile_of_storagePath hp, delete_files, hp, Finmap.lookup_erase_ne hn]
  refine ⟨rfl, fun k hk ↦ ?_, fun k hk ↦ ?_⟩ <;> simp only [Op.exec, AbsStore.exec]
  · by_cases e : k = key
    · subst e
      rw [Finmap.lookup_erase, (exists_delete_and_get_delete k st).2]
    · rw [Finmap.lookup_erase_ne e, h.view k hk]
      exact (get_fst_congr (by rw [delete_sessions, Finmap.lookup_erase_ne e])
        ((hfile k hk).trans (if_neg e))).symm
  · rw [hfile k hk]
    split
    · subst_vars; exact Finmap.lookup_erase _ _
    · rw [Finmap.lookup_erase_ne ‹_›, h.saved k hk]

theorem «exists» (h : Refines m K st A) {key : String} (hkey : key ∈ K.keys) :
    ((Op.exists key).exec m st).1 = (A.exec m.storagePath.isSome (.exists key)).1 ∧
      Refines m K ((Op.exists key).exec m st).2 (A.exec m.storagePath.isSome (.exists key)).2 := by
  refine ⟨?_, h⟩
  simp only [Op.exec, AbsStore.exec, exists_eq_get_isSome, ← h.view key hkey, Reply.flag.injEq]
  exact Bool.eq_iff_iff.2 (Finmap.lookup_isSome.trans decide_eq_true_iff.symm)

theorem clearCache (h : Refines m K st A) :
    (Op.clearCache.exec m st).1 = (A.exec m.storagePath.isSome .clearCache).1 ∧
      Refines m K (Op.clearCache.exec m st).2 (A.exec m.storagePath.isSome .clearCache).2 :=
  ⟨rfl, fun k hk ↦ by
    rw [show (Op.clearCache.exec m st).2 = SessionManager.clearCache st from rfl,
      get_fst_of_lookup_none (by simp)]
    exact h.saved k hk, h.saved⟩

/-- **One call**: related stores give the same reply and stay related. -/
theorem exec (h : Refines m K st A) {op : Op} (hop : op.KeyIn K) :
    (op.exec m st).1 = (A.exec m.storagePath.isSome op).1 ∧
      Refines m K (op.exec m st).2 (A.exec m.storagePath.isSome op).2 := by
  cases op with
  | getOrCreate key => exact h.getOrCreate (hop key rfl)
  | get key => exact h.get (hop key rfl)
  | save s => exact h.save (hop s.key rfl)
  | delete key => exact h.delete (hop key rfl)
  | «exists» key => exact h.exists (hop key rfl)
  | clearCache => exact h.clearCache

/-- **Every run**: related stores give the same replies to every sequence of calls. -/
theorem serial (h : Refines m K st A) {ops : List Op} (hops : ∀ op ∈ ops, op.KeyIn K) :
    (ZeptoClaw.serial m st ops).2 = (AbsStore.serial m.storagePath.isSome A ops).2 ∧
      Refines m K (ZeptoClaw.serial m st ops).1 (AbsStore.serial m.storagePath.isSome A ops).1 := by
  induction ops generalizing st A with
  | nil => exact ⟨rfl, h⟩
  | cons op ops ih =>
    obtain ⟨hr, h'⟩ := h.exec (hops op (List.mem_cons_self _ _))
    obtain ⟨hr', h''⟩ := ih h' fun o ho ↦ hops o (List.mem_cons_of_mem _ ho)
    exact ⟨by simp only [ZeptoClaw.serial, AbsStore.serial, hr, hr'], h''⟩

end Refines

/-- **The manager refines the abstract store.** Over keys that do not share files, every sequence
of calls on a manager over an empty directory, or on the in-memory manager, gets exactly the
replies the abstract store gives, and leaves the two related. -/
theorem manager_refines_absStore (m : SessionManager) (K : KeySpace) (ops : List Op)
    (hops : ∀ op ∈ ops, op.KeyIn K) :
    (serial m Store.empty ops).2 = (AbsStore.serial m.storagePath.isSome AbsStore.empty ops).2 ∧
      Refines m K (serial m Store.empty ops).1
        (AbsStore.serial m.storagePath.isSome AbsStore.empty ops).1 :=
  Refines.empty.serial hops

/-- Over the key space `{chat}`: save, read back, clear the cache, read again. -/
theorem manager_refines_absStore_chat :
    let m : SessionManager := ⟨some "sessions"⟩
    let K : KeySpace := ⟨{"chat"}, Set.injOn_singleton _ _⟩
    let ops : List Op := [.save ⟨"chat", []⟩, .getOrCreate "chat", .clearCache, .get "chat"]
    (∀ op ∈ ops, op.KeyIn K) ∧
      ((serial m Store.empty ops).2 =
          (AbsStore.serial m.storagePath.isSome AbsStore.empty ops).2 ∧
        Refines m K (serial m Store.empty ops).1
          (AbsStore.serial m.storagePath.isSome AbsStore.empty ops).1) :=
  have hops : ∀ op ∈ [Op.save ⟨"chat", []⟩, .getOrCreate "chat", .clearCache, .get "chat"],
      op.KeyIn ⟨{"chat"}, Set.injOn_singleton _ _⟩ := by simp [Op.KeyIn, Op.key?]
  ⟨hops, manager_refines_absStore _ _ _ hops⟩

/-- **For plain keys, `list` refines the abstract store's keys.** Over keys that do not share
files and that `sanitize_key` leaves alone, after every sequence of calls on a manager over an
empty directory or in memory, `list` returns, whatever the order of the cache and of the
directory, exactly the keys of the abstract view, sorted. -/
theorem list_refines_absStore (m : SessionManager) (K : KeySpace) (ops : List Op)
    (hops : ∀ op ∈ ops, op.KeyIn K) (hplain : ∀ k ∈ K.keys, IsPlainKey k)
    (co : Listing (runOps m Store.empty ops).sessions.keys)
    (dirOrder : Listing (runOps m Store.empty ops).files.keys) :
    m.list (runOps m Store.empty ops) co dirOrder =
      (AbsStore.serial m.storagePath.isSome AbsStore.empty ops).1.view.keys.sort (· ≤ ·) := by
  have hinv : StoreInv m K (runOps m Store.empty ops) := StoreInv.empty.runOps hops
  have hrel : Refines m K (runOps m Store.empty ops)
      (AbsStore.serial m.storagePath.isSome AbsStore.empty ops).1 :=
    (Refines.empty.serial hops).2
  have hdom : (AbsStore.serial m.storagePath.isSome AbsStore.empty ops).1.KeysIn K :=
    AbsStore.KeysIn.empty.serial hops
  have hsorted := SessionManager.list_sorted m _ co dirOrder
  refine List.eq_of_perm_of_sorted ((List.perm_ext_iff_of_nodup hsorted.nodup
    (Finset.sort_nodup _ _)).2 fun k ↦ ?_) hsorted.le_of_lt (Finset.sort_sorted _ _)
  rw [SessionManager.mem_list_iff_get hinv hplain, Finset.mem_sort, Finmap.mem_keys]
  constructor
  · rintro ⟨s, hs, hsk⟩
    have hk : k ∈ K.keys := hsk ▸ (hinv.get_key hs).1
    exact Finmap.mem_of_lookup_eq_some ((hrel.view k hk).trans hs)
  · intro hk
    obtain ⟨s, hs⟩ := Finmap.mem_iff.1 hk
    rw [hrel.view k (hdom.1 k hk)] at hs
    exact ⟨s, hs, (hinv.get_key hs).2 (hdom.1 k hk)⟩

/-- Over the key space `{alpha}`: save, clear the cache, read back; with the one order the cache
and the directory can each have. -/
theorem list_refines_absStore_alpha :
    let m : SessionManager := ⟨some "sessions"⟩
    let K : KeySpace := ⟨{"alpha"}, Set.injOn_singleton _ _⟩
    let ops : List Op := [.save ⟨"alpha", []⟩, .clearCache, .get "alpha"]
    let st := runOps m Store.empty ops
    let co : Listing st.sessions.keys := ⟨["alpha"], List.nodup_singleton _, fun x ↦ by
      rw [show st.sessions.keys = {"alpha"} by decide]; simp⟩
    let dirOrder : Listing st.files.keys := ⟨[fileName "alpha"], List.nodup_singleton _, fun x ↦ by
      rw [show st.files.keys = {fileName "alpha"} by decide]; simp⟩
    (∀ op ∈ ops, op.KeyIn K) ∧ (∀ k ∈ K.keys, IsPlainKey k) ∧
      m.list st co dirOrder =
        (AbsStore.serial m.storagePath.isSome AbsStore.empty ops).1.view.keys.sort (· ≤ ·) :=
  have hops : ∀ op ∈ [Op.save ⟨"alpha", []⟩, .clearCache, .get "alpha"],
      op.KeyIn ⟨{"alpha"}, Set.injOn_singleton _ _⟩ := by simp [Op.KeyIn, Op.key?]
  have hplain : ∀ k ∈ ({"alpha"} : Set String), IsPlainKey k := by
    rintro k rfl
    decide
  ⟨hops, hplain, list_refines_absStore _ _ _ hops hplain _ _⟩

/-- **A restart keeps exactly what was saved.** Run any calls on a manager over an empty storage
directory, then make a new manager over the same directory: for every key, `get` answers the
session last saved under it and not deleted since, and `get_or_create` that session or a new one.
What was only cached, such as a session `get_or_create` made, is gone. -/
theorem restart_keeps_last_saved (path : String) (K : KeySpace) (ops : List Op)
    (hops : ∀ op ∈ ops, op.KeyIn K) (key : String) (hkey : key ∈ K.keys) :
    let first := SessionManager.withPath path ∅
    let restarted := SessionManager.withPath path (runOps first.1 first.2 ops).files
    (restarted.1.get key restarted.2).1 = lastSaved key ops ∧
      (restarted.1.getOrCreate key restarted.2).1 = (lastSaved key ops).getD (Session.new key) := by
  intro first restarted
  have hrun : Refines first.1 K (runOps first.1 first.2 ops)
      (AbsStore.serial true AbsStore.empty ops).1 :=
    (Refines.empty.serial hops).2
  have hget : (restarted.1.get key restarted.2).1 = lastSaved key ops := by
    rw [SessionManager.get_fst_of_lookup_none (by simp [restarted, SessionManager.withPath])]
    exact (hrun.saved key hkey).symm.trans
      ((AbsStore.saved_serial _ ops key).trans (by simp [AbsStore.empty, lastSaved]))
  exact ⟨hget, by rw [SessionManager.getOrCreate_fst, hget]⟩

/-- Over the key space `{chat}`: saved, deleted, created again but never saved, then saved with a
message. The restarted manager answers the last save. -/
theorem restart_keeps_last_saved_chat :
    let K : KeySpace := ⟨{"chat"}, Set.injOn_singleton _ _⟩
    let ops : List Op := [.save ⟨"chat", []⟩, .delete "chat", .getOrCreate "chat",
      .save ⟨"chat", [⟨"hello"⟩]⟩]
    (∀ op ∈ ops, op.KeyIn K) ∧ "chat" ∈ K.keys ∧
      (let first := SessionManager.withPath "sessions" ∅
      let restarted := SessionManager.withPath "sessions" (runOps first.1 first.2 ops).files
      (restarted.1.get "chat" restarted.2).1 = lastSaved "chat" ops ∧
        (restarted.1.getOrCreate "chat" restarted.2).1 =
          (lastSaved "chat" ops).getD (Session.new "chat")) :=
  have hops : ∀ op ∈ [Op.save ⟨"chat", []⟩, .delete "chat", .getOrCreate "chat",
      .save ⟨"chat", [⟨"hello"⟩]⟩],
      op.KeyIn ⟨{"chat"}, Set.injOn_singleton _ _⟩ := by simp [Op.KeyIn, Op.key?]
  ⟨hops, rfl, restart_keeps_last_saved "sessions" _ _ hops "chat" rfl⟩

end ZeptoClaw
