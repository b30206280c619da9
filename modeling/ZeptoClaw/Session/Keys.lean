import ZeptoClaw.Session.Invariant

/-!
# Which keys `list` reports

`list` reads the keys of sessions that are only on disk back from file names, and a file name is
the key *after* `sanitize_key`. Over every run, the stems it finds are therefore the sanitized keys
of the sessions on disk (`StoreInv.mem_list_iff`), with one more loss: a session whose key is
empty lives in `.json`, which `Path::extension` reads as a hidden file with no extension, so it is
not listed at all.

For keys that are their own sanitized form and not empty (`IsPlainKey`), that is exactly the set
of keys `get` answers for under their own key (`list_of_plain_keys`). For any other key it is not:
after a `save` of `telegram:chat123` — the `<channel>:<id>` shape the module's own example uses —
and a `clear_cache`, `list` reports `telegram_chat123`, which is no session's key, and `get` of it
returns the session keyed `telegram:chat123` (`list_reports_sanitized_stem`).
-/

namespace ZeptoClaw

/-- A key that `sanitize_key` leaves as it is and that is not empty: its file's stem reads back
as the key itself. -/
def IsPlainKey (key : String) : Prop :=
  key ≠ "" ∧ ∀ c ∈ key.data, c ∉ illegalChars

instance (key : String) : Decidable (IsPlainKey key) :=
  inferInstanceAs (Decidable (_ ∧ _))

namespace StoreInv

variable {m : SessionManager} {K : KeySpace} {st : Store}

/-- Under the invariant, the `.json` stems of the directory are the sanitized keys of the
sessions on disk, the empty key excepted. -/
theorem exists_jsonStem_iff (h : StoreInv m K st) {k : String} :
    (∃ e ∈ st.files, jsonStem e = some k) ↔
      ∃ d, st.files.lookup (fileName d.key) = some d ∧ d.key ≠ "" ∧ sanitizeKey d.key = k := by
  constructor
  · rintro ⟨e, he, hk⟩
    obtain ⟨d, hd⟩ := Finmap.mem_iff.1 he
    have hname := h.file_name _ _ hd
    subst hname
    rw [jsonStem_fileName] at hk
    split at hk
    · cases hk
    · exact ⟨d, hd, ‹_›, Option.some.inj hk⟩
  · rintro ⟨d, hd, hne, rfl⟩
    exact ⟨_, Finmap.mem_of_lookup_eq_some hd, by rw [jsonStem_fileName, if_neg hne]⟩

/-- **What `list` reports over a run**: the cached keys, and the sanitized keys of the
non-empty-keyed sessions on disk. -/
theorem mem_list_iff (h : StoreInv m K st) (co : Listing st.sessions.keys)
    (dirOrder : Listing st.files.keys) {k : String} :
    k ∈ m.list st co dirOrder ↔ k ∈ st.sessions ∨ m.storagePath.isSome ∧
      ∃ d, st.files.lookup (fileName d.key) = some d ∧ d.key ≠ "" ∧ sanitizeKey d.key = k := by
  rw [SessionManager.mem_list, h.exists_jsonStem_iff]

/-- A session `get` returns has a key of `K`, and asked for a key of `K`, it is that very key. -/
theorem get_key (h : StoreInv m K st) {k : String} {s : Session} (hs : (m.get k st).1 = some s) :
    s.key ∈ K.keys ∧ (k ∈ K.keys → s.key = k) := by
  rcases SessionManager.get_cases m k st with ⟨s', hc, he⟩ | ⟨-, s', hl, he⟩ | ⟨-, -, he⟩ <;>
    rw [he] at hs <;> cases hs
  · rw [h.cache_key _ _ hc]
    exact ⟨h.cache_mem k (Finmap.mem_of_lookup_eq_some hc), fun _ ↦ rfl⟩
  · rcases hp : m.storagePath with _ | p
    · simp [hp] at hl
    · rw [SessionManager.loadFile_of_storagePath hp] at hl
      exact ⟨h.file_mem _ _ hl, fun hk ↦ h.key_of_file hk hl⟩

end StoreInv

namespace SessionManager

variable {m : SessionManager} {K : KeySpace} {st : Store}

/-- For plain keys, `list` holds exactly the keys that `get` answers for under their own key. -/
theorem mem_list_iff_get (h : StoreInv m K st) (hplain : ∀ k ∈ K.keys, IsPlainKey k)
    (co : Listing st.sessions.keys) (dirOrder : Listing st.files.keys) (k : String) :
    k ∈ m.list st co dirOrder ↔ ∃ s, (m.get k st).1 = some s ∧ s.key = k := by
  rw [h.mem_list_iff co dirOrder]
  constructor
  · rintro (hk | ⟨hp, d, hd, -, hsk⟩)
    · obtain ⟨s, hs⟩ := Finmap.mem_iff.1 hk
      rcases get_cases m k st with ⟨s', hc, he⟩ | ⟨hc, -, -, -⟩ | ⟨hc, -, -⟩ <;> simp_all
      exact h.cache_key _ _ hc
    · have hdk : d.key = k := by
        rw [← hsk, sanitizeKey_of_forall_not_mem (hplain _ (h.file_mem _ _ hd)).2]
      subst hdk
      rcases get_cases m d.key st with ⟨s', hc, he⟩ | ⟨hc, s', hl, he⟩ | ⟨hc, hl, -⟩
      · exact ⟨s', by rw [he], h.cache_key _ _ hc⟩
      · obtain ⟨p, hp⟩ := Option.isSome_iff_exists.1 hp
        rw [loadFile_of_storagePath hp, hd] at hl
        exact ⟨s', by rw [he], Option.some.inj hl ▸ rfl⟩
      · obtain ⟨p, hp⟩ := Option.isSome_iff_exists.1 hp
        rw [loadFile_of_storagePath hp, hd] at hl
        cases hl
  · rintro ⟨s, hs, rfl⟩
    rcases get_cases m s.key st with ⟨s', hc, -⟩ | ⟨hc, s', hl, he⟩ | ⟨-, -, he⟩
    · exact .inl (Finmap.mem_of_lookup_eq_some hc)
    · rw [he] at hs
      cases hs
      rcases hp : m.storagePath with _ | p
      · simp [hp] at hl
      · rw [loadFile_of_storagePath hp] at hl
        exact .inr ⟨by simp [hp], s, hl, (hplain _ (h.file_mem _ _ hl)).1,
          sanitizeKey_of_forall_not_mem (hplain _ (h.file_mem _ _ hl)).2⟩
    · rw [he] at hs
      cases hs

/-- **For plain keys `list` is right**: it is strictly increasing and reports exactly the keys
for which `get` returns a session under that very key. -/
theorem list_of_plain_keys (h : StoreInv m K st) (hplain : ∀ k ∈ K.keys, IsPlainKey k)
    (co : Listing st.sessions.keys) (dirOrder : Listing st.files.keys) :
    (m.list st co dirOrder).Sorted (· < ·) ∧
      ∀ k, k ∈ m.list st co dirOrder ↔ ∃ s, (m.get k st).1 = some s ∧ s.key = k :=
  ⟨list_sorted m st co dirOrder, mem_list_iff_get h hplain co dirOrder⟩

/-- After `save` of a session keyed `alpha` over the key space `{alpha}`, with the one order the
cache and the directory can have. -/
theorem list_of_plain_keys_alpha :
    let m : SessionManager := ⟨some "sessions"⟩
    let st := runOps m Store.empty [.save ⟨"alpha", []⟩]
    let K : KeySpace := ⟨{"alpha"}, Set.injOn_singleton _ _⟩
    let co : Listing st.sessions.keys := ⟨["alpha"], List.nodup_singleton _, fun x ↦ by
      rw [show st.sessions.keys = {"alpha"} by decide]; simp⟩
    let dirOrder : Listing st.files.keys := ⟨[fileName "alpha"], List.nodup_singleton _, fun x ↦ by
      rw [show st.files.keys = {fileName "alpha"} by decide]; simp⟩
    StoreInv m K st ∧ (∀ k ∈ K.keys, IsPlainKey k) ∧
      (m.list st co dirOrder).Sorted (· < ·) ∧
      ∀ k, k ∈ m.list st co dirOrder ↔ ∃ s, (m.get k st).1 = some s ∧ s.key = k := by
  intro m st K co dirOrder
  have h : StoreInv m K st := StoreInv.empty.runOps (by simp [Op.KeyIn, Op.key?, K])
  have hplain : ∀ k ∈ K.keys, IsPlainKey k := by
    rintro k rfl
    decide
  exact ⟨h, hplain, list_of_plain_keys h hplain co dirOrder⟩

end SessionManager

/-- With persistence, after `save` of a session keyed `telegram:chat123`, `list` reports the session
twice: under its key from the cache and under `telegram_chat123` from the directory. After
`clear_cache` it reports only `telegram_chat123` — in every order of the cache and of the
directory — and `get` of that key returns the session keyed `telegram:chat123`. -/
theorem list_reports_sanitized_stem :
    let m : SessionManager := ⟨some "sessions"⟩
    let saved := runOps m Store.empty [.save ⟨"telegram:chat123", []⟩]
    let st := runOps m Store.empty [.save ⟨"telegram:chat123", []⟩, .clearCache]
    (∀ co dirOrder, "telegram:chat123" ∈ m.list saved co dirOrder ∧
      "telegram_chat123" ∈ m.list saved co dirOrder) ∧
    (∀ co dirOrder, m.list st co dirOrder = ["telegram_chat123"]) ∧
      (m.get "telegram_chat123" st).1 = some ⟨"telegram:chat123", []⟩ := by
  have hstem : jsonStem (fileName "telegram:chat123") = some "telegram_chat123" := by
    rw [jsonStem_fileName, if_neg (by decide),
      show sanitizeKey "telegram:chat123" = "telegram_chat123" by decide]
  refine ⟨fun co dirOrder ↦ ⟨SessionManager.mem_list _ _ |>.2 (.inl (by decide)),
    SessionManager.mem_list _ _ |>.2 (.inr ⟨rfl, _, by decide, hstem⟩)⟩,
    fun co dirOrder ↦ ?_, rfl⟩
  rw [SessionManager.list_eq_insertionSort, co.order_eq_nil (by decide),
    dirOrder.order_eq_singleton (a := fileName "telegram:chat123") (by decide)]
  simp only [Option.isSome_some, if_true, collectStems, List.foldl_cons, List.foldl_nil, pushStem,
    hstem]
  rfl

end ZeptoClaw
