import ZeptoClaw.Session.Manager

/-!
# What `list` returns

`list` gathers the cached keys, then runs the `read_dir` loop, which pushes the stem of every
`.json` entry unless the vector already contains it, and finally sorts. Two facts about the loop
carry everything:

* `collectStems_nodup`: the guard `!keys.contains(&key)` keeps a duplicate-free vector
  duplicate-free, whatever the entries and their order;
* `mem_collectStems`: the vector ends up holding exactly what it started with and the stems.

The cache's keys are distinct because a map has distinct keys (`Listing.nodup`), so the vector is
duplicate-free before the loop, and the sort turns it into a strictly increasing list
(`list_sorted`). With the stems in closed form (`jsonStem_eq_some_iff`), `list` holds the cached
keys and the keys `k` of the files `k.json` with `k` not empty (`list_sorted_and_mem_iff`). Neither the `HashMap`'s order nor `read_dir`'s matters: both are
arbitrary arguments here.
-/

namespace ZeptoClaw

/-! ### The `read_dir` loop -/

theorem mem_pushStem {keys : List String} {entry k : String} :
    k ∈ pushStem keys entry ↔ k ∈ keys ∨ jsonStem entry = some k := by
  unfold pushStem
  split
  · rename_i key hkey
    split
    · rename_i hmem
      simp only [hkey, Option.some.injEq, iff_self_or]
      rintro rfl
      exact hmem
    · simp [hkey, eq_comm]
  · simp [*]

theorem pushStem_nodup {keys : List String} (h : keys.Nodup) (entry : String) :
    (pushStem keys entry).Nodup := by
  unfold pushStem
  split
  · split
    · exact h
    · rename_i hmem
      exact h.append (List.nodup_singleton _) (by simpa using hmem)
  · exact h

/-- **The loop keeps the vector duplicate-free**, for every sequence of entries. -/
theorem collectStems_nodup {keys : List String} (h : keys.Nodup) (entries : List String) :
    (collectStems keys entries).Nodup := by
  induction entries generalizing keys with
  | nil => exact h
  | cons entry entries ih => exact ih (pushStem_nodup h entry)

/-- The loop adds exactly the stems of the `.json` entries. -/
theorem mem_collectStems {keys entries : List String} {k : String} :
    k ∈ collectStems keys entries ↔ k ∈ keys ∨ ∃ e ∈ entries, jsonStem e = some k := by
  induction entries generalizing keys with
  | nil => simp [collectStems]
  | cons entry entries ih =>
    simp only [collectStems, List.foldl_cons] at ih ⊢
    rw [ih, mem_pushStem]
    simp [or_assoc]

/-- The loop only appends: what the vector held stays, in place. -/
theorem prefix_collectStems (keys entries : List String) : keys <+: collectStems keys entries := by
  induction entries generalizing keys with
  | nil => exact List.prefix_refl _
  | cons entry entries ih =>
    refine List.IsPrefix.trans ?_ (ih (pushStem keys entry))
    unfold pushStem
    split
    · split
      · exact List.prefix_refl _
      · exact List.prefix_append _ _
    · exact List.prefix_refl _

/-- An order of a finite set lists as many elements as the set has. -/
theorem Listing.length_order {s : Finset String} (l : Listing s) : l.order.length = s.card := by
  rw [← List.toFinset_card_of_nodup l.nodup]
  congr 1
  ext x
  simp [l.mem_iff]

/-! ### `list` -/

namespace SessionManager

variable (m : SessionManager) (st : Store)

/-- The vector `list` sorts. -/
theorem list_eq_insertionSort (co : Listing st.sessions.keys) (dirOrder : Listing st.files.keys) :
    m.list st co dirOrder = List.insertionSort (· ≤ ·)
      (if m.storagePath.isSome then collectStems co.order dirOrder.order else co.order) := rfl

theorem mem_list {co : Listing st.sessions.keys} {dirOrder : Listing st.files.keys} {k : String} :
    k ∈ m.list st co dirOrder ↔
      k ∈ st.sessions ∨ m.storagePath.isSome ∧ ∃ e ∈ st.files, jsonStem e = some k := by
  rw [list_eq_insertionSort, List.mem_insertionSort]
  split
  · rename_i hp
    simp [mem_collectStems, co.mem_iff, dirOrder.mem_iff, hp, Finmap.mem_keys]
  · rename_i hp
    simp [co.mem_iff, hp, Finmap.mem_keys]

/-- `list` is strictly increasing: the loop keeps the vector duplicate-free and the sort orders
it. -/
theorem list_sorted (co : Listing st.sessions.keys) (dirOrder : Listing st.files.keys) :
    (m.list st co dirOrder).Sorted (· < ·) := by
  have hnodup : (if m.storagePath.isSome then collectStems co.order dirOrder.order
      else co.order).Nodup := by
    split
    · exact collectStems_nodup co.nodup _
    · exact co.nodup
  rw [list_eq_insertionSort]
  exact (List.sorted_insertionSort _ _).lt_of_le
    ((List.perm_insertionSort _ _).nodup_iff.2 hnodup)

/-- The directory gives the key `k` exactly when it holds the file `k.json` and `k` is not empty. -/
theorem exists_jsonStem_eq_some_iff {files : Finmap fun _ : String ↦ Session} {k : String} :
    (∃ e ∈ files, jsonStem e = some k) ↔ k ≠ "" ∧ k ++ ".json" ∈ files := by
  simp only [jsonStem_eq_some_iff]
  constructor
  · rintro ⟨e, he, rfl, hk⟩
    exact ⟨hk, he⟩
  · rintro ⟨hk, he⟩
    exact ⟨_, he, rfl, hk⟩

/-- **`list` is strictly increasing, and holds exactly the cached keys and the keys `k` of the
files `k.json` with `k` not empty**, for every cache, every directory, and every order of
either. -/
theorem list_sorted_and_mem_iff (co : Listing st.sessions.keys)
    (dirOrder : Listing st.files.keys) :
    (m.list st co dirOrder).Sorted (· < ·) ∧
      ∀ k, k ∈ m.list st co dirOrder ↔
        k ∈ st.sessions ∨ m.storagePath.isSome ∧ k ≠ "" ∧ k ++ ".json" ∈ st.files :=
  ⟨list_sorted m st co dirOrder, fun _ ↦ mem_list m st |>.trans (or_congr_right
    (and_congr_right fun _ ↦ exists_jsonStem_eq_some_iff))⟩

/-- **`list` never reports fewer keys than `cache_size` counts**, whatever the directory holds,
and for the in-memory manager exactly as many. -/
theorem cacheSize_le_length_list (co : Listing st.sessions.keys)
    (dirOrder : Listing st.files.keys) :
    cacheSize st ≤ (m.list st co dirOrder).length ∧
      (SessionManager.list ⟨none⟩ st co dirOrder).length = cacheSize st := by
  have hco : co.order.length = cacheSize st := co.length_order
  refine ⟨?_, by rw [list_eq_insertionSort, List.length_insertionSort]; exact hco⟩
  rw [list_eq_insertionSort, List.length_insertionSort]
  split
  · exact hco ▸ (prefix_collectStems _ _).length_le
  · exact hco.ge

end SessionManager

end ZeptoClaw
