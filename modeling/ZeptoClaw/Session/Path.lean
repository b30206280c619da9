import Mathlib.Data.String.Basic

/-!
# Session file names and where they land

Every operation of the session store that touches the disk computes the same path,

```
storage_path.join(format!("{}.json", Self::sanitize_key(key)))
```

and this module models that expression character by character: `sanitizeKey` (a map over the
key's characters), `fileName`, and the two parts of `std::path` it meets, `PathBuf::join` and the
split of a path into components. Paths are read as `List Char` and as `std::path` reads them on
Unix, the platform of the store's default directory `~/.picoclaw/sessions`: `/` is the one
separator, and a path is absolute exactly when it starts with it. A component is what is left
between separators once empty pieces and `.` are dropped; `..` is kept, since it is a real step up.

## Confinement

`fileName key` is one **normal** component (`IsNormalComponent`): it is never empty, never `.` or
`..`, and holds no `/`. Joining such a name appends it (`components_join`), hence
`sessionFile_confined`: for every storage path and every key, the file the store reads, writes or
removes is an entry of the storage directory. The name holds no `\` and no `:` either, the
separator and the prefix mark that Windows adds, so it would stay one plain component there too.

## Stems and extensions

`list` turns directory entries back into keys with `Path::extension` and `Path::file_stem`, which
split a file name at its last dot. In closed form, an entry gives the stem `k` exactly when it is
named `k.json` with `k` not empty (`jsonStem_eq_some_iff`); a file named `.json` has no extension
at all. On the store's own file names that gives the sanitized key back, except for a key that
sanitizes to the empty string (`jsonStem_fileName`).
-/

namespace ZeptoClaw

/-! ### `sanitize_key` -/

/-- The characters `sanitize_key` replaces: `/ \ : * ? " < > |`. -/
def illegalChars : List Char :=
  ['/', '\\', ':', '*', '?', '"', '<', '>', '|']

/-- What `sanitize_key` makes of one character. -/
def sanitizeChar (c : Char) : Char :=
  if c ∈ illegalChars then '_' else c

/-- `SessionManager::sanitize_key`: `key.replace([...], "_")`. Each match of the pattern is a
single character and is replaced by the single character `_`, so the replacement is a map over
the characters. -/
def sanitizeKey (key : String) : String :=
  ⟨key.data.map sanitizeChar⟩

/-- The name of a session's file inside the storage directory: `format!("{}.json", ...)`. -/
def fileName (key : String) : String :=
  sanitizeKey key ++ ".json"

@[simp] theorem sanitizeKey_data (key : String) :
    (sanitizeKey key).data = key.data.map sanitizeChar := rfl

theorem fileName_data (key : String) :
    (fileName key).data = key.data.map sanitizeChar ++ ['.', 'j', 's', 'o', 'n'] := rfl

/-- Two keys share a file exactly when they sanitize alike. -/
theorem fileName_inj_iff {a b : String} : fileName a = fileName b ↔ sanitizeKey a = sanitizeKey b := by
  refine ⟨fun h ↦ ?_, fun h ↦ by rw [fileName, fileName, h]⟩
  have hdata := congrArg String.data h
  rw [fileName_data, fileName_data] at hdata
  exact String.ext (by simpa using List.append_cancel_right hdata)

/-- No character `sanitize_key` outputs is one it replaces. -/
theorem sanitizeChar_not_mem (c : Char) : sanitizeChar c ∉ illegalChars := by
  unfold sanitizeChar
  split
  · decide
  · assumption

/-- A key that holds none of the replaced characters is its own sanitized form. -/
theorem sanitizeKey_of_forall_not_mem {key : String} (h : ∀ c ∈ key.data, c ∉ illegalChars) :
    sanitizeKey key = key := by
  refine String.ext ((List.map_congr_left fun c hc ↦ ?_).trans key.data.map_id)
  simp [sanitizeChar, h c hc]

/-! ### Paths and their components -/

/-- The path separator of Unix, `/`. -/
def isSeparator (c : Char) : Bool :=
  c == '/'

/-- Split a path at its separators, keeping the empty pieces that repeated, leading or trailing
separators leave. -/
def splitPath : List Char → List (List Char)
  | [] => [[]]
  | c :: cs => if isSeparator c then [] :: splitPath cs else pushFront c (splitPath cs)
where
  /-- Put a character at the front of the first piece. -/
  pushFront (c : Char) : List (List Char) → List (List Char)
    | [] => [[c]]
    | piece :: pieces => (c :: piece) :: pieces

/-- A piece that is a step of the path: not empty (a repeated separator) and not `.`. -/
def isStep (piece : List Char) : Bool :=
  !piece.isEmpty && piece != ['.']

/-- The components of a path, the way path resolution walks them. -/
def components (p : String) : List String :=
  ((splitPath p.data).filter isStep).map String.mk

/-- `PathBuf::join(base, rel)` on Unix (`PathBuf::push`). A `rel` that starts with `/` is
absolute and replaces `base`; any other `rel` is appended, after a `/` when `base` is not empty
and does not already end in one (`need_sep`). -/
def join (base rel : String) : String :=
  if rel.data.head?.any isSeparator then rel
  else if base.data.getLast?.any (fun c ↦ !isSeparator c) then base ++ "/" ++ rel
  else base ++ rel

/-- The path every operation of the store computes for `key`. -/
def filePath (storagePath key : String) : String :=
  join storagePath (fileName key)

/-- One normal path component: not empty, neither `.` nor `..`, and holding no `/`; nor `\` or
`:`, so that Windows would read it as one plain component too. -/
def IsNormalComponent (name : String) : Prop :=
  name ≠ "" ∧ name ≠ "." ∧ name ≠ ".." ∧ ∀ c ∈ name.data, c ≠ '/' ∧ c ≠ '\\' ∧ c ≠ ':'

instance (name : String) : Decidable (IsNormalComponent name) :=
  inferInstanceAs (Decidable (_ ∧ _))

theorem splitPath_ne_nil (s : List Char) : splitPath s ≠ [] := by
  cases s with
  | nil => simp [splitPath]
  | cons c cs =>
    unfold splitPath
    split
    · simp
    · cases splitPath cs <;> simp [splitPath.pushFront]

theorem splitPath_of_forall_not_separator {s : List Char} (h : ∀ c ∈ s, isSeparator c = false) :
    splitPath s = [s] := by
  induction s with
  | nil => rfl
  | cons c cs ih =>
    simp only [List.mem_cons, forall_eq_or_imp] at h
    simp [splitPath, h.1, ih h.2, splitPath.pushFront]

/-- Splitting at one separator splits the two sides independently. -/
theorem splitPath_append_separator {c : Char} (hc : isSeparator c = true) (a b : List Char) :
    splitPath (a ++ c :: b) = splitPath a ++ splitPath b := by
  induction a with
  | nil => simp [splitPath, hc]
  | cons x a ih =>
    by_cases hx : isSeparator x = true
    · simp [splitPath, hx, ih]
    · obtain ⟨p, ps, hp⟩ := List.exists_cons_of_ne_nil (splitPath_ne_nil a)
      simp [splitPath, hx, ih, hp, splitPath.pushFront]

theorem components_append_separator {c : Char} (hc : isSeparator c = true) (a b : String) :
    components ⟨a.data ++ c :: b.data⟩ = components a ++ components b := by
  simp [components, splitPath_append_separator hc]

/-- A normal component is a path of one component. -/
theorem components_of_isNormalComponent {name : String} (h : IsNormalComponent name) :
    components name = [name] := by
  obtain ⟨hne, hdot, -, hchars⟩ := h
  have hsep : ∀ c ∈ name.data, isSeparator c = false := fun c hc ↦ by
    simp [isSeparator, (hchars c hc).1]
  have hstep : isStep name.data = true := by
    simp only [isStep, Bool.and_eq_true, Bool.not_eq_true', List.isEmpty_eq_false, bne_iff_ne,
      ne_eq]
    exact ⟨fun h ↦ hne (String.ext h), fun h ↦ hdot (String.ext h)⟩
  simp [components, splitPath_of_forall_not_separator hsep, hstep]

/-- **Joining a normal component appends exactly that component.** -/
theorem components_join {base name : String} (h : IsNormalComponent name) :
    components (join base name) = components base ++ [name] := by
  have hhead : name.data.head?.any isSeparator = false := by
    cases hd : name.data with
    | nil => exact absurd (String.ext hd) h.1
    | cons c cs => simp [isSeparator, (h.2.2.2 c (by simp [hd])).1]
  have hname := components_of_isNormalComponent h
  have hempty : components "" = [] := rfl
  unfold join
  rw [hhead, if_neg Bool.false_ne_true]
  split
  · rw [show base ++ "/" ++ name = ⟨base.data ++ '/' :: name.data⟩ from String.ext (by simp),
      components_append_separator (c := '/') rfl, hname]
  · rename_i hlast
    rcases List.eq_nil_or_concat base.data with hb | ⟨L, c, hb⟩
    · rw [show base = "" from String.ext hb, show "" ++ name = name from String.ext (by simp),
        hname, hempty, List.nil_append]
    · have hc : isSeparator c = true := by simpa [hb] using hlast
      rw [show base ++ name = ⟨L ++ c :: name.data⟩ from String.ext (by simp [hb]),
        show base = ⟨L ++ c :: "".data⟩ from String.ext (by simpa using hb),
        components_append_separator hc ⟨L⟩ name, components_append_separator hc ⟨L⟩ "",
        hname, hempty, List.append_nil]

/-- The store's file names are normal components. -/
theorem fileName_isNormalComponent (key : String) : IsNormalComponent (fileName key) := by
  have hlen : 5 ≤ (fileName key).data.length := by simp [fileName_data]
  refine ⟨fun h ↦ ?_, fun h ↦ ?_, fun h ↦ ?_, fun c hc ↦ ?_⟩
  · simp [h] at hlen
  · simp [h] at hlen
  · simp [h] at hlen
  · rw [fileName_data, List.mem_append, List.mem_map] at hc
    rcases hc with ⟨d, -, rfl⟩ | hc
    · have := sanitizeChar_not_mem d
      simp only [illegalChars, List.mem_cons, not_or] at this
      exact ⟨this.1, this.2.1, this.2.2.1⟩
    · simp only [List.mem_cons, List.mem_singleton, List.not_mem_nil, or_false] at hc
      rcases hc with rfl | rfl | rfl | rfl | rfl <;> decide

/-- **Confinement.** For every storage path and every key, the path the store computes is the
storage path extended by exactly one normal component, the key's file name: no key, whatever its
characters, makes the store touch a file outside its directory. -/
theorem sessionFile_confined (storagePath key : String) :
    IsNormalComponent (fileName key) ∧
      components (filePath storagePath key) = components storagePath ++ [fileName key] :=
  ⟨fileName_isNormalComponent key, components_join (fileName_isNormalComponent key)⟩

/-! ### `Path::file_stem` and `Path::extension` -/

/-- Split a file name at its last dot: what precedes it and what follows it. -/
def splitAtLastDot : List Char → Option (List Char × List Char)
  | [] => none
  | c :: cs =>
    match splitAtLastDot cs with
    | some (before, after) => some (c :: before, after)
    | none => if c = '.' then some ([], cs) else none

/-- `rsplit_file_at_dot` of `std::path`: `..` is all stem; otherwise the name is split at its
last dot, except that a name whose only dot is its first character is all stem. -/
def rsplitFileAtDot (file : String) : Option String × Option String :=
  if file = ".." then (some file, none)
  else
    match splitAtLastDot file.data with
    | none => (none, some file)
    | some (before, after) =>
      if before = [] then (some file, none) else (some ⟨before⟩, some ⟨after⟩)

/-- `Path::file_stem` of an entry: `before.or(after)`. -/
def fileStem (file : String) : Option String :=
  (rsplitFileAtDot file).1.or (rsplitFileAtDot file).2

/-- `Path::extension` of an entry: `before.and(after)`. -/
def extension (file : String) : Option String :=
  (rsplitFileAtDot file).1.bind fun _ ↦ (rsplitFileAtDot file).2

/-- What `list` reads off one directory entry: the file stem of an entry whose extension is
`json`, and nothing for any other entry. -/
def jsonStem (file : String) : Option String :=
  if extension file = some "json" then fileStem file else none

/-- A split at the last dot cuts the name into what precedes that dot and what follows it. -/
theorem splitAtLastDot_eq_some {l before after : List Char}
    (h : splitAtLastDot l = some (before, after)) : l = before ++ '.' :: after := by
  induction l generalizing before after with
  | nil => cases h
  | cons c cs ih =>
    unfold splitAtLastDot at h
    split at h
    · rename_i b a hs
      obtain ⟨rfl, rfl⟩ := Prod.mk.inj (Option.some.inj h).symm
      rw [ih hs, List.cons_append]
    · split at h
      · obtain ⟨rfl, rfl⟩ := Prod.mk.inj (Option.some.inj h).symm
        rw [‹c = '.'›, List.nil_append]
      · cases h

/-- Where `rsplit_file_at_dot` finds both a stem and an extension, the name is the two with the
dot between them, and the stem is not empty. -/
theorem eq_of_rsplitFileAtDot {file b a : String} (h : rsplitFileAtDot file = (some b, some a)) :
    file = b ++ "." ++ a ∧ b ≠ "" := by
  unfold rsplitFileAtDot at h
  split at h
  · cases h
  · split at h
    · cases h
    · rename_i before after hs
      split at h
      · cases h
      · rename_i hbefore
        simp only [Prod.mk.injEq, Option.some.injEq] at h
        obtain ⟨rfl, rfl⟩ := h
        exact ⟨String.ext (by simp [splitAtLastDot_eq_some hs]),
          fun hb ↦ hbefore (congrArg String.data hb)⟩

theorem splitAtLastDot_append_json (s : List Char) :
    splitAtLastDot (s ++ ['.', 'j', 's', 'o', 'n']) = some (s, ['j', 's', 'o', 'n']) := by
  induction s with
  | nil => rfl
  | cons c s ih => simp [splitAtLastDot, ih]

/-- **The stem `list` reads, in closed form**: an entry gives the key `k` exactly when it is named
`k.json` with `k` not empty. -/
theorem jsonStem_eq_some_iff {file k : String} :
    jsonStem file = some k ↔ file = k ++ ".json" ∧ k ≠ "" := by
  constructor
  · intro h
    unfold jsonStem at h
    split at h
    · rename_i hext
      rcases hr : rsplitFileAtDot file with ⟨_ | b, _ | a⟩ <;> simp [extension, hr] at hext
      simp only [fileStem, hr, Option.or_some, Option.some.injEq] at h
      obtain ⟨hfile, hb⟩ := eq_of_rsplitFileAtDot hr
      subst h hext
      exact ⟨hfile.trans (String.append_assoc _ _ _), hb⟩
    · cases h
  · rintro ⟨rfl, hk⟩
    have hsplit : splitAtLastDot (k ++ ".json").data = some (k.data, ['j', 's', 'o', 'n']) :=
      splitAtLastDot_append_json k.data
    have hdd : k ++ ".json" ≠ ".." := fun h ↦ by
      simpa using congrArg (·.data.length) h
    have hr : rsplitFileAtDot (k ++ ".json") = (some k, some "json") := by
      simp only [rsplitFileAtDot, hdd, hsplit, if_false]
      rw [if_neg fun h ↦ hk (String.ext h)]
    simp [jsonStem, extension, fileStem, hr]

/-- **The stem of a session file is the sanitized key**, unless the key sanitizes to the empty
string: then the file is `.json`, whose only dot is its first character, and it has no
extension. -/
theorem jsonStem_fileName (key : String) :
    jsonStem (fileName key) = if key = "" then none else some (sanitizeKey key) := by
  split
  · subst ‹key = ""›
    rfl
  · refine jsonStem_eq_some_iff.2 ⟨rfl, fun h ↦ ‹¬key = ""› (String.ext ?_)⟩
    simpa using congrArg String.data h

end ZeptoClaw
