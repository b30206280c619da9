import ZeptoClaw.Session.Interleaving

/-!
# One thread's step, against the serial store

Each call has a **linearization point**, the step at which it takes effect: for `save` and
`delete`, their first step, which updates the cache; for every other call, its last. Past it a
thread is `committed`; a committed `save` or `delete` may still owe its file the write or the
removal (`Thread.owes`), and `settled` is the reply it has, or will have once that is done.

`ThreadOK` is what a thread in flight relies on, stated against the concrete store `C` and a
serial store `A`: a cache miss it saw is still a miss in `A`, a file it saw exists is still there
in `C` with the session it read, and a committed `save` or `delete` has its file change already in
`A`. A step changes the store only at its own key and file (`Op.step_frame`), and so does the call
run atomically (`Op.exec_frame`); hence a step keeps the invariant of every thread on another file
(`ThreadOK.frame`).

`localStep` checks the stepping thread itself. From its invariant, the serial cache and, when it
owes nothing, the serial content of its file (`Ready`), its step either **commits** — and then it
agrees with the atomic call run on `A` — or **moves** without committing and leaves the cache alone
(`LocalStep`).
-/

namespace ZeptoClaw

/-! ### Linearization points -/

namespace Thread

/-- Past the linearization point. -/
def committed (t : Thread) : Bool :=
  match t.op, t.pc with
  | _, .done _ => true
  | .save _, .write => true
  | .delete _, .probe => true
  | .delete _, .unlink => true
  | _, _ => false

/-- The file a committed `save` has yet to write, or a committed `delete` has yet to remove. -/
def owes (t : Thread) : Option String :=
  match t.op, t.pc with
  | .save s, .write => some (fileName s.key)
  | .delete k, .probe => some (fileName k)
  | .delete k, .unlink => some (fileName k)
  | _, _ => none

/-- The reply a committed call has, or will have once its file change is made. -/
def settled (t : Thread) : Pc :=
  match t.pc with
  | .write | .probe | .unlink => .done .unit
  | pc => pc

theorem owes_eq_file {t : Thread} {n : String} (h : t.owes = some n) : t.file? = some n := by
  obtain ⟨op, pc⟩ := t
  cases op <;> cases pc <;> simp_all [owes, file?, Op.key?]

theorem owes_active {t : Thread} {n : String} (h : t.owes = some n) : t.pc.isActive := by
  obtain ⟨op, pc⟩ := t
  cases op <;> cases pc <;> simp_all [owes, Pc.isActive]

theorem committed_of_isDone {t : Thread} (h : t.pc.isDone) : t.committed := by
  obtain ⟨op, pc⟩ := t
  cases pc <;> simp_all [committed, Pc.isDone]

theorem owes_of_isDone {t : Thread} (h : t.pc.isDone) : t.owes = none := by
  obtain ⟨op, pc⟩ := t
  cases op <;> cases pc <;> simp_all [owes, Pc.isDone]

theorem settled_of_isDone {t : Thread} (h : t.pc.isDone) : t.settled = t.pc := by
  obtain ⟨op, pc⟩ := t
  cases pc <;> simp_all [settled, Pc.isDone]

end Thread

/-- What a thread in flight relies on, stated against the concrete store `C` and the serial store
`A`: a cache miss it saw is still a miss, a file it saw is still there (with the session it read),
and a committed `save` or `delete` has its file change already in `A`. -/
def ThreadOK (m : SessionManager) (C A : Store) (t : Thread) : Prop :=
  match t.op, t.pc with
  | .save s, .write => A.files.lookup (fileName s.key) = some s
  | .delete k, .probe => A.files.lookup (fileName k) = none
  | .delete k, .unlink =>
    A.files.lookup (fileName k) = none ∧ (C.files.lookup (fileName k)).isSome
  | .getOrCreate k, .probe | .get k, .probe | .exists k, .probe =>
    A.sessions.lookup k = none ∧ m.storagePath.isSome
  | .getOrCreate k, .read | .get k, .read =>
    A.sessions.lookup k = none ∧ (C.files.lookup (fileName k)).isSome ∧ m.storagePath.isSome
  | .getOrCreate k, .fill s | .get k, .fill s =>
    A.sessions.lookup k = none ∧ C.files.lookup (fileName k) = some s ∧ m.storagePath.isSome
  | .getOrCreate k, .create =>
    A.sessions.lookup k = none ∧ (m.storagePath.isSome → C.files.lookup (fileName k) = none)
  | _, _ => True

theorem threadOK_of_not_active {m : SessionManager} {C A : Store} {t : Thread}
    (h : t.pc.isActive = false) : ThreadOK m C A t := by
  obtain ⟨op, pc⟩ := t
  cases op <;> cases pc <;> simp_all [ThreadOK, Pc.isActive]

/-! ### Footprints -/

/-- `st'` differs from `st` only at `key`'s cache entry and file; with no key, only by dropping
cache entries. -/
def Frame (key? : Option String) (st st' : Store) : Prop :=
  (∀ k, key? ≠ some k → st'.sessions.lookup k = st.sessions.lookup k ∨
      st'.sessions.lookup k = none) ∧
    ∀ n, key?.map fileName ≠ some n → st'.files.lookup n = st.files.lookup n

namespace Frame

variable {key? : Option String} {st : Store}

theorem refl : Frame key? st st :=
  ⟨fun _ _ ↦ .inl rfl, fun _ _ ↦ rfl⟩

theorem of_key {key : String} {st' : Store}
    (hs : ∀ k, k ≠ key → st'.sessions.lookup k = st.sessions.lookup k)
    (hf : ∀ n, n ≠ fileName key → st'.files.lookup n = st.files.lookup n) :
    Frame (some key) st st' :=
  ⟨fun k hk ↦ .inl (hs k fun he ↦ hk (he ▸ rfl)),
    fun n hn ↦ hf n fun he ↦ hn (he ▸ rfl)⟩

theorem cache (key : String) (s : Session) : Frame (some key) st (st.cache key s) :=
  of_key (fun _ hk ↦ Finmap.lookup_insert_of_ne _ hk) fun _ _ ↦ rfl

theorem clearCache : Frame key? st (SessionManager.clearCache st) :=
  ⟨fun _ _ ↦ .inr rfl, fun _ _ ↦ rfl⟩

end Frame

namespace Op

variable (m : SessionManager)

/-- **A step touches only its own key and file.** -/
theorem step_frame (op : Op) (pc : Pc) (st : Store) : Frame op.key? st (op.step m pc st).2 := by
  cases op with
  | getOrCreate key =>
    cases pc <;> simp only [step, stepGetOrCreate, key?]
    all_goals first | exact Frame.refl | exact Frame.cache _ _ | (split <;> exact Frame.refl)
  | get key =>
    cases pc <;> simp only [step, stepGet, key?]
    all_goals first | exact Frame.refl | exact Frame.cache _ _ | (split <;> exact Frame.refl)
  | save s =>
    cases pc <;> simp only [step, stepSave, key?]
    all_goals first | exact Frame.refl | exact Frame.cache _ _ |
      exact Frame.of_key (fun _ _ ↦ rfl) fun _ hn ↦ Finmap.lookup_insert_of_ne _ hn
  | delete key =>
    cases pc <;> simp only [step, stepDelete, key?]
    all_goals first | exact Frame.refl |
      exact Frame.of_key (fun _ hk ↦ Finmap.lookup_erase_ne hk) fun _ _ ↦ rfl |
      (split <;> first | exact Frame.refl |
        exact Frame.of_key (fun _ _ ↦ rfl) fun _ hn ↦ Finmap.lookup_erase_ne hn)
  | «exists» key =>
    cases pc <;> simp only [step, stepExists, key?]
    all_goals first | exact Frame.refl | (split <;> exact Frame.refl)
  | clearCache =>
    cases pc <;> simp only [step, stepClearCache, key?]
    all_goals first | exact Frame.refl | exact Frame.clearCache

/-- **So does the atomic call.** -/
theorem exec_frame (op : Op) (st : Store) : Frame op.key? st (op.exec m st).2 := by
  cases op with
  | getOrCreate key =>
    rcases SessionManager.getOrCreate_cases m key st with
      ⟨_, -, he⟩ | ⟨-, _, -, he⟩ | ⟨-, -, he⟩ <;> simp only [exec, he]
    · exact Frame.refl
    · exact Frame.cache _ _
    · exact Frame.cache _ _
  | get key =>
    rcases SessionManager.get_cases m key st with
      ⟨_, -, he⟩ | ⟨-, _, -, he⟩ | ⟨-, -, he⟩ <;> simp only [exec, he]
    · exact Frame.refl
    · exact Frame.cache _ _
    · exact Frame.refl
  | save s =>
    refine Frame.of_key (fun k hk ↦ ?_) fun n hn ↦ ?_
    · simp [exec, SessionManager.save_sessions, Finmap.lookup_insert_of_ne _ hk]
    · simp only [exec, SessionManager.save_files]
      split <;> simp [Finmap.lookup_insert_of_ne _ hn]
  | delete key =>
    refine Frame.of_key (fun k hk ↦ ?_) fun n hn ↦ ?_
    · simp [exec, SessionManager.delete_sessions, Finmap.lookup_erase_ne hk]
    · simp only [exec, SessionManager.delete_files]
      split <;> simp [Finmap.lookup_erase_ne hn]
  | «exists» key => exact Frame.refl
  | clearCache => exact Frame.clearCache

end Op

/-- **Frame rule for threads**: a step on another file keeps a thread's invariant. -/
theorem ThreadOK.frame {m : SessionManager} {C A C' A' : Store} {t u : Thread}
    (h : ThreadOK m C A u) (hdisj : ∀ f ∈ u.file?, t.file? ≠ some f)
    (hC : Frame t.op.key? C C') (hA : Frame t.op.key? A A') : ThreadOK m C' A' u := by
  obtain ⟨op, pc⟩ := u
  rcases hk : op.key? with _ | k
  · cases op <;> simp only [Op.key?, reduceCtorEq] at hk
    cases pc <;> exact True.intro
  · have hne : t.file? ≠ some (fileName k) := hdisj _ (by simp [Thread.file?, hk])
    have hkey : t.op.key? ≠ some k := fun he ↦ hne (by simp [Thread.file?, he])
    have hsk : A.sessions.lookup k = none → A'.sessions.lookup k = none := fun h0 ↦ by
      rcases hA.1 k hkey with h1 | h1 <;> simp [h1, h0]
    have hfA := hA.2 (fileName k) hne
    have hfC := hC.2 (fileName k) hne
    cases op <;> simp only [Op.key?, Option.some.injEq, reduceCtorEq] at hk <;> subst hk <;>
      cases pc <;> first
        | exact True.intro
        | (dsimp only [ThreadOK] at h ⊢
           try rw [hfC]
           try rw [hfA]
           first | exact h | exact ⟨hsk h.1, h.2⟩)

/-! ### One thread's own step -/

/-- What a thread's step starts from: its invariant, the serial cache, and, when it owes no file
change, the serial content of its file. -/
structure Ready (m : SessionManager) (C A : Store) (t : Thread) : Prop where
  ok : ThreadOK m C A t
  sessions : C.sessions = A.sessions
  file : ∀ n, t.file? = some n → t.owes = none → C.files.lookup n = A.files.lookup n

/-- Thread `t`'s step to `t'` and `C'`, as the simulation needs it. Either it **commits**: the
serial store takes the call, and agrees with `C'` on the cache, on the reply, and on the call's
file unless a change is still owed; or it **moves** without committing, leaves the cache alone,
and keeps its reply. -/
def LocalStep (m : SessionManager) (C A : Store) (t t' : Thread) (C' : Store) : Prop :=
  (t.committed = false ∧ t'.committed = true ∧ C'.sessions = (t.op.exec m A).2.sessions ∧
    t'.settled = .done (t.op.exec m A).1 ∧ ThreadOK m C' (t.op.exec m A).2 t' ∧
    ∀ n, t.file? = some n → t'.owes ≠ some n →
      C'.files.lookup n = (t.op.exec m A).2.files.lookup n) ∨
  (t'.committed = t.committed ∧ C'.sessions = C.sessions ∧
    (t.committed → t'.settled = t.settled) ∧ ThreadOK m C' A t' ∧
    ∀ n, t.file? = some n → t'.owes ≠ some n → C'.files.lookup n = A.files.lookup n)

variable {m : SessionManager} {C A : Store}

/-- A step that changes nothing. -/
theorem localStep_stutter {t : Thread} (h : Ready m C A t) :
    LocalStep m C A t ⟨t.op, t.pc⟩ C := by
  refine .inr ⟨rfl, rfl, fun _ ↦ rfl, h.ok, fun n hn ho ↦ h.file n hn ?_⟩
  rcases hw : t.owes with _ | n'
  · rfl
  · have := (Thread.owes_eq_file hw).symm.trans hn
    simp_all

/-- The file clause for a call on `key`, from the agreement at `key`'s file. -/
theorem file_clause {t : Thread} {key : String} (ht : t.file? = some (fileName key))
    {P : String → Prop} (hP : P (fileName key)) : ∀ n, t.file? = some n → P n :=
  fun _ hn ↦ Option.some.inj (ht.symm.trans hn) ▸ hP

/-- **A read**: a step on `key` that neither commits nor changes the store. -/
theorem LocalStep.reads {op : Op} {key : String} {pc pc' : Pc} (hop : op.key? = some key)
    (hfile : C.files.lookup (fileName key) = A.files.lookup (fileName key))
    (hc : (⟨op, pc⟩ : Thread).committed = false) (hc' : (⟨op, pc'⟩ : Thread).committed = false)
    (hok : ThreadOK m C A ⟨op, pc'⟩) : LocalStep m C A ⟨op, pc⟩ ⟨op, pc'⟩ C :=
  .inr ⟨hc'.trans hc.symm, rfl, fun h ↦ absurd (hc.symm.trans h) Bool.false_ne_true, hok,
    file_clause (by simp [Thread.file?, hop]) fun _ ↦ hfile⟩

/-- **A commit that returns**: a step on `key` that returns what the atomic call returns on the
serial store, and leaves the cache and `key`'s file as that call does. -/
theorem LocalStep.commits {op : Op} {key : String} {pc : Pc} {r : Reply} {C' A' : Store}
    (hop : op.key? = some key) (hc : (⟨op, pc⟩ : Thread).committed = false)
    (hexec : op.exec m A = (r, A')) (hsess : C'.sessions = A'.sessions)
    (hfile : C'.files.lookup (fileName key) = A'.files.lookup (fileName key)) :
    LocalStep m C A ⟨op, pc⟩ ⟨op, .done r⟩ C' := by
  have hexec' : (⟨op, pc⟩ : Thread).op.exec m A = (r, A') := hexec
  rw [LocalStep, hexec']
  exact .inl ⟨hc, Thread.committed_of_isDone rfl, hsess, rfl, threadOK_of_not_active rfl,
    file_clause (by simp [Thread.file?, hop]) fun _ ↦ hfile⟩

theorem localStep_getOrCreate {key : String} {pc : Pc} (h : Ready m C A ⟨.getOrCreate key, pc⟩) :
    LocalStep m C A ⟨.getOrCreate key, pc⟩ ⟨.getOrCreate key, ((Op.getOrCreate key).step m pc C).1⟩
      ((Op.getOrCreate key).step m pc C).2 := by
  have hfile : C.files.lookup (fileName key) = A.files.lookup (fileName key) := h.file _ rfl rfl
  have hsess := h.sessions
  have hok := h.ok
  cases pc with
  | start =>
    rcases hc : C.sessions.lookup key with _ | s
    · have hA : A.sessions.lookup key = none := hsess ▸ hc
      rcases hp : m.storagePath with _ | p
      · have hstep : (Op.getOrCreate key).step m .start C = (.create, C) := by
          simp [Op.step, Op.stepGetOrCreate, hc, hp]
        rw [hstep]
        exact .reads rfl hfile rfl rfl ⟨hA, by simp [hp]⟩
      · have hstep : (Op.getOrCreate key).step m .start C = (.probe, C) := by
          simp [Op.step, Op.stepGetOrCreate, hc, hp]
        rw [hstep]
        exact .reads rfl hfile rfl rfl ⟨hA, by simp [hp]⟩
    · have hstep : (Op.getOrCreate key).step m .start C = (.done (.session s), C) := by
        simp [Op.step, Op.stepGetOrCreate, hc]
      rw [hstep]
      exact .commits rfl rfl (by simp [Op.exec, SessionManager.getOrCreate, ← hsess, hc])
        hsess hfile
  | probe =>
    obtain ⟨hA, hp⟩ : A.sessions.lookup key = none ∧ m.storagePath.isSome := hok
    by_cases hf : fileName key ∈ C.files
    · have hstep : (Op.getOrCreate key).step m .probe C = (.read, C) := by
        simp [Op.step, Op.stepGetOrCreate, hf]
      rw [hstep]
      exact .reads rfl hfile rfl rfl ⟨hA, Finmap.lookup_isSome.2 hf, hp⟩
    · have hstep : (Op.getOrCreate key).step m .probe C = (.create, C) := by
        simp [Op.step, Op.stepGetOrCreate, hf]
      rw [hstep]
      exact .reads rfl hfile rfl rfl ⟨hA, fun _ ↦ Finmap.lookup_eq_none.2 hf⟩
  | read =>
    obtain ⟨hA, hC, hp⟩ : A.sessions.lookup key = none ∧
        (C.files.lookup (fileName key)).isSome ∧ m.storagePath.isSome := hok
    obtain ⟨s, hs⟩ := Option.isSome_iff_exists.1 hC
    have hstep : (Op.getOrCreate key).step m .read C = (.fill s, C) := by
      simp [Op.step, Op.stepGetOrCreate, Op.readStep, hs]
    rw [hstep]
    exact .reads rfl hfile rfl rfl ⟨hA, hs, hp⟩
  | fill s =>
    obtain ⟨hA, hs, hp⟩ : A.sessions.lookup key = none ∧
        C.files.lookup (fileName key) = some s ∧ m.storagePath.isSome := hok
    obtain ⟨p, hp⟩ := Option.isSome_iff_exists.1 hp
    have hexec : (Op.getOrCreate key).exec m A = (.session s, A.cache key s) := by
      simp [Op.exec, SessionManager.getOrCreate, SessionManager.loadFile_of_storagePath hp, hA,
        ← hfile, hs]
    exact .commits rfl rfl hexec (by simp [Op.step, Op.stepGetOrCreate, hsess]) hfile
  | create =>
    obtain ⟨hA, hC⟩ : A.sessions.lookup key = none ∧
        (m.storagePath.isSome → C.files.lookup (fileName key) = none) := hok
    have hl : m.loadFile key A = none := by
      rcases hp : m.storagePath with _ | p
      · simp [hp]
      · simp [SessionManager.loadFile_of_storagePath hp, ← hfile, hC (by simp [hp])]
    have hexec : (Op.getOrCreate key).exec m A =
        (.session (Session.new key), A.cache key (Session.new key)) := by
      simp [Op.exec, SessionManager.getOrCreate, hA, hl]
    exact .commits rfl rfl hexec (by simp [Op.step, Op.stepGetOrCreate, hsess]) hfile
  | write | unlink | done r => exact localStep_stutter h

theorem localStep_get {key : String} {pc : Pc} (h : Ready m C A ⟨.get key, pc⟩) :
    LocalStep m C A ⟨.get key, pc⟩ ⟨.get key, ((Op.get key).step m pc C).1⟩
      ((Op.get key).step m pc C).2 := by
  have hfile : C.files.lookup (fileName key) = A.files.lookup (fileName key) := h.file _ rfl rfl
  have hsess := h.sessions
  have hok := h.ok
  cases pc with
  | start =>
    rcases hc : C.sessions.lookup key with _ | s
    · have hA : A.sessions.lookup key = none := hsess ▸ hc
      rcases hp : m.storagePath with _ | p
      · have hstep : (Op.get key).step m .start C = (.done (.lookup none), C) := by
          simp [Op.step, Op.stepGet, hc, hp]
        rw [hstep]
        exact .commits rfl rfl (by simp [Op.exec, SessionManager.get, hA, hp]) hsess hfile
      · have hstep : (Op.get key).step m .start C = (.probe, C) := by
          simp [Op.step, Op.stepGet, hc, hp]
        rw [hstep]
        exact .reads rfl hfile rfl rfl ⟨hA, by simp [hp]⟩
    · have hstep : (Op.get key).step m .start C = (.done (.lookup (some s)), C) := by
        simp [Op.step, Op.stepGet, hc]
      rw [hstep]
      exact .commits rfl rfl (by simp [Op.exec, SessionManager.get, ← hsess, hc]) hsess hfile
  | probe =>
    obtain ⟨hA, hp⟩ : A.sessions.lookup key = none ∧ m.storagePath.isSome := hok
    by_cases hf : fileName key ∈ C.files
    · have hstep : (Op.get key).step m .probe C = (.read, C) := by
        simp [Op.step, Op.stepGet, hf]
      rw [hstep]
      exact .reads rfl hfile rfl rfl ⟨hA, Finmap.lookup_isSome.2 hf, hp⟩
    · have hstep : (Op.get key).step m .probe C = (.done (.lookup none), C) := by
        simp [Op.step, Op.stepGet, hf]
      obtain ⟨p, hp⟩ := Option.isSome_iff_exists.1 hp
      rw [hstep]
      exact .commits rfl rfl (by simp [Op.exec, SessionManager.get,
        SessionManager.loadFile_of_storagePath hp, hA, ← hfile, Finmap.lookup_eq_none.2 hf])
        hsess hfile
  | read =>
    obtain ⟨hA, hC, hp⟩ : A.sessions.lookup key = none ∧
        (C.files.lookup (fileName key)).isSome ∧ m.storagePath.isSome := hok
    obtain ⟨s, hs⟩ := Option.isSome_iff_exists.1 hC
    have hstep : (Op.get key).step m .read C = (.fill s, C) := by
      simp [Op.step, Op.stepGet, Op.readStep, hs]
    rw [hstep]
    exact .reads rfl hfile rfl rfl ⟨hA, hs, hp⟩
  | fill s =>
    obtain ⟨hA, hs, hp⟩ : A.sessions.lookup key = none ∧
        C.files.lookup (fileName key) = some s ∧ m.storagePath.isSome := hok
    obtain ⟨p, hp⟩ := Option.isSome_iff_exists.1 hp
    have hexec : (Op.get key).exec m A = (.lookup (some s), A.cache key s) := by
      simp [Op.exec, SessionManager.get, SessionManager.loadFile_of_storagePath hp, hA,
        ← hfile, hs]
    exact .commits rfl rfl hexec (by simp [Op.step, Op.stepGet, hsess]) hfile
  | create | write | unlink | done r => exact localStep_stutter h

theorem localStep_save {s : Session} {pc : Pc} (h : Ready m C A ⟨.save s, pc⟩) :
    LocalStep m C A ⟨.save s, pc⟩ ⟨.save s, ((Op.save s).step m pc C).1⟩
      ((Op.save s).step m pc C).2 := by
  have hsess := h.sessions
  cases pc with
  | start =>
    have hfile : C.files.lookup (fileName s.key) = A.files.lookup (fileName s.key) :=
      h.file _ rfl rfl
    have hcache : ((Op.save s).step m .start C).2.sessions = (m.save s A).sessions := by
      simp [Op.step, Op.stepSave, SessionManager.save_sessions, hsess]
    rw [LocalStep]
    rcases hp : m.storagePath with _ | p
    · have hstep : (Op.save s).step m .start C = (.done .unit, C.cache s.key s) := by
        simp [Op.step, Op.stepSave, hp]
      refine .inl ⟨rfl, ?_, hcache, ?_, ?_, file_clause (by rfl) fun _ ↦ ?_⟩ <;>
        simp [hstep, Op.exec, SessionManager.save_files, hp, hfile, ThreadOK, Thread.committed,
          Thread.settled]
    · have hstep : (Op.save s).step m .start C = (.write, C.cache s.key s) := by
        simp [Op.step, Op.stepSave, hp]
      refine .inl ⟨rfl, ?_, hcache, ?_, ?_, file_clause (by rfl) fun h ↦ absurd ?_ h⟩ <;>
        simp [hstep, Op.exec, SessionManager.save_files, hp, ThreadOK, Thread.committed,
          Thread.settled, Thread.owes]
  | write =>
    have hA : A.files.lookup (fileName s.key) = some s := h.ok
    exact .inr ⟨rfl, rfl, fun _ ↦ rfl, trivial, file_clause (by rfl) fun _ ↦ by
      simp [Op.step, Op.stepSave, hA]⟩
  | probe | read | fill _ | create | unlink | done r => exact localStep_stutter h

theorem localStep_delete {key : String} {pc : Pc} (h : Ready m C A ⟨.delete key, pc⟩) :
    LocalStep m C A ⟨.delete key, pc⟩ ⟨.delete key, ((Op.delete key).step m pc C).1⟩
      ((Op.delete key).step m pc C).2 := by
  have hsess := h.sessions
  cases pc with
  | start =>
    have hfile : C.files.lookup (fileName key) = A.files.lookup (fileName key) :=
      h.file _ rfl rfl
    have hcache : ((Op.delete key).step m .start C).2.sessions = (m.delete key A).sessions := by
      simp [Op.step, Op.stepDelete, SessionManager.delete_sessions, hsess]
    rw [LocalStep]
    rcases hp : m.storagePath with _ | p
    · have hstep : (Op.delete key).step m .start C =
          (.done .unit, { C with sessions := C.sessions.erase key }) := by
        simp [Op.step, Op.stepDelete, hp]
      refine .inl ⟨rfl, ?_, hcache, ?_, ?_, file_clause (by rfl) fun _ ↦ ?_⟩ <;>
        simp [hstep, Op.exec, SessionManager.delete_files, hp, hfile, ThreadOK,
          Thread.committed, Thread.settled]
    · have hstep : (Op.delete key).step m .start C =
          (.probe, { C with sessions := C.sessions.erase key }) := by
        simp [Op.step, Op.stepDelete, hp]
      refine .inl ⟨rfl, ?_, hcache, ?_, ?_, file_clause (by rfl) fun h ↦ absurd ?_ h⟩ <;>
        simp [hstep, Op.exec, SessionManager.delete_files, hp, ThreadOK, Thread.committed,
          Thread.settled, Thread.owes]
  | probe =>
    have hA : A.files.lookup (fileName key) = none := h.ok
    by_cases hf : fileName key ∈ C.files
    · have hstep : (Op.delete key).step m .probe C = (.unlink, C) := by
        simp [Op.step, Op.stepDelete, hf]
      rw [hstep]
      exact .inr ⟨rfl, rfl, fun _ ↦ rfl, ⟨hA, Finmap.lookup_isSome.2 hf⟩,
        file_clause (by rfl) fun h ↦ absurd rfl h⟩
    · have hstep : (Op.delete key).step m .probe C = (.done .unit, C) := by
        simp [Op.step, Op.stepDelete, hf]
      rw [hstep]
      exact .inr ⟨rfl, rfl, fun _ ↦ rfl, trivial,
        file_clause (by rfl) fun _ ↦ hA ▸ Finmap.lookup_eq_none.2 hf⟩
  | unlink =>
    obtain ⟨hA, hC⟩ : A.files.lookup (fileName key) = none ∧
        (C.files.lookup (fileName key)).isSome := h.ok
    have hstep : (Op.delete key).step m .unlink C =
        (.done .unit, { C with files := C.files.erase (fileName key) }) := by
      simp [Op.step, Op.stepDelete, Finmap.lookup_isSome.1 hC]
    rw [hstep]
    exact .inr ⟨rfl, rfl, fun _ ↦ rfl, trivial, file_clause (by rfl) fun _ ↦ by simp [hA]⟩
  | read | fill _ | create | write | done r => exact localStep_stutter h

theorem localStep_exists {key : String} {pc : Pc} (h : Ready m C A ⟨.exists key, pc⟩) :
    LocalStep m C A ⟨.exists key, pc⟩ ⟨.exists key, ((Op.exists key).step m pc C).1⟩
      ((Op.exists key).step m pc C).2 := by
  have hfile : C.files.lookup (fileName key) = A.files.lookup (fileName key) := h.file _ rfl rfl
  have hsess := h.sessions
  cases pc with
  | start =>
    by_cases hc : key ∈ C.sessions
    · have hstep : (Op.exists key).step m .start C = (.done (.flag true), C) := by
        simp [Op.step, Op.stepExists, hc]
      rw [hstep]
      exact .commits rfl rfl (by simp [Op.exec, SessionManager.exists, ← hsess, hc]) hsess hfile
    · have hA : A.sessions.lookup key = none := hsess ▸ Finmap.lookup_eq_none.2 hc
      rcases hp : m.storagePath with _ | p
      · have hstep : (Op.exists key).step m .start C = (.done (.flag false), C) := by
          simp [Op.step, Op.stepExists, hc, hp]
        rw [hstep]
        exact .commits rfl rfl (by simp [Op.exec, SessionManager.exists, ← hsess, hc, hp])
          hsess hfile
      · have hstep : (Op.exists key).step m .start C = (.probe, C) := by
          simp [Op.step, Op.stepExists, hc, hp]
        rw [hstep]
        exact .reads rfl hfile rfl rfl ⟨hA, by simp [hp]⟩
  | probe =>
    obtain ⟨hA, hp⟩ : A.sessions.lookup key = none ∧ m.storagePath.isSome := h.ok
    have hmem : fileName key ∈ C.files ↔ fileName key ∈ A.files := by
      rw [← Finmap.lookup_isSome, ← Finmap.lookup_isSome, hfile]
    exact .commits rfl rfl (by simp [Op.exec, SessionManager.exists, Finmap.mem_iff, hA, hp,
      hmem]) hsess hfile
  | read | fill _ | create | write | unlink | done r => exact localStep_stutter h

theorem localStep_clearCache {pc : Pc} (h : Ready m C A ⟨.clearCache, pc⟩) :
    LocalStep m C A ⟨.clearCache, pc⟩ ⟨.clearCache, (Op.clearCache.step m pc C).1⟩
      (Op.clearCache.step m pc C).2 := by
  cases pc with
  | start => exact .inl ⟨rfl, rfl, rfl, rfl, trivial, fun _ hn ↦ absurd hn (by simp [Thread.file?, Op.key?])⟩
  | probe | read | fill _ | create | write | unlink | done r => exact localStep_stutter h

/-- **One step of one thread**, whatever its call and wherever it stands. -/
theorem localStep {t : Thread} (h : Ready m C A t) :
    LocalStep m C A t ⟨t.op, (t.op.step m t.pc C).1⟩ (t.op.step m t.pc C).2 := by
  obtain ⟨op, pc⟩ := t
  cases op with
  | getOrCreate key => exact localStep_getOrCreate h
  | get key => exact localStep_get h
  | save s => exact localStep_save h
  | delete key => exact localStep_delete h
  | «exists» key => exact localStep_exists h
  | clearCache => exact localStep_clearCache h

end ZeptoClaw
