import DosKernel.Fs.Descriptors

/-! Relative paths. A process has a working directory, which `chdir` and `fchdir` set and
which is handed to `vfs_stat` with every path. `vfs_stat` does not look at it: a relative
path is walked from the root. -/

namespace DosKernel.Vfs

structure Proc where
  cwdMount : Option Mount
  cwd : Stat
  fd : ℕ → Descriptor

/-! ### The code -/

/-- `vfs_stat` with the working directory among its arguments. -/
def vfsStatFrom (env : Env) (path : List Char) (_cwdMount : Option Mount) (_cwd : Stat) :
    Except ℤ (Option Mount × Stat) :=
  vfsStat env.root env.mounts env.allocated (some path)

def processStatFile (env : Env) (p : Proc) (path : List Char) : Except ℤ Stat :=
  (vfsStatFrom env path p.cwdMount p.cwd).map Prod.snd

/-- `syscall_chdir`: the stat goes into the working directory, its mount is not set. -/
def syscallChdir (env : Env) (p : Proc) (path : List Char) : ℤ × Proc :=
  match processStatFile env p path with
  | .error e => (e, p)
  | .ok st => (0, { p with cwd := st })

def syscallFchdir (p : Proc) (fd : ℤ) : ℤ × Proc :=
  if fd < 0 ∨ fd ≥ 256 ∨ (p.fd fd.toNat).used = false then (-1, p)
  else (0, { p with cwd := (p.fd fd.toNat).st })

/-! ### Directories and paths -/

def IsComponent (c : List Char) : Prop := c ≠ [] ∧ '/' ∉ c

def relPath (cs : List (List Char)) : List Char := ['/'].intercalate cs

/-- The absolute path of some components; `/` if there are none. -/
def absPath (cs : List (List Char)) : List Char := '/' :: relPath cs

def rootWalk (root : Mount) : Walk := ⟨root, root.rootdir, root.rootdir⟩

/-- The components lead from one place in the trees to another, by an entry each. -/
inductive Walks (mounts : List Mount) : Walk → List (List Char) → Walk → Prop
  | done (s : Walk) : Walks mounts s [] s
  | entry {s s' : Walk} {c : List Char} {cs : List (List Char)} {st : Stat}
      (hentry : findEntry s.mount.fs s.dir c (s.mount.fs.size s.dir + 1) 0 = .ok st)
      (hrest : Walks mounts (s.found mounts st) cs s') : Walks mounts s (c :: cs) s'

/-- The components lead to an object. -/
def Leads (mounts : List Mount) (s : Walk) (cs : List (List Char)) (m : Mount) (st : Stat) : Prop :=
  ∃ s', Walks mounts s cs s' ∧ s'.mount = m ∧ s'.st = st

/-- The process has changed its working directory to `d`, from `p` to `p'`: by a path that
names it, or by a descriptor that is open on it. An open of `/` stores no mount. -/
inductive Moved (env : Env) (root : Mount) (d : Walk) (p p' : Proc) : Prop
  | chdir (path : List Char) {r : Option Mount × Stat}
      (hpath : vfsStat env.root env.mounts env.allocated (some path) = .ok r)
      (hmount : r.1.getD root = d.mount) (hst : r.2 = d.st)
      (hcall : syscallChdir env p path = (0, p'))
  | fchdir {i : ℕ} (hmount : (p.fd i).mount = some d.mount ∨ d = rootWalk root)
      (hst : (p.fd i).st = d.st) (hcall : syscallFchdir p i = (0, p'))

/-- What an open stores of the object it has resolved the path to. -/
def Descriptor.object (d : Descriptor) : ℕ × Option Mount × Stat × ℕ × Bool :=
  (d.type, d.mount, d.st, d.tty, d.fb)

/-- Both paths have the same stat, or both have none. -/
def SameStat (env : Env) (p : Proc) (path path' : List Char) : Prop :=
  (processStatFile env p path).toOption = (processStatFile env p path').toOption

/-- Both paths can be opened or neither can, and the descriptor is open on the same object. -/
def SameOpen (env : Env) (p : Proc) (path path' : List Char) (flags : ℕ) : Prop :=
  ∀ i : ℕ,
    ((processOpenFile env p.fd path flags).1 = i ↔ (processOpenFile env p.fd path' flags).1 = i) ∧
    ((processOpenFile env p.fd path flags).1 = i →
      ((processOpenFile env p.fd path flags).2 i).object =
        ((processOpenFile env p.fd path' flags).2 i).object)

/-- An open goes to a terminal or to the framebuffer. -/
def IsDevicePath (path : List Char) : Prop := isTtyPath path = true ∨ isFbPath path = true

/-- The number of the terminal or of the framebuffer is too large. -/
def MissingDevice (path : List Char) : Prop :=
  if isTtyPath path then ttysCount < atoi (path.drop 8) else 0 < atoi (path.drop 7)

/-- The components lead from the root to what they lead to from the directory. Where the
absolute path is one of a device, the device is missing, and they lead to nothing. -/
def FoundFromRoot (env : Env) (root : Mount) (d : Walk) (ds rs : List (List Char)) : Prop :=
  (env.allocated = true → ∀ m st,
    (Leads env.mounts (rootWalk root) rs m st ↔ Leads env.mounts d rs m st)) ∧
  (IsDevicePath (absPath (ds ++ rs)) → MissingDevice (absPath (ds ++ rs)) ∧
    (env.allocated = true → ∀ m st, ¬ Leads env.mounts d rs m st))

/-! ### The components of a path -/

section Paths
variable {cs : List (List Char)}

theorem splitOn_relPath (h : ∀ c ∈ cs, IsComponent c) (hne : cs ≠ []) :
    ((relPath cs).splitOn '/').takeWhile (· ≠ []) = cs := by
  rw [relPath, List.splitOn_intercalate '/' (fun c hc => (h c hc).2) hne,
    List.takeWhile_eq_self_iff]
  intro c hc
  simpa using (h c hc).1

/-- A relative path starts with the first character of its first component. -/
theorem relPath_head (h : ∀ c ∈ cs, IsComponent c) (hne : cs ≠ []) :
    ∃ a rest, relPath cs = a :: rest ∧ a ≠ '/' := by
  obtain ⟨c, cs, rfl⟩ := List.exists_cons_of_ne_nil hne
  obtain ⟨hc, hslash⟩ := h c List.mem_cons_self
  obtain ⟨a, as, rfl⟩ := List.exists_cons_of_ne_nil hc
  have ha : a ≠ '/' := fun ha => hslash (by simp [ha])
  cases cs with
  | nil => exact ⟨a, as, by simp [relPath], ha⟩
  | cons c' cs => exact ⟨a, _, rfl, ha⟩

theorem tokens_relPath (h : ∀ c ∈ cs, IsComponent c) (hne : cs ≠ []) : tokens (relPath cs) = cs := by
  obtain ⟨a, rest, hhead, ha⟩ := relPath_head h hne
  have hstripped : stripped (relPath cs) = relPath cs := by
    rw [stripped, hhead, if_neg (by simpa using ha)]
  rw [tokens, hstripped, splitOn_relPath h hne]

theorem tokens_absPath (h : ∀ c ∈ cs, IsComponent c) (hne : cs ≠ []) : tokens (absPath cs) = cs := by
  have hstripped : stripped (absPath cs) = relPath cs := rfl
  rw [tokens, hstripped, splitOn_relPath h hne]

theorem not_isDevicePath_relPath (h : ∀ c ∈ cs, IsComponent c) (hne : cs ≠ []) :
    ¬ IsDevicePath (relPath cs) := by
  obtain ⟨a, rest, hhead, ha⟩ := relPath_head h hne
  rw [IsDevicePath, hhead, isTtyPath, isFbPath]
  simp [ha]

end Paths

/-! ### Walks -/

section Walks
variable {mounts : List Mount} {s s' : Walk} {cs : List (List Char)}

/-- The loop of `vfs_stat` follows the entries. -/
theorem walkTokens_ok_iff (hne : ∀ c ∈ cs, c ≠ []) :
    walkTokens mounts s cs = .ok s' ↔ Walks mounts s cs s' := by
  induction cs generalizing s with
  | nil =>
    constructor
    · intro h
      cases h
      exact .done _
    · intro h
      cases h
      rfl
  | cons c cs ih =>
    have hrest : ∀ c ∈ cs, c ≠ [] := fun c' hc' => hne c' (List.mem_cons_of_mem c hc')
    rw [walkTokens, if_neg (hne c List.mem_cons_self), Walk.visit]
    constructor
    · intro h
      rcases hentry : findEntry s.mount.fs s.dir c (s.mount.fs.size s.dir + 1) 0 with e | st
      · rw [hentry] at h
        cases h
      · rw [hentry] at h
        exact .entry hentry ((ih hrest).mp h)
    · intro h
      cases h with
      | entry hentry hwalks =>
        rw [hentry]
        exact (ih hrest).mpr hwalks

theorem walkTokens_append {ds : List (List Char)} (hne : ∀ c ∈ ds, c ≠ [])
    (h : walkTokens mounts s ds = .ok s') (rs : List (List Char)) :
    walkTokens mounts s (ds ++ rs) = walkTokens mounts s' rs := by
  induction ds generalizing s with
  | nil =>
    cases h
    rfl
  | cons c ds ih =>
    have hc := hne c List.mem_cons_self
    rw [List.cons_append, walkTokens, if_neg hc]
    rw [walkTokens, if_neg hc] at h
    rcases hv : s.visit mounts c with e | s₁
    · rw [hv] at h
      cases h
    · rw [hv] at h
      exact ih (fun c' hc' => hne c' (List.mem_cons_of_mem c hc')) h

/-- The object that the components lead to, if there is memory to look for it. -/
def arrival (env : Env) (s : Walk) (cs : List (List Char)) : Option (Option Mount × Stat) :=
  if env.allocated = true then
    ((walkTokens env.mounts s cs).map fun s => (some s.mount, s.st)).toOption
  else none

theorem arrival_eq_some_iff (env : Env) (s : Walk) (hne : ∀ c ∈ cs, c ≠ [])
    (r : Option Mount × Stat) :
    arrival env s cs = some r ↔
      env.allocated = true ∧ ∃ m, r.1 = some m ∧ Leads env.mounts s cs m r.2 := by
  rw [arrival]
  constructor
  · intro h
    split_ifs at h with hallocated
    rcases hw : walkTokens env.mounts s cs with e | s'
    · rw [hw] at h
      cases h
    · rw [hw] at h
      cases h
      exact ⟨hallocated, s'.mount, rfl, s', (walkTokens_ok_iff hne).mp hw, rfl, rfl⟩
  · rintro ⟨hallocated, m, hm, s', hwalks, rfl, hst⟩
    rw [if_pos hallocated, (walkTokens_ok_iff hne).mpr hwalks]
    exact congrArg some (Prod.ext hm.symm hst)

theorem arrival_eq_iff {env : Env} (hne : ∀ c ∈ cs, c ≠ []) :
    arrival env s cs = arrival env s' cs ↔ (env.allocated = true → ∀ m st,
      (Leads env.mounts s cs m st ↔ Leads env.mounts s' cs m st)) := by
  constructor
  · intro h hallocated m st
    have hs := arrival_eq_some_iff env s hne (some m, st)
    have hs' := arrival_eq_some_iff env s' hne (some m, st)
    rw [h] at hs
    simpa [hallocated] using hs.symm.trans hs'
  · intro h
    ext r
    rw [arrival_eq_some_iff env s hne, arrival_eq_some_iff env s' hne]
    constructor
    · rintro ⟨hallocated, m, hm, hleads⟩
      exact ⟨hallocated, m, hm, (h hallocated m r.2).mp hleads⟩
    · rintro ⟨hallocated, m, hm, hleads⟩
      exact ⟨hallocated, m, hm, (h hallocated m r.2).mpr hleads⟩

theorem arrival_eq_none_iff {env : Env} (hne : ∀ c ∈ cs, c ≠ []) :
    arrival env s cs = none ↔ (env.allocated = true → ∀ m st, ¬ Leads env.mounts s cs m st) := by
  rw [Option.eq_none_iff_forall_ne_some]
  constructor
  · intro h hallocated m st hleads
    exact h (some m, st) ((arrival_eq_some_iff env s hne _).mpr ⟨hallocated, m, rfl, hleads⟩)
  · intro h r hr
    obtain ⟨hallocated, m, -, hleads⟩ := (arrival_eq_some_iff env s hne r).mp hr
    exact h hallocated m r.2 hleads

end Walks

/-- The mount and the stat that `vfs_stat` stores for a path. -/
def resolved (env : Env) (path : List Char) : Option (Option Mount × Stat) :=
  (vfsStat env.root env.mounts env.allocated (some path)).toOption

theorem resolved_eq_some_iff {env : Env} {path : List Char} {r : Option Mount × Stat} :
    resolved env path = some r ↔ vfsStat env.root env.mounts env.allocated (some path) = .ok r := by
  rw [resolved]
  cases vfsStat env.root env.mounts env.allocated (some path) with
  | error e => simp [Except.toOption]
  | ok r' => simp [Except.toOption]

theorem resolved_eq {env : Env} {root : Mount} (hroot : env.root = some root) {path : List Char}
    (hpath : path ≠ []) (hslash : path ≠ ['/']) :
    resolved env path = arrival env (rootWalk root) (tokens path) := by
  rw [resolved, arrival, hroot]
  cases hallocated : env.allocated with
  | false =>
    rw [vfsStat, if_neg hpath, if_neg hslash]
    rfl
  | true =>
    rw [vfsStat_tokens root env.mounts hpath hslash]
    rfl

theorem sameStat_iff (env : Env) (p : Proc) (path path' : List Char) :
    SameStat env p path path' ↔
      (resolved env path).map Prod.snd = (resolved env path').map Prod.snd := by
  have hmap : ∀ path, (processStatFile env p path).toOption = (resolved env path).map Prod.snd := by
    intro path
    rw [processStatFile, vfsStatFrom, resolved]
    cases vfsStat env.root env.mounts env.allocated (some path) <;> rfl
  rw [SameStat, hmap, hmap]

/-! ### What is opened -/

/-- Both opens fill the slot with the same object, or both fail. -/
def SameSlot (r r' : ℤ × Descriptor) : Prop :=
  (r.1 = 0 ↔ r'.1 = 0) ∧ (r.1 = 0 → r.2.object = r'.2.object)

section Open
variable {env : Env} {path path' : List Char} {flags : ℕ}

theorem openSlot_object (hdevice : ¬ IsDevicePath path) (d : Descriptor) :
    openSlot env d path flags = openObject env (d.prepare path flags) path flags := by
  rw [IsDevicePath, not_or] at hdevice
  rw [openSlot_eq, if_neg hdevice.1, if_neg hdevice.2]

theorem openSlot_device (hdevice : IsDevicePath path) (env : Env) (d : Descriptor) (flags : ℕ) :
    ((openSlot env d path flags).1 = 0 ↔ ¬ MissingDevice path) ∧
      (openSlot env d path flags).2.mount = d.mount := by
  have herror : -enoent ≠ 0 := by decide
  have hcount : (0 : ℤ) < ttysCount := by decide
  rw [openSlot_eq, MissingDevice]
  split_ifs with htty hfb
  · rw [openTty]
    split_ifs with hnum
    · exact ⟨⟨fun h => absurd h herror, fun h => absurd hnum.2 h⟩, rfl⟩
    · exact ⟨⟨fun _ h => hnum ⟨by omega, h⟩, fun _ => rfl⟩, rfl⟩
  · rw [openFb]
    split_ifs with hnum
    · exact ⟨⟨fun h => absurd h herror, fun h => absurd hnum h⟩, rfl⟩
    · exact ⟨⟨fun _ => hnum, fun _ => rfl⟩, rfl⟩
  · exact absurd hdevice (not_or.mpr ⟨htty, hfb⟩)

theorem openSlot_unresolved (hdevice : ¬ IsDevicePath path) (h : resolved env path = none)
    (d : Descriptor) (flags : ℕ) : (openSlot env d path flags).1 ≠ 0 := by
  rw [openSlot_object hdevice, openObject]
  rcases hstat : vfsStat env.root env.mounts env.allocated (some path) with e | r
  · exact Int.ne_of_lt (vfsStat_neg hstat)
  · rw [resolved, hstat] at h
    cases h

/-- Two paths of one object are opened alike. -/
theorem openSlot_same (hdevice : ¬ IsDevicePath path) (hdevice' : ¬ IsDevicePath path')
    (h : resolved env path = resolved env path') (d : Descriptor) :
    SameSlot (openSlot env d path flags) (openSlot env d path' flags) := by
  cases hresolved : resolved env path with
  | none =>
    have hfail := openSlot_unresolved hdevice hresolved d flags
    have hfail' := openSlot_unresolved hdevice' (h ▸ hresolved) d flags
    exact ⟨iff_of_false hfail hfail', fun hzero => absurd hzero hfail⟩
  | some r =>
    rw [openSlot_object hdevice, openSlot_object hdevice', openObject, openObject,
      resolved_eq_some_iff.mp hresolved, resolved_eq_some_iff.mp (h ▸ hresolved)]
    dsimp only
    split_ifs
    · exact ⟨Iff.rfl, fun _ => rfl⟩
    · exact ⟨Iff.rfl, fun _ => rfl⟩

/-- A slot that was never used shows the object it was opened on. -/
theorem openSlot_zero {r : Option Mount × Stat} (hdevice : ¬ IsDevicePath path)
    (h : resolved env path = some r) :
    (openSlot env .zero path 0).1 = 0 ∧ (openSlot env .zero path 0).2.mount = r.1 ∧
      (openSlot env .zero path 0).2.st = r.2 := by
  rw [openSlot_object hdevice, openObject]
  rw [resolved_eq_some_iff.mp h]
  dsimp only
  rw [Nat.zero_and, if_neg (fun h' => h'.1 rfl)]
  exact ⟨rfl, Option.or_none, rfl⟩

theorem SameSlot.resolved_eq (hdevice : ¬ IsDevicePath path) (hdevice' : ¬ IsDevicePath path')
    (h : SameSlot (openSlot env .zero path 0) (openSlot env .zero path' 0)) :
    resolved env path = resolved env path' := by
  cases hr : resolved env path with
  | none =>
    cases hr' : resolved env path' with
    | none => rfl
    | some r' =>
      have hfail := openSlot_unresolved hdevice hr .zero 0
      exact absurd (h.1.mpr (openSlot_zero hdevice' hr').1) hfail
  | some r =>
    obtain ⟨hzero, hmount, hst⟩ := openSlot_zero hdevice hr
    cases hr' : resolved env path' with
    | none => exact absurd (h.1.mp hzero) (openSlot_unresolved hdevice' hr' .zero 0)
    | some r' =>
      obtain ⟨-, hmount', hst'⟩ := openSlot_zero hdevice' hr'
      have hobject := h.2 hzero
      rw [Descriptor.object, Descriptor.object, hmount, hmount', hst, hst'] at hobject
      simp only [Prod.mk.injEq] at hobject
      rw [Prod.ext hobject.2.1 hobject.2.2.1]

/-- A device leaves no mount in the slot, and an object of a file system does. -/
theorem SameSlot.missing (hdevice : ¬ IsDevicePath path) (hdevice' : IsDevicePath path')
    (hmount : ∀ r, resolved env path = some r → r.1 ≠ none)
    (h : SameSlot (openSlot env .zero path 0) (openSlot env .zero path' 0)) :
    resolved env path = none ∧ MissingDevice path' := by
  obtain ⟨hopened, hnone⟩ := openSlot_device hdevice' env .zero 0
  cases hr : resolved env path with
  | none =>
    have hfail := openSlot_unresolved hdevice hr .zero 0
    exact ⟨rfl, by_contra fun hnot => hfail (h.1.mpr (hopened.mpr hnot))⟩
  | some r =>
    obtain ⟨hzero, hsome, -⟩ := openSlot_zero hdevice hr
    have hobject := h.2 hzero
    rw [Descriptor.object, Descriptor.object, hsome, hnone] at hobject
    simp only [Prod.mk.injEq] at hobject
    exact absurd hobject.2.1 (hmount r hr)

/-- The first slot that is not in use decides. -/
theorem sameOpen_iff {p : Proc} {j : ℕ}
    (hfind : ((List.range fdCount).find? fun i => !(p.fd i).used) = some j) :
    SameOpen env p path path' flags ↔
      SameSlot (openSlot env (p.fd j) path flags) (openSlot env (p.fd j) path' flags) := by
  have hret := openSlot_ret env (p.fd j) path flags
  have hret' := openSlot_ret env (p.fd j) path' flags
  rw [SameOpen, processOpenFile, processOpenFile, hfind]
  dsimp only
  constructor
  · intro h
    obtain ⟨hiff, hobject⟩ := h j
    have hsucceeds : ∀ r : ℤ × Descriptor, (r.1 = 0 ∨ r.1 < 0) →
        ((if r.1 = 0 then (j : ℤ) else r.1) = j ↔ r.1 = 0) := by
      intro r hr
      split_ifs with hzero
      · exact iff_of_true rfl hzero
      · exact iff_of_false (by omega) hzero
    rw [hsucceeds _ hret, hsucceeds _ hret'] at hiff
    refine ⟨hiff, fun hzero => ?_⟩
    have hsame := hobject ((hsucceeds _ hret).mpr hzero)
    rwa [Function.update_self, Function.update_self] at hsame
  · rintro ⟨hiff, hobject⟩ i
    by_cases hzero : (openSlot env (p.fd j) path flags).1 = 0
    · rw [if_pos hzero, if_pos (hiff.mp hzero)]
      refine ⟨Iff.rfl, fun hi => ?_⟩
      obtain rfl : j = i := by omega
      rw [Function.update_self, Function.update_self]
      exact hobject hzero
    · have hzero' := fun h => hzero (hiff.mpr h)
      rw [if_neg hzero, if_neg hzero']
      refine ⟨iff_of_false (by omega) (by omega), fun hi => absurd hi (by omega)⟩

theorem sameOpen_of_slots (p : Proc)
    (h : ∀ d, SameSlot (openSlot env d path flags) (openSlot env d path' flags)) :
    SameOpen env p path path' flags := by
  cases hfind : (List.range fdCount).find? fun i => !(p.fd i).used with
  | none =>
    rw [SameOpen, processOpenFile, processOpenFile, hfind]
    exact fun i => ⟨Iff.rfl, fun _ => rfl⟩
  | some j => exact (sameOpen_iff hfind).mpr (h (p.fd j))

end Open

/-! ### The working directory -/

/-- A process that has one descriptor, open on the directory, and no other slot was ever used. -/
def onlyOn (d : Walk) : Proc where
  cwdMount := none
  cwd := Descriptor.zero.st
  fd := Function.update (fun _ => .zero) 0
    { Descriptor.zero with used := true, mount := some d.mount, st := d.st }

theorem moved_onlyOn (env : Env) (root : Mount) (d : Walk) :
    Moved env root d (onlyOn d) { onlyOn d with cwd := d.st } :=
  .fchdir (i := 0) (.inl rfl) rfl rfl

theorem onlyOn_free (d : Walk) :
    ((List.range fdCount).find? fun i => !((onlyOn d).fd i).used) = some 1 := rfl

section Relative
variable {env : Env} {root : Mount} {d : Walk} {ds rs : List (List Char)}

theorem resolved_relPath (hroot : env.root = some root) (hrs : ∀ c ∈ rs, IsComponent c)
    (hne : rs ≠ []) : resolved env (relPath rs) = arrival env (rootWalk root) rs := by
  obtain ⟨a, rest, hhead, ha⟩ := relPath_head hrs hne
  rw [resolved_eq hroot, tokens_relPath hrs hne]
  · rw [hhead]
    exact List.cons_ne_nil a rest
  · rw [hhead]
    exact fun h => ha (List.head_eq_of_cons_eq h)

theorem resolved_absPath (hroot : env.root = some root) (hds : ∀ c ∈ ds, IsComponent c)
    (hrs : ∀ c ∈ rs, IsComponent c) (hne : rs ≠ [])
    (hd : Walks env.mounts (rootWalk root) ds d) :
    resolved env (absPath (ds ++ rs)) = arrival env d rs := by
  have hall : ∀ c ∈ ds ++ rs, IsComponent c := by
    intro c hc
    rcases List.mem_append.mp hc with hc | hc
    · exact hds c hc
    · exact hrs c hc
  have hne' : ds ++ rs ≠ [] := List.append_ne_nil_of_right_ne_nil ds hne
  obtain ⟨a, rest, hhead, -⟩ := relPath_head hall hne'
  have hds' : ∀ c ∈ ds, c ≠ [] := fun c hc => (hds c hc).1
  rw [resolved_eq hroot, tokens_absPath hall hne', arrival, arrival,
    walkTokens_append hds' ((walkTokens_ok_iff hds').mpr hd)]
  · exact List.cons_ne_nil _ _
  · rw [absPath, hhead]
    simp

end Relative

/-- A process that has changed its working directory to `d`, the directory of the path
`ds`, finds and opens under a relative path what it does under the absolute one, exactly
when the components lead from the root to what they lead to from `d`. -/
theorem relative_same_iff (env : Env) (root : Mount) (hroot : env.root = some root)
    (ds rs : List (List Char)) (hds : ∀ c ∈ ds, IsComponent c) (hrs : ∀ c ∈ rs, IsComponent c)
    (hne : rs ≠ []) (d : Walk) (hd : Walks env.mounts (rootWalk root) ds d) :
    (∀ p p', Moved env root d p p' → SameStat env p' (relPath rs) (absPath (ds ++ rs)) ∧
      ∀ flags, SameOpen env p' (relPath rs) (absPath (ds ++ rs)) flags) ↔
    FoundFromRoot env root d ds rs := by
  have hrel := resolved_relPath hroot hrs hne
  have habs := resolved_absPath hroot hds hrs hne hd
  have hrs' : ∀ c ∈ rs, c ≠ [] := fun c hc => (hrs c hc).1
  have hplain := not_isDevicePath_relPath hrs hne
  rw [FoundFromRoot, ← arrival_eq_iff hrs', ← arrival_eq_none_iff hrs', ← hrel, ← habs]
  constructor
  · intro h
    obtain ⟨hstat, hopen⟩ := h _ _ (moved_onlyOn env root d)
    have hslot := (sameOpen_iff (onlyOn_free d)).mp (hopen 0)
    rw [sameStat_iff] at hstat
    by_cases hdevice : IsDevicePath (absPath (ds ++ rs))
    · have hmount : ∀ r, resolved env (relPath rs) = some r → r.1 ≠ none := by
        intro r hr
        rw [hrel, arrival_eq_some_iff env _ hrs'] at hr
        obtain ⟨-, m, hm, -⟩ := hr
        simp [hm]
      obtain ⟨hnone, hmissing⟩ := hslot.missing hplain hdevice hmount
      rw [hnone, Option.map_none, eq_comm, Option.map_eq_none_iff] at hstat
      exact ⟨hnone.trans hstat.symm, fun _ => ⟨hmissing, hstat⟩⟩
    · have hsame := hslot.resolved_eq hplain hdevice
      exact ⟨hsame, fun hdevice' => absurd hdevice' hdevice⟩
  · rintro ⟨hsame, hdevice⟩ p p' -
    refine ⟨(sameStat_iff env p' _ _).mpr (congrArg (Option.map Prod.snd) hsame), fun flags => ?_⟩
    apply sameOpen_of_slots
    intro slot
    by_cases hdevice' : IsDevicePath (absPath (ds ++ rs))
    · obtain ⟨hmissing, hnone⟩ := hdevice hdevice'
      have hfail := openSlot_unresolved hplain (hsame.trans hnone) slot flags
      have hfail' : (openSlot env slot (absPath (ds ++ rs)) flags).1 ≠ 0 := fun hzero =>
        (openSlot_device hdevice' env slot flags).1.mp hzero hmissing
      exact ⟨iff_of_false hfail hfail', fun hzero => absurd hzero hfail⟩
    · exact openSlot_same hplain hdevice' hsame slot

/-- The process of the examples, before it opens or changes anything. -/
def exampleProc : Proc := ⟨none, plainStat 1 0x41ff, fun _ => .zero⟩

/-- In the root directory, `f` and `/f` are the same. -/
theorem relative_same_in_root :
    SameStat exampleEnv exampleProc ['f'] ['/', 'f'] ∧
      ∀ flags, SameOpen exampleEnv exampleProc ['f'] ['/', 'f'] flags := by
  have hcomponent : ∀ c ∈ [['f']], IsComponent c := by
    intro c hc
    rw [List.mem_singleton.mp hc]
    exact ⟨by decide, by decide⟩
  have hfound : FoundFromRoot exampleEnv exampleRoot (rootWalk exampleRoot) [] [['f']] :=
    ⟨fun _ m st => Iff.rfl, fun hdevice => absurd hdevice (by unfold IsDevicePath; decide)⟩
  have hsame := (relative_same_iff exampleEnv exampleRoot rfl [] [['f']] (by simp) hcomponent
    (by decide) (rootWalk exampleRoot) (.done _)).mpr hfound
  exact hsame exampleProc exampleProc (.chdir ['/'] rfl rfl rfl rfl)

/-- In the directory `/m`, where `/m/x` is found, `x` is not. -/
theorem relative_lost_in_mount :
    ¬ ∀ (env : Env) (root : Mount) (ds rs : List (List Char)) (d : Walk) (p p' : Proc),
      env.root = some root → (∀ c ∈ ds, IsComponent c) → (∀ c ∈ rs, IsComponent c) → rs ≠ [] →
      Walks env.mounts (rootWalk root) ds d → d.st.IsDirectory → Moved env root d p p' →
      SameStat env p' (relPath rs) (absPath (ds ++ rs)) ∧
        ∀ flags, SameOpen env p' (relPath rs) (absPath (ds ++ rs)) flags := by
  intro h
  have hcomponents : (∀ c ∈ [['m']], IsComponent c) ∧ ∀ c ∈ [['x']], IsComponent c := by
    unfold IsComponent
    decide
  have hentry : findEntry exampleRoot.fs exampleRoot.rootdir ['m']
      (exampleRoot.fs.size exampleRoot.rootdir + 1) 0 = .ok (plainStat 5 0x41ff) := rfl
  have hwalks : Walks [exampleMount] (rootWalk exampleRoot) [['m']]
      ⟨exampleMount, exampleMount.rootdir, plainStat 5 0x41ff⟩ := .entry hentry (.done _)
  have hstat := (h exampleEnv exampleRoot [['m']] [['x']] _ exampleProc
    { exampleProc with cwd := plainStat 5 0x41ff } rfl hcomponents.1 hcomponents.2 (by decide)
    hwalks (by decide) (.chdir ['/', 'm'] rfl rfl rfl rfl)).1
  have hrelative : processStatFile exampleEnv { exampleProc with cwd := plainStat 5 0x41ff } ['x'] =
      .error (-enoent) := rfl
  have habsolute : processStatFile exampleEnv { exampleProc with cwd := plainStat 5 0x41ff }
      ['/', 'm', '/', 'x'] = .ok (plainStat 7 0x81ff) := rfl
  rw [SameStat] at hstat
  change (processStatFile exampleEnv _ ['x']).toOption =
    (processStatFile exampleEnv _ ['/', 'm', '/', 'x']).toOption at hstat
  rw [hrelative, habsolute] at hstat
  cases hstat

end DosKernel.Vfs
