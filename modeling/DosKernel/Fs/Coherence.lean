import DosKernel.Fs.Paths

/-! What `vfs_stat` stores: a mount and a stat, which callers use together. The walk keeps
the mount of the directory it is in, and the stat of the entry it found last. -/

namespace DosKernel.Vfs

/-! ### Tokens of any path -/

/-- The path behind a leading slash. -/
def stripped (path : List Char) : List Char := if path.head? = some '/' then path.tail else path

/-- The tokens that the loop of `vfs_stat` looks up. -/
def tokens (path : List Char) : List (List Char) :=
  ((stripped path).splitOn '/').takeWhile (· ≠ [])

/-- The first token of a path, and a bound for the others. -/
theorem strtok_stripped (path : List Char) : ∃ t,
    (strtok (some (stripped path)) none '/').1 = some t ∧
    (stripped path).splitOn '/' = t :: remaining (strtok (some (stripped path)) none '/').2 ∧
    (remaining (strtok (some (stripped path)) none '/').2).length ≤ path.length := by
  obtain ⟨t, ht, hsplit⟩ := strtok_some (stripped path) none
  have hlen := splitOn_length_le (stripped path)
  have hstripped : (stripped path).length ≤ path.length := by
    rw [stripped]
    split_ifs
    · rw [List.length_tail]
      omega
    · exact le_rfl
  rw [hsplit, List.length_cons] at hlen
  exact ⟨t, ht, hsplit, by omega⟩

theorem vfsStat_tokens (root : Mount) (mounts : List Mount) {path : List Char} (hpath : path ≠ [])
    (hroot : path ≠ ['/']) :
    vfsStat (some root) mounts true (some path) =
      (walkTokens mounts ⟨root, root.rootdir, root.rootdir⟩ (tokens path)).map
        fun s => (some s.mount, s.st) := by
  obtain ⟨t, ht, hsplit, hlen⟩ := strtok_stripped path
  have htoken : strtok (some (if path.head? = some '/' then path.tail else path)) none '/' =
      strtok (some (stripped path)) none '/' := rfl
  rw [vfsStat, if_neg hpath, if_neg hroot]
  dsimp only
  rw [htoken, ht, if_neg (by decide), walkPath_eq, ← hsplit, walkTokens_takeWhile, tokens]
  omega

theorem mem_tokens {path t : List Char} (h : t ∈ tokens path) : t ≠ [] := by
  simpa using List.mem_takeWhile_imp (p := fun t => decide (t ≠ [])) h

/-! ### Objects of a file system -/

/-- The objects of a mounted file system: its root directory, and what `readdir` gives for
a directory that is an object. -/
inductive Mount.IsObject (m : Mount) : Stat → Prop
  | root : m.IsObject m.rootdir
  | entry {dir st : Stat} {name : List Char} {index : ℕ} (hdir : m.IsObject dir)
      (hread : m.fs.readdir dir index = .ok (name, st)) : m.IsObject st

/-- A mount was stored, and the stat is one of its objects. -/
def Coherent (r : Option Mount × Stat) : Prop := ∃ m, r.1 = some m ∧ m.IsObject r.2

/-- The entry that the last token names is no mount point, unless the mounted file system
has it as an object too. -/
def EndsUncovered (mounts : List Mount) : Walk → List (List Char) → Prop
  | _, [] => True
  | s, t :: ts => ∀ st, findEntry s.mount.fs s.dir t (s.mount.fs.size s.dir + 1) 0 = .ok st →
    if ts = [] then
      ∀ m, st.mode &&& sIfdir ≠ 0 → mountAt mounts st.ino = some m → m.IsObject st
    else EndsUncovered mounts (s.found mounts st) ts

theorem findEntry_ok {fs : MountedFs} {dir st : Stat} {filename : List Char} {passes i : ℕ}
    (h : findEntry fs dir filename passes i = .ok st) :
    ∃ name index, fs.readdir dir index = .ok (name, st) := by
  induction passes generalizing i with
  | zero => cases h
  | succ passes ih =>
    rw [findEntry] at h
    rcases hr : fs.readdir dir i with e | ⟨name, st'⟩
    · rw [hr] at h
      cases h
    · rw [hr] at h
      dsimp only at h
      split_ifs at h
      · cases h
        exact ⟨name, i, hr⟩
      · exact ih h

section Walk
variable {mounts : List Mount} {s : Walk} {st : Stat}

/-- The current directory is an object of the current mount. -/
theorem found_dir (hdir : s.mount.IsObject s.dir) (hst : s.mount.IsObject st) :
    (s.found mounts st).mount.IsObject (s.found mounts st).dir := by
  rw [Walk.found]
  split_ifs
  · rcases mountAt mounts st.ino with _ | m
    · exact hst
    · exact .root
  · exact hdir

/-- The entry is an object of the mount it leaves the walk in, unless it is covered. -/
theorem found_isObject_iff (hst : s.mount.IsObject st) :
    (s.found mounts st).mount.IsObject (s.found mounts st).st ↔
      ∀ m, st.mode &&& sIfdir ≠ 0 → mountAt mounts st.ino = some m → m.IsObject st := by
  rw [found_st, Walk.found]
  by_cases hbit : st.mode &&& sIfdir ≠ 0
  · rw [if_pos hbit]
    cases hmount : mountAt mounts st.ino with
    | none => exact ⟨fun _ m _ hm => absurd hm (by simp), fun _ => hst⟩
    | some x =>
      constructor
      · intro h m _ hm
        cases hm
        exact h
      · intro h
        exact h x hbit rfl
  · rw [if_neg hbit]
    exact ⟨fun _ m hb => absurd hb hbit, fun _ => hst⟩

theorem walkTokens_isObject_iff {t : List Char} {ts : List (List Char)} (hne : ∀ u ∈ t :: ts, u ≠ [])
    (hdir : s.mount.IsObject s.dir) {s' : Walk} (h : walkTokens mounts s (t :: ts) = .ok s') :
    s'.mount.IsObject s'.st ↔ EndsUncovered mounts s (t :: ts) := by
  induction ts generalizing s t with
  | nil =>
    rw [walkTokens, if_neg (hne t List.mem_cons_self)] at h
    rw [EndsUncovered]
    rcases hf : findEntry s.mount.fs s.dir t (s.mount.fs.size s.dir + 1) 0 with e | st
    · rw [Walk.visit, hf] at h
      cases h
    · rw [Walk.visit, hf] at h
      cases h
      obtain ⟨name, index, hread⟩ := findEntry_ok hf
      rw [found_isObject_iff (.entry hdir hread)]
      constructor
      · intro hobject st' hst'
        cases hst'
        exact hobject
      · intro hobject
        exact hobject st rfl
  | cons t' ts ih =>
    rw [walkTokens, if_neg (hne t List.mem_cons_self)] at h
    rw [EndsUncovered]
    rcases hf : findEntry s.mount.fs s.dir t (s.mount.fs.size s.dir + 1) 0 with e | st
    · rw [Walk.visit, hf] at h
      cases h
    · rw [Walk.visit, hf] at h
      obtain ⟨name, index, hread⟩ := findEntry_ok hf
      have hrest := ih (fun u hu => hne u (List.mem_cons_of_mem t hu))
        (found_dir hdir (.entry hdir hread)) h
      rw [hrest]
      constructor
      · intro hends st' hst'
        cases hst'
        exact hends
      · intro hends
        exact hends st rfl

end Walk

/-- What `vfs_stat` stores when it returns zero is a mount and an object of its file system,
exactly when the path is not `/` and does not end at a mount point. -/
theorem stat_coherent_iff (root : Mount) (mounts : List Mount) (allocated : Bool) (path : List Char)
    (r : Option Mount × Stat)
    (h : vfsStat (some root) mounts allocated (some path) = .ok r) :
    Coherent r ↔ path ≠ ['/'] ∧
      EndsUncovered mounts ⟨root, root.rootdir, root.rootdir⟩ (tokens path) := by
  by_cases hroot : path = ['/']
  · -- nothing is stored as the mount
    subst hroot
    cases h
    constructor
    · rintro ⟨m, hm, -⟩
      cases hm
    · intro hne
      exact absurd rfl hne.1
  have hpath : path ≠ [] := by
    rintro rfl
    cases h
  have hallocated : allocated = true := by
    cases allocated with
    | false =>
      simp only [vfsStat, if_neg hpath, if_neg hroot] at h
      cases h
    | true => rfl
  subst hallocated
  rw [vfsStat_tokens root mounts hpath hroot] at h
  rcases hw : walkTokens mounts ⟨root, root.rootdir, root.rootdir⟩ (tokens path) with e | s
  · rw [hw] at h
    cases h
  · rw [hw] at h
    cases h
    have hcoherent : Coherent (some s.mount, s.st) ↔ s.mount.IsObject s.st := by
      constructor
      · rintro ⟨m, hm, hobject⟩
        cases hm
        exact hobject
      · intro hobject
        exact ⟨s.mount, rfl, hobject⟩
    rw [hcoherent]
    cases htokens : tokens path with
    | nil =>
      rw [htokens] at hw
      cases hw
      exact ⟨fun _ => ⟨hroot, trivial⟩, fun _ => .root⟩
    | cons t ts =>
      have hne : ∀ u ∈ t :: ts, u ≠ [] := by
        rw [← htokens]
        exact fun u hu => mem_tokens hu
      rw [htokens] at hw
      rw [walkTokens_isObject_iff hne .root hw]
      exact ⟨fun hends => ⟨hroot, hends⟩, fun hends => hends.2⟩

theorem stat_coherent_across_mount :
    Coherent (some exampleMount, plainStat 7 0x81ff) := by
  have hstat : vfsStat (some exampleRoot) [exampleMount] true (some ['/', 'm', '/', 'x']) =
      .ok (some exampleMount, plainStat 7 0x81ff) := rfl
  refine (stat_coherent_iff exampleRoot [exampleMount] true ['/', 'm', '/', 'x'] _ hstat).mpr
    ⟨by decide, ?_⟩
  intro st hst
  cases hst
  intro st' hst'
  cases hst'
  intro m hbit
  exact absurd hbit (by decide)

/-- The path ends at the mount point `/m`: the mount is the mounted one, and the stat is
that of the directory under it. -/
theorem stat_incoherent_at_mount :
    ¬ ∀ (root : Mount) (mounts : List Mount) (allocated : Bool) (path : List Char)
      (r : Option Mount × Stat), vfsStat (some root) mounts allocated (some path) = .ok r →
      Coherent r := by
  intro h
  have hstat : vfsStat (some exampleRoot) [exampleMount] true (some ['/', 'm']) =
      .ok (some exampleMount, plainStat 5 0x41ff) := rfl
  obtain ⟨m, hm, hobject⟩ := h _ _ _ _ _ hstat
  cases hm
  have hobjects : ∀ st, exampleMount.IsObject st → st = plainStat 2 0x41ff ∨
      st = plainStat 7 0x81ff := by
    intro st hst
    cases hst with
    | root => exact .inl rfl
    | @entry dir _ name index hdir hread =>
      right
      simp only [exampleMount, listedFs, mountedEntries] at hread
      split_ifs at hread
      · cases index with
        | zero =>
          cases hread
          rfl
        | succ index => simp at hread
      · simp at hread
  rcases hobjects _ hobject with h2 | h7
  · exact absurd h2 (by decide)
  · exact absurd h7 (by decide)

end DosKernel.Vfs
