import Mathlib.Data.List.TakeWhile
import Mathlib.Data.Int.Notation
import Mathlib.Tactic.Common

/-! Path resolution in the virtual file system: `strtok` cuts the path, and the loop
of `vfs_stat` looks one name up in the current directory after the other, going over
to a mounted file system where it meets a mount point. -/

namespace DosKernel.Vfs

/-- The error numbers that `vfs_stat` returns. -/
def enoent : ℤ := 2

def enomem : ℤ := 12

def enodev : ℤ := 19

def einval : ℤ := 22

/-- `S_IFMT` and `S_IFDIR`. -/
def sIfmt : ℕ := 0xf000

def sIfdir : ℕ := 0x4000

/-- `struct stat`. -/
structure Stat where
  dev : ℕ
  ino : ℕ
  mode : ℕ
  nlink : ℕ
  uid : ℕ
  gid : ℕ
  rdev : ℕ
  size : ℕ
  blksize : ℕ
  blocks : ℕ
  atime : ℕ
  mtime : ℕ
  ctime : ℕ
  private_ : ℕ
  deriving DecidableEq

def Stat.IsDirectory (st : Stat) : Prop := st.mode &&& sIfmt = sIfdir

instance (st : Stat) : Decidable st.IsDirectory := inferInstanceAs (Decidable (_ = _))

/-- `filesystem`, as far as `vfs_stat` uses it. The reading of a directory comes to an
end, at the index `size` or before. -/
structure MountedFs where
  caseSensitive : Bool
  readdir : (dir : Stat) → (index : ℕ) → Except ℤ (List Char × Stat)
  size : Stat → ℕ
  error_neg : ∀ {dir index e}, readdir dir index = .error e → e < 0
  ends : ∀ dir, ∃ e, readdir dir (size dir) = .error e

/-- `strcmp` or `stricmp` finds the names equal. -/
def MountedFs.sameName (fs : MountedFs) (name filename : List Char) : Bool :=
  if fs.caseSensitive then name = filename else name.map Char.toUpper = filename.map Char.toUpper

/-- `mount_t`. The code leaves `parent` unset; here it is the number of the mount whose
directory `ino` is covered. -/
structure Mount where
  id : ℕ
  fs : MountedFs
  rootdir : Stat
  ino : ℕ
  parent : ℕ

/-! ### The code -/

/-- `strtok`: the token and the new value of its static variable. -/
def strtok (str last : Option (List Char)) (delimiter : Char) :
    Option (List Char) × Option (List Char) :=
  match str.or last with
  | none => (none, none)
  | some s =>
    match s.dropWhile (· ≠ delimiter) with
    | [] => (some s, none)
    | _ :: rest => (some (s.takeWhile (· ≠ delimiter)), some rest)

/-- The inner loop of `vfs_stat`: the entry with the name, or the error that ended the
directory. -/
def findEntry (fs : MountedFs) (dir : Stat) (filename : List Char) : (passes i : ℕ) → Except ℤ Stat
  | 0, _ => .error (-enoent)
  | passes + 1, i =>
    match fs.readdir dir i with
    | .error e => .error e
    | .ok (name, st) =>
      if fs.sameName name filename then .ok st else findEntry fs dir filename passes (i + 1)

/-- `mount`, `dir` and `f->st` in `vfs_stat`. -/
structure Walk where
  mount : Mount
  dir : Stat
  st : Stat

/-- The first mount whose mount point has the inode number. -/
def mountAt (mounts : List Mount) (ino : ℕ) : Option Mount := mounts.find? fun m => m.ino = ino

/-- An entry was found: a directory becomes the current one, unless its inode number
says that a file system covers it. -/
def Walk.found (mounts : List Mount) (s : Walk) (st : Stat) : Walk :=
  if st.mode &&& sIfdir ≠ 0 then
    match mountAt mounts st.ino with
    | some m => ⟨m, m.rootdir, st⟩
    | none => ⟨s.mount, st, st⟩
  else ⟨s.mount, s.dir, st⟩

/-- One pass of the outer loop. -/
def Walk.visit (mounts : List Mount) (s : Walk) (filename : List Char) : Except ℤ Walk :=
  (findEntry s.mount.fs s.dir filename (s.mount.fs.size s.dir + 1) 0).map (s.found mounts)

/-- The outer loop of `vfs_stat`; every pass but the last uses up a slash. -/
def walkPath (mounts : List Mount) :
    (passes : ℕ) → Walk → (filename last : Option (List Char)) → Except ℤ Walk
  | 0, s, _, _ => .ok s
  | passes + 1, s, filename, last =>
    match filename with
    | none => .ok s
    | some name =>
      if name = [] then .ok s
      else
        match s.visit mounts name with
        | .error e => .error e
        | .ok s' =>
          let token := strtok none last '/'
          walkPath mounts passes s' token.1 token.2

/-- `vfs_stat`: the mount and the stat that it stores, or an error; `allocated` tells
whether there is memory for `f`. For `/` no mount is stored. -/
def vfsStat (rootMount : Option Mount) (mounts : List Mount) (allocated : Bool)
    (path : Option (List Char)) : Except ℤ (Option Mount × Stat) :=
  match rootMount, path with
  | none, _ => .error (-enodev)
  | some _, none => .error (-einval)
  | some root, some path =>
    if path = [] then .error (-einval)
    else if path = ['/'] then .ok (none, root.rootdir)
    else
      let token := strtok (some (if path.head? = some '/' then path.tail else path)) none '/'
      if allocated = false then .error (-enomem)
      else
        (walkPath mounts (path.length + 1) ⟨root, root.rootdir, root.rootdir⟩ token.1 token.2).map
          fun s => (some s.mount, s.st)

/-! ### Walking a path -/

/-- The non-empty components. -/
def components (path : List Char) : List (List Char) := (path.splitOn '/').filter (· ≠ [])

/-- The entries of a directory, in the order of `readdir`. -/
def MountedFs.entries (fs : MountedFs) (dir : Stat) : List (List Char × Stat) :=
  (List.range' 0 (fs.size dir)).filterMap fun i => (fs.readdir dir i).toOption

/-- The object that a directory has under a name. -/
def MountedFs.lookup (fs : MountedFs) (dir : Stat) (name : List Char) : Option Stat :=
  ((fs.entries dir).find? fun e => fs.sameName e.1 name).map Prod.snd

/-- The mount that covers a directory of `m`. -/
def coveredBy (mounts : List Mount) (m : Mount) (st : Stat) : Option Mount :=
  mounts.find? fun x => x.ino = st.ino ∧ x.parent = m.id

/-- Where a walk through a directory goes on: in the file system that covers it, or in
the directory. -/
def enter (mounts : List Mount) (m : Mount) (st : Stat) : Mount × Stat :=
  match coveredBy mounts m st with
  | some x => (x, x.rootdir)
  | none => (m, st)

/-- The object reached by walking the components from a directory on, each but the
last one through a directory. -/
def walk (mounts : List Mount) : Mount → (dir : Stat) → List (List Char) → Option Stat
  | _, dir, [] => some dir
  | m, dir, c :: cs =>
    (m.fs.lookup dir c).bind fun st =>
      if cs = [] then some st
      else if st.IsDirectory then walk mounts (enter mounts m st).1 (enter mounts m st).2 cs
      else none

/-- `readdir` enumerates every directory and then returns `-ENOENT`; the root of a
mounted tree is a directory. -/
structure Trees (root : Mount) (mounts : List Mount) : Prop where
  rootdir : ∀ m ∈ root :: mounts, m.rootdir.IsDirectory
  entry : ∀ m ∈ root :: mounts, ∀ dir : Stat, dir.IsDirectory → ∀ i < m.fs.size dir,
    ∃ e, m.fs.readdir dir i = .ok e
  done : ∀ m ∈ root :: mounts, ∀ dir : Stat, dir.IsDirectory →
    m.fs.readdir dir (m.fs.size dir) = .error (-enoent)

/-! ### When the code walks the path -/

/-- The components of an absolute path in front of the first empty one. -/
def front (path : List Char) : List (List Char) := (path.tail.splitOn '/').takeWhile (· ≠ [])

/-- No component stands behind an empty one, or the path ends before it gets there. -/
def NoGap (root : Mount) (mounts : List Mount) (path : List Char) : Prop :=
  front path = components path ∨ walk mounts root root.rootdir (front path) = none

/-- A directory on the way is covered by the file system that its inode number names;
and behind something that is no directory, the code does not find the next component. -/
def WalksRight (mounts : List Mount) : Mount → (dir : Stat) → List (List Char) → Prop
  | m, dir, c :: c' :: cs => ∀ st, m.fs.lookup dir c = some st →
    if st.IsDirectory then
      mountAt mounts st.ino = coveredBy mounts m st ∧
      WalksRight mounts (enter mounts m st).1 (enter mounts m st).2 (c' :: cs)
    else ∃ e, (Walk.found mounts ⟨m, dir, dir⟩ st).visit mounts c' = .error e
  | _, _, _ => True

/-! ### Tokens -/

def remaining (last : Option (List Char)) : List (List Char) := last.elim [] (·.splitOn '/')

theorem remaining_some (s : List Char) : remaining (some s) = s.splitOn '/' := rfl

/-- A token is the first piece of the string, and the others remain. -/
theorem strtok_some (s : List Char) (last : Option (List Char)) :
    ∃ t, (strtok (some s) last '/').1 = some t ∧
      s.splitOn '/' = t :: remaining (strtok (some s) last '/').2 := by
  have hsplit := List.takeWhile_append_dropWhile (p := fun c => decide (c ≠ '/')) (l := s)
  have hmem : '/' ∉ s.takeWhile (· ≠ '/') := fun h => by
    simpa using List.mem_takeWhile_imp h
  rcases hd : s.dropWhile (· ≠ '/') with _ | ⟨c, rest⟩
  · rw [hd, List.append_nil] at hsplit
    rw [hsplit] at hmem
    refine ⟨s, by simp only [strtok, Option.some_or, hd], ?_⟩
    simp only [strtok, Option.some_or, hd, remaining, Option.elim_none]
    exact List.splitOn_eq_singleton hmem
  · obtain rfl : c = '/' := by
      have hhead := List.head?_dropWhile_not (fun c => decide (c ≠ '/')) s
      rw [hd] at hhead
      simpa using hhead
    refine ⟨s.takeWhile (· ≠ '/'), by simp only [strtok, Option.some_or, hd], ?_⟩
    simp only [strtok, Option.some_or, hd, remaining, Option.elim_some]
    rw [← List.splitOn_append_cons_self_of_not_mem hmem, ← hd, hsplit]

/-- The outer loop over a list of tokens. -/
def walkTokens (mounts : List Mount) : Walk → List (List Char) → Except ℤ Walk
  | s, [] => .ok s
  | s, t :: ts =>
    if t = [] then .ok s
    else
      match s.visit mounts t with
      | .error e => .error e
      | .ok s' => walkTokens mounts s' ts

theorem walkPath_eq (mounts : List Mount) {passes : ℕ} {s : Walk} {t : List Char}
    {last : Option (List Char)} (h : (remaining last).length < passes) :
    walkPath mounts passes s (some t) last = walkTokens mounts s (t :: remaining last) := by
  induction passes generalizing s t last with
  | zero => omega
  | succ passes ih =>
    simp only [walkPath, walkTokens]
    split_ifs
    · rfl
    rcases s.visit mounts t with e | s'
    · rfl
    cases last with
    | none => cases passes <;> rfl
    | some r =>
      obtain ⟨t', ht', hsplit⟩ := strtok_some r none
      have hrest : strtok none (some r) '/' = strtok (some r) none '/' := rfl
      rw [remaining_some, hsplit, List.length_cons] at h
      rw [remaining_some, hsplit]
      dsimp only
      rw [hrest, ht']
      exact ih (by omega)

/-- Only the tokens in front of the first empty one count. -/
theorem walkTokens_takeWhile (mounts : List Mount) (s : Walk) (ts : List (List Char)) :
    walkTokens mounts s ts = walkTokens mounts s (ts.takeWhile (· ≠ [])) := by
  induction ts generalizing s with
  | nil => rfl
  | cons t ts ih =>
    rcases eq_or_ne t [] with rfl | ht
    · rfl
    · rw [List.takeWhile_cons_of_pos (by simpa using ht), walkTokens, walkTokens, if_neg ht,
        if_neg ht]
      rcases s.visit mounts t with e | s'
      · rfl
      · exact ih s'

theorem splitOn_length_le (s : List Char) : (s.splitOn '/').length ≤ s.length + 1 := by
  induction s with
  | nil => simp
  | cons c s ih =>
    rw [List.splitOn_cons_eq_if_modifyHead]
    split_ifs <;> simp <;> omega

/-- `vfs_stat` of an absolute path walks its components, up to the first empty one. -/
theorem vfsStat_eq (root : Mount) (mounts : List Mount) {rest : List Char} (hrest : rest ≠ []) :
    vfsStat (some root) mounts true (some ('/' :: rest)) =
      (walkTokens mounts ⟨root, root.rootdir, root.rootdir⟩ (front ('/' :: rest))).map
        fun s => (some s.mount, s.st) := by
  obtain ⟨t, ht, hsplit⟩ := strtok_some rest none
  have hlen := splitOn_length_le rest
  rw [vfsStat, if_neg (List.cons_ne_nil _ _), if_neg (by simpa using hrest)]
  simp only [List.head?_cons, if_pos, List.tail_cons, ht]
  rw [if_neg (by decide), walkPath_eq, ← hsplit, walkTokens_takeWhile, front, List.tail_cons]
  rw [hsplit, List.length_cons] at hlen
  rw [List.length_cons]
  omega

/-! ### One component -/

theorem Stat.IsDirectory.bit {st : Stat} (h : st.IsDirectory) : st.mode &&& sIfdir ≠ 0 := by
  rw [show sIfdir = sIfmt &&& sIfdir from rfl, ← Nat.and_assoc,
    show st.mode &&& sIfmt = sIfdir from h]
  decide

theorem findEntry_neg {fs : MountedFs} {dir : Stat} {filename : List Char} {passes i : ℕ} {e : ℤ}
    (h : findEntry fs dir filename passes i = .error e) : e < 0 := by
  induction passes generalizing i with
  | zero =>
    cases h
    decide
  | succ passes ih =>
    rw [findEntry] at h
    rcases hr : fs.readdir dir i with e' | ⟨name, st⟩
    · rw [hr] at h
      cases h
      exact fs.error_neg hr
    · rw [hr] at h
      dsimp only at h
      split_ifs at h
      exact ih h

theorem Walk.visit_neg {mounts : List Mount} {s : Walk} {filename : List Char} {e : ℤ}
    (h : s.visit mounts filename = .error e) : e < 0 := by
  rw [Walk.visit] at h
  rcases hf : findEntry s.mount.fs s.dir filename (s.mount.fs.size s.dir + 1) 0 with e' | st
  · rw [hf] at h
    cases h
    exact findEntry_neg hf
  · rw [hf] at h
    cases h

/-- What the search for an entry comes to. -/
def Found (o : Option Stat) : Except ℤ Stat := o.elim (.error (-enoent)) .ok

section Walking
variable {root : Mount} {mounts : List Mount} {m : Mount} {dir : Stat}

theorem Trees.findEntry_eq (h : Trees root mounts) (hm : m ∈ root :: mounts)
    (hdir : dir.IsDirectory) (filename : List Char) :
    findEntry m.fs dir filename (m.fs.size dir + 1) 0 = Found (m.fs.lookup dir filename) := by
  -- from index `i` on, the search finds what the entries from `i` on have
  suffices hfrom : ∀ n i, i + n = m.fs.size dir → findEntry m.fs dir filename (n + 1) i =
      Found ((((List.range' i n).filterMap fun i => (m.fs.readdir dir i).toOption).find?
        fun e => m.fs.sameName e.1 filename).map Prod.snd) from
    hfrom _ 0 (Nat.zero_add _)
  intro n
  induction n with
  | zero =>
    rintro i rfl
    rw [findEntry, h.done m hm dir hdir]
    rfl
  | succ n ih =>
    intro i hi
    obtain ⟨⟨name, st⟩, he⟩ := h.entry m hm dir hdir i (by omega)
    rw [findEntry, he, List.range'_succ, List.filterMap_cons_some (by rw [he]; rfl), List.find?_cons]
    dsimp only
    split_ifs with hname
    · rw [hname]
      rfl
    · rw [Bool.eq_false_iff.mpr hname]
      exact ih (i + 1) (by omega)

theorem Trees.visit_eq (h : Trees root mounts) (hm : m ∈ root :: mounts) (hdir : dir.IsDirectory)
    (st : Stat) (filename : List Char) : (Walk.mk m dir st).visit mounts filename =
      (Found (m.fs.lookup dir filename)).map (Walk.found mounts ⟨m, dir, st⟩) := by
  rw [Walk.visit, h.findEntry_eq hm hdir]

/-- The code goes on where the walk does. -/
theorem found_of_directory {s : Walk} {st : Stat} (hst : st.IsDirectory)
    (hmount : mountAt mounts st.ino = coveredBy mounts s.mount st) :
    s.found mounts st = ⟨(enter mounts s.mount st).1, (enter mounts s.mount st).2, st⟩ := by
  rw [Walk.found, if_pos hst.bit, hmount, enter]
  rcases coveredBy mounts s.mount st with _ | x
  · rfl
  · rfl

theorem found_st (mounts : List Mount) (s : Walk) (st : Stat) : (s.found mounts st).st = st := by
  rw [Walk.found]
  split_ifs
  · rcases mountAt mounts st.ino with _ | x
    · rfl
    · rfl
  · rfl

theorem Trees.enter (h : Trees root mounts) (hm : m ∈ root :: mounts) {st : Stat}
    (hst : st.IsDirectory) : (enter mounts m st).1 ∈ root :: mounts ∧
      (enter mounts m st).2.IsDirectory := by
  rw [Vfs.enter]
  rcases hfind : coveredBy mounts m st with _ | x
  · exact ⟨hm, hst⟩
  · have hx := List.mem_cons_of_mem root (List.mem_of_find?_eq_some hfind)
    exact ⟨hx, h.rootdir x hx⟩

/-- The result of a resolution is the object, or a negative error where there is none. -/
def Resolved {α : Type} (object : Option Stat) (st : α → Stat) : Except ℤ α → Prop
  | .ok a => object = some (st a)
  | .error e => object = none ∧ e < 0

/-- The loop over at least one component gives what walking them gives. -/
theorem Trees.walkTokens_resolved (h : Trees root mounts) {c : List Char} {cs : List (List Char)}
    (hm : m ∈ root :: mounts) (hdir : dir.IsDirectory) (hne : ∀ t ∈ c :: cs, t ≠ [])
    (hright : WalksRight mounts m dir (c :: cs)) (st : Stat) :
    Resolved (walk mounts m dir (c :: cs)) Walk.st (walkTokens mounts ⟨m, dir, st⟩ (c :: cs)) := by
  induction cs generalizing m dir c st with
  | nil =>
    rw [walk, walkTokens, if_neg (hne c List.mem_cons_self), h.visit_eq hm hdir]
    rcases m.fs.lookup dir c with _ | st'
    · exact ⟨rfl, by decide⟩
    · exact congrArg some (found_st mounts _ st').symm
  | cons c' cs ih =>
    rw [walk, walkTokens, if_neg (hne c List.mem_cons_self), h.visit_eq hm hdir]
    rcases hlookup : m.fs.lookup dir c with _ | st'
    · exact ⟨rfl, by decide⟩
    have hst := hright st' hlookup
    have hne' : ∀ t ∈ c' :: cs, t ≠ [] := fun t ht => hne t (List.mem_cons_of_mem c ht)
    simp only [Option.bind_some, Found, Option.elim_some, Except.map, if_neg (List.cons_ne_nil _ _)]
    split_ifs at hst ⊢ with hdir'
    · rw [found_of_directory hdir' hst.1]
      exact ih (h.enter hm hdir').1 (h.enter hm hdir').2 hne' hst.2 st'
    · -- the code looks for the next component all the same, and does not find it
      obtain ⟨e, he⟩ := hst
      have hvisit : (Walk.found mounts ⟨m, dir, st⟩ st').visit mounts c' = .error e := he
      rw [walkTokens, if_neg (hne' c' List.mem_cons_self), hvisit]
      exact ⟨rfl, Walk.visit_neg he⟩

theorem walk_append_of_none {as : List (List Char)} (bs : List (List Char))
    (h : walk mounts m dir as = none) : walk mounts m dir (as ++ bs) = none := by
  induction as generalizing m dir with
  | nil => cases h
  | cons a as ih =>
    rw [List.cons_append]
    rw [walk] at h ⊢
    rcases hlookup : m.fs.lookup dir a with _ | st
    · rfl
    rw [hlookup, Option.bind_some] at h
    rw [Option.bind_some]
    split_ifs at h with hnil hst
    · rw [if_neg (by simp [hnil]), if_pos hst]
      exact ih h
    · rw [if_neg (by simp [hnil]), if_neg hst]

end Walking

theorem front_append (rest : List Char) : ∃ bs, components ('/' :: rest) = front ('/' :: rest) ++ bs := by
  refine ⟨((rest.splitOn '/').dropWhile (· ≠ [])).filter (· ≠ []), ?_⟩
  have hsplit : ('/' :: rest).splitOn '/' = [] :: rest.splitOn '/' :=
    List.splitOn_append_cons_self_of_not_mem (List.not_mem_nil) rest
  have hfront : ((rest.splitOn '/').takeWhile (· ≠ [])).filter (· ≠ []) =
      (rest.splitOn '/').takeWhile (· ≠ []) :=
    List.filter_eq_self.mpr fun t ht => List.mem_takeWhile_imp (p := fun t => decide (t ≠ [])) ht
  rw [components, hsplit, List.filter_cons_of_neg (by simp), front, List.tail_cons]
  conv_lhs => rw [← List.takeWhile_append_dropWhile (p := fun t => decide (t ≠ []))
    (l := rest.splitOn '/')]
  rw [List.filter_append, hfront]

/-- `vfs_stat` of an absolute path resolves it when the path has no gap and the code
walks it right: it stores the object that walking the components reaches, and fails
where there is none. -/
theorem path_resolved {root : Mount} {mounts : List Mount} (h : Trees root mounts)
    (path : List Char) (habs : path.head? = some '/') (hroot : path ≠ ['/'])
    (hgap : NoGap root mounts path) (hright : WalksRight mounts root root.rootdir (front path)) :
    Resolved (walk mounts root root.rootdir (components path)) Prod.snd
      (vfsStat (some root) mounts true (some path)) := by
  obtain ⟨rest, rfl⟩ := List.head?_eq_some_iff.mp habs
  have hfront : ∀ t ∈ front ('/' :: rest), t ≠ [] := fun t ht => by
    simpa using List.mem_takeWhile_imp (p := fun t => decide (t ≠ [])) ht
  rw [vfsStat_eq root mounts (by simpa using hroot)]
  have hresolved : Resolved (walk mounts root root.rootdir (front ('/' :: rest))) Walk.st
      (walkTokens mounts ⟨root, root.rootdir, root.rootdir⟩ (front ('/' :: rest))) := by
    rcases hcs : front ('/' :: rest) with _ | ⟨c, cs⟩
    · rfl
    · rw [hcs] at hfront hright
      exact h.walkTokens_resolved List.mem_cons_self (h.rootdir root List.mem_cons_self) hfront
        hright root.rootdir
  have hwalk : walk mounts root root.rootdir (components ('/' :: rest)) =
      walk mounts root root.rootdir (front ('/' :: rest)) := by
    rcases hgap with hgap | hgap
    · rw [hgap]
    · obtain ⟨bs, hbs⟩ := front_append rest
      rw [hgap, hbs]
      exact walk_append_of_none bs hgap
  rw [hwalk]
  generalize walkTokens mounts ⟨root, root.rootdir, root.rootdir⟩ (front ('/' :: rest)) = r at *
  cases r with
  | error e => exact hresolved
  | ok s => exact hresolved

/-- A file system whose directories are listed by inode number. -/
def listedFs (entries : ℕ → List (List Char × Stat)) : MountedFs where
  caseSensitive := true
  readdir := fun dir i => ((entries dir.ino)[i]?).elim (.error (-enoent)) .ok
  size := fun dir => (entries dir.ino).length
  error_neg := by
    intro dir i e h
    rcases hget : (entries dir.ino)[i]? with _ | x
    · rw [hget] at h
      cases h
      decide
    · rw [hget] at h
      cases h
  ends := fun dir => ⟨-enoent, by rw [List.getElem?_eq_none le_rfl]; rfl⟩

def plainStat (ino mode : ℕ) : Stat := ⟨0, ino, mode, 1, 0, 0, 0, 0, 512, 0, 0, 0, 0, 0⟩

def rootEntries (ino : ℕ) : List (List Char × Stat) :=
  if ino = 1 then [(['f'], plainStat 6 0x81ff), (['m'], plainStat 5 0x41ff)] else []

def mountedEntries (ino : ℕ) : List (List Char × Stat) :=
  if ino = 2 then [(['x'], plainStat 7 0x81ff)] else []

/-- A root directory with a file `f` and a directory `m`. -/
def exampleRoot : Mount where
  id := 0
  fs := listedFs rootEntries
  rootdir := plainStat 1 0x41ff
  ino := 1
  parent := 0

/-- A tree with one file `x`, mounted on `/m`. -/
def exampleMount : Mount where
  id := 1
  fs := listedFs mountedEntries
  rootdir := plainStat 2 0x41ff
  ino := 5
  parent := 0

theorem listedFs_entry (entries : ℕ → List (List Char × Stat)) (dir : Stat) {i : ℕ}
    (hi : i < (listedFs entries).size dir) : ∃ e, (listedFs entries).readdir dir i = .ok e := by
  rw [listedFs] at hi ⊢
  exact ⟨_, by dsimp only; rw [List.getElem?_eq_getElem hi]; rfl⟩

theorem listedFs_done (entries : ℕ → List (List Char × Stat)) (dir : Stat) :
    (listedFs entries).readdir dir ((listedFs entries).size dir) = .error (-enoent) := by
  rw [listedFs]
  dsimp only
  rw [List.getElem?_eq_none le_rfl]
  rfl

theorem example_trees : Trees exampleRoot [exampleMount] := by
  have hlisted : ∀ m ∈ [exampleRoot, exampleMount], m.rootdir.IsDirectory ∧
      ∃ entries, m.fs = listedFs entries := by
    intro m hm
    obtain rfl | rfl : m = exampleRoot ∨ m = exampleMount := by simpa using hm
    · exact ⟨by decide, rootEntries, rfl⟩
    · exact ⟨by decide, mountedEntries, rfl⟩
  refine ⟨fun m hm => (hlisted m hm).1, fun m hm dir _ i hi => ?_, fun m hm dir _ => ?_⟩
  · obtain ⟨-, entries, hfs⟩ := hlisted m hm
    rw [hfs] at hi ⊢
    exact listedFs_entry entries dir hi
  · obtain ⟨-, entries, hfs⟩ := hlisted m hm
    rw [hfs]
    exact listedFs_done entries dir

/-- The file in the mounted tree, and a name that is not there. -/
theorem path_resolved_across_mount :
    Resolved (some (plainStat 7 0x81ff)) Prod.snd
      (vfsStat (some exampleRoot) [exampleMount] true (some ['/', 'm', '/', 'x', '/'])) ∧
    Resolved none Prod.snd
      (vfsStat (some exampleRoot) [exampleMount] true (some ['/', 'm', '/', 'f'])) := by
  have hright : ∀ c, WalksRight [exampleMount] exampleRoot exampleRoot.rootdir [['m'], c] := by
    intro c st hst
    obtain rfl : plainStat 5 0x41ff = st := Option.some.inj hst
    exact ⟨rfl, trivial⟩
  have hx : walk [exampleMount] exampleRoot exampleRoot.rootdir
      (components ['/', 'm', '/', 'x', '/']) = some (plainStat 7 0x81ff) := by decide
  have hf : walk [exampleMount] exampleRoot exampleRoot.rootdir
      (components ['/', 'm', '/', 'f']) = none := by decide
  refine ⟨?_, ?_⟩
  · rw [← hx]
    exact path_resolved example_trees ['/', 'm', '/', 'x', '/'] rfl (by decide) (Or.inl (by decide))
      (hright ['x'])
  · rw [← hf]
    exact path_resolved example_trees ['/', 'm', '/', 'f'] rfl (by decide) (Or.inl (by decide))
      (hright ['f'])

/-- `/f/m` goes through a file: the code looks `m` up in the directory of the file. -/
theorem path_resolved_through_file :
    ¬ ∀ (root : Mount) (mounts : List Mount) (path : List Char), Trees root mounts →
      path.head? = some '/' → path ≠ ['/'] →
      Resolved (walk mounts root root.rootdir (components path)) Prod.snd
        (vfsStat (some root) mounts true (some path)) := by
  intro h
  have hresolved := h exampleRoot [exampleMount] ['/', 'f', '/', 'm'] example_trees rfl (by decide)
  have hcode : vfsStat (some exampleRoot) [exampleMount] true (some ['/', 'f', '/', 'm']) =
      .ok (some exampleMount, plainStat 5 0x41ff) := rfl
  have hspec : walk [exampleMount] exampleRoot exampleRoot.rootdir
      (components ['/', 'f', '/', 'm']) = none := by decide
  rw [hcode, hspec] at hresolved
  cases hresolved

end DosKernel.Vfs
