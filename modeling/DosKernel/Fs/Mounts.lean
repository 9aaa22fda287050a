import DosKernel.Fs.Paths
import DosKernel.Lib.Runs

/-! The table of mounts that `vfs_mount` fills. A mounted tree hangs below its mount point, as
if it were the root, and everything that does not pass through a mount point is found as before. -/

namespace DosKernel.Vfs

open Lib

/-- The error numbers of `vfs_mount`. -/
def eexist : ℤ := 17

def enospc : ℤ := 28

/-- `filesystem`, with the root directory that its `init` has stored. -/
structure Filesystem where
  fs : MountedFs
  rootdir : Stat

/-- `root_mount` and `mounts`. -/
structure MountTable where
  root : Option Mount
  m : List Mount
  capacity : ℕ

/-- `vfs_init`; the root file system was chosen before. -/
def vfsInit (rootfs : Filesystem) : MountTable where
  root := some ⟨0, rootfs.fs, rootfs.rootdir, rootfs.rootdir.ino, 0⟩
  m := []
  capacity := 10

/-- `rootdir.st` of the new entry. `strncpy` stores a 0 behind the 256 characters of
`rootdir.name`, in the low byte of `st_dev`. -/
def Filesystem.mountedRootdir (fs : Filesystem) : Stat :=
  { fs.rootdir with dev := fs.rootdir.dev / 256 * 256 }

/-- The entry that `vfs_mount` makes for a directory; the numbers of the mounts count them. -/
def MountTable.entry (s : MountTable) (fs : Filesystem) (found : Option Mount × Stat) : Mount where
  id := s.m.length + 1
  fs := fs.fs
  rootdir := fs.mountedRootdir
  ino := found.2.ino
  parent := found.1.elim 0 Mount.id

/-- `vfs_mount`: the returned value and the table. `driver` tells whether there is a driver,
`allocated` whether `vfs_stat` gets its memory. -/
def vfsMount (s : MountTable) (allocated driver : Bool) (fs : Option Filesystem)
    (path : Option (List Char)) : ℤ × MountTable :=
  match s.root, fs, path with
  | none, _, _ => (-enodev, s)
  | some _, none, _ => (-einval, s)
  | some _, _, none => (-einval, s)
  | some root, some fs, some path =>
    if driver = false then (-einval, s)
    else if s.m.length = s.capacity then (-enospc, s)
    else if path = [] ∨ path.head? ≠ some '/' then (-einval, s)
    else
      match vfsStat (some root) s.m allocated (some path) with
      | .error _ => (-enoent, s)
      | .ok found =>
        if ∃ m ∈ s.m, m.ino = found.2.ino then (-eexist, s)
        else (0, { s with m := s.m ++ [s.entry fs found] })

/-- The arguments of a call, and whether its `calloc` succeeds. -/
structure MountCall where
  allocated : Bool
  driver : Bool
  fs : Option Filesystem
  path : Option (List Char)

def mountStep (s : MountTable) (call : MountCall) : Option MountTable :=
  some (vfsMount s call.allocated call.driver call.fs call.path).2

/-! ### The table -/

/-- A call fails and changes nothing, or it adds the entry for a directory whose inode number
is in no other one. -/
theorem vfsMount_cases (s : MountTable) (allocated driver : Bool) (fs : Option Filesystem)
    (path : Option (List Char)) :
    ((vfsMount s allocated driver fs path).1 < 0 ∧ (vfsMount s allocated driver fs path).2 = s) ∨
    ∃ root fs' path' found, s.root = some root ∧ fs = some fs' ∧ path = some path' ∧
      path'.head? = some '/' ∧ s.m.length ≠ s.capacity ∧
      vfsStat (some root) s.m allocated (some path') = .ok found ∧
      (∀ m ∈ s.m, m.ino ≠ found.2.ino) ∧
      vfsMount s allocated driver fs path = (0, { s with m := s.m ++ [s.entry fs' found] }) := by
  have hnodev : -enodev < 0 := by decide
  have hinval : -einval < 0 := by decide
  unfold vfsMount
  rcases hroot : s.root with _ | root
  · exact .inl ⟨hnodev, rfl⟩
  rcases fs with _ | fs
  · exact .inl ⟨hinval, rfl⟩
  rcases path with _ | path
  · exact .inl ⟨hinval, rfl⟩
  dsimp only
  split_ifs with hdriver hfull hpath
  · exact .inl ⟨hinval, rfl⟩
  · exact .inl ⟨show -enospc < 0 by decide, rfl⟩
  · exact .inl ⟨hinval, rfl⟩
  rcases hstat : vfsStat (some root) s.m allocated (some path) with e | found
  · exact .inl ⟨show -enoent < 0 by decide, rfl⟩
  dsimp only
  split_ifs with hmounted
  · exact .inl ⟨show -eexist < 0 by decide, rfl⟩
  push Not at hpath hmounted
  exact .inr ⟨root, fs, path, found, rfl, rfl, rfl, hpath.2, hfull, hstat, hmounted, rfl⟩

/-- The table has room for its mounts, and no two of them cover the same inode number. -/
structure MountTable.Ok (s : MountTable) : Prop where
  length_le : s.m.length ≤ s.capacity
  distinct : (s.m.map Mount.ino).Nodup

theorem MountTable.Ok.step {s s' : MountTable} {call : MountCall} (h : s.Ok)
    (hs : mountStep s call = some s') : s'.Ok := by
  obtain rfl := Option.some.inj hs
  rcases vfsMount_cases s call.allocated call.driver call.fs call.path with
    ⟨-, heq⟩ | ⟨root, fs, path, found, -, -, -, -, hroom, -, hnew, heq⟩
  · rw [heq]
    exact h
  · rw [heq]
    have hlen := h.length_le
    constructor
    · simp only [List.length_append, List.length_singleton]
      omega
    · rw [List.map_append, List.nodup_append]
      refine ⟨h.distinct, List.nodup_singleton _, ?_⟩
      intro ino hino ino' hino'
      obtain ⟨m, hm, rfl⟩ := List.mem_map.mp hino
      obtain rfl := List.mem_singleton.mp hino'
      exact hnew m hm

/-- A call keeps the root and the entries that are there. -/
theorem mountStep_prefix {s s' : MountTable} {call : MountCall} (hs : mountStep s call = some s') :
    s'.root = s.root ∧ s'.capacity = s.capacity ∧ s.m <+: s'.m := by
  obtain rfl := Option.some.inj hs
  rcases vfsMount_cases s call.allocated call.driver call.fs call.path with
    ⟨-, heq⟩ | ⟨root, fs, path, found, -, -, -, -, -, -, -, heq⟩
  · rw [heq]
    exact ⟨rfl, rfl, List.prefix_refl _⟩
  · rw [heq]
    exact ⟨rfl, rfl, List.prefix_append _ _⟩

theorem mounts_prefix {s s' : MountTable} {calls : List MountCall}
    (hrun : Run mountStep Anything s calls s') :
    s'.root = s.root ∧ s'.capacity = s.capacity ∧ s.m <+: s'.m := by
  induction hrun with
  | nil s => exact ⟨rfl, rfl, List.prefix_refl _⟩
  | cons _ hs _ ih =>
    obtain ⟨hroot, hcap, hpre⟩ := mountStep_prefix hs
    exact ⟨ih.1.trans hroot, ih.2.1.trans hcap, hpre.trans ih.2.2⟩

/-! ### The way of a path -/

/-- The names of a path that `vfs_stat` looks up, with a slash in front or not. -/
def names (path : List Char) : List (List Char) :=
  ((if path.head? = some '/' then path.tail else path).splitOn '/').takeWhile (· ≠ [])

/-- The inode numbers of the directories that the loop finds, and looks up in the table. -/
def met (mounts : List Mount) : Walk → List (List Char) → List ℕ
  | _, [] => []
  | s, t :: ts =>
    match s.visit mounts t with
    | .error _ => []
    | .ok s' => (if s'.st.mode &&& sIfdir ≠ 0 then [s'.st.ino] else []) ++ met mounts s' ts

/-- The walk starts at the root of the tree. -/
def Mount.start (root : Mount) : Walk := ⟨root, root.rootdir, root.rootdir⟩

/-- `vfs_stat` of a path other than `/` goes over its names. -/
theorem vfsStat_names (root : Mount) (mounts : List Mount) {path : List Char} (hne : path ≠ [])
    (hroot : path ≠ ['/']) : vfsStat (some root) mounts true (some path) =
      (walkTokens mounts root.start (names path)).map fun s => (some s.mount, s.st) := by
  obtain ⟨t, ht, hsplit⟩ := strtok_some (if path.head? = some '/' then path.tail else path) none
  have hlen := splitOn_length_le (if path.head? = some '/' then path.tail else path)
  have hshort : (if path.head? = some '/' then path.tail else path).length ≤ path.length := by
    split_ifs
    · simp
    · exact le_rfl
  simp only [vfsStat, if_neg hne, if_neg hroot, ht]
  rw [if_neg (by decide), walkPath_eq, ← hsplit, walkTokens_takeWhile]
  · rfl
  · rw [hsplit, List.length_cons] at hlen
    omega

/-- Mounts that come later are not seen where another one has the inode number, or none. -/
theorem mountAt_append {mounts : List Mount} (more : List Mount) {ino : ℕ}
    (h : ∀ m ∈ more, m.ino ≠ ino) : mountAt (mounts ++ more) ino = mountAt mounts ino := by
  have hmore : more.find? (fun m => m.ino = ino) = none := by
    simpa using h
  rw [mountAt, List.find?_append, hmore, Option.or_none, mountAt]

theorem found_append {mounts : List Mount} (more : List Mount) (s : Walk) {st : Stat}
    (h : st.mode &&& sIfdir ≠ 0 → ∀ m ∈ more, m.ino ≠ st.ino) :
    s.found (mounts ++ more) st = s.found mounts st := by
  unfold Walk.found
  split_ifs with hdir
  · rw [mountAt_append more (h hdir)]
  · rfl

/-- A visit with more mounts finds the same object, and goes on in the same place when none of
them covers it. -/
theorem visit_append {mounts : List Mount} (more : List Mount) (s : Walk) (t : List Char)
    (h : ∀ s', s.visit mounts t = .ok s' → s'.st.mode &&& sIfdir ≠ 0 →
      ∀ m ∈ more, m.ino ≠ s'.st.ino) :
    s.visit (mounts ++ more) t = s.visit mounts t := by
  unfold Walk.visit at h ⊢
  rcases hfind : findEntry s.mount.fs s.dir t (s.mount.fs.size s.dir + 1) 0 with e | st
  · rfl
  · rw [hfind] at h
    have hst := h _ rfl
    rw [found_st] at hst
    exact congrArg Except.ok (found_append more s hst)

/-- The loop does not see mounts whose inode numbers it does not meet. -/
theorem walkTokens_frame {mounts : List Mount} (more : List Mount) (s : Walk)
    {ts : List (List Char)} (h : ∀ m ∈ more, m.ino ∉ met mounts s ts) :
    walkTokens (mounts ++ more) s ts = walkTokens mounts s ts := by
  induction ts generalizing s with
  | nil => rfl
  | cons t ts ih =>
    have hvisit : s.visit (mounts ++ more) t = s.visit mounts t := by
      apply visit_append
      intro s' hs' hdir m hm heq
      apply h m hm
      simp only [met, hs', if_pos hdir, List.mem_append, List.mem_singleton]
      exact .inl heq
    simp only [walkTokens, hvisit]
    split_ifs
    · rfl
    rcases hs' : s.visit mounts t with e | s'
    · rfl
    · apply ih
      intro m hm hmem
      apply h m hm
      simp only [met, hs']
      exact List.mem_append_right _ hmem

/-- The inode numbers of the directories that `vfs_stat` meets on the way of a path. -/
def MountTable.met (s : MountTable) (path : List Char) : List ℕ :=
  s.root.elim [] fun root => Vfs.met s.m root.start (names path)

/-- `vfs_stat` in a state. -/
def MountTable.stat (s : MountTable) (allocated : Bool) (path : List Char) :
    Except ℤ (Option Mount × Stat) := vfsStat s.root s.m allocated (some path)

/-- Among mounts that cover different inode numbers, each one is found by its own. -/
theorem mountAt_of_nodup {mounts : List Mount} (h : (mounts.map Mount.ino).Nodup) {m : Mount}
    (hm : m ∈ mounts) : mountAt mounts m.ino = some m := by
  induction mounts with
  | nil => cases hm
  | cons x mounts ih =>
    rw [List.map_cons, List.nodup_cons] at h
    rcases List.mem_cons.mp hm with rfl | hm
    · simp [mountAt]
    · have hx : x.ino ≠ m.ino := fun heq => h.1 (heq ▸ List.mem_map_of_mem hm)
      rw [mountAt, List.find?_cons_of_neg (by simpa using hx)]
      exact ih h.2 hm

/-- In every run of calls of `vfs_mount` after `vfs_init`, whatever their arguments and whatever
they return, the root stays, the table has at most ten mounts, and none of them hides another:
each is the one that `vfs_stat` enters at its inode number. -/
theorem mounts_entered {rootfs : Filesystem} {s : MountTable} {calls : List MountCall}
    (hrun : Run mountStep Anything (vfsInit rootfs) calls s) :
    s.root = (vfsInit rootfs).root ∧ s.m.length ≤ 10 ∧ ∀ m ∈ s.m, mountAt s.m m.ino = some m := by
  have hok : s.Ok := hrun.invariant (fun _ _ _ h _ hs => h.step hs)
    ⟨Nat.zero_le _, List.nodup_nil⟩
  obtain ⟨hroot, hcap, -⟩ := mounts_prefix hrun
  refine ⟨hroot, ?_, fun m hm => mountAt_of_nodup hok.distinct hm⟩
  have hlen := hok.length_le
  rwa [hcap] at hlen

/-- The file system with the files `f` and `m` as the root. -/
def exampleRootfs : Filesystem := ⟨exampleRoot.fs, exampleRoot.rootdir⟩

/-- A call that mounts the file system with the file `x` on `/m`. -/
def exampleCall : MountCall :=
  ⟨true, true, some ⟨exampleMount.fs, exampleMount.rootdir⟩, some ['/', 'm']⟩

/-- The second of two such calls fails. -/
theorem mounts_entered_twice : ∃ s, Run mountStep Anything (vfsInit exampleRootfs)
    [exampleCall, exampleCall] s ∧ s.m.length = 1 ∧ ∀ m ∈ s.m, mountAt s.m m.ino = some m := by
  have hruns : ∃ s, Run mountStep Anything (vfsInit exampleRootfs) [exampleCall, exampleCall] s ∧
      s.m.length = 1 := ⟨_, .cons trivial rfl (.cons trivial rfl (.nil _)), rfl⟩
  obtain ⟨s, hrun, hlen⟩ := hruns
  exact ⟨s, hrun, hlen, (mounts_entered hrun).2.2⟩

/-- In every run of calls of `vfs_mount`, a path keeps its object, or its error, unless a new
mount covers the inode number of a directory that is met on the way. -/
theorem other_paths_kept {s s' : MountTable} {calls : List MountCall}
    (hrun : Run mountStep Anything s calls s') {path : List Char}
    (hway : ∀ m ∈ s'.m.drop s.m.length, m.ino ∉ s.met path) (allocated : Bool) :
    s'.stat allocated path = s.stat allocated path := by
  obtain ⟨hroot, -, more, hmore⟩ := mounts_prefix hrun
  rw [← hmore, List.drop_left] at hway
  unfold MountTable.stat
  rw [hroot, ← hmore]
  rcases hr : s.root with _ | root
  · rfl
  rcases eq_or_ne path [] with rfl | hne
  · rfl
  rcases eq_or_ne path ['/'] with rfl | hslash
  · rfl
  cases allocated with
  | false => simp only [vfsStat, if_neg hne, if_neg hslash, if_pos]
  | true =>
    rw [vfsStat_names root _ hne hslash, vfsStat_names root _ hne hslash, walkTokens_frame]
    simpa only [MountTable.met, hr, Option.elim_some] using hway

def deepEntries (ino : ℕ) : List (List Char × Stat) :=
  if ino = 1 then [(['d'], plainStat 4 0x41ff), (['m'], plainStat 5 0x41ff)]
  else if ino = 4 then [(['g'], plainStat 8 0x81ff)] else []

/-- A root file system with the directories `d` and `m`, and a file `g` in `d`. -/
def deepRootfs : Filesystem := ⟨listedFs deepEntries, plainStat 1 0x41ff⟩

/-- A mount on `/m` has the number of `m`, so the file `/d/g` is found as before, through the
directory `d`. -/
theorem other_paths_kept_file : ∃ s, Run mountStep Anything (vfsInit deepRootfs) [exampleCall] s ∧
    s.m.map Mount.ino = [5] ∧ s.met ['/', 'd', '/', 'g'] = [4] ∧
    s.stat true ['/', 'd', '/', 'g'] = (vfsInit deepRootfs).stat true ['/', 'd', '/', 'g'] := by
  have hruns : ∃ s, Run mountStep Anything (vfsInit deepRootfs) [exampleCall] s ∧
      s.m.map Mount.ino = [5] ∧ s.met ['/', 'd', '/', 'g'] = [4] :=
    ⟨_, .cons trivial rfl (.nil _), rfl, rfl⟩
  obtain ⟨s, hrun, hinos, hmets⟩ := hruns
  have hmet : (vfsInit deepRootfs).met ['/', 'd', '/', 'g'] = [4] := by decide
  refine ⟨s, hrun, hinos, hmets, other_paths_kept hrun (fun m hm => ?_) true⟩
  have hino : m.ino ∈ s.m.map Mount.ino := List.mem_map_of_mem (List.mem_of_mem_drop hm)
  rw [hinos, List.mem_singleton] at hino
  rw [hmet, hino]
  decide

end DosKernel.Vfs
