import DosKernel.Fs.Sequential
import DosKernel.Lib.Orbit
import DosKernel.Lib.Reading

/-! The walks through the cached file allocation table. `fat_calculate_actual_size` and `fat_read`
go from cluster to cluster as the table says; they stop at a value that marks the end of a chain,
and at no other one. -/

namespace DosKernel

open Lib

namespace FatFile
variable (f : FatFile) (tail : ℕ → UInt8)

def fatOffset (cluster : ℕ) : ℕ := if f.fat12 then cluster + cluster / 2 else cluster * 2

/-- `fat12_next_cluster` and `fat16_next_cluster`, with the two bytes of the table that they
read. -/
def lookup (cluster : ℕ) : Reading ℕ :=
  Reading.touch (f.nextCluster cluster)
    (f.fatOffset cluster / f.bytesPerSector * f.bytesPerSector +
      f.fatOffset cluster % f.bytesPerSector) 2

/-- The loop of `fat_calculate_actual_size`; `none` if it has not ended. -/
def actualSizeFrom : (fuel cluster size : ℕ) → Reading (Option ℕ)
  | 0, _, _ => pure none
  | fuel + 1, cluster, size =>
    if cluster < f.invalid then
      f.lookup cluster >>= fun next =>
        actualSizeFrom fuel next ((size + f.bytesPerSector) % word32)
    else pure (some size)

def fatCalculateActualSize (fuel : ℕ) : Reading (Option ℕ) :=
  if f.cluster = 0 then pure (some (f.rootdirEntries * 32)) else f.actualSizeFrom fuel f.cluster 0

/-- The first loop of `fat_read`. -/
def skipReading : (passes cluster : ℕ) → Reading ℕ
  | 0, cluster => pure cluster
  | passes + 1, cluster =>
    if cluster < f.invalid then f.lookup cluster >>= skipReading passes else pure cluster

/-- The second loop. -/
def copyReading (off : ℕ) : (passes count cluster : ℕ) → Reading (Copied UInt8)
  | 0, count, _ => pure ⟨[], count, true⟩
  | passes + 1, count, cluster =>
    if cluster < f.invalid then
      if count = 0 then pure ⟨[], 0, true⟩
      else
        match f.readCluster tail cluster with
        | none => pure ⟨[], count, false⟩
        | some block =>
          let toRead := min count f.bytesPerSector
          f.lookup cluster >>= fun next =>
            copyReading off passes (count - toRead) next >>= fun rest =>
              pure ⟨copyParts block off toRead ++ rest.stored, rest.left, rest.ok⟩
    else pure ⟨[], count, true⟩

/-- `fat_read`, with what it reads of the table. -/
def readReading (count offset : ℕ) : Reading (ℤ × List UInt8) :=
  if f.size ≤ offset then pure (0, [])
  else
    let count := clip f.size count offset
    f.skipReading (offset / f.bytesPerSector) f.cluster >>= fun cluster =>
      f.copyReading tail (offset % f.bytesPerSector) count count cluster >>= fun c =>
        pure (copyResult c)

/-! ### Where the walks come to -/

/-- The entry of a cluster is in the table that `fat_init` has cached. -/
def InTable (cluster : ℕ) : Prop := f.fatOffset cluster + 2 ≤ f.sectorsPerFat * f.bytesPerSector

def Chained (n : ℕ) : Prop := Goes f.nextCluster (· < f.invalid) f.cluster n

/-- The chain does not come back to a cluster where it has been. -/
def Acyclic : Prop := ∀ i j, i < j → f.Chained j → f.clusterAt i ≠ f.clusterAt j

/-- The second loop goes on from a cluster when its sector can be read. -/
def Continues (cluster : ℕ) : Prop := cluster < f.invalid ∧ (f.readCluster tail cluster).isSome

/-- A read looks place `n` of the chain up, to skip it. -/
def Skips (offset n : ℕ) : Prop := n < offset / f.bytesPerSector ∧ f.Chained n

/-- A read looks up the place `n` places behind the skipped ones, after it has read its sector. -/
def Copies (count offset n : ℕ) : Prop :=
  n * f.bytesPerSector < clip f.size count offset ∧
    Goes f.nextCluster (f.Continues tail) (f.skipClusters (offset / f.bytesPerSector) f.cluster) n

variable {f tail} {size cluster passes count offset off fuel n : ℕ}

@[simp] theorem lookup_value (f : FatFile) (cluster : ℕ) :
    (f.lookup cluster).value = f.nextCluster cluster := rfl

@[simp] theorem lookup_inside : Reading.Inside size (f.lookup cluster) ↔
    f.fatOffset cluster + 2 ≤ size := by
  rw [lookup, Reading.inside_touch, Nat.mul_comm, Nat.div_add_mod]

/-- The walk ends when it comes to a value that does not go on. -/
theorem actualSizeFrom_isSome (s : ℕ) : (f.actualSizeFrom fuel cluster s).value.isSome ↔
    ∃ n < fuel, ¬ f.nextCluster^[n] cluster < f.invalid := by
  induction fuel generalizing cluster s with
  | zero => simp [actualSizeFrom]
  | succ fuel ih =>
    rw [actualSizeFrom]
    split_ifs with hgo
    · rw [Reading.value_bind, ih]
      constructor
      · rintro ⟨n, hn, hend⟩
        exact ⟨n + 1, Nat.succ_lt_succ hn, hend⟩
      · rintro ⟨n, hn, hend⟩
        cases n with
        | zero => exact absurd hgo hend
        | succ n => exact ⟨n, Nat.lt_of_succ_lt_succ hn, hend⟩
    · exact iff_of_true rfl ⟨0, Nat.succ_pos _, hgo⟩

/-- What holds at all places of a walk holds at the first one and at those behind it. -/
theorem goes_forall_succ (go P : ℕ → Prop) (hgo : go cluster) :
    (∀ n < passes + 1, Goes f.nextCluster go cluster n → P (f.nextCluster^[n] cluster)) ↔
      P cluster ∧ ∀ n < passes, Goes f.nextCluster go (f.nextCluster cluster) n →
        P (f.nextCluster^[n] (f.nextCluster cluster)) := by
  constructor
  · intro h
    refine ⟨h 0 (Nat.succ_pos _) (goes_zero.mpr hgo), fun n hn hgoes => ?_⟩
    exact h (n + 1) (Nat.succ_lt_succ hn) (goes_succ.mpr ⟨hgo, hgoes⟩)
  · rintro ⟨hfirst, hrest⟩ n hn hgoes
    cases n with
    | zero => exact hfirst
    | succ n => exact hrest n (Nat.lt_of_succ_lt_succ hn) (goes_succ.mp hgoes).2

theorem actualSizeFrom_inside (s : ℕ) : Reading.Inside size (f.actualSizeFrom fuel cluster s) ↔
    ∀ n < fuel, Goes f.nextCluster (· < f.invalid) cluster n →
      f.fatOffset (f.nextCluster^[n] cluster) + 2 ≤ size := by
  induction fuel generalizing cluster s with
  | zero => simp [actualSizeFrom]
  | succ fuel ih =>
    rw [actualSizeFrom]
    split_ifs with hgo
    · rw [Reading.inside_bind, lookup_inside, lookup_value, ih]
      exact (goes_forall_succ (· < f.invalid) (f.fatOffset · + 2 ≤ size) hgo).symm
    · exact iff_of_true (Reading.inside_pure _ _) fun n _ hgoes => absurd (hgoes 0 (Nat.zero_le _)) hgo

theorem skipReading_value (passes cluster : ℕ) :
    (f.skipReading passes cluster).value = f.skipClusters passes cluster := by
  induction passes generalizing cluster with
  | zero => rfl
  | succ passes ih =>
    rw [skipReading, skipClusters]
    split_ifs
    · exact ih _
    · rfl

theorem skipReading_inside : Reading.Inside size (f.skipReading passes cluster) ↔
    ∀ n < passes, Goes f.nextCluster (· < f.invalid) cluster n →
      f.fatOffset (f.nextCluster^[n] cluster) + 2 ≤ size := by
  induction passes generalizing cluster with
  | zero => simp [skipReading]
  | succ passes ih =>
    rw [skipReading]
    split_ifs with hgo
    · rw [Reading.inside_bind, lookup_inside, lookup_value, ih]
      exact (goes_forall_succ (· < f.invalid) (f.fatOffset · + 2 ≤ size) hgo).symm
    · exact iff_of_true (Reading.inside_pure _ _) fun n _ hgoes => absurd (hgoes 0 (Nat.zero_le _)) hgo

theorem copyReading_value (tail : ℕ → UInt8) (off passes count cluster : ℕ) :
    (f.copyReading tail off passes count cluster).value =
      copyBlocks f.bytesPerSector off ((f.clusterChain passes cluster).map (f.readCluster tail))
        count := by
  induction passes generalizing count cluster with
  | zero => rfl
  | succ passes ih =>
    rw [copyReading, clusterChain]
    split_ifs with hgo hcount
    · rw [hcount, copyBlocks_zero]
      rfl
    · rw [List.map_cons]
      cases f.readCluster tail cluster with
      | none =>
        rw [copyBlocks, if_neg hcount]
        rfl
      | some block =>
        rw [copyBlocks, if_neg hcount]
        simp only [Reading.value_bind, lookup_value, ih, Reading.value_pure]
    · rfl

theorem copyReading_inside : Reading.Inside size (f.copyReading tail off passes count cluster) ↔
    ∀ n < passes, Goes f.nextCluster (f.Continues tail) cluster n → n * f.bytesPerSector < count →
      f.fatOffset (f.nextCluster^[n] cluster) + 2 ≤ size := by
  have hpos := f.bytes_pos
  induction passes generalizing count cluster with
  | zero => simp [copyReading]
  | succ passes ih =>
    rw [copyReading]
    split_ifs with hgo hcount
    · exact iff_of_true (Reading.inside_pure _ _) fun n _ _ hn => by omega
    · cases hread : f.readCluster tail cluster with
      | none =>
        refine iff_of_true (Reading.inside_pure _ _) fun n _ hgoes => ?_
        have := (hgoes 0 (Nat.zero_le _)).2
        rw [Function.iterate_zero_apply, hread] at this
        cases this
      | some block =>
        have hfirst : f.Continues tail cluster := ⟨hgo, by rw [hread]; rfl⟩
        -- a place is inside the rest of the count exactly if the next one is inside the count
        have hnext : ∀ n, n * f.bytesPerSector < count - min count f.bytesPerSector ↔
            (n + 1) * f.bytesPerSector < count := fun n => by
          rw [Nat.succ_mul]
          omega
        have hrest : Reading.Inside size (f.copyReading tail off passes
          (count - min count f.bytesPerSector) (f.nextCluster cluster)) ↔ _ := ih
        dsimp only
        rw [Reading.inside_bind, lookup_inside, lookup_value, Reading.inside_bind, hrest]
        constructor
        · rintro ⟨hinside, hrest, -⟩ n hn hgoes hlt
          cases n with
          | zero => exact hinside
          | succ n =>
            exact hrest n (Nat.lt_of_succ_lt_succ hn) (goes_succ.mp hgoes).2 ((hnext n).mpr hlt)
        · intro h
          refine ⟨h 0 (Nat.succ_pos _) (goes_zero.mpr hfirst) (by omega), fun n hn hgoes hlt => ?_,
            Reading.inside_pure _ _⟩
          exact h (n + 1) (Nat.succ_lt_succ hn) (goes_succ.mpr ⟨hfirst, hgoes⟩) ((hnext n).mp hlt)
    · exact iff_of_true (Reading.inside_pure _ _)
        fun n _ hgoes _ => absurd (hgoes 0 (Nat.zero_le _)).1 hgo

theorem readReading_value (f : FatFile) (tail : ℕ → UInt8) (count offset : ℕ) :
    (f.readReading tail count offset).value = f.read tail count offset := by
  rw [readReading, read]
  split_ifs
  · rfl
  · simp only [Reading.value_bind, skipReading_value, copyReading_value, Reading.value_pure]

theorem readReading_inside : Reading.Inside size (f.readReading tail count offset) ↔
    (offset < f.size →
      (∀ n, f.Skips offset n → f.fatOffset (f.clusterAt n) + 2 ≤ size) ∧
      ∀ n, f.Copies tail count offset n → f.fatOffset (f.nextCluster^[n]
        (f.skipClusters (offset / f.bytesPerSector) f.cluster)) + 2 ≤ size) := by
  rw [readReading]
  split_ifs with hpast
  · exact iff_of_true (Reading.inside_pure _ _) fun hlt => absurd hpast (Nat.not_le.mpr hlt)
  · rw [imp_iff_right (Nat.lt_of_not_le hpast), Reading.inside_bind, Reading.inside_bind,
      skipReading_inside, skipReading_value, copyReading_inside]
    refine and_congr ?_ ?_
    · simp only [Skips, Chained, clusterAt, and_imp]
    · rw [and_iff_left (Reading.inside_pure _ _)]
      refine forall_congr' fun n => ?_
      constructor
      · rintro h ⟨hlt, hgoes⟩
        exact h (lt_of_le_of_lt (Nat.le_mul_of_pos_right n f.bytes_pos) hlt) hgoes hlt
      · exact fun h _ hgoes hlt => h ⟨hlt, hgoes⟩

/-! ### When the walks are safe -/

theorem fatCalculateActualSize_ends :
    (∃ fuel, (f.fatCalculateActualSize fuel).value.isSome) ↔ f.cluster = 0 ∨ f.Acyclic := by
  simp only [fatCalculateActualSize]
  split_ifs with hzero
  · exact iff_of_true ⟨0, rfl⟩ (.inl hzero)
  · have hends : (∃ n, ¬ f.nextCluster^[n] f.cluster < f.invalid) ↔ f.Acyclic :=
      ends_iff (Set.finite_lt_nat f.invalid)
    rw [or_iff_right hzero, ← hends]
    simp only [actualSizeFrom_isSome]
    constructor
    · rintro ⟨fuel, n, -, hend⟩
      exact ⟨n, hend⟩
    · rintro ⟨n, hend⟩
      exact ⟨n + 1, n, Nat.lt_succ_self n, hend⟩

theorem fatCalculateActualSize_mono {fuel' : ℕ} (hle : fuel ≤ fuel')
    (h : (f.fatCalculateActualSize fuel).value.isSome) :
    (f.fatCalculateActualSize fuel').value.isSome := by
  rw [fatCalculateActualSize] at h ⊢
  split_ifs at h ⊢
  · rfl
  · obtain ⟨n, hn, hend⟩ := (actualSizeFrom_isSome 0).mp h
    exact (actualSizeFrom_isSome 0).mpr ⟨n, hn.trans_le hle, hend⟩

theorem fatCalculateActualSize_inside :
    (∀ fuel, Reading.Inside size (f.fatCalculateActualSize fuel)) ↔
      f.cluster = 0 ∨ ∀ n, f.Chained n → f.fatOffset (f.clusterAt n) + 2 ≤ size := by
  simp only [fatCalculateActualSize]
  split_ifs with hzero
  · exact iff_of_true (fun _ => Reading.inside_pure _ _) (.inl hzero)
  · rw [or_iff_right hzero]
    simp only [actualSizeFrom_inside]
    constructor
    · exact fun h n hchained => h (n + 1) n (Nat.lt_succ_self n) hchained
    · exact fun h fuel n _ hchained => h n hchained

/-- `fat_calculate_actual_size` ends, and it and `fat_read` read only the cached table, exactly if
the chain of the entry does not come back to a cluster where it has been, and the entries of its
clusters lie in the table, as far as each of the two follows it; for an entry with first cluster 0
only the read does. -/
theorem fat_walks_iff (f : FatFile) (tail : ℕ → UInt8) (count offset : ℕ) :
    ((∃ fuel, (f.fatCalculateActualSize fuel).value.isSome) ∧
      (∀ fuel, Reading.Inside (f.sectorsPerFat * f.bytesPerSector) (f.fatCalculateActualSize fuel)) ∧
      Reading.Inside (f.sectorsPerFat * f.bytesPerSector) (f.readReading tail count offset)) ↔
    (f.cluster = 0 ∨ f.Acyclic) ∧
      (f.cluster = 0 ∨ ∀ n, f.Chained n → f.InTable (f.clusterAt n)) ∧
      (offset < f.size → (∀ n, f.Skips offset n → f.InTable (f.clusterAt n)) ∧
        ∀ n, f.Copies tail count offset n → f.InTable
          (f.nextCluster^[n] (f.skipClusters (offset / f.bytesPerSector) f.cluster))) := by
  rw [fatCalculateActualSize_ends, fatCalculateActualSize_inside, readReading_inside]
  rfl

/-- A chain that comes back to its first cluster. -/
def loopExample : FatFile := { fatExample with bitmap := fun i => if i = 4 then 2 else 0 }

/-- A chain that begins behind the end of the table, which has 5120 entries. -/
def behindExample : FatFile := { fatExample with cluster := 6000 }

/-- The walk around a chain does not end, and a cluster behind the end of the table is looked up
there. -/
theorem fat_walks_wrong :
    (¬ ∀ f : FatFile, ∃ fuel, (f.fatCalculateActualSize fuel).value.isSome) ∧
    (¬ ∀ (f : FatFile) (fuel : ℕ),
      Reading.Inside (f.sectorsPerFat * f.bytesPerSector) (f.fatCalculateActualSize fuel)) ∧
    ¬ ∀ (f : FatFile) (tail : ℕ → UInt8) (count offset : ℕ),
      Reading.Inside (f.sectorsPerFat * f.bytesPerSector) (f.readReading tail count offset) := by
  refine ⟨fun h => ?_, fun h => ?_, fun h => ?_⟩
  · obtain ⟨fuel, hfuel⟩ := h loopExample
    obtain ⟨n, -, hend⟩ := (actualSizeFrom_isSome 0).mp hfuel
    have hnext : loopExample.nextCluster 2 = 2 := by decide
    rw [show loopExample.cluster = 2 from rfl, Function.iterate_fixed hnext] at hend
    exact hend (by decide)
  · have hinside : Reading.Inside 10240 (behindExample.actualSizeFrom 1 6000 0) := h behindExample 1
    have hfirst := (actualSizeFrom_inside 0).mp hinside 0 (by decide) (goes_zero.mpr (by decide))
    exact absurd hfirst (by decide)
  · have hfirst := (readReading_inside.mp (h behindExample (fun _ => 0) 1 0) (by decide)).2 0
      ⟨by decide, goes_zero.mpr ⟨by decide, by decide⟩⟩
    exact absurd hfirst (by decide)

end FatFile

end DosKernel
