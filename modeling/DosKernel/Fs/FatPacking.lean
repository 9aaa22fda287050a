import DosKernel.Fs.Readers

/-! The packed entries of a FAT12 table. Two entries of 12 bits share three bytes; an entry is looked
up in two of them, at a place that is split into a sector and an offset and put together again. -/

namespace DosKernel

/-! ### The code -/

def fat12NextCluster (cluster : ℕ) (buffer : ℕ → UInt8) (entOffset : ℕ) : ℕ :=
  let tableValue := (buffer entOffset).toNat + 256 * (buffer (entOffset + 1)).toNat
  if cluster &&& 0x0001 ≠ 0 then tableValue >>> 4 else tableValue &&& 0x0fff

/-- The call of `fat12_next_cluster` in `fat_calculate_actual_size` and in `fat_read`. -/
def fat12Lookup (bitmap : ℕ → UInt8) (bytesPerSector cluster : ℕ) : ℕ :=
  let fatOffset := cluster + cluster / 2
  let entOffset := fatOffset % bytesPerSector
  fat12NextCluster cluster (fun i => bitmap (fatOffset / bytesPerSector * bytesPerSector + i)) entOffset

/-! ### The format -/

/-- The table with the entries: of two entries, the low byte of the first one, a byte with its high
bits below the low bits of the second one, and the high byte of the second one. -/
def packFat12 : List (BitVec 12) → List UInt8
  | [] => []
  | [e] => [UInt8.ofNat e.toNat, UInt8.ofNat (e.toNat / 256)]
  | e :: e' :: entries =>
    UInt8.ofNat e.toNat :: UInt8.ofNat (e.toNat / 256 + 16 * (e'.toNat % 16)) ::
      UInt8.ofNat (e'.toNat / 16) :: packFat12 entries

/-- The bytes that the table begins with. -/
def Holds12 (bitmap : ℕ → UInt8) (table : List UInt8) : Prop :=
  ∀ i < table.length, bitmap i = table.getD i 0

variable {bitmap : ℕ → UInt8} {entries : List (BitVec 12)} {cluster : ℕ}

theorem fat12NextCluster_even (h : cluster % 2 = 0) (buffer : ℕ → UInt8) (i : ℕ) :
    fat12NextCluster cluster buffer i = ((buffer i).toNat + 256 * (buffer (i + 1)).toNat) % 4096 := by
  rw [fat12NextCluster, Nat.and_one_is_mod, h, if_neg (by decide)]
  exact Nat.and_two_pow_sub_one_eq_mod _ 12

theorem fat12NextCluster_odd (h : cluster % 2 = 1) (buffer : ℕ → UInt8) (i : ℕ) :
    fat12NextCluster cluster buffer i = ((buffer i).toNat + 256 * (buffer (i + 1)).toNat) / 16 := by
  rw [fat12NextCluster, Nat.and_one_is_mod, h, if_pos (by decide)]
  exact Nat.shiftRight_eq_div_pow _ 4

/-- The parity of the cluster alone says which bits of the two bytes are the entry. -/
theorem fat12NextCluster_parity {cluster' : ℕ} (h : cluster % 2 = cluster' % 2) (buffer : ℕ → UInt8)
    (i : ℕ) : fat12NextCluster cluster buffer i = fat12NextCluster cluster' buffer i := by
  rcases Nat.mod_two_eq_zero_or_one cluster with h0 | h1
  · rw [fat12NextCluster_even h0, fat12NextCluster_even (h ▸ h0)]
  · rw [fat12NextCluster_odd h1, fat12NextCluster_odd (h ▸ h1)]

theorem fat12NextCluster_congr {buffer buffer' : ℕ → UInt8} {i i' : ℕ} (h : buffer i = buffer' i')
    (h' : buffer (i + 1) = buffer' (i' + 1)) :
    fat12NextCluster cluster buffer i = fat12NextCluster cluster buffer' i' := by
  rw [fat12NextCluster, fat12NextCluster, h, h']

/-- The split into a sector and an offset does not matter. -/
theorem fat12Lookup_eq (bitmap : ℕ → UInt8) (bytesPerSector cluster : ℕ) :
    fat12Lookup bitmap bytesPerSector cluster =
      fat12NextCluster cluster bitmap (cluster + cluster / 2) := by
  have hplace := Nat.div_add_mod (cluster + cluster / 2) bytesPerSector
  rw [Nat.mul_comm] at hplace
  apply fat12NextCluster_congr
  · exact congrArg bitmap hplace
  · exact congrArg bitmap ((Nat.add_assoc _ _ 1).symm.trans (congrArg (· + 1) hplace))

theorem packFat12_entry (h : cluster + cluster / 2 + 1 < (packFat12 entries).length) :
    ∃ e, entries[cluster]? = some e ∧
      fat12NextCluster cluster (fun i => (packFat12 entries).getD i 0) (cluster + cluster / 2) =
        e.toNat := by
  induction entries using packFat12.induct generalizing cluster with
  | case1 => exact absurd h (Nat.not_lt_zero _)
  | case2 e =>
    obtain rfl : cluster = 0 := by
      simp only [packFat12, List.length_cons, List.length_nil] at h
      omega
    refine ⟨e, rfl, ?_⟩
    have he := e.isLt
    rw [fat12NextCluster_even rfl, Nat.zero_div, Nat.add_zero]
    simp only [packFat12, List.getD_cons_zero, List.getD_cons_succ, UInt8.toNat_ofNat']
    omega
  | case3 e e' entries ih =>
    have he := e.isLt
    have he' := e'.isLt
    match cluster, h with
    | 0, _ =>
      refine ⟨e, rfl, ?_⟩
      rw [fat12NextCluster_even rfl, Nat.zero_div, Nat.add_zero]
      simp only [packFat12, List.getD_cons_zero, List.getD_cons_succ, UInt8.toNat_ofNat']
      omega
    | 1, _ =>
      refine ⟨e', rfl, ?_⟩
      rw [fat12NextCluster_odd rfl]
      simp only [packFat12, List.getD_cons_zero, List.getD_cons_succ, UInt8.toNat_ofNat']
      omega
    | cluster + 2, h =>
      have hplace : cluster + 2 + (cluster + 2) / 2 = cluster + cluster / 2 + 3 := by omega
      rw [hplace] at h ⊢
      simp only [packFat12, List.length_cons] at h
      have hlt : cluster + cluster / 2 + 1 < (packFat12 entries).length := by omega
      obtain ⟨e'', hentry, hvalue⟩ := ih hlt
      refine ⟨e'', hentry, ?_⟩
      rw [← hvalue, fat12NextCluster_parity (Nat.add_mod_right cluster 2)]
      exact fat12NextCluster_congr rfl rfl

/-- The lookups of the walks through a table are those of FAT12. -/
theorem FatFile.nextCluster_eq (f : FatFile) (h : f.fat12 = true) (cluster : ℕ) :
    f.nextCluster cluster = fat12Lookup f.bitmap f.bytesPerSector cluster := by
  rw [FatFile.nextCluster, fat12Lookup, if_pos h, if_pos h]
  rcases Nat.mod_two_eq_zero_or_one cluster with h0 | h1
  · rw [if_neg (by omega), fat12NextCluster_even h0]
    rfl
  · rw [if_pos h1, fat12NextCluster_odd h1]
    rfl

/-- Every entry is looked up as it was packed. -/
theorem fat12Lookup_packed (entries : List (BitVec 12)) (bitmap : ℕ → UInt8)
    (h : Holds12 bitmap (packFat12 entries)) (bytesPerSector : ℕ) (_ : 1 ≤ bytesPerSector) (cluster : ℕ)
    (hcluster : cluster + cluster / 2 + 1 < (packFat12 entries).length) :
    ∃ e, entries[cluster]? = some e ∧ fat12Lookup bitmap bytesPerSector cluster = e.toNat ∧
      ∀ f : FatFile, f.fat12 = true → f.bitmap = bitmap → f.nextCluster cluster = e.toNat := by
  obtain ⟨e, hentry, hvalue⟩ := packFat12_entry hcluster
  have hbytes : ∀ bytesPerSector, fat12Lookup bitmap bytesPerSector cluster = e.toNat := by
    intro bytesPerSector
    rw [fat12Lookup_eq, ← hvalue]
    exact fat12NextCluster_congr (h _ (by omega)) (h _ hcluster)
  refine ⟨e, hentry, hbytes bytesPerSector, fun f hf hbitmap => ?_⟩
  rw [f.nextCluster_eq hf, hbitmap, hbytes]

/-- Sectors of two bytes: the entry `0xcde` lies in both of the first two. -/
theorem fat12Lookup_packed_straddling :
    fat12Lookup (fun i => [0x3f, 0xea, 0xcd].getD i 0) 2 1 = 0xcde := by
  have hholds : Holds12 (fun i => [0x3f, 0xea, 0xcd].getD i 0) (packFat12 [0xa3f, 0xcde]) := by
    unfold Holds12
    decide
  obtain ⟨e, hentry, hvalue, -⟩ := fat12Lookup_packed _ _ hholds 2 (by decide) 1 (by decide)
  rw [hvalue, ← Option.some.inj hentry]
  rfl

end DosKernel
