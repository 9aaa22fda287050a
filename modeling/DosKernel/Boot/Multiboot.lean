import DosKernel.Frames.Bitmap
import DosKernel.Lib.Bytes

/-! The boot information. A boot loader leaves tags one behind the other, each at a multiple of 8,
and `kernel_main` goes from tag to tag up to the one that ends the list. On its way it calls
`bitmap_init`, which writes to memory behind the kernel, where the boot loader may have left the
tags. -/

namespace DosKernel.Boot

open Lib

/-! ### The code -/

structure FramebufferInfo where
  addr : ℕ
  pitch : ℕ
  width : ℕ
  height : ℕ
  bpp : UInt8
  type : UInt8
  deriving DecidableEq

/-- The variables that the loop sets, and the arguments of the calls of `bitmap_init`. -/
structure BootInfo where
  maxRam : ℕ
  maxMemories : List ℕ
  bootCmdline : Option ℕ
  fb0 : Option FramebufferInfo
  acpiRsdpAddr : ℕ
  bootDrive : ℕ
  bootPartition : ℕ
  deriving DecidableEq

/-- Before the loop; -1 is the highest 32-bit number. -/
def BootInfo.start : BootInfo := ⟨0, [], none, none, 0, 4294967295, 4294967295⟩

/-- The switch in the loop. -/
def readTag (m : Memory) (tag : ℕ) (b : BootInfo) : BootInfo :=
  match m.load tag 4 with
  | 1 => { b with bootCmdline := some (tag + 8) }
  | 4 =>
    let maxRam := (1024 + m.load (tag + 12) 4) % space
    { b with maxRam := maxRam, maxMemories := b.maxMemories ++ [maxRam * 1024 % space] }
  | 5 => { b with bootDrive := m.load (tag + 8) 4, bootPartition := m.load (tag + 12) 4 }
  | 8 => { b with fb0 := some {
      addr := m.load (tag + 8) 8 % space
      pitch := m.load (tag + 16) 4
      width := m.load (tag + 20) 4
      height := m.load (tag + 24) 4
      bpp := m (tag + 28)
      type := m (tag + 29) } }
  | 14 => if b.acpiRsdpAddr = 0 then { b with acpiRsdpAddr := tag + 8 } else b
  | 15 => { b with acpiRsdpAddr := tag + 8 }
  | _ => b

/-- `tag + ((tag->size + 7) & ~7)`. -/
def nextTag (tag size : ℕ) : ℕ := (tag + (size + 7) % space / 8 * 8) % space

/-- What `bitmap_init` writes: zeros, and 1s into the first word. -/
def bitmapInitMemory (m : Memory) (startAddress maxMemory : ℕ) : Memory :=
  let bitmap := bitmapInit (fun _ => 0) startAddress maxMemory
  (m.fill bitmap.start (bitmap.frames / 8) 0).store bitmap.start 4 0xFFFFFFFF

/-- The memory after the switch; `kernelEnd` is `kernel_end_real_addr`. -/
def tagMemory (kernelEnd : ℕ) (m : Memory) (tag : ℕ) : Memory :=
  if m.load tag 4 = 4 then
    bitmapInitMemory m ((kernelEnd + 0x10000) % space) ((readTag m tag .start).maxRam * 1024 % space)
  else m

def readTags (kernelEnd : ℕ) : (fuel tag : ℕ) → Memory → BootInfo → Option (Memory × BootInfo)
  | 0, _, _, _ => none
  | fuel + 1, tag, m, b =>
    if m.load tag 4 = 0 then some (m, b)
    else
      let m' := tagMemory kernelEnd m tag
      readTags kernelEnd fuel (nextTag tag (m'.load (tag + 4) 4)) m' (readTag m tag b)

/-! ### Tags -/

/-- A tag with its contents; `rest` is what the kernel does not read. -/
inductive BootTag
  | cmdline (string : List UInt8)
  | basicMeminfo (memLower memUpper : UInt32)
  | bootdev (biosdev slice part : UInt32)
  | framebuffer (addr : UInt64) (pitch width height : UInt32) (bpp type : UInt8) (rest : List UInt8)
  | acpiOld (rsdp : List UInt8)
  | acpiNew (rsdp : List UInt8)
  | other (type : UInt32) (rest : List UInt8) (h : type.toNat ∉ [0, 1, 4, 5, 8, 14, 15])

namespace BootTag

def type : BootTag → ℕ
  | cmdline _ => 1
  | basicMeminfo _ _ => 4
  | bootdev _ _ _ => 5
  | framebuffer _ _ _ _ _ _ _ => 8
  | acpiOld _ => 14
  | acpiNew _ => 15
  | other type _ _ => type.toNat

/-- The bytes behind the type and the size. -/
def body : BootTag → List UInt8
  | cmdline string => string ++ [0]
  | basicMeminfo memLower memUpper => toBytes 4 memLower.toNat ++ toBytes 4 memUpper.toNat
  | bootdev biosdev slice part =>
    toBytes 4 biosdev.toNat ++ (toBytes 4 slice.toNat ++ toBytes 4 part.toNat)
  | framebuffer addr pitch width height bpp type rest =>
    toBytes 8 addr.toNat ++ (toBytes 4 pitch.toNat ++ (toBytes 4 width.toNat ++
      (toBytes 4 height.toNat ++ (bpp :: type :: rest))))
  | acpiOld rsdp => rsdp
  | acpiNew rsdp => rsdp
  | other _ rest _ => rest

def size (t : BootTag) : ℕ := 8 + t.body.length

def encode (t : BootTag) : List UInt8 := toBytes 4 t.type ++ (toBytes 4 t.size ++ t.body)

end BootTag

/-- The tags at an address, each at its own one, and the tag that ends the list. Between two of them
any bytes may fill up to a multiple of 8. -/
def TagsAt (m : Memory) : (a : ℕ) → List (ℕ × BootTag) → Prop
  | a, [] => a + 8 ≤ space ∧ BytesAt m a (toBytes 4 0)
  | a, t :: tags => t.1 = a ∧ BytesAt m a t.2.encode ∧ TagsAt m (a + (t.2.size + 7) / 8 * 8) tags

def TagsAt.decide (m : Memory) : (a : ℕ) → (tags : List (ℕ × BootTag)) → Decidable (TagsAt m a tags)
  | _, [] => inferInstanceAs (Decidable (_ ∧ _))
  | a, t :: tags =>
    have := TagsAt.decide m (a + (t.2.size + 7) / 8 * 8) tags
    inferInstanceAs (Decidable (_ ∧ _ ∧ _))

instance (m : Memory) (a : ℕ) (tags : List (ℕ × BootTag)) : Decidable (TagsAt m a tags) :=
  TagsAt.decide m a tags

def tagsEnd : (a : ℕ) → List (ℕ × BootTag) → ℕ
  | a, [] => a + 8
  | a, t :: tags => tagsEnd (a + (t.2.size + 7) / 8 * 8) tags

/-! ### What the tags tell -/

/-- The tags of one kind, each with what is taken of it. -/
def drives (tags : List (ℕ × BootTag)) : List (ℕ × ℕ) := tags.filterMap fun t =>
  match t.2 with
  | .bootdev biosdev slice _ => some (biosdev.toNat, slice.toNat)
  | _ => none

def memories (tags : List (ℕ × BootTag)) : List ℕ := tags.filterMap fun t =>
  match t.2 with
  | .basicMeminfo _ memUpper => some ((1024 + memUpper.toNat) % space)
  | _ => none

def cmdlines (tags : List (ℕ × BootTag)) : List ℕ := tags.filterMap fun t =>
  match t.2 with
  | .cmdline _ => some (t.1 + 8)
  | _ => none

def framebuffers (tags : List (ℕ × BootTag)) : List FramebufferInfo := tags.filterMap fun t =>
  match t.2 with
  | .framebuffer addr pitch width height bpp type _ =>
    some ⟨addr.toNat % space, pitch.toNat, width.toNat, height.toNat, bpp, type⟩
  | _ => none

def oldTables (tags : List (ℕ × BootTag)) : List ℕ := tags.filterMap fun t =>
  match t.2 with
  | .acpiOld _ => some (t.1 + 8)
  | _ => none

def newTables (tags : List (ℕ × BootTag)) : List ℕ := tags.filterMap fun t =>
  match t.2 with
  | .acpiNew _ => some (t.1 + 8)
  | _ => none

/-- Of each kind the last tag counts. Of the tables of ACPI that is the last new one; when there is
none, the first old one. -/
def bootInfo (tags : List (ℕ × BootTag)) : BootInfo where
  maxRam := (memories tags).getLastD 0
  maxMemories := (memories tags).map fun maxRam => maxRam * 1024 % space
  bootCmdline := (cmdlines tags).getLast?
  fb0 := (framebuffers tags).getLast?
  acpiRsdpAddr := (newTables tags).getLastD ((oldTables tags).headD 0)
  bootDrive := ((drives tags).getLastD (4294967295, 4294967295)).1
  bootPartition := ((drives tags).getLastD (4294967295, 4294967295)).2

/-! ### The loop reads the tags -/

variable {m : Memory} {a : ℕ} {t : BootTag} {tags : List (ℕ × BootTag)}

theorem BootTag.type_lt (t : BootTag) : t.type < 256 ^ 4 := by
  cases t with
  | other type rest h => exact type.toNat_lt
  | _ => exact of_decide_eq_true rfl

theorem BootTag.type_ne_zero (t : BootTag) : t.type ≠ 0 := by
  cases t with
  | other type rest h => exact fun htype => h (by rw [show type.toNat = 0 from htype]; simp)
  | _ => exact of_decide_eq_true rfl

theorem TagsAt.end_le (h : TagsAt m a tags) : a + 8 ≤ space := by
  induction tags generalizing a with
  | nil => exact h.1
  | cons t tags ih =>
    have hnext := ih h.2.2
    omega

theorem BootTag.header (h : BytesAt m a t.encode) (ha : a + t.size < space) :
    m.load a 4 = t.type ∧ m.load (a + 4) 4 = t.size ∧ BytesAt m (a + 8) t.body := by
  have hsize : t.size = 8 + t.body.length := rfl
  obtain ⟨htype, hbehind⟩ := BytesAt.field h t.type_lt (by omega)
  obtain ⟨hlength, hbody⟩ := hbehind.field (show t.size < 256 ^ 4 by rw [space] at ha; omega) (by omega)
  exact ⟨htype, hlength, hbody⟩

theorem newTables_ne_zero : ∀ p ∈ newTables tags, p ≠ 0 := by
  intro p hp
  obtain ⟨⟨a, t⟩, -, hp⟩ := List.mem_filterMap.mp hp
  cases t with
  | acpiNew rsdp =>
    have heq : a + 8 = p := Option.some.inj hp
    omega
  | _ => exact nomatch hp

theorem oldTables_ne_zero : ∀ p ∈ oldTables tags, p ≠ 0 := by
  intro p hp
  obtain ⟨⟨a, t⟩, -, hp⟩ := List.mem_filterMap.mp hp
  cases t with
  | acpiOld rsdp =>
    have heq : a + 8 = p := Option.some.inj hp
    omega
  | _ => exact nomatch hp

theorem tables_old {news olds : List ℕ} (hnew : ∀ q ∈ news, q ≠ 0) (hold : ∀ q ∈ olds, q ≠ 0) (p : ℕ) :
    news.getLastD ((olds ++ [p]).headD 0) =
      if news.getLastD (olds.headD 0) = 0 then p else news.getLastD (olds.headD 0) := by
  cases news using List.reverseRecOn with
  | nil =>
    cases olds with
    | nil => rfl
    | cons q olds => exact (if_neg (hold q List.mem_cons_self)).symm
  | append_singleton news q =>
    have hq : q ≠ 0 := hnew q (by simp)
    simp [hq]

/-- The switch adds what a tag tells. -/
theorem readTag_bootInfo (h : BytesAt m a t.encode) (ha : a + t.size < space) :
    readTag m a (bootInfo tags) = bootInfo (tags ++ [(a, t)]) := by
  obtain ⟨htype, -, hbody⟩ := BootTag.header h ha
  cases t with
  | cmdline string =>
    rw [readTag, htype]
    simp [bootInfo, BootTag.type, memories, cmdlines, framebuffers, newTables, oldTables, drives]
  | basicMeminfo memLower memUpper =>
    have hsize : a + 16 < space := by simpa [BootTag.size, BootTag.body] using ha
    obtain ⟨-, hupper⟩ := BytesAt.field hbody memLower.toNat_lt (by omega)
    have hload : m.load (a + 12) 4 = memUpper.toNat :=
      hupper.load_toBytes memUpper.toNat_lt (by omega)
    rw [readTag, htype]
    simp [bootInfo, BootTag.type, memories, cmdlines, framebuffers, newTables, oldTables, drives,
      hload]
  | bootdev biosdev slice part =>
    have hsize : a + 20 < space := by simpa [BootTag.size, BootTag.body] using ha
    obtain ⟨hdrive, hbehind⟩ := BytesAt.field hbody biosdev.toNat_lt (by omega)
    obtain ⟨hslice, -⟩ := hbehind.field slice.toNat_lt (by omega)
    have hload : m.load (a + 12) 4 = slice.toNat := hslice
    rw [readTag, htype]
    simp [bootInfo, BootTag.type, memories, cmdlines, framebuffers, newTables, oldTables, drives,
      hdrive, hload]
  | framebuffer addr pitch width height bpp type rest =>
    have hsize : a + (30 + rest.length) < space := by
      simp only [BootTag.size, BootTag.body, List.length_append, List.length_cons, toBytes_length] at ha
      omega
    obtain ⟨haddr, hbehind⟩ := BytesAt.field hbody addr.toNat_lt (by omega)
    obtain ⟨hpitch, hbehind⟩ := hbehind.field pitch.toNat_lt (by omega)
    obtain ⟨hwidth, hbehind⟩ := hbehind.field width.toNat_lt (by omega)
    obtain ⟨hheight, hbehind⟩ := hbehind.field height.toNat_lt (by omega)
    obtain ⟨hbpp, hbehind⟩ := bytesAt_cons.mp hbehind
    obtain ⟨hkind, -⟩ := bytesAt_cons.mp hbehind
    simp only [Nat.add_assoc, Nat.reduceAdd] at haddr hpitch hwidth hheight hbpp hkind
    rw [readTag, htype]
    simp [bootInfo, BootTag.type, memories, cmdlines, framebuffers, newTables, oldTables, drives,
      haddr, hpitch, hwidth, hheight, hbpp, hkind]
  | acpiOld rsdp =>
    have hold : bootInfo (tags ++ [(a, .acpiOld rsdp)]) = { bootInfo tags with
        acpiRsdpAddr := (newTables tags).getLastD ((oldTables tags ++ [a + 8]).headD 0) } := by
      simp [bootInfo, memories, cmdlines, framebuffers, newTables, oldTables, drives]
    rw [hold, tables_old newTables_ne_zero oldTables_ne_zero, readTag, htype]
    show (if (bootInfo tags).acpiRsdpAddr = 0 then { bootInfo tags with acpiRsdpAddr := a + 8 }
      else bootInfo tags) = _
    have htable : (newTables tags).getLastD ((oldTables tags).headD 0) = (bootInfo tags).acpiRsdpAddr := rfl
    rw [htable]
    split <;> rfl
  | acpiNew rsdp =>
    rw [readTag, htype]
    simp [bootInfo, BootTag.type, memories, cmdlines, framebuffers, newTables, oldTables, drives]
  | other type rest hother =>
    simp only [List.mem_cons, not_or, List.not_mem_nil, not_false_eq_true, and_true] at hother
    rw [readTag, htype]
    simp [bootInfo, BootTag.type, memories, cmdlines, framebuffers, newTables, oldTables, drives]
    split <;> first | omega | rfl

theorem nextTag_eq (ha : a + (t.size + 7) / 8 * 8 < space) :
    nextTag a t.size = a + (t.size + 7) / 8 * 8 := by
  have hsize : (t.size + 7) % space = t.size + 7 := Nat.mod_eq_of_lt (by rw [space] at *; omega)
  rw [nextTag, hsize, Nat.mod_eq_of_lt ha]

/-! ### What `bitmap_init` leaves -/

/-- `bitmap_init` writes outside of the addresses from `a` up to `z`. -/
def LeavesOut (kernelEnd maxMemory a z : ℕ) : Prop :=
  let bitmap := bitmapInit (fun _ => 0) ((kernelEnd + 0x10000) % space) maxMemory
  bitmap.start + max (bitmap.frames / 8) 4 ≤ space ∧
    (z ≤ bitmap.start ∨ bitmap.start + max (bitmap.frames / 8) 4 ≤ a)

instance (kernelEnd maxMemory a z : ℕ) : Decidable (LeavesOut kernelEnd maxMemory a z) :=
  inferInstanceAs (Decidable (_ ∧ _))

/-- No byte from `a` up to `z` differs. -/
def Agrees (a z : ℕ) (m m' : Memory) : Prop := ∀ x, a ≤ x → x < z → m' x = m x

variable {m' : Memory} {kernelEnd maxMemory a₀ z : ℕ} {bs : List UInt8}

theorem LeavesOut.agrees (h : LeavesOut kernelEnd maxMemory a z) (m : Memory) :
    Agrees a z m (bitmapInitMemory m ((kernelEnd + 0x10000) % space) maxMemory) := by
  obtain ⟨htop, hout⟩ := h
  intro x hx hxz
  rw [bitmapInitMemory, Memory.store, Memory.fill]
  generalize bitmapInit (fun _ => 0) ((kernelEnd + 0x10000) % space) maxMemory = bitmap at *
  rw [Memory.write_of_not_mem (by omega) (by omega), Memory.write_of_not_mem (by omega) (by omega)]

theorem Agrees.trans {m'' : Memory} (h : Agrees a z m m') (h' : Agrees a z m' m'') :
    Agrees a z m m'' := fun x hx hxz => (h' x hx hxz).trans (h x hx hxz)

theorem Agrees.bytesAt (h : Agrees a₀ z m m') (hb : BytesAt m a bs) (ha : a₀ ≤ a)
    (hz : a + bs.length ≤ z) : BytesAt m' a bs := by
  intro i b hi
  have hlt := (List.getElem?_eq_some_iff.mp hi).1
  show some (m' (a + i)) = some b
  rw [h (a + i) (by omega) (by omega)]
  exact hb i b hi

theorem memories_cons (t : ℕ × BootTag) (tags : List (ℕ × BootTag)) :
    memories (t :: tags) = memories [t] ++ memories tags := List.filterMap_append (l := [t])

theorem tagsEnd_ge (a : ℕ) (tags : List (ℕ × BootTag)) : a + 8 ≤ tagsEnd a tags := by
  induction tags generalizing a with
  | nil => exact le_rfl
  | cons t tags ih =>
    have hnext := ih (a + (t.2.size + 7) / 8 * 8)
    rw [tagsEnd]
    omega

theorem BootTag.encode_length (t : BootTag) : t.encode.length = t.size := by
  rw [encode, size, List.length_append, List.length_append, toBytes_length, toBytes_length]
  omega

theorem Agrees.tagsAt (h : Agrees a₀ z m m') (ht : TagsAt m a tags) (ha : a₀ ≤ a)
    (hz : tagsEnd a tags ≤ z) : TagsAt m' a tags := by
  induction tags generalizing a with
  | nil => exact ⟨ht.1, h.bytesAt ht.2 ha (by simp only [tagsEnd] at hz; simp; omega)⟩
  | cons t tags ih =>
    obtain ⟨heq, htag, hrest⟩ := ht
    have hnext := tagsEnd_ge (a + (t.2.size + 7) / 8 * 8) tags
    rw [tagsEnd] at hz
    exact ⟨heq, h.bytesAt htag ha (by rw [BootTag.encode_length]; omega), ih hrest (by omega) hz⟩

/-- `bitmap_init` is called with the memory that the tag tells. -/
theorem tagMemory_agrees (h : BytesAt m a t.encode) (ha : a + t.size < space)
    (hout : ∀ maxRam ∈ memories [(a, t)], LeavesOut kernelEnd (maxRam * 1024 % space) a₀ z) :
    Agrees a₀ z m (tagMemory kernelEnd m a) := by
  rw [tagMemory]
  split_ifs with hfour
  · obtain ⟨htype, -, -⟩ := BootTag.header h ha
    rw [hfour] at htype
    obtain ⟨maxRam, hmemory⟩ : ∃ maxRam, memories [(a, t)] = [maxRam] := by
      cases t with
      | basicMeminfo memLower memUpper => exact ⟨_, rfl⟩
      | other type rest hother =>
        have hfour' : type.toNat = 4 := htype.symm
        exact absurd (by simp [hfour']) hother
      | _ => cases htype
    have hinfo : (readTag m a .start).maxRam = maxRam := by
      rw [show BootInfo.start = bootInfo [] from rfl, readTag_bootInfo h ha, List.nil_append, bootInfo,
        hmemory]
      rfl
    rw [hinfo]
    exact (hout maxRam (hmemory ▸ List.mem_singleton_self maxRam)).agrees m
  · exact fun _ _ _ => rfl

/-- From a tag on the loop adds what the tags tell that follow. -/
theorem readTags_bootInfo (before : List (ℕ × BootTag)) (h : TagsAt m a tags) (ha : a₀ ≤ a)
    (hz : tagsEnd a tags ≤ z)
    (hout : ∀ maxRam ∈ memories tags, LeavesOut kernelEnd (maxRam * 1024 % space) a₀ z) {fuel : ℕ}
    (hfuel : tags.length < fuel) :
    ∃ m', readTags kernelEnd fuel a m (bootInfo before) = some (m', bootInfo (before ++ tags)) ∧
      Agrees a₀ z m m' := by
  induction tags generalizing a m before fuel with
  | nil =>
    obtain ⟨fuel, rfl⟩ := Nat.exists_eq_succ_of_ne_zero (Nat.ne_of_gt hfuel)
    have htype : m.load a 4 = 0 := h.2.load_toBytes (by decide) (by have hend := h.1; omega)
    exact ⟨m, by rw [readTags, if_pos htype, List.append_nil], fun _ _ _ => rfl⟩
  | cons t tags ih =>
    obtain ⟨fuel, rfl⟩ := Nat.exists_eq_succ_of_ne_zero (Nat.ne_of_gt (Nat.zero_lt_of_lt hfuel))
    have hkept := h
    obtain ⟨rfl, htag, hrest⟩ := h
    have hend := hrest.end_le
    obtain ⟨htype, -, -⟩ := BootTag.header htag (by omega)
    rw [memories_cons] at hout
    have hagrees := tagMemory_agrees htag (by omega) fun maxRam hmem =>
      hout maxRam (List.mem_append_left _ hmem)
    obtain ⟨-, htag', hrest'⟩ := hagrees.tagsAt hkept ha hz
    obtain ⟨-, hsize, -⟩ := BootTag.header htag' (by omega)
    rw [tagsEnd] at hz
    obtain ⟨m', hread, hm'⟩ := ih (before ++ [t]) hrest' (by omega) hz
      (fun maxRam hmem => hout maxRam (List.mem_append_right _ hmem)) (Nat.lt_of_succ_lt_succ hfuel)
    refine ⟨m', ?_, hagrees.trans hm'⟩
    rw [readTags, htype, if_neg t.2.type_ne_zero]
    dsimp only
    rw [hsize, nextTag_eq (by omega), readTag_bootInfo htag (by omega), hread, List.append_assoc]
    rfl

/-- The loop over the tags that a boot loader left ends, and of each kind it has what the tags
tell, if `bitmap_init` does not write to them. They are still there then. -/
theorem boot_tags_read (m : Memory) (kernelEnd addr : ℕ) (tags : List (ℕ × BootTag))
    (h : TagsAt m (addr + 8) tags) (hout : ∀ maxMemory ∈ (bootInfo tags).maxMemories,
      LeavesOut kernelEnd maxMemory (addr + 8) (tagsEnd (addr + 8) tags)) :
    ∃ least, ∀ fuel ≥ least, ∃ m',
      readTags kernelEnd fuel (addr + 8) m .start = some (m', bootInfo tags) ∧
        TagsAt m' (addr + 8) tags := by
  refine ⟨tags.length + 1, fun fuel hfuel => ?_⟩
  obtain ⟨m', hread, hagrees⟩ := readTags_bootInfo [] h le_rfl le_rfl
    (fun maxRam hmem => hout _ (List.mem_map_of_mem hmem)) hfuel
  exact ⟨m', hread, hagrees.tagsAt h le_rfl le_rfl⟩

/-- An old table, 128 MiB, a new table and another old one, behind 8 bytes at address 0. -/
def someTags : List (ℕ × BootTag) :=
  [(8, .acpiOld [1]), (24, .basicMeminfo 640 130048), (40, .acpiNew [2, 3]), (56, .acpiOld [4])]

def someInformation : Memory := fun x =>
  ((someTags.flatMap fun t : ℕ × BootTag =>
    t.2.encode ++ List.replicate ((t.2.size + 7) / 8 * 8 - t.2.size) 255) ++ toBytes 8 0).getD (x - 8) 0

theorem boot_tags_read_some :
    TagsAt someInformation 8 someTags ∧ LeavesOut 0x200000 134217728 8 80 ∧
    ∃ least, ∀ fuel ≥ least, ∃ m',
      readTags 0x200000 fuel 8 someInformation .start =
        some (m', ⟨131072, [134217728], none, none, 48, 4294967295, 4294967295⟩) ∧
      TagsAt m' 8 someTags :=
  ⟨by decide, by decide, boot_tags_read someInformation 0x200000 0 someTags (by decide) (by decide)⟩

end DosKernel.Boot
