import DosKernel.Process.Arguments
import DosKernel.Libc.Strtok

/-! The command line of `sh`. `strtok` cuts it into words, whose addresses `main` stores in `argv`,
and `execve` copies them to the new program: it sees the words that were typed. -/

namespace DosKernel.Shell

open Lib Vfs Libc CString

/-! ### The code -/

def maxArgs : ℕ := 10

/-- The loop of `main` over the tokens, from a call of `strtok` on: the number of arguments, and
the memory with the static variable of `strtok`. -/
def parseArgs (argv delimiters : ℕ) : (fuel str i : ℕ) → Tokenizer → ℕ × Tokenizer
  | 0, _, i, s => (i, s)
  | fuel + 1, str, i, s =>
    let token := s.strtok str delimiters
    if token.1 = 0 ∨ maxArgs ≤ i then (i, token.2)
    else if strlen (fun j => token.2.mem (token.1 + j)) = 0 then
      parseArgs argv delimiters fuel 0 i token.2
    else
      parseArgs argv delimiters fuel 0 (i + 1)
        { token.2 with mem := Memory.store token.2.mem (argv + 4 * i) 4 token.1 }

/-- `exe`: the command up to the first space, in an array of 256 characters. -/
def exe (line : List UInt8) : List UInt8 := (line.takeWhile (· ≠ 32)).take 255

/-- `tmp`: `/bin/%s.elf`, or `%s.elf` for a command that begins with a slash. -/
def tmp (line : List UInt8) : List UInt8 :=
  if (exe line).head? ≠ some 47 then [47, 98, 105, 110, 47] ++ exe line ++ [46, 101, 108, 102]
  else exe line ++ [46, 101, 108, 102]

/-! ### The words of a line -/

/-- The pieces between spaces that are not empty. -/
def words (line : List UInt8) : List (List UInt8) := (segments [32] line).filter (· ≠ [])

section Words
variable {l t rest : List UInt8}

theorem words_of_free (h : ∀ x ∈ l, x ∉ [(32 : UInt8)]) : words l = if l = [] then [] else [l] := by
  have hsegments : segments [32] l = [l] :=
    List.splitOnP_eq_singleton fun x hx => by simpa using h x hx
  unfold words
  rw [hsegments]
  split_ifs with hl <;> simp [hl]

theorem words_cut (h : ∀ x ∈ t, x ∉ [(32 : UInt8)]) :
    words (t ++ 32 :: rest) = if t = [] then words rest else t :: words rest := by
  have hsegments : segments [32] (t ++ 32 :: rest) = t :: segments [32] rest :=
    List.splitOnP_append_cons_of_forall_mem (fun x hx => by simpa using h x hx) 32 (by simp) rest
  unfold words
  rw [hsegments]
  split_ifs with ht <;> simp [ht]

theorem nil_notMem_words (l : List UInt8) : [] ∉ words l := by
  simp [words]

/-- A line has a first space, or none. -/
theorem line_cases (l : List UInt8) : (∀ x ∈ l, x ∉ [(32 : UInt8)]) ∨
    ∃ t rest, l = t ++ 32 :: rest ∧ ∀ x ∈ t, x ∉ [(32 : UInt8)] := by
  rcases Tokenizer.exists_first_delimiter [32] l with h | ⟨t, c, rest, rfl, h, hc⟩
  · exact .inl h
  · obtain rfl := List.mem_singleton.mp hc
    exact .inr ⟨t, rest, rfl, h⟩

theorem nonZero_words (n : ℕ) : ∀ l : List UInt8, l.length ≤ n → NonZero l →
    ∀ w ∈ words l, NonZero w := by
  induction n with
  | zero =>
    intro l hl _ w hw
    obtain rfl := List.eq_nil_of_length_eq_zero (Nat.le_zero.mp hl)
    rw [words_of_free (by simp), if_pos rfl] at hw
    cases hw
  | succ n ih =>
    intro l hl hnz w hw
    rcases line_cases l with h | ⟨t, rest, rfl, h⟩
    · rw [words_of_free h] at hw
      split_ifs at hw with hnil
      · cases hw
      · rwa [List.mem_singleton.mp hw]
    · obtain ⟨ht, hrest⟩ := List.forall_mem_append.mp hnz
      rw [List.length_append, List.length_cons] at hl
      have hnext := ih rest (by omega) fun x hx => hrest x (List.mem_cons_of_mem 32 hx)
      rw [words_cut h] at hw
      split_ifs at hw with hnil
      · exact hnext w hw
      · rcases List.mem_cons.mp hw with rfl | hw
        · exact ht
        · exact hnext w hw

/-- The words take no more room than the line. -/
theorem stringBytes_words_le (n : ℕ) : ∀ l : List UInt8, l.length ≤ n →
    stringBytes (words l) ≤ l.length + 1 := by
  induction n with
  | zero =>
    intro l hl
    obtain rfl := List.eq_nil_of_length_eq_zero (Nat.le_zero.mp hl)
    rw [words_of_free (by simp)]
    simp [stringBytes]
  | succ n ih =>
    intro l hl
    rcases line_cases l with h | ⟨t, rest, rfl, h⟩
    · rw [words_of_free h]
      split_ifs <;> simp [stringBytes]
    · rw [List.length_append, List.length_cons] at hl ⊢
      have hrest := ih rest (by omega)
      rw [words_cut h]
      split_ifs with ht
      · omega
      · simp only [stringBytes, List.map_cons, List.sum_cons] at hrest ⊢
        omega

end Words

/-! ### The loop -/

/-- The addresses that stand one behind the other from `a` on lead to the strings, which lie
between `lo` and `hi`. -/
def Stores (u : Memory) (a lo hi : ℕ) (ws : List (List UInt8)) : Prop :=
  ∀ k (h : k < ws.length), lo ≤ u.load (a + 4 * k) 4 ∧
    u.load (a + 4 * k) 4 + ws[k].length ≤ hi ∧ Rest u (u.load (a + 4 * k) 4) ws[k]

/-- The part of `argv` that is used lies in the memory, apart from the line and the delimiters. -/
structure Slots (a n p len d : ℕ) : Prop where
  top : a + 4 * n ≤ word32
  line_top : p + len < word32
  line : a + 4 * n ≤ p ∨ p + len < a
  delimiters : a + 4 * n ≤ d ∨ d + 1 < a

section Loop
variable {u u' : Memory} {a lo hi lo' hi' p d n i str fuel len : ℕ} {l t rest w : List UInt8}
  {ws : List (List UInt8)} {s : Tokenizer}

theorem Stores.widen (h : Stores u a lo hi ws) (hlo : lo' ≤ lo) (hhi : hi ≤ hi') :
    Stores u a lo' hi' ws := by
  intro k hk
  obtain ⟨h1, h2, h3⟩ := h k hk
  exact ⟨hlo.trans h1, h2.trans hhi, h3⟩

theorem Stores.cons (h : Stores u (a + 4) lo hi ws) (hload : u.load a 4 = p) (hlo : lo ≤ p)
    (hhi : p + w.length ≤ hi) (hw : Rest u p w) : Stores u a lo hi (w :: ws) := by
  intro k hk
  cases k with
  | zero =>
    rw [Nat.mul_zero, Nat.add_zero, hload]
    exact ⟨hlo, hhi, hw⟩
  | succ k =>
    have hnext := h k (Nat.lt_of_succ_lt_succ hk)
    rw [show a + 4 + 4 * k = a + 4 * (k + 1) by omega] at hnext
    exact hnext

/-- A store beside a string does not change it. -/
theorem rest_store (hu : Rest u p l) (htop : a + 4 ≤ word32)
    (h : a + 4 ≤ p ∨ p + l.length < a) (v : ℕ) : Rest (u.store a 4 v) p l := by
  intro j hj
  dsimp only
  rw [Memory.store, Memory.write_of_not_mem htop (by omega)]
  exact hu j hj

theorem placed_store (h : Tokenizer.Placed u p d l [32]) (htop : a + 4 ≤ word32)
    (hline : a + 4 ≤ p ∨ p + l.length < a) (hd : a + 4 ≤ d ∨ d + 1 < a) (v : ℕ) :
    Tokenizer.Placed (Memory.store u a 4 v) p d l [32] where
  text := rest_store h.text htop hline v
  ne_zero := h.ne_zero
  delimiters := rest_store h.delimiters htop hd v
  disjoint := h.disjoint

/-- A string in the memory is empty if its length is 0. -/
theorem strlen_rest (h : Rest u p l) (hl : NonZero l) (hlen : l.length < word32) :
    strlen (fun j => u (p + j)) = l.length := IsString.strlen_eq h hl hlen

/-- Nothing is left of the line: the loop ends. -/
theorem parseArgs_end (hlast : s.last = 0) (fuel : ℕ) : parseArgs a d fuel 0 i s = (i, s) := by
  cases fuel with
  | zero => rfl
  | succ fuel =>
    rw [parseArgs, Tokenizer.strtok_null ((if_pos rfl).trans hlast)]
    exact if_pos (.inl rfl)

/-- What the loop leaves from an argument on: the words of the rest of the line. -/
structure Parsed (argv i p : ℕ) (l : List UInt8) (u : Memory) (r : ℕ × Tokenizer) : Prop where
  count : r.1 = i + (words l).length
  stores : Stores r.2.mem (argv + 4 * i) p (p + l.length) (words l)
  frame : ∀ x, ¬ (p ≤ x ∧ x < p + l.length) →
    ¬ (argv + 4 * i ≤ x ∧ x < argv + 4 * (i + (words l).length)) → r.2.mem x = u x

/-- An empty token is passed over. -/
theorem Parsed.skip {argv : ℕ} {r : ℕ × Tokenizer} (hwords : words l = words rest)
    (hlen : l.length = rest.length + 1) (hu : ∀ x, x ≠ p → u' x = u x)
    (h : Parsed argv i (p + 1) rest u' r) : Parsed argv i p l u r where
  count := by rw [hwords, h.count]
  stores := by
    rw [hwords]
    exact h.stores.widen (Nat.le_succ p) (by omega)
  frame x hx hslot := by
    rw [hwords] at hslot
    rw [h.frame x (by omega) hslot]
    exact hu x (by omega)

theorem Parsed.store {argv : ℕ} {r : ℕ × Tokenizer} (hwords : words l = t :: words rest)
    (hlen : l.length = t.length + rest.length + 1)
    (hslots : Slots (argv + 4 * i) (words l).length p l.length d)
    (ht : Rest u' p t) (hu : ∀ x, x ≠ p + t.length → u' x = u x)
    (h : Parsed argv (i + 1) (p + t.length + 1) rest (Memory.store u' (argv + 4 * i) 4 p) r) :
    Parsed argv i p l u r := by
  have htop := hslots.top
  have hline := hslots.line
  have hptop := hslots.line_top
  rw [hwords, List.length_cons] at htop hline
  have hframe : ∀ x, ¬ (p + t.length + 1 ≤ x ∧ x < p + l.length) →
      ¬ (argv + 4 * (i + 1) ≤ x ∧ x < argv + 4 * (i + 1 + (words rest).length)) →
      r.2.mem x = Memory.store u' (argv + 4 * i) 4 p x := fun x hx hslot =>
    h.frame x (by omega) hslot
  have hstored : Rest (Memory.store u' (argv + 4 * i) 4 p) p t :=
    rest_store ht (by omega) (by omega) p
  refine ⟨?_, ?_, fun x hx hslot => ?_⟩
  · rw [h.count, hwords, List.length_cons]
    omega
  · rw [hwords]
    have hnext : Stores r.2.mem (argv + 4 * (i + 1)) p (p + l.length) (words rest) :=
      h.stores.widen (by omega) (by omega)
    refine Stores.cons (p := p) (by rwa [Nat.mul_add, ← Nat.add_assoc] at hnext) ?_ le_rfl
      (by omega) ?_
    · -- neither the later words nor the later slots reach the slot
      have hslot : argv + 4 * i + 4 ≤ space := by
        rw [space]
        simp only [word32] at htop
        omega
      have hkept : Memory.load r.2.mem (argv + 4 * i) 4 =
          (Memory.store u' (argv + 4 * i) 4 p).load (argv + 4 * i) 4 :=
        Memory.load_congr hslot fun x hx hx' => hframe x (by omega) (by omega)
      rw [hkept]
      exact Memory.load_store hslot (by simp only [word32] at hptop; omega)
    · intro j hj
      dsimp only
      rw [hframe _ (by omega) (by omega)]
      exact hstored j hj
  · rw [hwords, List.length_cons] at hslot
    rw [hframe x (by omega) (by omega), Memory.store, Memory.write_of_not_mem _ (by omega)]
    · exact hu x (by omega)
    · rw [space]
      simp only [word32] at htop
      omega

/-- The last token of the line, if it is not empty, is the last word. -/
theorem parseArgs_last {argv : ℕ} (hp : (if str = 0 then s.last else str) = p)
    (h : Tokenizer.Placed s.mem p d l [32]) (hl : NonZero l) (hfree : ∀ x ∈ l, x ∉ [(32 : UInt8)])
    (hroom : i + (words l).length < maxArgs)
    (hslots : Slots (argv + 4 * i) (words l).length p l.length d) :
    Parsed argv i p l s.mem (parseArgs argv d (fuel + 1) str i s) := by
  have hptop := hslots.line_top
  have hspaces : NonZero [(32 : UInt8)] := by decide
  have hroom' : ¬ maxArgs ≤ i := by omega
  have hwords := words_of_free hfree
  rw [parseArgs]
  dsimp only
  rw [Tokenizer.strtok_last hp h.ne_zero h.text hl hfree h.delimiters hspaces (by omega)
    (by decide), if_neg (not_or.mpr ⟨h.ne_zero, hroom'⟩)]
  dsimp only
  rw [strlen_rest h.text hl (by omega)]
  split_ifs with hlen
  · obtain rfl := List.eq_nil_of_length_eq_zero hlen
    rw [parseArgs_end rfl]
    rw [if_pos rfl] at hwords
    refine ⟨by rw [hwords]; rfl, fun k hk => ?_, fun x _ _ => rfl⟩
    rw [hwords] at hk
    exact absurd hk (Nat.not_lt_zero k)
  · rw [if_neg fun hnil => hlen (congrArg List.length hnil)] at hwords
    rw [parseArgs_end rfl]
    have htop := hslots.top
    have hline := hslots.line
    rw [hwords, List.length_singleton] at htop hline
    refine ⟨by rw [hwords]; rfl, ?_, fun x hx hslot => ?_⟩
    · rw [hwords]
      refine Stores.cons (p := p) (fun k hk => absurd hk (Nat.not_lt_zero k)) ?_ le_rfl le_rfl ?_
      · exact Memory.load_store (by rw [space]; simp only [word32] at htop; omega)
          (by simp only [word32] at hptop; omega)
      · exact rest_store h.text htop hline p
    · rw [hwords, List.length_singleton] at hslot
      dsimp only
      rw [Memory.store, Memory.write_of_not_mem htop (by omega)]

/-- Every word of a line of less than ten words is stored. -/
theorem parseArgs_spec {argv : ℕ} (hp : (if str = 0 then s.last else str) = p)
    (h : Tokenizer.Placed s.mem p d l [32]) (hl : NonZero l)
    (hroom : i + (words l).length < maxArgs) (hfuel : l.length + 2 ≤ fuel)
    (hslots : Slots (argv + 4 * i) (words l).length p l.length d) :
    Parsed argv i p l s.mem (parseArgs argv d fuel str i s) := by
  induction fuel generalizing str i p l s with
  | zero => omega
  | succ fuel ih =>
    have hptop := hslots.line_top
    have hspaces : NonZero [(32 : UInt8)] := by decide
    have hroom' : ¬ maxArgs ≤ i := by omega
    rcases line_cases l with hfree | ⟨t, rest, rfl, hfree⟩
    · exact parseArgs_last hp h hl hfree hroom hslots
    · -- a token in front of a space
      rw [parseArgs]
      dsimp only
      have hcut := h.cut
      have htoken : Rest (Function.update s.mem (p + t.length) 0) p t := h.token fun x _ => rfl
      obtain ⟨ht, hrest⟩ := List.forall_mem_append.mp hl
      have hrest' : NonZero rest := fun x hx => hrest x (List.mem_cons_of_mem 32 hx)
      have hlen : (t ++ 32 :: rest).length = t.length + rest.length + 1 := by
        rw [List.length_append, List.length_cons]
        omega
      have hnext : ∀ (i' : ℕ) (s' : Tokenizer), s'.last = p + t.length + 1 →
          Tokenizer.Placed s'.mem (p + t.length + 1) d rest [32] → i' + (words rest).length < maxArgs →
          Slots (argv + 4 * i') (words rest).length (p + t.length + 1) rest.length d →
          Parsed argv i' (p + t.length + 1) rest s'.mem (parseArgs argv d fuel 0 i' s') :=
        fun i' s' hlast hplaced hi' hslots' =>
          ih ((if_pos rfl).trans hlast) hplaced hrest' hi' (by omega) hslots'
      have hother : ∀ x, x ≠ p + t.length → Function.update s.mem (p + t.length) 0 x = s.mem x :=
        fun x hx => Function.update_of_ne hx _ _
      rw [Tokenizer.strtok_cut hp h.ne_zero h.text hl hfree (by simp) h.delimiters hspaces (by omega)
        (by decide), if_neg (not_or.mpr ⟨h.ne_zero, hroom'⟩)]
      dsimp only
      rw [strlen_rest htoken ht (by omega)]
      have hwords : words (t ++ 32 :: rest) = if t = [] then words rest else t :: words rest :=
        words_cut hfree
      have htop := hslots.top
      have hline := hslots.line
      have hd := hslots.delimiters
      split_ifs with hnil
      · obtain rfl := List.eq_nil_of_length_eq_zero hnil
        rw [if_pos rfl] at hwords
        rw [hwords] at htop hline hd hroom
        simp only [List.length_nil, Nat.add_zero, List.nil_append] at hnext hother hcut hlen hline hptop ⊢
        refine Parsed.skip hwords (by omega) hother (hnext i
          ⟨Function.update s.mem p 0, p + 1⟩ rfl hcut hroom ⟨htop, ?_, ?_, hd⟩)
        all_goals omega
      · have ht' : t ≠ [] := fun hnil' => hnil (congrArg List.length hnil')
        rw [if_neg ht'] at hwords
        rw [hwords, List.length_cons] at htop hline hd hroom
        refine Parsed.store hwords hlen hslots htoken hother ?_
        refine hnext (i + 1) ⟨Memory.store (Function.update s.mem (p + t.length) 0) (argv + 4 * i) 4 p,
          p + t.length + 1⟩ rfl (placed_store hcut ?_ ?_ ?_ p) ?_ ⟨?_, ?_, ?_, ?_⟩
        all_goals omega

end Loop

/-! ### The new program -/

/-- The pages of a process show these bytes of the memory that `sh` has. -/
def Shows (k : Kernel) (p : ℕ) (u : Memory) (lo hi : ℕ) : Prop :=
  ∀ v, lo ≤ v → v < hi → mmuIsMapped k.mmu.mem (k.procs p).pdt v = true ∧
    mmuReadb k.mmu.mem (k.procs p).pdt v = (u v).toNat

/-- No byte of a string is in another page than the first one. -/
def OnePage (a n : ℕ) : Prop := a / 4096 = (a + n) / 4096

instance (a n : ℕ) : Decidable (OnePage a n) := inferInstanceAs (Decidable (_ = _))

section Program
variable {k : Kernel} {u : Memory} {p lo hi v a n i argv : ℕ} {ws : List (List UInt8)}

theorem OnePage.not_straddles (h : OnePage a n) {n' : ℕ} (hn : n' ≤ n) (hi : i < n') :
    ¬ Straddles a n' i := by
  have hstart := readStart_le n' i
  unfold OnePage at h
  unfold Straddles
  omega

theorem Shows.readl (h : Shows k p u lo hi) (hlo : lo ≤ v) (hhi : v + 4 ≤ hi)
    (htop : v + 4 ≤ word32) (haligned : v % 4 = 0) :
    mmuReadl k.mmu.mem (k.procs p).pdt v = u.load v 4 := by
  obtain ⟨e, he⟩ := Option.isSome_iff_exists.mp (h v hlo (by omega)).1
  rw [mmuReadl, mmuRead, he, Option.elim_some]
  apply Memory.load_eq
  intro j hj
  have hbyte := (h (v + j) (by omega) (by omega)).2
  rw [readb_eq, ← chunkByte_inside (by rw [pageOffset]; omega), UInt8.toNat_inj, chunkByte, he,
    Option.elim_some] at hbyte
  rw [hbyte, Nat.mod_eq_of_lt (show v + j < space by rw [space]; simp only [word32] at htop; omega)]

theorem Shows.stringAt (h : Shows k p u lo (hi + 1)) {w : List UInt8} (hw : Rest u a w)
    (hnz : NonZero w) (hlo : lo ≤ a) (hhi : a + w.length ≤ hi) (htop : hi < word32) :
    StringAt k.mmu.mem (k.procs p).pdt a w where
  top := by omega
  mapped i hi := (h (a + i) (by omega) (by omega)).1
  byte i hi := by
    have hchar : u (a + i) = w.getD i 0 := hw i hi.le
    rw [(h (a + i) (by omega) (by omega)).2, hchar, List.getD_eq_getElem _ _ hi]
  ne := hnz
  zero := by
    have hend : u (a + w.length) = 0 := hw.end_eq
    rw [(h (a + w.length) (by omega) (by omega)).2, hend]
    rfl

/-- The vector that the loop has filled is the one that `execve` reads. -/
theorem Stores.vectorAt (h : Stores u argv lo hi ws) (hnz : ∀ w ∈ ws, NonZero w) (h0 : 0 < lo)
    (hnull : u.load (argv + 4 * ws.length) 4 = 0) (haligned : argv % 4 = 0)
    (htop : argv + 4 * ws.length + 4 ≤ word32) (hhi : hi < word32)
    (hslots : Shows k p u argv (argv + 4 * ws.length + 4)) (hline : Shows k p u lo (hi + 1)) :
    VectorAt k.mmu.mem (k.procs p).pdt argv ws ∧
      ∀ i < ws.length, lo ≤ ptrAt k.mmu.mem (k.procs p).pdt argv i ∧
        ptrAt k.mmu.mem (k.procs p).pdt argv i + lenAt ws i ≤ hi := by
  have hread : ∀ i ≤ ws.length, mmuReadl k.mmu.mem (k.procs p).pdt (argv + 4 * i) =
      u.load (argv + 4 * i) 4 := fun i hi =>
    hslots.readl (by omega) (by omega) (by omega) (by omega)
  refine ⟨⟨haligned, htop, fun i hi => ?_, fun i hi => ?_, ?_⟩, fun i hi => ?_⟩
  · rw [hread i hi.le]
    have := (h i hi).1
    omega
  · obtain ⟨h1, h2, h3⟩ := h i hi
    rw [hread i hi.le]
    exact hline.stringAt h3 (hnz _ (List.getElem_mem hi)) h1 h2 hhi
  · rw [hread _ le_rfl, hnull]
  · obtain ⟨h1, h2, -⟩ := h i hi
    rw [ptrAt, hread i hi.le, lenAt_eq hi]
    exact ⟨h1, h2⟩

/-- A line that was read, with its delimiter, and the array `argv` of `main`. -/
structure CommandLine (u : Memory) (str d argv : ℕ) (line : List UInt8) : Prop where
  placed : Tokenizer.Placed u str d line [32]
  nonZero : NonZero line
  short : line.length < 1024
  onePage : OnePage str line.length
  few : (words line).length < maxArgs
  aligned : argv % 4 = 0
  slots : Slots argv ((words line).length + 1) str line.length d
  null : u.load (argv + 4 * (words line).length) 4 = 0

/-- The memory of `sh` when `execve` is called. -/
def parsed (u : Memory) (last str d argv : ℕ) : Memory :=
  (parseArgs argv d 1026 str 0 ⟨u, last⟩).2.mem

theorem CommandLine.parsed_spec {str d : ℕ} {line : List UInt8} (h : CommandLine u str d argv line)
    (last : ℕ) : Stores (parsed u last str d argv) argv str (str + line.length) (words line) ∧
      (parsed u last str d argv).load (argv + 4 * (words line).length) 4 = 0 := by
  have htop := h.slots.top
  have hline := h.slots.line
  have hd := h.slots.delimiters
  have hspec : Parsed argv 0 str line u (parseArgs argv d 1026 str 0 ⟨u, last⟩) :=
    parseArgs_spec (s := ⟨u, last⟩) (i := 0) (if_neg h.placed.ne_zero) h.placed h.nonZero
      (by have := h.few; omega) (by have := h.short; omega)
      ⟨by omega, h.slots.line_top, by omega, by omega⟩
  refine ⟨hspec.stores, ?_⟩
  rw [← h.null]
  apply Memory.load_congr
  · rw [space]
    simp only [word32] at htop
    omega
  · intro x hx hx'
    exact hspec.frame x (by omega) (by omega)

/-- A vector for the environment that fits into its pages. -/
structure Environment (k : Kernel) (p envp : ℕ) (env : List (List UInt8)) : Prop where
  vector : VectorAt k.mmu.mem (k.procs p).pdt envp env
  length_le : env.length ≤ 1024
  ne : [] ∉ env.dropLast
  bytes : stringBytes env ≤ 4096
  onePage : ∀ i < env.length, OnePage (ptrAt k.mmu.mem (k.procs p).pdt envp i) (lenAt env i)

/-- A line of less than ten words was typed, and `main` has stored them. When the process that
calls `execve` shows what `sh` has stored, and the program is found and loaded, then it is started
with the words of the line as its arguments. -/
theorem typed_words_passed {str d envp last addr : ℕ} {line : List UInt8}
    (h : CommandLine u str d argv line) {k k₂ : Kernel} {fs : FsCalls} {root : Option Mount}
    {mounts : List Mount}
    (hload : ExecLoads k fs root mounts (some ((tmp line).map fun c => Char.ofNat c.toNat)) addr k₂)
    (hregion : k₂.mmu.bitmap.Region) (hstart : 0x2000 ≤ k₂.mmu.bitmap.start)
    (hspace : Occupied k₂.mmu.bitmap k₂.mmu.mem (k₂.procs p).pdt) (hroom : ArgumentsRoom k₂ addr)
    (hargv : Shows k₂ p (parsed u last str d argv) argv (argv + 4 * (words line).length + 4))
    (hline : Shows k₂ p (parsed u last str d argv) str (str + line.length + 1))
    {env : List (List UInt8)} (henv : Environment k₂ p envp env) :
    ∃ k', processExecve k fs root mounts p (some ((tmp line).map fun c => Char.ofNat c.toNat)) argv
        envp = some (0, k') ∧ ArgumentsPassed k' p (words line) env := by
  obtain ⟨hstores, hnull⟩ := h.parsed_spec last
  have htop := h.slots.top
  obtain ⟨hvector, hinside⟩ := hstores.vectorAt
    (nonZero_words line.length line le_rfl h.nonZero) (Nat.pos_of_ne_zero h.placed.ne_zero) hnull
    h.aligned (by omega) h.slots.line_top hargv hline
  -- no string crosses the end of a page
  have hwords : ∀ i < (words line).length, ∀ j < lenAt (words line) i,
      ¬ Straddles (ptrAt k₂.mmu.mem (k₂.procs p).pdt argv i) (lenAt (words line) i) j := by
    intro i hi j hj
    obtain ⟨h1, h2⟩ := hinside i hi
    have hpage := h.onePage
    unfold OnePage at hpage
    exact OnePage.not_straddles (n := lenAt (words line) i) (by unfold OnePage; omega) le_rfl hj
  have henvs : ∀ i < env.length, ∀ j < lenAt env i,
      ¬ Straddles (ptrAt k₂.mmu.mem (k₂.procs p).pdt envp i) (lenAt env i) j :=
    fun i hi j hj => (henv.onePage i hi).not_straddles le_rfl hj
  have hcaller : ExecCaller k₂ p argv envp (words line) env :=
    { region := hregion
      start := hstart
      space := hspace
      argvAt := hvector
      envpAt := henv.vector
      argvBehind := fun i hi j hj hs => absurd hs (hwords i hi j hj)
      envpBehind := fun i hi j hj hs => absurd hs (henvs i hi j hj) }
  -- and both vectors fit
  have hnil := nil_notMem_words line
  have hbytes : stringBytes (words line) ≤ 4096 :=
    (stringBytes_words_le line.length line le_rfl).trans (by have := h.short; omega)
  have hfew : (words line).length < 1024 := h.few.trans (by decide)
  have hlen := stopAt_eq_iff.mpr hnil
  obtain ⟨hfits, -⟩ := (vector_fits_iff (words line)).mpr
    ⟨hfew.le, fun hmem => hnil (List.mem_of_mem_dropLast hmem), hbytes⟩
  obtain ⟨hfits', hlast⟩ := (vector_fits_iff env).mpr ⟨henv.length_le, henv.ne, henv.bytes⟩
  obtain ⟨k', hexec, hiff⟩ := hcaller.execElf_spec hroom hfits hfits'
  refine ⟨k', by rw [hload.execve_eq, hexec, Option.map_some], hiff.mpr ⟨⟨hlen, hfew, ?_⟩, hlast, ?_⟩⟩
  · exact fun i hi j hj hs => absurd hs (hwords i (hlen ▸ hi) j hj)
  · exact fun i hi j hj hs => absurd hs (henvs i (hi.trans_le (stops_stopAt env).le) j hj)

end Program

/-! ### The line `a` -/

/-- A root directory with a directory `bin`, in which there is an ELF file `a.elf`. -/
def binMount : Mount := { elfMount with
  fs := listedFs fun ino =>
    if ino = 1 then [(['b', 'i', 'n'], plainStat 3 0x41ff)]
    else if ino = 3 then [(['a', '.', 'e', 'l', 'f'], elfStat)] else [] }

def binPath : List Char := ['/', 'b', 'i', 'n', '/', 'a', '.', 'e', 'l', 'f']

theorem vfsStatCall_bin {k k₁ k₂ : Kernel} {fn f : ℕ} (hname : Lends k k₁ 11 fn)
    (hfile : Lends k₁ k₂ sizeofFile f) :
    vfsStatCall k (elfCalls 0) (some binMount) [] (some binPath) =
      some (.ok (some binMount, elfStat), free (free k₂ f) fn) := by
  have hstrdup : strdup k binPath = some (fn, k₁) := hname.call
  have hcalloc : calloc k₁ 1 sizeofFile = some (f, k₂) := hfile.call
  have hwalk : walkPathCall (elfCalls 0) [] 11 ⟨binMount, binMount.rootdir, binMount.rootdir⟩
      (some ['b', 'i', 'n']) (some ['a', '.', 'e', 'l', 'f']) k₂ =
        (.ok ⟨binMount, plainStat 3 0x41ff, elfStat⟩, k₂) := by
    rfl
  rw [vfsStatCall]
  dsimp only
  rw [if_neg (by decide), if_neg (by decide), hstrdup, Option.bind_some, if_neg hname.ne, hcalloc,
    Option.map_some, if_neg hfile.ne]
  exact congrArg (fun r : Except ℤ Walk × Kernel =>
    some (r.1.map fun s => (some s.mount, s.st), free (free r.2 f) fn)) hwalk

theorem callerKernel_loads_bin : ∃ heap,
    ExecLoads (callerKernel 97) (elfCalls 0) (some binMount) [] (some binPath) 0xc0101000
      (loadedKernel 97 0 heap) := by
  have hname := lends_of_room (k := callerKernel 97) (show 11 ≠ 0 by decide) (by decide +kernel)
    (by decide +kernel)
  have hfile := lends_of_room (k := { callerKernel 97 with
    heap := (heapAlloc (callerKernel 97).peek fourPages 16).2 }) (show sizeofFile ≠ 0 by decide)
    (by decide +kernel) (by decide +kernel)
  have hstat := vfsStatCall_bin hname hfile
  generalize hk : free (free _ _) _ = k₃ at hstat
  have hbuf := lends_of_room (k := k₃) (show 4181 ≠ 0 by decide) (by subst hk; decide +kernel)
    (by subst hk; decide +kernel)
  have hraw : (heapAlloc k₃.peek k₃.heap (max 4181 minMallocSize)).1 = 0xc0100554 := by
    subst hk
    decide +kernel
  rw [hraw] at hbuf
  have hload : vfsLoadFile k₃ (elfCalls 0) binMount elfStat = some (0xc0101000,
      ((elfCalls 0).read _ binMount elfStat 0xc0101000 85).2) := vfsLoadFile_elf (d := 0) hbuf
  generalize (heapAlloc k₃.peek k₃.heap (max 4181 minMallocSize)).2 = heap at hload
  have hkept : { k₃ with heap := heap } = { callerKernel 97 with heap := heap } := by
    subst hk
    unfold free
    split_ifs <;> rfl
  have hread : ((elfCalls 0).read { callerKernel 97 with heap := heap } binMount elfStat 0xc0101000
      85).2 = loadedKernel 97 0 heap := elfCalls_read (.inl rfl) heap
  rw [hkept, hread] at hload
  obtain ⟨helf, harch⟩ := loadedMmu_elf (.inl rfl) (.inl rfl)
  exact ⟨heap, ⟨binMount, elfStat, k₃, hstat, hload⟩, by decide, helf, harch⟩

/-- The line `a` at `0x20` and a space at `0x40`; `argv` is at `0x10`. -/
def lineMemory : Memory := fun x => if x = 0x20 then 97 else if x = 0x40 then 32 else 0

theorem lineMemory_placed : Tokenizer.Placed lineMemory 0x20 0x40 [97] [32] :=
  ⟨show ∀ i ≤ 1, lineMemory (0x20 + i) = [97].getD i 0 by decide, by decide,
    show ∀ i ≤ 1, lineMemory (0x40 + i) = [32].getD i 0 by decide, by decide⟩

theorem lineMemory_parsed : parsed lineMemory 0 0x20 0x40 0x10 =
    Memory.store lineMemory 0x10 4 0x20 := by
  have hfirst : (⟨lineMemory, 0⟩ : Tokenizer).strtok 0x20 0x40 = (0x20, ⟨lineMemory, 0⟩) :=
    Tokenizer.strtok_last (if_neg (by decide)) (by decide) lineMemory_placed.text (by decide)
      (List.forall_mem_singleton.mpr (by decide)) lineMemory_placed.delimiters (by decide) (by decide)
      (by decide)
  rw [parsed, parseArgs, hfirst, if_neg (by decide)]
  dsimp only
  rw [strlen_rest lineMemory_placed.text (by decide) (by decide), if_neg (by decide),
    parseArgs_end rfl]

theorem lineMemory_commandLine : CommandLine lineMemory 0x20 0x40 0x10 [97] where
  placed := lineMemory_placed
  nonZero := by decide
  short := by decide
  onePage := by decide
  few := by decide
  aligned := by decide
  slots := ⟨by decide, by decide, by decide, by decide⟩
  null := by decide

/-- The page of the caller shows the line and the vector. -/
theorem loadedKernel_shows (heap : Heap) (p : ℕ) :
    Shows (loadedKernel 97 0 heap) p (Memory.store lineMemory 0x10 4 0x20) 0x10 0x22 := by
  have hbytes : ∀ v < 0x22, 0x10 ≤ v → mmuIsMapped (loadedMmu 97 0).mem 0x420000 v = true ∧
      mmuReadb (loadedMmu 97 0).mem 0x420000 v =
        (Memory.store lineMemory 0x10 4 0x20 v).toNat := by
    decide +kernel
  exact fun v hlo hhi => hbytes v hhi hlo

/-- The program `/bin/a.elf` is started with the argument `a` and an empty environment. -/
theorem typed_words_passed_short : ∃ k₂ k',
    processExecve (callerKernel 97) (elfCalls 0) (some binMount) [] 16 (some binPath) 0x10 0x18 =
      some (0, k') ∧ Shows k₂ 16 (parsed lineMemory 0 0x20 0x40 0x10) 0x10 0x22 ∧
      ArgumentsPassed k' 16 (words [97]) [] := by
  obtain ⟨heap, hload⟩ := callerKernel_loads_bin
  have hcaller := loadedKernel_short (.inl rfl) heap
  have hroom := loadedKernel_room 97 0 heap 0xc0101000
  have hshows := loadedKernel_shows heap 16
  rw [← lineMemory_parsed] at hshows
  generalize loadedKernel 97 0 heap = k₂ at hload hcaller hroom hshows
  generalize callerKernel 97 = k at hload ⊢
  have henv : Environment k₂ 16 0x18 [] :=
    ⟨hcaller.envpAt, by decide, by decide, by decide, fun i hi => absurd hi (Nat.not_lt_zero i)⟩
  obtain ⟨k', hexec, hpassed⟩ := typed_words_passed lineMemory_commandLine hload hcaller.region
    hcaller.start hcaller.space hroom (fun v hlo hhi => hshows v hlo (hhi.trans_le (by decide)))
    (fun v hlo hhi => hshows v ((by decide : 0x10 ≤ 0x20).trans hlo) (hhi.trans_le (by decide))) henv
  exact ⟨k₂, k', hexec, hshows, hpassed⟩

end DosKernel.Shell
