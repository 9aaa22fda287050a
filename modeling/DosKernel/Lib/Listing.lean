import Mathlib.Tactic

/-! Searches that log what they find, `none` when they do not come to an end: one search
after another, and a loop. -/

namespace DosKernel.Lib

variable {α β : Type*} {s t : Option (List α)} {P Q : α → Prop} {l : List β}
  {f : β → Option (List α)}

def both (s t : Option (List α)) : Option (List α) := s.bind fun x => t.map (x ++ ·)

def each (l : List β) (f : β → Option (List α)) : Option (List α) :=
  l.foldr (fun b s => both (f b) s) (some [])

/-- The search ends, and finds what satisfies `P`, each of it once. -/
def Lists (s : Option (List α)) (P : α → Prop) : Prop :=
  ∃ xs, s = some xs ∧ xs.Nodup ∧ ∀ x, x ∈ xs ↔ P x

/-- When the search ends it has found only what satisfies `P`. -/
def FindsOnly (s : Option (List α)) (P : α → Prop) : Prop := ∀ xs, s = some xs → ∀ x ∈ xs, P x

@[simp] theorem both_eq_some {xs : List α} :
    both s t = some xs ↔ ∃ ys zs, s = some ys ∧ t = some zs ∧ ys ++ zs = xs := by
  simp only [both, Option.bind_eq_some_iff, Option.map_eq_some_iff]
  constructor
  · rintro ⟨ys, hs, zs, ht, heq⟩
    exact ⟨ys, zs, hs, ht, heq⟩
  · rintro ⟨ys, zs, hs, ht, heq⟩
    exact ⟨ys, hs, zs, ht, heq⟩

@[simp] theorem each_nil : each [] f = some [] := rfl

@[simp] theorem each_cons (b : β) : each (b :: l) f = both (f b) (each l f) := rfl

theorem lists_nil (h : ∀ x, ¬ P x) : Lists (some []) P :=
  ⟨[], rfl, List.nodup_nil, fun x => iff_of_false List.not_mem_nil (h x)⟩

theorem lists_single (a : α) : Lists (some [a]) (· = a) :=
  ⟨[a], rfl, List.nodup_singleton a, fun _ => List.mem_singleton⟩

theorem Lists.congr (h : Lists s P) (hPQ : ∀ x, P x ↔ Q x) : Lists s Q := by
  obtain ⟨xs, hs, hnodup, hmem⟩ := h
  exact ⟨xs, hs, hnodup, fun x => (hmem x).trans (hPQ x)⟩

theorem Lists.both (hs : Lists s P) (ht : Lists t Q) (hdisjoint : ∀ x, P x → ¬ Q x) :
    Lists (both s t) fun x => P x ∨ Q x := by
  obtain ⟨xs, hxs, hnx, hx⟩ := hs
  obtain ⟨ys, hys, hny, hy⟩ := ht
  refine ⟨xs ++ ys, both_eq_some.mpr ⟨xs, ys, hxs, hys, rfl⟩, ?_, fun x => ?_⟩
  · refine List.Nodup.append hnx hny fun x h1 h2 => ?_
    exact hdisjoint x ((hx x).mp h1) ((hy x).mp h2)
  · rw [List.mem_append, hx, hy]

/-- A loop over different things finds what its rounds find, when these have nothing in
common. -/
theorem Lists.each {P : β → α → Prop} (hnodup : l.Nodup) (hf : ∀ b ∈ l, Lists (f b) (P b))
    (hdisjoint : ∀ b ∈ l, ∀ c ∈ l, ∀ x, P b x → P c x → b = c) :
    Lists (each l f) fun x => ∃ b ∈ l, P b x := by
  induction l with
  | nil => exact lists_nil fun x => by simp
  | cons b l ih =>
    have hb := hf b List.mem_cons_self
    have hl := ih (List.nodup_cons.mp hnodup).2 (fun c hc => hf c (List.mem_cons_of_mem b hc))
      fun c hc d hd => hdisjoint c (List.mem_cons_of_mem b hc) d (List.mem_cons_of_mem b hd)
    refine (hb.both hl fun x hx => ?_).congr fun x => by simp
    rintro ⟨c, hc, hcx⟩
    obtain rfl := hdisjoint b List.mem_cons_self c (List.mem_cons_of_mem b hc) x hx hcx
    exact (List.nodup_cons.mp hnodup).1 hc

theorem FindsOnly.mono (h : FindsOnly s P) (hPQ : ∀ x, P x → Q x) : FindsOnly s Q :=
  fun xs hs x hx => hPQ x (h xs hs x hx)

theorem findsOnly_nil : FindsOnly (some []) P := by
  rintro xs hs x hx
  obtain rfl := Option.some.inj hs
  cases hx

theorem findsOnly_single {a : α} (ha : P a) : FindsOnly (some [a]) P := by
  rintro xs hs x hx
  obtain rfl := Option.some.inj hs
  exact List.mem_singleton.mp hx ▸ ha

theorem FindsOnly.both (hs : FindsOnly s P) (ht : FindsOnly t P) : FindsOnly (both s t) P := by
  rintro xs hxs x hx
  obtain ⟨ys, zs, hys, hzs, rfl⟩ := both_eq_some.mp hxs
  exact (List.mem_append.mp hx).elim (hs ys hys x) (ht zs hzs x)

theorem FindsOnly.each (hf : ∀ b ∈ l, FindsOnly (f b) P) : FindsOnly (each l f) P := by
  induction l with
  | nil => exact findsOnly_nil
  | cons b l ih =>
    exact (hf b List.mem_cons_self).both (ih fun c hc => hf c (List.mem_cons_of_mem b hc))

theorem each_isSome (hf : ∀ b ∈ l, (f b).isSome) : (each l f).isSome := by
  induction l with
  | nil => rfl
  | cons b l ih =>
    obtain ⟨ys, hys⟩ := Option.isSome_iff_exists.mp (hf b List.mem_cons_self)
    obtain ⟨zs, hzs⟩ := Option.isSome_iff_exists.mp
      (ih fun c hc => hf c (List.mem_cons_of_mem b hc))
    exact Option.isSome_iff_exists.mpr ⟨ys ++ zs, by simp [hys, hzs]⟩

end DosKernel.Lib
