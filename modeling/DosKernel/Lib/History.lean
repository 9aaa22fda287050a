import Mathlib.Tactic

/-! Histories: lists of events that grow at the end. -/

namespace DosKernel.Lib

variable {ε : Type*} {l : List ε} {a b e : ε}

/-- There is an `a` with a `b` behind it. -/
def Precedes (a b : ε) (l : List ε) : Prop := ∃ as bs cs, l = as ++ a :: (bs ++ b :: cs)

/-- Every event is as `P` asks for after the events before it. -/
def EachEvent (P : List ε → ε → Prop) (l : List ε) : Prop :=
  ∀ pre post e, l = pre ++ e :: post → P pre e

theorem Precedes.mem_left (h : Precedes a b l) : a ∈ l := by
  obtain ⟨as, bs, cs, rfl⟩ := h
  simp

theorem Precedes.append (h : Precedes a b l) (es : List ε) : Precedes a b (l ++ es) := by
  obtain ⟨as, bs, cs, rfl⟩ := h
  exact ⟨as, bs, cs ++ es, by simp⟩

theorem precedes_concat : Precedes a b (l ++ [e]) ↔ Precedes a b l ∨ a ∈ l ∧ e = b := by
  constructor
  · rintro ⟨as, bs, cs, h⟩
    rcases List.eq_nil_or_concat cs with rfl | ⟨cs, c, rfl⟩
    · have hsplit : l ++ [e] = (as ++ a :: bs) ++ [b] := by simpa using h
      obtain ⟨rfl, hlast⟩ := List.append_inj' hsplit rfl
      exact .inr ⟨by simp, List.singleton_inj.mp hlast⟩
    · have hsplit : l ++ [e] = (as ++ a :: (bs ++ b :: cs)) ++ [c] := by simpa using h
      exact .inl ⟨as, bs, cs, (List.append_inj' hsplit rfl).1⟩
  · rintro (⟨as, bs, cs, rfl⟩ | ⟨ha, rfl⟩)
    · exact Precedes.append ⟨as, bs, cs, rfl⟩ [e]
    · obtain ⟨as, bs, rfl⟩ := List.append_of_mem ha
      exact ⟨as, bs, [], by simp⟩

theorem eachEvent_nil (P : List ε → ε → Prop) : EachEvent P [] := by
  intro pre post e h
  simp at h

theorem eachEvent_concat {P : List ε → ε → Prop} :
    EachEvent P (l ++ [e]) ↔ EachEvent P l ∧ P l e := by
  constructor
  · intro h
    refine ⟨fun pre post e' hl => ?_, h l [] e rfl⟩
    exact h pre (post ++ [e]) e' (by simp [hl])
  · rintro ⟨hl, he⟩ pre post e' hsplit
    rcases List.eq_nil_or_concat post with rfl | ⟨post, e'', rfl⟩
    · obtain ⟨rfl, hlast⟩ := List.append_inj' hsplit rfl
      exact List.singleton_inj.mp hlast ▸ he
    · have hfront : l ++ [e] = (pre ++ e' :: post) ++ [e''] := by simpa using hsplit
      exact hl pre post e' (List.append_inj' hfront rfl).1

end DosKernel.Lib
