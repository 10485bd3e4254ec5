import Mathlib.Data.List.Forall2
import Mathlib.Data.List.Infix
import Mathlib.Data.List.TakeWhile

/-! Lists whose members go together pair by pair, and parts of lists. A text, its
tokens, its items and its rows are lists of one length or can be cut to such, so
what is known of one of these forms is carried to the next along the pairs. -/

namespace Listfile

section Pairs
variable {α β γ : Type} {R : α → β → Prop} {l : List α} {m : List β}

theorem exists_of_mem_forall₂ (h : List.Forall₂ R l m) {a : α} (ha : a ∈ l) : ∃ b ∈ m, R a b := by
  induction h with
  | nil => simp at ha
  | cons hab _ ih =>
    rcases List.mem_cons.mp ha with rfl | ha
    · exact ⟨_, List.mem_cons_self .., hab⟩
    · obtain ⟨b, hb, hr⟩ := ih ha
      exact ⟨b, List.mem_cons_of_mem _ hb, hr⟩

/-- Two relations that meet in one list. -/
theorem forall₂_trans {Q : β → γ → Prop} {S : α → γ → Prop}
    (hS : ∀ a b c, R a b → Q b c → S a c) {n : List γ} (h : List.Forall₂ R l m)
    (h' : List.Forall₂ Q m n) : List.Forall₂ S l n := by
  induction h generalizing n with
  | nil =>
    cases h'
    exact .nil
  | cons hab _ ih =>
    cases h' with
    | cons hbc hrest => exact .cons (hS _ _ _ hab hbc) (ih hrest)

theorem forall_mem_iff_of_forall₂ {P : α → Prop} {Q : β → Prop}
    (h : List.Forall₂ (fun a b => P a ↔ Q b) l m) : (∀ a ∈ l, P a) ↔ ∀ b ∈ m, Q b := by
  induction h with
  | nil => simp
  | cons hab _ ih => rw [List.forall_mem_cons, List.forall_mem_cons, hab, ih]

theorem flatMap_of_forall₂ {f : α → List γ} {g : β → List γ}
    (h : List.Forall₂ (fun a b => f a = g b) l m) : l.flatMap f = m.flatMap g := by
  induction h with
  | nil => rfl
  | cons hab _ ih => rw [List.flatMap_cons, List.flatMap_cons, hab, ih]

theorem pairwise_of_forall₂ {S : β → β → Prop} {T : α → α → Prop}
    (hT : ∀ a b a' b', R a b → R a' b' → S b b' → T a a') (h : List.Forall₂ R l m)
    (hs : m.Pairwise S) : l.Pairwise T := by
  induction h with
  | nil => exact .nil
  | cons hab hrest ih =>
    obtain ⟨hfirst, hs⟩ := List.pairwise_cons.mp hs
    refine .cons (fun a' ha' => ?_) (ih hs)
    obtain ⟨b', hb', hab'⟩ := exists_of_mem_forall₂ hrest ha'
    exact hT _ _ _ _ hab hab' (hfirst b' hb')

end Pairs

section Parts
variable {α γ : Type}

theorem flatMap_filter (p : α → Bool) (f : α → List γ) (l : List α) :
    (l.filter p).flatMap f = l.flatMap fun a => if p a then f a else [] := by
  induction l with
  | nil => rfl
  | cons a l ih => cases h : p a <;> simp [h, ih]

theorem drop_length_takeWhile (p : α → Bool) (l : List α) :
    l.drop (l.takeWhile p).length = l.dropWhile p := by
  induction l with
  | nil => rfl
  | cons a l ih => by_cases h : p a <;> simp [h, ih]

/-- What does not hold `c` stands before it or behind it. -/
theorem infix_append_cons {within xs ys : List α} {c : α} (h : within <:+: xs ++ c :: ys)
    (hc : c ∉ within) : within <:+: xs ∨ within <:+: ys := by
  rcases List.infix_append_iff_ne_nil.mp h with hxs | hys | ⟨l, m, -, hne, rfl, -, hm⟩
  · exact .inl hxs
  · rcases List.infix_cons_iff.mp hys with hprefix | hinner
    · rcases List.prefix_cons_iff.mp hprefix with rfl | ⟨t, rfl, -⟩
      · exact .inl (List.nil_infix)
      · simp at hc
    · exact .inr hinner
  · rcases List.prefix_cons_iff.mp hm with rfl | ⟨t, rfl, -⟩
    · contradiction
    · simp at hc

end Parts

end Listfile
