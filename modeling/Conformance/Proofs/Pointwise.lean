import Mathlib.Tactic
import Mathlib.Data.List.Forall2

/-!
# Lists related element by element
-/
namespace Conformance.Pointwise
open List

variable {α β γ : Type} {R S : α → β → Prop} {l : List α} {u : List β}

theorem congr_left (h : ∀ a ∈ l, ∀ b, R a b ↔ S a b) (u : List β) :
    Forall₂ R l u ↔ Forall₂ S l u := by
  induction l generalizing u with
  | nil => simp
  | cons a l ih =>
    simp only [forall₂_cons_left_iff, h a mem_cons_self, ih fun b hb => h b (mem_cons_of_mem a hb)]

theorem with_mem (h : Forall₂ R l u) : Forall₂ (fun a b => a ∈ l ∧ b ∈ u ∧ R a b) l u := by
  induction h with
  | nil => exact .nil
  | cons hab h ih =>
    refine .cons ⟨mem_cons_self, mem_cons_self, hab⟩ (ih.imp ?_)
    rintro a b ⟨ha, hb, hr⟩
    exact ⟨mem_cons_of_mem _ ha, mem_cons_of_mem _ hb, hr⟩

theorem exists_left (h : Forall₂ R l u) {b : β} (hb : b ∈ u) : ∃ a ∈ l, R a b := by
  induction h with
  | nil => simp at hb
  | cons hab h ih =>
    rcases mem_cons.mp hb with rfl | hb
    · exact ⟨_, mem_cons_self, hab⟩
    · obtain ⟨a, ha, hr⟩ := ih hb
      exact ⟨a, mem_cons_of_mem _ ha, hr⟩

theorem exists_right (h : Forall₂ R l u) {a : α} (ha : a ∈ l) : ∃ b ∈ u, R a b :=
  exists_left h.flip ha

/-- Where each pair has a third element, there is a list of them. -/
theorem exists_third {P : β → γ → Prop} {Q : α → γ → Prop}
    (h : Forall₂ (fun a b => ∃ c, P b c ∧ Q a c) l u) :
    ∃ w, Forall₂ P u w ∧ Forall₂ Q l w := by
  induction h with
  | nil => exact ⟨[], .nil, .nil⟩
  | cons hab h ih =>
    obtain ⟨c, hp, hq⟩ := hab
    obtain ⟨w, hpw, hqw⟩ := ih
    exact ⟨c :: w, .cons hp hpw, .cons hq hqw⟩

theorem exists_forall₂_iff : (∃ u, Forall₂ R l u) ↔ ∀ a ∈ l, ∃ b, R a b := by
  induction l with
  | nil => simp
  | cons a l ih =>
    rw [forall_mem_cons, ← ih]
    constructor
    · rintro ⟨_, hr⟩
      obtain ⟨b, u, hb, hu, -⟩ := forall₂_cons_left_iff.mp hr
      exact ⟨⟨b, hb⟩, u, hu⟩
    · rintro ⟨⟨b, hb⟩, u, hu⟩
      exact ⟨b :: u, .cons hb hu⟩

theorem exists_sublist {w : List β} (h : Forall₂ R l u) (hw : w <+ u) :
    ∃ k, k <+ l ∧ Forall₂ R k w := by
  induction hw generalizing l with
  | slnil => exact ⟨[], nil_sublist l, .nil⟩
  | cons b _ ih =>
    obtain ⟨a, l, -, hl, rfl⟩ := forall₂_cons_right_iff.mp h
    obtain ⟨k, hk, hkw⟩ := ih hl
    exact ⟨k, hk.cons a, hkw⟩
  | cons_cons b _ ih =>
    obtain ⟨a, l, hab, hl, rfl⟩ := forall₂_cons_right_iff.mp h
    obtain ⟨k, hk, hkw⟩ := ih hl
    exact ⟨a :: k, hk.cons_cons a, .cons hab hkw⟩

theorem exists_pair (h : Forall₂ R l u) {c d : β} (hpair : [c, d] <+ u) :
    ∃ a b, [a, b] <+ l ∧ R a c ∧ R b d := by
  obtain ⟨k, hk, hkw⟩ := exists_sublist h hpair
  obtain ⟨a, rest, hac, hrest, rfl⟩ := forall₂_cons_right_iff.mp hkw
  obtain ⟨b, last, hbd, hlast, rfl⟩ := forall₂_cons_right_iff.mp hrest
  obtain rfl := forall₂_nil_right_iff.mp hlast
  exact ⟨a, b, hk, hac, hbd⟩

theorem map_eq_of {f : α → γ} {g : β → γ} (h : Forall₂ (fun a b => f a = g b) l u) :
    l.map f = u.map g := by
  induction h with
  | nil => rfl
  | cons hab h ih => rw [map_cons, map_cons, hab, ih]

theorem of_map_eq {f : α → γ} {g : β → γ} (h : l.map f = u.map g) :
    Forall₂ (fun a b => f a = g b) l u := by
  rwa [← forall₂_eq_eq_eq, forall₂_map_left_iff, forall₂_map_right_iff] at h

/-- Where two lists have the same images in some order, each element has a partner in the other. -/
theorem exists_of_map_perm {f : α → γ} {g : β → γ} (h : (l.map f).Perm (u.map g)) :
    ∃ w, Forall₂ (fun a b => f a = g b) l w ∧ w.Perm u := by
  have himages : Forall₂ (fun c b => c = g b) (u.map g) u :=
    forall₂_map_left_iff.mpr (forall₂_same.mpr fun _ _ => rfl)
  obtain ⟨w, hw, hperm⟩ := perm_comp_forall₂ h himages
  exact ⟨w, forall₂_map_left_iff.mp hw, hperm⟩

/-- Lists are equal if the elements that share a partner are. -/
theorem eq_of_shared {m : List α} (h : Forall₂ R l u) (k : Forall₂ R m u)
    (hunique : ∀ a ∈ l, ∀ b ∈ m, ∀ c, R a c → R b c → a = b) : l = m := by
  induction h generalizing m with
  | nil => exact (forall₂_nil_right_iff.mp k).symm
  | cons hac h ih =>
    obtain ⟨b, m, hbc, hrest, rfl⟩ := forall₂_cons_right_iff.mp k
    rw [hunique _ mem_cons_self b mem_cons_self _ hac hbc,
      ih hrest fun a ha b hb => hunique a (mem_cons_of_mem _ ha) b (mem_cons_of_mem _ hb)]

end Conformance.Pointwise
