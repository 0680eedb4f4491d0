import Conformance.Proofs.Canonical.Value
import Conformance.Proofs.Pointwise
import Mathlib

/-!
# Agreement is rearrangement

Two values agree exactly if one becomes the other when maps, at any depth and also
within keys, are given their entries in another order, one map after another. Where
entries agree in some pairing, each is first turned into its partner in its own
place, and then all of them are put into the other order at once.
-/
namespace Conformance.Canonical.Value
open Conformance Relation

theorem rearranged_item {v w : Value} (before after : List Value)
    (h : ReflTransGen Rearranges v w) :
    ReflTransGen Rearranges (.array (before ++ v :: after)) (.array (before ++ w :: after)) :=
  ReflTransGen.lift (fun u => Value.array (before ++ u :: after))
    (fun _ _ hstep => Rearranges.item before after hstep) _ _ h

theorem rearranged_entry {e f : Value × Value} (before after : List (Value × Value))
    (hkey : ReflTransGen Rearranges e.1 f.1) (hvalue : ReflTransGen Rearranges e.2 f.2) :
    ReflTransGen Rearranges (.map (before ++ e :: after)) (.map (before ++ f :: after)) := by
  have key : ReflTransGen Rearranges (.map (before ++ (e.1, e.2) :: after))
      (.map (before ++ (f.1, e.2) :: after)) :=
    ReflTransGen.lift (fun u => Value.map (before ++ (u, e.2) :: after))
      (fun _ _ hstep => Rearranges.key before after e.2 hstep) _ _ hkey
  have value : ReflTransGen Rearranges (.map (before ++ (f.1, e.2) :: after))
      (.map (before ++ (f.1, f.2) :: after)) :=
    ReflTransGen.lift (fun u => Value.map (before ++ (f.1, u) :: after))
      (fun _ _ hstep => Rearranges.value before after f.1 hstep) _ _ hvalue
  exact key.trans value

/-- Parts of a whole are rearranged from the first to the last; those that are done stand before
the rest. -/
theorem rearranged_parts {α : Type} {R : α → α → Prop} (whole : List α → Value)
    (hone : ∀ before after a b, R a b →
      ReflTransGen Rearranges (whole (before ++ a :: after)) (whole (before ++ b :: after)))
    {as bs : List α} (h : List.Forall₂ R as bs) (before : List α) :
    ReflTransGen Rearranges (whole (before ++ as)) (whole (before ++ bs)) := by
  induction h generalizing before with
  | nil => exact .refl
  | @cons a b as bs hab _ ih =>
    have hrest := ih (before ++ [b])
    rw [List.append_assoc, List.append_assoc] at hrest
    exact (hone before as a b hab).trans hrest

theorem rearranged_items {as bs : List Value} (h : List.Forall₂ (ReflTransGen Rearranges) as bs) :
    ReflTransGen Rearranges (.array as) (.array bs) :=
  rearranged_parts .array (fun before after _ _ => rearranged_item before after) h []

theorem rearranged_entries {as bs : List (Value × Value)}
    (h : List.Forall₂ (fun e f => ReflTransGen Rearranges e.1 f.1 ∧
      ReflTransGen Rearranges e.2 f.2) as bs) :
    ReflTransGen Rearranges (.map as) (.map bs) :=
  rearranged_parts .map (fun before after _ _ h => rearranged_entry before after h.1 h.2) h []

theorem rearranged_of_arranged_eq {v w : Value} (h : arranged v = arranged w) :
    ReflTransGen Rearranges v w := by
  induction v using Value.induction generalizing w with
  | unsigned n =>
    cases w with
    | unsigned m =>
      obtain rfl : n = m := by simpa [arranged] using h
      exact .refl
    | bytes | text | array | map => simp [arranged] at h
  | bytes b =>
    cases w with
    | bytes c =>
      obtain rfl : b = c := by simpa [arranged] using h
      exact .refl
    | unsigned | text | array | map => simp [arranged] at h
  | text s =>
    cases w with
    | text t =>
      obtain rfl : s = t := by simpa [arranged] using h
      exact .refl
    | unsigned | bytes | array | map => simp [arranged] at h
  | array items ih =>
    cases w with
    | array others =>
      have hitems := Pointwise.of_map_eq (arranged_array_inj.mp h)
      refine rearranged_items ((Pointwise.with_mem hitems).imp ?_)
      rintro item other ⟨hmem, -, hagree⟩
      exact ih item hmem hagree
    | unsigned | bytes | text | map => simp [arranged] at h
  | map entries ih =>
    cases w with
    | map others =>
      obtain ⟨partners, hpartners, hperm⟩ := Pointwise.exists_of_map_perm (arranged_map_inj.mp h)
      have hturned : ReflTransGen Rearranges (.map entries) (.map partners) := by
        refine rearranged_entries ((Pointwise.with_mem hpartners).imp ?_)
        rintro e f ⟨hmem, -, hagree⟩
        obtain ⟨hkey, hvalue⟩ := Prod.mk_inj.mp hagree
        exact ⟨(ih e hmem).1 hkey, (ih e hmem).2 hvalue⟩
      exact hturned.tail (.here hperm)
    | unsigned | bytes | text | array => simp [arranged] at h

/-- Agreement is an equivalence, the least one under which a map agrees with itself in any order of
its entries, wherever the map stands. Maps are compared as by counting: they are of one length, and
each entry of the left one agrees with equally many entries of both, repeated ones included. -/
theorem beq_equivalence_of_rearrangement :
    Equivalence (fun v w : Value => (v == w) = true) ∧
    (∀ v w : Value, (v == w) = true ↔ ReflTransGen Rearranges v w) ∧
    ∀ as bs : List (Value × Value), (map as == map bs) = true ↔
      as.length = bs.length ∧ ∀ a ∈ as, as.count a = bs.count a := by
  refine ⟨⟨fun _ => BEq.rfl, BEq.symm, BEq.trans⟩, fun v w => ⟨fun h => ?_, beq_of_rearranges⟩,
    map_beq_iff_count⟩
  exact rearranged_of_arranged_eq ((beq_iff v w).mp h)

/-- Entries that agree in another order count as one entry, but as often as they stand there. -/
example :
    let ab : Value := .map [(.unsigned 1, .text "a"), (.unsigned 2, .text "b")]
    let ba : Value := .map [(.unsigned 2, .text "b"), (.unsigned 1, .text "a")]
    (Value.map [(ab, .unsigned 0), (ba, .unsigned 0), (ab, .unsigned 1)] ==
      Value.map [(ab, .unsigned 1), (ab, .unsigned 0), (ab, .unsigned 0)]) = true ∧
    (Value.map [(ab, .unsigned 0), (ba, .unsigned 0), (ab, .unsigned 1)] ==
      Value.map [(ab, .unsigned 1), (ab, .unsigned 0), (ba, .unsigned 1)]) = false := by
  decide

end Conformance.Canonical.Value
