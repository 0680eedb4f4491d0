import Conformance.Canonical.Encoding
import Conformance.Proofs.Bytes

/-!
# Encoded maps in key order

The order of encoded keys is linear, so the entries of a map with distinct keys
have exactly one order in which they can be written. Writing a map succeeds
exactly when its keys are distinct, and does not see the order of its entries.
-/
namespace Conformance.Canonical
open Conformance

theorem keyOrder_eq_compareLex :
    keyOrder = compareLex (compareOn List.length) (List.compareLex Ord.compare) := by
  funext a b
  rw [keyOrder, Bytes.compare_eq_compareLex]
  rfl

instance : Std.TransCmp keyOrder := by
  rw [keyOrder_eq_compareLex]
  infer_instance

instance : Std.LawfulEqCmp keyOrder where
  eq_of_compare {a b} h := by
    rw [keyOrder_eq_compareLex, compareLex_eq_eq] at h
    exact Std.LawfulEqCmp.eq_of_compare h.2

theorem keyOrder_self (a : Bytes) : keyOrder a a = .eq :=
  Std.ReflCmp.compare_self

theorem keyOrder_swap (a b : Bytes) : keyOrder a b = (keyOrder b a).swap :=
  Std.OrientedCmp.eq_swap

/-- Entries in strictly increasing order of their keys. -/
def KeysIncrease (entries : List EncodedEntry) : Prop :=
  entries.Pairwise fun a b => keyOrder a.1 b.1 = .lt

/-- Entries whose keys do not decrease. -/
def KeysAscend (entries : List EncodedEntry) : Prop :=
  entries.Pairwise fun a b => (keyOrder a.1 b.1).isLE = true

theorem KeysIncrease.ascend {entries : List EncodedEntry} (h : KeysIncrease entries) :
    KeysAscend entries :=
  List.Pairwise.imp (fun {a b} hab => by rw [hab]; rfl) h

theorem sortEntries_perm (entries : List EncodedEntry) : (sortEntries entries).Perm entries :=
  List.mergeSort_perm _ _

theorem sortEntries_ascend (entries : List EncodedEntry) : KeysAscend (sortEntries entries) := by
  apply List.pairwise_mergeSort
  · intro a b c hab hbc
    exact Std.TransCmp.isLE_trans hab hbc
  · intro a b
    rw [keyOrder_swap b.1 a.1]
    cases keyOrder a.1 b.1 <;> rfl

theorem KeysIncrease.nodup_keys {entries : List EncodedEntry} (h : KeysIncrease entries) :
    (entries.map Prod.fst).Nodup := by
  refine List.pairwise_map.mpr (List.Pairwise.imp ?_ h)
  intro a b hab heq
  rw [heq, keyOrder_self] at hab
  cases hab

/-- Distinct keys increase when they are sorted. -/
theorem sortEntries_increase {entries : List EncodedEntry}
    (h : (entries.map Prod.fst).Nodup) : KeysIncrease (sortEntries entries) := by
  have hdistinct : ((sortEntries entries).map Prod.fst).Nodup :=
    ((sortEntries_perm entries).map Prod.fst).nodup_iff.mpr h
  refine List.Pairwise.imp₂ ?_ (sortEntries_ascend entries) (List.pairwise_map.mp hdistinct)
  intro a b hle hne
  cases hab : keyOrder a.1 b.1 with
  | lt => rfl
  | eq => exact absurd (Std.LawfulEqCmp.eq_of_compare hab) hne
  | gt => simp [hab] at hle

/-- Sorting finds the one increasing arrangement, if there is one. -/
theorem sortEntries_eq {sorted entries : List EncodedEntry} (h : KeysIncrease sorted)
    (hp : sorted.Perm entries) : sortEntries entries = sorted := by
  have hp' : (sortEntries entries).Perm sorted := (sortEntries_perm entries).trans hp.symm
  refine List.Perm.eq_of_pairwise ?_ (sortEntries_ascend entries : List.Pairwise _ _)
    (h.ascend : List.Pairwise _ _) hp'
  intro a b ha hb hab hba
  have hkey : a.1 = b.1 := Std.LawfulEqCmp.eq_of_compare (Std.OrientedCmp.isLE_antisymm hab hba)
  exact List.inj_on_of_nodup_map h.nodup_keys (hp'.subset ha) hb hkey

/-- Among keys that do not decrease, equal ones stand side by side. -/
theorem repeatedKey?_eq_none_iff {entries : List EncodedEntry} (h : KeysAscend entries) :
    repeatedKey? entries = none ↔ KeysIncrease entries := by
  induction entries with
  | nil => simp [repeatedKey?, KeysIncrease]
  | cons a entries ih =>
    cases entries with
    | nil => simp [repeatedKey?, KeysIncrease]
    | cons b entries =>
      have hrest := ih (List.Pairwise.of_cons h)
      have hfirst := List.rel_of_pairwise_cons h List.mem_cons_self
      rw [repeatedKey?]
      by_cases hab : a.1 = b.1
      · rw [if_pos hab]
        constructor
        · intro hf
          cases hf
        · intro hi
          have hlt := List.rel_of_pairwise_cons hi List.mem_cons_self
          rw [hab, keyOrder_self] at hlt
          cases hlt
      · rw [if_neg hab, hrest]
        constructor
        · intro hi
          refine List.pairwise_cons.mpr ⟨?_, hi⟩
          have hlt : keyOrder a.1 b.1 = .lt := by
            cases hk : keyOrder a.1 b.1 with
            | lt => rfl
            | eq => exact absurd (Std.LawfulEqCmp.eq_of_compare hk) hab
            | gt =>
              rw [hk] at hfirst
              cases hfirst
          intro c hc
          rcases List.mem_cons.mp hc with rfl | hc
          · exact hlt
          · exact Std.TransCmp.lt_trans hlt (List.rel_of_pairwise_cons hi hc)
        · exact List.Pairwise.of_cons

/-- The content of a map: each key followed by its value. -/
def writeEntries (entries : List EncodedEntry) : Bytes :=
  entries.flatMap fun e => e.1 ++ e.2

/-- A map is written in the one increasing arrangement of its entries, and not without one. -/
theorem writeMap_eq_ok_iff (entries : List EncodedEntry) (bytes : Bytes) :
    writeMap entries = .ok bytes ↔ ∃ sorted, sorted.Perm entries ∧ KeysIncrease sorted ∧
      bytes = Header.write .map sorted.length ++ writeEntries sorted := by
  have hiff := repeatedKey?_eq_none_iff (sortEntries_ascend entries)
  constructor
  · intro h
    simp only [writeMap] at h
    split at h
    · cases h
    · rename_i hnone
      cases h
      exact ⟨sortEntries entries, sortEntries_perm entries, hiff.mp hnone, rfl⟩
  · rintro ⟨sorted, hp, hi, rfl⟩
    have hs := sortEntries_eq hi hp
    have hnone : repeatedKey? sorted = none := by
      rw [← hs]
      exact hiff.mpr (hs ▸ hi)
    simp only [writeMap, hs, hnone]
    rfl

end Conformance.Canonical
