import DiceAlgebra.Proofs.Dice.Order
import DiceAlgebra.Proofs.Pool.Layout

/-! Contraction in full. Groups may as well stand in the order in which their dice turn up and be sorted at the very
end: what is in a group depends on the counts alone, and no two groups compare equal, so there is one way to sort
them. Read the other way round, being in order and holding the clamped sums leaves one list only. -/
namespace DiceAlgebra.Pool

/-- Adds dice to the group with their number of faces, wherever it stands. A new group is opened at the end. -/
def mergeInto (groups : List Dice) (d : Dice) : List Dice :=
  match groups with
  | [] => [d]
  | g :: rest =>
    if g.faces = d.faces then
      { g with count := saturatingAdd g.count d.count } :: rest
    else
      g :: mergeInto rest d

theorem map_faces_mergeInto (groups : List Dice) (d : Dice) :
    (mergeInto groups d).map Dice.faces =
      if d.faces ∈ groups.map Dice.faces then groups.map Dice.faces
      else groups.map Dice.faces ++ [d.faces] := by
  induction groups with
  | nil => rfl
  | cons g rest ih =>
    rw [mergeInto]
    by_cases here : g.faces = d.faces
    · simp [here]
    · rw [if_neg here, List.map_cons, ih]
      have elsewhere : d.faces ≠ g.faces := Ne.symm here
      by_cases later : d.faces ∈ rest.map Dice.faces <;> simp [elsewhere, later]

theorem apart_mergeInto {groups : List Dice} (d : Dice) (apart : Apart groups) :
    Apart (mergeInto groups d) := by
  rw [Apart, map_faces_mergeInto]
  split
  · exact apart
  · next new => exact List.nodup_append.mpr ⟨apart, List.nodup_singleton _, by grind⟩

theorem countsOf_mergeInto_of_ne {faces : UInt32} (groups : List Dice) {d : Dice} (h : d.faces ≠ faces) :
    countsOf faces (mergeInto groups d) = countsOf faces groups := by
  induction groups with
  | nil => exact countsOf_cons_of_ne [] h
  | cons g rest ih =>
    rw [mergeInto]
    split
    · next same =>
      have elsewhere : g.faces ≠ faces := same ▸ h
      rw [countsOf_cons_of_ne _ elsewhere]
      exact countsOf_cons_of_ne _ elsewhere
    · by_cases here : g.faces = faces
      · rw [countsOf_cons_of_eq _ here, ih, countsOf_cons_of_eq _ here]
      · rw [countsOf_cons_of_ne _ here, ih, countsOf_cons_of_ne _ here]

theorem countsOf_mergeInto {groups : List Dice} (d : Dice) (apart : Apart groups) :
    countsOf d.faces (mergeInto groups d) = [clampedSum (countsOf d.faces groups ++ [d.count])] := by
  induction groups with
  | nil => exact countsOf_opened rfl
  | cons g rest ih =>
    rcases List.nodup_cons.mp apart with ⟨new, apart_rest⟩
    rw [mergeInto]
    split
    · next same =>
      exact countsOf_raised same (countsOf_eq_nil fun e later equal =>
        new (List.mem_map.mpr ⟨e, later, equal.trans same.symm⟩))
    · next other => rw [countsOf_cons_of_ne _ other, countsOf_cons_of_ne _ other, ih apart_rest]

theorem merges_mergeInto : Merges Apart mergeInto where
  grouped d apart := apart_mergeInto d apart
  own d apart := countsOf_mergeInto d apart
  other groups _ h := countsOf_mergeInto_of_ne groups h

theorem descending_sort {ds : List Dice} (apart : Apart ds) : Descending (Dice.sort ds) := by
  have apart_sort : Apart (Dice.sort ds) := (((Dice.sort_perm ds).map _).nodup_iff).mpr apart
  refine ((Dice.pairwise_sort ds).and (List.pairwise_map.mp apart_sort)).imp ?_
  rintro a b ⟨le, ne⟩
  rcases Dice.isLE_compare_iff.mp le with less | ⟨equal, -⟩
  · exact less
  · exact absurd equal ne

/-- Contraction is merging in the order written, dropping what has cancelled out, and sorting. -/
theorem entries_contract (p : Pool) :
    p.contract.entries = Dice.sort ((p.entries.foldl mergeInto []).filter fun g => g.count ≠ 0) := by
  rcases merges_mergeInto.foldl [] p.entries List.nodup_nil with ⟨apart, sums⟩
  let merged : Pool := ofList (p.entries.foldl mergeInto [])
  have apart_merged : Apart merged.entries := apart.sublist (List.filter_sublist.map _)
  have sums_merged : ∀ faces, clampedSum (countsOf faces merged.entries) = clampedSum (countsOf faces p.entries) := by
    intro faces
    rw [entries_ofList, countsOf_filter (fun c => decide (c ≠ 0)), clampedSum_filter_ne_zero, sums,
      countsOf_nil, List.nil_append]
  have same : ∀ d, d ∈ p.contract.entries ↔ d ∈ Dice.sort merged.entries := by
    intro d
    rw [mem_contract_iff, (Dice.sort_perm _).mem_iff, mem_iff_of_apart apart_merged, sums_merged]
  exact (descending_contract p).eq_of_mem_iff (descending_sort apart_merged) same

/-- Contraction is the one list that stands in descending order of faces, has no zero counts, and holds a count for
a number of faces exactly if it is the clamped sum of the counts for these faces and not zero. -/
theorem entries_contract_eq_iff {p : Pool} {ds : List Dice} :
    p.contract.entries = ds ↔
      (ds.Pairwise fun a b => b.faces < a.faces) ∧ (∀ d ∈ ds, d.count ≠ 0) ∧
        ∀ faces count, (∃ d ∈ ds, d.faces = faces ∧ d.count = count) ↔
          count ≠ 0 ∧ count = clampedSum (countsOf faces p.entries) := by
  constructor
  · rintro rfl
    refine ⟨descending_contract p, p.contract.count_ne_zero, fun faces count => ?_⟩
    constructor
    · rintro ⟨d, member, rfl, rfl⟩
      exact mem_contract_iff.mp member
    · rintro ⟨nonzero, sum⟩
      -- no dice have zero faces, so there is nothing to add up for them
      have positive : 0 < faces := by
        by_contra zero
        have none : countsOf faces p.entries = [] :=
          countsOf_eq_nil fun e _ same => zero (same ▸ e.faces_pos)
        rw [none] at sum
        exact nonzero sum
      exact ⟨⟨count, faces, positive⟩, mem_contract_iff.mpr ⟨nonzero, sum⟩, rfl, rfl⟩
  · rintro ⟨descending, nonzero, holds⟩
    refine (descending_contract p).eq_of_mem_iff descending fun d => ?_
    rw [mem_contract_iff, ← holds]
    constructor
    · rintro ⟨e, member, faces, count⟩
      exact Dice.ext count faces ▸ member
    · exact fun member => ⟨d, member, rfl, rfl⟩

end DiceAlgebra.Pool
