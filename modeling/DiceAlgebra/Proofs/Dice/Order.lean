import DiceAlgebra.Dice

/-! The order of dice, and sorting by it. Faces are compared first and counts after them, both downward; each of
the two is a total order of its own, and so is what they make together. Only equal dice compare equal, so a list of
dice can be sorted in one way. -/
namespace DiceAlgebra.Dice

instance : Std.TransOrd Dice :=
  inferInstanceAs <| Std.TransCmp <|
    compareLex (fun a b : Dice => compareOn faces b a) fun a b => compareOn count b a

theorem isLE_compare_iff {a b : Dice} :
    (compare a b).isLE = true ↔ b.faces < a.faces ∨ a.faces = b.faces ∧ b.count ≤ a.count := by
  change ((compare b.faces a.faces).then (compare b.count a.count)).isLE = true ↔ _
  rw [Ordering.isLE_then_iff_or, Std.compare_eq_lt, Std.compare_eq_iff_eq, Std.isLE_compare,
    eq_comm (a := b.faces)]

theorem isLE_compare_total (a b : Dice) : ((compare a b).isLE || (compare b a).isLE) = true := by
  rw [Std.OrientedOrd.eq_swap (a := b)]
  cases compare a b <;> rfl

theorem sort_perm (ds : List Dice) : (sort ds).Perm ds :=
  List.mergeSort_perm ds _

theorem pairwise_sort (ds : List Dice) : (sort ds).Pairwise fun a b => (compare a b).isLE = true :=
  @List.pairwise_mergeSort _ (fun a b => (compare a b).isLE)
    (fun _ _ _ => Std.TransCmp.isLE_trans) isLE_compare_total ds

instance : Std.LawfulEqOrd Dice where
  eq_of_compare {a b} equal := by
    obtain ⟨faces, count⟩ := Ordering.then_eq_eq.mp equal
    exact Dice.ext (Std.compare_eq_iff_eq.mp count).symm (Std.compare_eq_iff_eq.mp faces).symm

/-- No dice stand behind others that they should come before. -/
def Sorted (ds : List Dice) : Prop :=
  ds.Pairwise fun a b => (compare a b).isLE = true

variable {ds es : List Dice}

/-- No two dice can change places, so there is one way to sort them. -/
theorem Sorted.eq_of_perm (sorted : Sorted ds) (sorted' : Sorted es) (perm : ds.Perm es) : ds = es :=
  perm.eq_of_pairwise
    (fun _ _ _ _ below above => Std.LawfulEqOrd.eq_of_compare (Std.OrientedCmp.isLE_antisymm below above))
    sorted sorted'

theorem eq_sort_iff : es = sort ds ↔ es.Perm ds ∧ Sorted es := by
  constructor
  · rintro rfl
    exact ⟨sort_perm ds, pairwise_sort ds⟩
  · rintro ⟨perm, sorted⟩
    exact sorted.eq_of_perm (pairwise_sort ds) (perm.trans (sort_perm ds).symm)

theorem sort_eq_sort_iff : sort es = sort ds ↔ es.Perm ds := by
  have sorted : Sorted (sort es) := pairwise_sort es
  rw [eq_sort_iff, and_iff_left sorted]
  exact ⟨(sort_perm es).symm.trans, (sort_perm es).trans⟩

theorem faces_le_of_isLE {a b : Dice} (below : (compare a b).isLE = true) : b.faces ≤ a.faces := by
  rcases isLE_compare_iff.mp below with less | ⟨equal, -⟩
  · exact UInt32.le_of_lt less
  · exact UInt32.le_of_eq equal.symm

theorem isConstant_of_faces_le {a b : Dice} (below : b.faces ≤ a.faces) (constant : a.isConstant = true) :
    b.isConstant = true := by
  rw [isConstant_iff] at constant ⊢
  have least := b.one_le_toNat_faces
  have most := UInt32.le_iff_toNat_le.mp below
  rw [constant] at most
  exact UInt32.toNat_inj.mp (Nat.le_antisymm most least)

/-- What the order comes to in a list: more faces first, of equal faces the higher count first, and nothing but
constants behind a constant. -/
structure Arranged (ds : List Dice) : Prop where
  faces : ds.Pairwise fun a b => b.faces ≤ a.faces
  counts : ds.Pairwise fun a b => a.faces = b.faces → b.count ≤ a.count
  constants : ds.Pairwise fun a b => a.isConstant = true → b.isConstant = true

theorem Sorted.arranged (sorted : Sorted ds) : Arranged ds where
  faces := sorted.imp faces_le_of_isLE
  counts := sorted.imp fun {a b} below equal => by
    rcases isLE_compare_iff.mp below with less | ⟨-, count⟩
    · exact absurd equal.symm (UInt32.ne_of_lt less)
    · exact count
  constants := sorted.imp fun below => isConstant_of_faces_le (faces_le_of_isLE below)

/-- Sorting brings dice into their one order: whatever holds the same dice as often and is in order is what they come
to, however it was found, and so lists come to the same exactly if they hold the same dice. -/
theorem sort_canonical :
    Std.TransOrd Dice ∧ (∀ a b : Dice, compare a b = .eq ↔ a = b) ∧
      ∀ ds : List Dice, (sort ds).Perm ds ∧ Arranged (sort ds) ∧ (∀ es, sort es = sort ds ↔ es.Perm ds) ∧
        ∀ es, es = sort ds ↔ es.Perm ds ∧ Sorted es := by
  refine ⟨inferInstance, fun a b => Std.compare_eq_iff_eq, fun ds => ?_⟩
  have sorted : Sorted (sort ds) := pairwise_sort ds
  exact ⟨sort_perm ds, sorted.arranged, fun es => sort_eq_sort_iff, fun es => eq_sort_iff⟩

end DiceAlgebra.Dice
