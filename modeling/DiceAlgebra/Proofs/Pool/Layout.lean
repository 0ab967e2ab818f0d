import DiceAlgebra.Pool.Contract
import DiceAlgebra.Proofs.Pool.Clamped
import Mathlib.Data.List.Sort

/-! What contraction keeps of a pool: for each number of faces the clamped sum of its counts, and nothing else.
Two pools contract alike exactly if they agree in these sums, so their layout matters only where clamping makes
the order of the counts matter. -/
namespace DiceAlgebra

/-- The counts of the dice with this many faces, in the order they come. -/
def countsOf (faces : UInt32) (ds : List Dice) : List Int32 :=
  (ds.filter fun d => d.faces = faces).map Dice.count

section CountsOf

variable {faces : UInt32}

@[simp] theorem countsOf_nil : countsOf faces [] = [] :=
  rfl

theorem countsOf_cons_of_eq {d : Dice} (ds : List Dice) (h : d.faces = faces) :
    countsOf faces (d :: ds) = d.count :: countsOf faces ds := by
  rw [countsOf, List.filter_cons_of_pos (by simpa using h), List.map_cons, countsOf]

theorem countsOf_cons_of_ne {d : Dice} (ds : List Dice) (h : d.faces ≠ faces) :
    countsOf faces (d :: ds) = countsOf faces ds := by
  rw [countsOf, List.filter_cons_of_neg (by simpa using h), countsOf]

theorem countsOf_eq_nil {ds : List Dice} (h : ∀ d ∈ ds, d.faces ≠ faces) : countsOf faces ds = [] := by
  rw [countsOf, List.filter_eq_nil_iff.mpr (by simpa using h), List.map_nil]

theorem countsOf_append (ds es : List Dice) :
    countsOf faces (ds ++ es) = countsOf faces ds ++ countsOf faces es := by
  rw [countsOf, List.filter_append, List.map_append, countsOf, countsOf]

theorem countsOf_perm {ds es : List Dice} (h : ds.Perm es) :
    (countsOf faces ds).Perm (countsOf faces es) :=
  (h.filter _).map _

theorem countsOf_filter (p : Int32 → Bool) (ds : List Dice) :
    countsOf faces (ds.filter fun d => p d.count) = (countsOf faces ds).filter p := by
  rw [countsOf, countsOf, List.filter_map, List.filter_filter, List.filter_filter]
  congr 2
  funext d
  exact Bool.and_comm _ _

theorem countsOf_map_negated (ds : List Dice) :
    countsOf faces (ds.map Dice.negated) = (countsOf faces ds).map saturatingNeg := by
  rw [countsOf, countsOf, List.filter_map, List.map_map, List.map_map]
  rfl

end CountsOf

namespace Pool

/-- More faces come first, and no number of faces comes twice. -/
abbrev Descending (ds : List Dice) : Prop :=
  ds.Pairwise fun a b => b.faces < a.faces

abbrev Apart (ds : List Dice) : Prop :=
  (ds.map Dice.faces).Nodup

theorem Descending.apart {ds : List Dice} (descending : Descending ds) : Apart ds :=
  List.pairwise_map.mpr (descending.imp fun less => (UInt32.ne_of_lt less).symm)

theorem lt_of_mem_insertGroup {bound : UInt32} {groups : List Dice} {d : Dice}
    (below : ∀ g ∈ groups, g.faces < bound) (h : d.faces < bound) :
    ∀ g ∈ insertGroup groups d, g.faces < bound := by
  induction groups with
  | nil => simpa [insertGroup] using h
  | cons g rest ih =>
    have head := below g (List.mem_cons_self ..)
    have tail : ∀ g ∈ rest, g.faces < bound := fun g later => below g (List.mem_cons_of_mem _ later)
    rw [insertGroup]
    split
    · simpa [head] using ih tail
    · split
      · simpa [head] using tail
      · simpa [head, h] using tail

theorem descending_insertGroup {groups : List Dice} (descending : Descending groups) (d : Dice) :
    Descending (insertGroup groups d) := by
  induction groups with
  | nil => exact List.pairwise_singleton _ _
  | cons g rest ih =>
    rcases List.pairwise_cons.mp descending with ⟨below, descending_rest⟩
    rw [insertGroup]
    split
    · next less => exact List.pairwise_cons.mpr ⟨lt_of_mem_insertGroup below less, ih descending_rest⟩
    · next not_less =>
      split
      · exact List.pairwise_cons.mpr ⟨below, descending_rest⟩
      · next apart =>
        have above : g.faces < d.faces := by
          rw [UInt32.lt_iff_toNat_lt] at not_less ⊢
          rw [← UInt32.toNat_inj] at apart
          omega
        refine List.pairwise_cons.mpr ⟨?_, descending⟩
        intro e member
        rcases List.mem_cons.mp member with rfl | later
        · exact above
        · exact UInt32.lt_trans (below e later) above

theorem countsOf_insertGroup_of_ne {faces : UInt32} (groups : List Dice) {d : Dice}
    (h : d.faces ≠ faces) : countsOf faces (insertGroup groups d) = countsOf faces groups := by
  induction groups with
  | nil => exact countsOf_cons_of_ne [] h
  | cons g rest ih =>
    rw [insertGroup]
    split
    · by_cases here : g.faces = faces
      · rw [countsOf_cons_of_eq _ here, ih, countsOf_cons_of_eq _ here]
      · rw [countsOf_cons_of_ne _ here, ih, countsOf_cons_of_ne _ here]
    · split
      · next same =>
        have elsewhere : g.faces ≠ faces := same ▸ h
        rw [countsOf_cons_of_ne _ elsewhere]
        exact countsOf_cons_of_ne _ elsewhere
      · exact countsOf_cons_of_ne _ h

theorem countsOf_opened {groups : List Dice} {d : Dice} (none : countsOf d.faces groups = []) :
    countsOf d.faces (d :: groups) = [clampedSum (countsOf d.faces groups ++ [d.count])] := by
  rw [countsOf_cons_of_eq _ rfl, none]
  exact congrArg (· :: []) (zero_saturatingAdd d.count).symm

theorem countsOf_raised {g d : Dice} {rest : List Dice} (same : g.faces = d.faces)
    (alone : countsOf d.faces rest = []) :
    countsOf d.faces ({ g with count := saturatingAdd g.count d.count } :: rest) =
      [clampedSum (countsOf d.faces (g :: rest) ++ [d.count])] := by
  have raised : countsOf d.faces ({ g with count := saturatingAdd g.count d.count } :: rest) =
      saturatingAdd g.count d.count :: countsOf d.faces rest := countsOf_cons_of_eq rest same
  rw [raised, countsOf_cons_of_eq _ same, alone]
  exact congrArg (fun c => [saturatingAdd c d.count]) (zero_saturatingAdd g.count).symm

theorem countsOf_insertGroup {groups : List Dice} (descending : Descending groups) (d : Dice) :
    countsOf d.faces (insertGroup groups d) = [clampedSum (countsOf d.faces groups ++ [d.count])] := by
  induction groups with
  | nil => exact countsOf_opened rfl
  | cons g rest ih =>
    rcases List.pairwise_cons.mp descending with ⟨below, descending_rest⟩
    rw [insertGroup]
    split
    · next less =>
      have apart : g.faces ≠ d.faces := (UInt32.ne_of_lt less).symm
      rw [countsOf_cons_of_ne _ apart, countsOf_cons_of_ne _ apart, ih descending_rest]
    · next not_less =>
      split
      · next same =>
        exact countsOf_raised same (countsOf_eq_nil fun e later => same ▸ UInt32.ne_of_lt (below e later))
      · next apart =>
        refine countsOf_opened (countsOf_eq_nil fun e member => ?_)
        rcases List.mem_cons.mp member with rfl | later
        · exact apart
        · intro same
          exact not_less (same ▸ below e later)

theorem clampedSum_append_of_singleton (cs ds : List Int32) :
    clampedSum ([clampedSum cs] ++ ds) = clampedSum (cs ++ ds) := by
  simp only [clampedSum, List.foldl_append, List.foldl_cons, List.foldl_nil, zero_saturatingAdd]

/-- A way to merge: dice go on top of the one group with their faces, other groups are left alone, and the groups
keep the form that makes this so. -/
structure Merges (Grouped : List Dice → Prop) (insert : List Dice → Dice → List Dice) : Prop where
  grouped : ∀ {groups} (d : Dice), Grouped groups → Grouped (insert groups d)
  own : ∀ {groups} (d : Dice), Grouped groups →
    countsOf d.faces (insert groups d) = [clampedSum (countsOf d.faces groups ++ [d.count])]
  other : ∀ {faces} groups {d : Dice}, d.faces ≠ faces →
    countsOf faces (insert groups d) = countsOf faces groups

theorem Merges.foldl {Grouped : List Dice → Prop} {insert : List Dice → Dice → List Dice}
    (merges : Merges Grouped insert) (groups ds : List Dice) (start : Grouped groups) :
    Grouped (ds.foldl insert groups) ∧ ∀ faces,
      clampedSum (countsOf faces (ds.foldl insert groups)) =
        clampedSum (countsOf faces groups ++ countsOf faces ds) := by
  induction ds generalizing groups with
  | nil => exact ⟨start, fun faces => by rw [List.foldl_nil, countsOf_nil, List.append_nil]⟩
  | cons d ds ih =>
    rcases ih _ (merges.grouped d start) with ⟨grouped, sums⟩
    refine ⟨grouped, fun faces => ?_⟩
    rw [List.foldl_cons, sums]
    by_cases here : d.faces = faces
    · rw [← here, merges.own d start, clampedSum_append_of_singleton, countsOf_cons_of_eq _ rfl,
        List.append_assoc, List.singleton_append]
    · rw [merges.other _ here, countsOf_cons_of_ne _ here]

theorem merges_insertGroup : Merges Descending insertGroup where
  grouped d descending := descending_insertGroup descending d
  own d descending := countsOf_insertGroup descending d
  other groups _ h := countsOf_insertGroup_of_ne groups h

theorem clampedSum_filter_ne_zero (cs : List Int32) :
    clampedSum (cs.filter fun c => c ≠ 0) = clampedSum cs := by
  suffices from_start : ∀ start, (cs.filter fun c => c ≠ 0).foldl saturatingAdd start =
      cs.foldl saturatingAdd start from from_start 0
  intro start
  induction cs generalizing start with
  | nil => rfl
  | cons c cs ih =>
    rw [List.foldl_cons]
    by_cases zero : c = 0
    · rw [List.filter_cons_of_neg (by simpa using zero), ih, zero, saturatingAdd_zero]
    · rw [List.filter_cons_of_pos (by simpa using zero), List.foldl_cons, ih]

theorem descending_contract (p : Pool) : Descending p.contract.entries :=
  (merges_insertGroup.foldl [] p.entries List.Pairwise.nil).1.filter _

theorem clampedSum_contract (p : Pool) (faces : UInt32) :
    clampedSum (countsOf faces p.contract.entries) = clampedSum (countsOf faces p.entries) := by
  rw [contract, entries_ofList, countsOf_filter (fun c => decide (c ≠ 0)), clampedSum_filter_ne_zero,
    (merges_insertGroup.foldl [] p.entries List.Pairwise.nil).2, countsOf_nil, List.nil_append]

theorem countsOf_of_mem {ds : List Dice} (apart : Apart ds) {d : Dice} (h : d ∈ ds) :
    countsOf d.faces ds = [d.count] := by
  induction ds with
  | nil => cases h
  | cons e rest ih =>
    rcases List.nodup_cons.mp apart with ⟨new, apart_rest⟩
    rcases List.mem_cons.mp h with rfl | later
    · rw [countsOf_cons_of_eq _ rfl,
        countsOf_eq_nil fun g later same => new (List.mem_map.mpr ⟨g, later, same⟩)]
    · have elsewhere : e.faces ≠ d.faces := fun same => new (List.mem_map.mpr ⟨d, later, same.symm⟩)
      rw [countsOf_cons_of_ne _ elsewhere, ih apart_rest later]

theorem mem_iff_of_apart {p : Pool} (apart : Apart p.entries) {d : Dice} :
    d ∈ p.entries ↔ d.count ≠ 0 ∧ d.count = clampedSum (countsOf d.faces p.entries) := by
  have alone : ∀ e ∈ p.entries, e.count = clampedSum (countsOf e.faces p.entries) := by
    intro e member
    rw [countsOf_of_mem apart member]
    exact (zero_saturatingAdd e.count).symm
  constructor
  · exact fun member => ⟨p.count_ne_zero d member, alone d member⟩
  · rintro ⟨nonzero, sum⟩
    have some_count : countsOf d.faces p.entries ≠ [] := by
      intro none
      rw [none] at sum
      exact nonzero sum
    obtain ⟨e, member, same⟩ : ∃ e ∈ p.entries, e.faces = d.faces := by
      by_contra missing
      push Not at missing
      exact some_count (countsOf_eq_nil missing)
    have equal : e = d := Dice.ext (by rw [alone e member, same, ← sum]) same
    exact equal ▸ member

theorem mem_contract_iff {p : Pool} {d : Dice} :
    d ∈ p.contract.entries ↔ d.count ≠ 0 ∧ d.count = clampedSum (countsOf d.faces p.entries) := by
  rw [mem_iff_of_apart (descending_contract p).apart, clampedSum_contract]

theorem Descending.eq_of_mem_iff {ds es : List Dice} (descending : Descending ds) (descending' : Descending es)
    (same : ∀ d, d ∈ ds ↔ d ∈ es) : ds = es := by
  have irreflexive : Std.Irrefl fun a b : Dice => b.faces < a.faces := ⟨fun d => UInt32.lt_irrefl d.faces⟩
  have antisymmetric : Std.Antisymm fun a b : Dice => b.faces < a.faces :=
    ⟨fun a b less greater => absurd greater (UInt32.lt_asymm less)⟩
  exact List.Pairwise.eq_of_mem_iff descending descending' same

theorem eq_of_clampedSum_eq {p q : Pool} (descending : Descending p.entries)
    (descending' : Descending q.entries)
    (sums : ∀ faces, clampedSum (countsOf faces p.entries) = clampedSum (countsOf faces q.entries)) :
    p = q := by
  apply ext
  refine descending.eq_of_mem_iff descending' fun d => ?_
  rw [mem_iff_of_apart descending.apart, mem_iff_of_apart descending'.apart, sums]

theorem contract_eq_contract_iff {p q : Pool} :
    p.contract = q.contract ↔
      ∀ faces, clampedSum (countsOf faces p.entries) = clampedSum (countsOf faces q.entries) := by
  constructor
  · intro same faces
    rw [← clampedSum_contract, same, clampedSum_contract]
  · intro sums
    refine eq_of_clampedSum_eq (descending_contract p) (descending_contract q) fun faces => ?_
    rw [clampedSum_contract, clampedSum_contract, sums]

theorem contract_of_descending {p : Pool} (descending : Descending p.entries) : p.contract = p :=
  eq_of_clampedSum_eq (descending_contract p) descending (clampedSum_contract p)

@[simp] theorem contract_contract (p : Pool) : p.contract.contract = p.contract :=
  contract_of_descending (descending_contract p)

theorem contract_eq_empty_iff {p : Pool} :
    p.contract = empty ↔ ∀ faces, clampedSum (countsOf faces p.entries) = 0 := by
  have fixed : empty.contract = empty := contract_of_descending List.Pairwise.nil
  rw [← fixed, contract_eq_contract_iff]
  rfl

/-- Neighbours are all that has to be compared. -/
theorem isContracted_iff_descending {p : Pool} : p.isContracted = true ↔ Descending p.entries := by
  have transitive : IsTrans Dice fun a b => b.faces < a.faces :=
    ⟨fun a b c less less' => UInt32.lt_trans less' less⟩
  suffices neighbours : ∀ ds, isContracted.descending ds = true ↔ ds.IsChain fun a b => b.faces < a.faces by
    rw [Descending, ← List.isChain_iff_pairwise]
    exact neighbours p.entries
  intro ds
  induction ds with
  | nil => simp [isContracted.descending]
  | cons a ds ih =>
    cases ds with
    | nil => simp [isContracted.descending]
    | cons b rest =>
      rw [isContracted.descending, Bool.and_eq_true, decide_eq_true_iff, ih, List.isChain_cons_cons]

/-- The check looks at the faces of neighbours alone, and yet it tells exactly what contraction leaves as it is: in
strict order no number of faces comes twice, and zero counts are never kept. -/
theorem isContracted_iff_contract_eq_self (p : Pool) : p.isContracted = true ↔ p.contract = p := by
  rw [isContracted_iff_descending]
  constructor
  · exact contract_of_descending
  · intro same
    rw [← same]
    exact descending_contract p

/-- A pool contracts alike in every order of its entries, and is the same sum in every order, exactly if for no
number of faces the counts have both signs with those of one sign adding up to something out of range. -/
theorem contract_perm_iff (p : Pool) :
    (∀ q : Pool, p.entries.Perm q.entries → p.contract = q.contract ∧ p.same q = true) ↔
      ∀ faces, OrderFree (countsOf faces p.entries) := by
  constructor
  · intro alike faces
    -- two orders that differ the most: what goes up first, and what goes down first
    let up := p.entries.filter fun d => 0 ≤ d.count.toInt
    let down := p.entries.filter fun d => !decide (0 ≤ d.count.toInt)
    have perm : p.entries.Perm (up ++ down) := (List.filter_append_perm _ p.entries).symm
    have perm' : p.entries.Perm (down ++ up) := perm.trans List.perm_append_comm
    let first : Pool := ⟨up ++ down, fun d member => p.count_ne_zero d (perm.mem_iff.mpr member)⟩
    let last : Pool := ⟨down ++ up, fun d member => p.count_ne_zero d (perm'.mem_iff.mpr member)⟩
    have same : first.contract = last.contract :=
      (alike first perm).1.symm.trans (alike last perm').1
    have sums := contract_eq_contract_iff.mp same faces
    have rises : countsOf faces up = rising (countsOf faces p.entries) :=
      countsOf_filter (fun c => decide (0 ≤ c.toInt)) p.entries
    have falls : countsOf faces down = falling (countsOf faces p.entries) :=
      countsOf_filter (fun c => !decide (0 ≤ c.toInt)) p.entries
    rw [countsOf_append, countsOf_append, rises, falls] at sums
    exact orderFree_of_clampedSum_eq sums
  · intro free q perm
    have same : p.contract = q.contract := contract_eq_contract_iff.mpr fun faces =>
      clampedSum_perm (free faces) (countsOf_perm perm)
    exact ⟨same, decide_eq_true same⟩

theorem contract_ne_of_perm :
    let p : Pool := .ofList [.ofParts 2147483647 6, .ofParts 1 6, .ofParts (-1) 6]
    let q : Pool := .ofList [.ofParts 2147483647 6, .ofParts (-1) 6, .ofParts 1 6]
    p.entries.Perm q.entries ∧ p.contract ≠ q.contract ∧ p.same q = false := by
  decide

end Pool
end DiceAlgebra
