import DiceAlgebra.Expr.Contract
import DiceAlgebra.Grammar.Reader
import DiceAlgebra.Proofs.Pool.Merging

/-! Flat sums without guarantees. A pool carries the proof that it keeps no zero count, and dice the proof that they
have a face. Here the same operations run on bare pairs and check nothing but what they have to: new dice with a
count of zero, and the counts that merging leaves at zero. Each does to the bare entries what it does to the pool, so
the lists they can reach are the entries of pools and no others. -/
namespace DiceAlgebra

/-- A count and a number of faces, whatever they are. -/
structure Dice.Raw where
  count : Int32
  faces : UInt32
deriving DecidableEq

def Dice.raw (d : Dice) : Dice.Raw :=
  ⟨d.count, d.faces⟩

namespace Dice.Raw

/-- Less than two faces count as one. -/
def ofParts (count : Int32) (faces : UInt32) : Raw :=
  ⟨count, if faces < 2 then 1 else faces⟩

def negated (d : Raw) : Raw :=
  { d with count := saturatingNeg d.count }

end Dice.Raw

namespace Dice

theorem raw_ofParts (count : Int32) (faces : UInt32) : (ofParts count faces).raw = Raw.ofParts count faces := by
  rw [raw, Raw.ofParts, ofParts_count, ofParts_faces]
  grind

theorem raw_eq_ofParts (d : Dice) : d.raw = Raw.ofParts d.count d.faces := by
  rw [← raw_ofParts, ofParts_count_faces]

end Dice

/-- The entries of a flat sum, about which nothing is known. -/
abbrev Pool.Raw := List Dice.Raw

def Pool.raw (p : Pool) : Pool.Raw :=
  p.entries.map Dice.raw

namespace Pool.Raw

def push (es : Raw) (d : Dice.Raw) : Raw :=
  if d.count = 0 then es else es ++ [d]

def extend (es : Raw) (ds : List Dice.Raw) : Raw :=
  ds.foldl push es

def ofList (ds : List Dice.Raw) : Raw :=
  extend [] ds

def single (d : Dice.Raw) : Raw :=
  push [] d

/-- Nothing is filtered here: a count that is not zero has no negation that is. -/
def negated (es : Raw) : Raw :=
  es.map Dice.Raw.negated

def mergeInto (groups : Raw) (d : Dice.Raw) : Raw :=
  match groups with
  | [] => [d]
  | g :: rest =>
    if g.faces = d.faces then
      { g with count := saturatingAdd g.count d.count } :: rest
    else
      g :: mergeInto rest d

def sort (es : Raw) : Raw :=
  es.mergeSort fun a b => ((compare b.faces a.faces).then (compare b.count a.count)).isLE

def contract (es : Raw) : Raw :=
  sort ((es.foldl mergeInto []).filter fun g => g.count ≠ 0)

/-- The dice of a segment may be none at all, which is left to the sum to notice. -/
def parse (text : String) : Except (List Grammar.Diagnostic) Raw :=
  match Grammar.diagnose .sum (Text.squeeze text).toList with
  | [] =>
    .ok (ofList ((Grammar.cut .sum (Text.squeeze text).toList).segments.filterMap fun s =>
      s.dice.toOption.map Dice.raw))
  | ds => .error ds

/-- The leaves of an expression whose flat sums have no guarantees. -/
inductive Leaf where
  | die (faces : UInt32)
  | num (value : Int32)
  | ref (name : String)
  | pool (es : Raw)

def flatten? : Formula Leaf → Option Raw
  | .leaf (.die faces) => some (single (.ofParts 1 faces))
  | .leaf (.num value) => some (single (.ofParts value 1))
  | .leaf (.ref _) => none
  | .leaf (.pool es) => some es
  | .binary .sum a b => do return extend (← flatten? a) (← flatten? b)
  | .binary .difference a b => do return extend (← flatten? a) (negated (← flatten? b))
  | _ => none

/-- What can be made of flat sums, from nothing and with any arguments. Dice are made of any count and any number of
faces, and an expression holds flat sums made before it. -/
inductive Reachable : Raw → Prop
  | empty : Reachable []
  | push {es} (count faces) : Reachable es → Reachable (push es (.ofParts count faces))
  | extend {es} (parts : List (Int32 × UInt32)) :
    Reachable es → Reachable (extend es (parts.map fun part => .ofParts part.1 part.2))
  | ofList (parts : List (Int32 × UInt32)) :
    Reachable (ofList (parts.map fun part => .ofParts part.1 part.2))
  | single (count faces) : Reachable (single (.ofParts count faces))
  | contract {es} : Reachable es → Reachable (contract es)
  | negated {es} : Reachable es → Reachable (negated es)
  | parse {text es} : parse text = .ok es → Reachable es
  | flatten {x : Formula Leaf} {es} :
    (∀ ds, .pool ds ∈ x.leaves → Reachable ds) → flatten? x = some es → Reachable es

end Pool.Raw

/-! ### The same operations on pools -/

namespace Pool

theorem raw_append (p q : Pool) : (p ++ q).raw = p.raw ++ q.raw :=
  List.map_append

theorem raw_single (d : Dice) : (single d).raw = Raw.single d.raw := by
  rw [raw, entries_single, Raw.single, Raw.push]
  change _ = if d.count = 0 then [] else [d.raw]
  split <;> rfl

theorem raw_push (p : Pool) (d : Dice) : (p.push d).raw = Raw.push p.raw d.raw := by
  rw [push, raw_append, raw_single, Raw.single, Raw.push, Raw.push]
  split <;> simp

theorem raw_extend (p : Pool) (ds : List Dice) : (p.extend ds).raw = Raw.extend p.raw (ds.map Dice.raw) := by
  induction ds generalizing p with
  | nil => exact congrArg raw (ext (List.append_nil p.entries))
  | cons d ds ih =>
    rw [extend_cons, ih, raw_push]
    rfl

theorem raw_ofList (ds : List Dice) : (ofList ds).raw = Raw.ofList (ds.map Dice.raw) :=
  raw_extend empty ds

theorem raw_append_eq_extend (p q : Pool) : (p ++ q).raw = Raw.extend p.raw q.raw := by
  have extended : p.extend q.entries = p ++ q := congrArg (p ++ ·) (ofList_entries q)
  rw [← extended, raw_extend]
  rfl

theorem raw_negated (p : Pool) : p.negated.raw = Raw.negated p.raw := by
  rw [raw, entries_negated, raw, Raw.negated, List.map_map, List.map_map]
  rfl

theorem map_raw_mergeInto (groups : List Dice) (d : Dice) :
    (mergeInto groups d).map Dice.raw = Raw.mergeInto (groups.map Dice.raw) d.raw := by
  induction groups with
  | nil => rfl
  | cons g rest ih =>
    rw [mergeInto, List.map_cons, Raw.mergeInto]
    change _ = if g.faces = d.faces then _ else _
    split
    · rfl
    · rw [List.map_cons, ih]

theorem map_raw_foldl_mergeInto (groups ds : List Dice) :
    (ds.foldl mergeInto groups).map Dice.raw = (ds.map Dice.raw).foldl Raw.mergeInto (groups.map Dice.raw) := by
  rw [List.foldl_map]
  exact (List.foldl_hom (List.map Dice.raw) fun gs d => (map_raw_mergeInto gs d).symm).symm

theorem map_raw_sort (ds : List Dice) : (Dice.sort ds).map Dice.raw = Raw.sort (ds.map Dice.raw) :=
  List.map_mergeSort fun _ _ _ _ => rfl

theorem raw_contract (p : Pool) : p.contract.raw = Raw.contract p.raw := by
  rw [raw, entries_contract, map_raw_sort, Raw.contract]
  change _ = Raw.sort (((p.entries.map Dice.raw).foldl Raw.mergeInto (List.map Dice.raw [])).filter _)
  rw [← map_raw_foldl_mergeInto, List.filter_map]
  rfl

theorem raw_parse (text : String) : Raw.parse text = (Pool.parse text).map raw := by
  unfold Raw.parse Pool.parse Grammar.readPool
  cases Grammar.diagnose .sum (Text.squeeze text).toList with
  | cons d ds => rfl
  | nil =>
    refine congrArg Except.ok ?_
    rw [raw_ofList, List.map_filterMap]

end Pool

def Expr.Leaf.raw : Expr.Leaf → Pool.Raw.Leaf
  | .die faces => .die faces
  | .num value => .num value
  | .ref name => .ref name
  | .pool p => .pool p.raw

namespace Pool

theorem raw_toPool? (e : Expr) : Raw.flatten? (e.map Expr.Leaf.raw) = (Expr.toPool? e).map raw := by
  induction e with
  | leaf l =>
    cases l with
    | die faces =>
      exact congrArg some (by rw [raw_single, Dice.die, Dice.raw_ofParts])
    | num value =>
      exact congrArg some (by rw [raw_single, Dice.constant, Dice.raw_ofParts])
    | ref name => rfl
    | pool p => rfl
  | unary op x ih => rfl
  | binary op a b iha ihb =>
    cases op with
    | sum =>
      rw [Formula.map, Raw.flatten?, Expr.toPool?, iha, ihb]
      cases Expr.toPool? a <;> cases Expr.toPool? b <;> simp [raw_append_eq_extend]
    | difference =>
      rw [Formula.map, Raw.flatten?, Expr.toPool?, iha, ihb]
      cases Expr.toPool? a <;> cases Expr.toPool? b <;> simp [raw_append_eq_extend, raw_negated]
    | product | fraction | power | min | max => rfl

theorem exists_expr {x : Formula Raw.Leaf} (h : ∀ ds, .pool ds ∈ x.leaves → ∃ p : Pool, p.raw = ds) :
    ∃ e : Expr, e.map Expr.Leaf.raw = x := by
  induction x with
  | leaf l =>
    cases l with
    | die faces => exact ⟨.leaf (.die faces), rfl⟩
    | num value => exact ⟨.leaf (.num value), rfl⟩
    | ref name => exact ⟨.leaf (.ref name), rfl⟩
    | pool ds =>
      obtain ⟨p, rfl⟩ := h ds (List.mem_singleton_self _)
      exact ⟨.leaf (.pool p), rfl⟩
  | unary op x ih =>
    obtain ⟨e, rfl⟩ := ih h
    exact ⟨.unary op e, rfl⟩
  | binary op a b iha ihb =>
    obtain ⟨e, rfl⟩ := iha fun ds left => h ds (List.mem_append_left _ left)
    obtain ⟨f, rfl⟩ := ihb fun ds right => h ds (List.mem_append_right _ right)
    exact ⟨.binary op e f, rfl⟩

theorem exists_pool {es : Raw} (h : Raw.Reachable es) : ∃ p : Pool, p.raw = es := by
  have made : ∀ parts : List (Int32 × UInt32),
      (parts.map fun part => Dice.ofParts part.1 part.2).map Dice.raw =
        parts.map fun part => Dice.Raw.ofParts part.1 part.2 := by
    intro parts
    rw [List.map_map]
    exact List.map_congr_left fun part _ => Dice.raw_ofParts part.1 part.2
  induction h with
  | empty => exact ⟨empty, rfl⟩
  | push count faces _ ih =>
    obtain ⟨p, rfl⟩ := ih
    exact ⟨p.push (.ofParts count faces), by rw [raw_push, Dice.raw_ofParts]⟩
  | extend parts _ ih =>
    obtain ⟨p, rfl⟩ := ih
    exact ⟨p.extend _, by rw [raw_extend, made]⟩
  | ofList parts => exact ⟨ofList _, by rw [raw_ofList, made]⟩
  | single count faces => exact ⟨single (.ofParts count faces), by rw [raw_single, Dice.raw_ofParts]⟩
  | contract _ ih =>
    obtain ⟨p, rfl⟩ := ih
    exact ⟨p.contract, raw_contract p⟩
  | negated _ ih =>
    obtain ⟨p, rfl⟩ := ih
    exact ⟨p.negated, raw_negated p⟩
  | @parse text es read =>
    rw [raw_parse] at read
    cases parsed : Pool.parse text with
    | error ds => simp [parsed, Except.map] at read
    | ok p =>
      rw [parsed] at read
      exact ⟨p, Except.ok.inj read⟩
  | flatten _ flat ih =>
    obtain ⟨e, rfl⟩ := exists_expr ih
    rw [raw_toPool?, Option.map_eq_some_iff] at flat
    obtain ⟨p, -, same⟩ := flat
    exact ⟨p, same⟩

theorem reachable_raw (p : Pool) : Raw.Reachable p.raw := by
  have entries : (p.entries.map fun d => (d.count, d.faces)).map (fun part => Dice.Raw.ofParts part.1 part.2) =
      p.entries.map Dice.raw := by
    rw [List.map_map]
    exact List.map_congr_left fun d _ => (Dice.raw_eq_ofParts d).symm
  have made := Raw.Reachable.ofList (p.entries.map fun d => (d.count, d.faces))
  rwa [entries, ← raw_ofList, ofList_entries] at made

theorem exists_raw_eq_iff {es : Raw} : (∃ p : Pool, p.raw = es) ↔ ∀ d ∈ es, d.count ≠ 0 ∧ 0 < d.faces := by
  constructor
  · rintro ⟨p, rfl⟩ d member
    obtain ⟨e, kept, rfl⟩ := List.mem_map.mp member
    exact ⟨p.count_ne_zero e kept, e.faces_pos⟩
  · intro guaranteed
    let entries : List Dice := es.pmap (fun d positive => ⟨d.count, d.faces, positive⟩) fun d member =>
      (guaranteed d member).2
    have nonzero : ∀ d ∈ entries, d.count ≠ 0 := by
      intro d member
      obtain ⟨e, kept, rfl⟩ := List.mem_pmap.mp member
      exact (guaranteed e kept).1
    refine ⟨⟨entries, nonzero⟩, ?_⟩
    rw [raw, List.map_pmap]
    exact (List.pmap_eq_map ..).trans (List.map_id es)

namespace Raw

/-- In whatever way a flat sum is made, none of its entries has a count of zero and each has a face. Nothing else is
true of it: every such list of entries can be made, and is that of a pool. -/
theorem reachable_iff (es : Raw) :
    (Reachable es ↔ ∀ d ∈ es, d.count ≠ 0 ∧ 1 ≤ d.faces) ∧ (Reachable es ↔ ∃ p : Pool, p.raw = es) := by
  have pools : Reachable es ↔ ∃ p : Pool, p.raw = es := by
    constructor
    · exact exists_pool
    · rintro ⟨p, rfl⟩
      exact reachable_raw p
  have positive : ∀ faces : UInt32, 1 ≤ faces ↔ 0 < faces := by
    intro faces
    rw [UInt32.le_iff_toNat_le, UInt32.lt_iff_toNat_lt]
    exact Iff.rfl
  refine ⟨?_, pools⟩
  rw [pools, exists_raw_eq_iff]
  simp only [positive]

end Raw
end Pool
end DiceAlgebra
