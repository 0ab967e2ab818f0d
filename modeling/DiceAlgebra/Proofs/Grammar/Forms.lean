import DiceAlgebra.Proofs.Grammar.Report
import DiceAlgebra.Proofs.Pool.Tally

/-! The readers agree. Whether a text starts with a sign decides which of the readers of a single segment takes it,
and apart from that they cut alike; what one of them reads as dice is read as a pool of these dice. -/
namespace DiceAlgebra.Grammar

section Diagnoses

variable {text : List Char}

private theorem diagnose_eq_nil_iff_cut {form : Form} (begins : form = .signed → StartsSigned text) :
    diagnose form text = [] ↔
      (∀ s ∈ (cut form text).segments, ∃ d, s.dice = .ok d) ∧ (cut form text).rest = [] := by
  rw [diagnose_of_begins begins, diagnostics_eq_nil_iff]

section Single

variable {form form' : Form} {s : Segment} {c : Char} {cs : List Char}

private theorem scan_of_begun (single : form ≠ .sum) (single' : form' ≠ .sum) (begun : s.stage ≠ .start)
    (text : List Char) : scan form s text = scan form' s text := by
  induction text generalizing s with
  | nil => rfl
  | cons c cs ih =>
    -- without further segments the table differs in its first row alone
    have same : form.next s.stage = form'.next s.stage := by
      cases stage : s.stage with
      | start => exact absurd stage begun
      | signs | count | faces => simp [Form.next, single, single']
    rw [scan, scan, same]
    cases (form'.next s.stage).find? (c ∈ ·.chars) with
    | none => rfl
    | some kind => simp only [ih (Segment.stage_add_ne_start _ c kind)]

private theorem cut_cons_congr (single : form ≠ .sum) (single' : form' ≠ .sum)
    (first : (form.next .start).find? (c ∈ ·.chars) = (form'.next .start).find? (c ∈ ·.chars)) (cs : List Char) :
    cut form (c :: cs) = cut form' (c :: cs) := by
  have start : Segment.empty.stage = .start := rfl
  rw [cut, cut, scan, scan, start, first]
  cases (form'.next .start).find? (c ∈ ·.chars) with
  | none => rfl
  | some kind => simp only [scan_of_begun single single' (Segment.stage_add_ne_start _ c kind)]

end Single

theorem cut_signed (signed : StartsSigned text) : cut .signed text = cut .single text := by
  obtain ⟨c, head, sign⟩ := signed
  obtain ⟨cs, rfl⟩ := List.head?_eq_some_iff.mp head
  have member : c ∈ Kind.chars .sign := mem_signChars_iff.mpr sign
  refine cut_cons_congr (by decide) (by decide) ?_ cs
  rw [Kind.find?_eq member, Kind.find?_eq member]
  rfl

theorem cut_unsigned (unsigned : ¬ StartsSigned text) : cut .unsigned text = cut .single text := by
  cases text with
  | nil => rfl
  | cons c cs =>
    rw [startsSigned_cons, ← mem_signChars_iff] at unsigned
    refine cut_cons_congr (by decide) (by decide) ?_ cs
    simp [Form.next, List.find?_cons, Kind.chars, unsigned]

theorem diagnose_signed_eq_nil_iff : diagnose .signed text = [] ↔ StartsSigned text ∧ diagnose .single text = [] := by
  by_cases signed : StartsSigned text
  · rw [diagnose_eq_nil_iff_cut fun _ => signed, @diagnose_eq_nil_iff_cut _ .single nofun, cut_signed signed]
    exact (and_iff_right signed).symm
  · simp [diagnose_of_not_startsSigned signed, signed]

theorem diagnose_unsigned_eq_nil_iff :
    diagnose .unsigned text = [] ↔ ¬ StartsSigned text ∧ diagnose .single text = [] := by
  rw [@diagnose_eq_nil_iff_cut _ .unsigned nofun, @diagnose_eq_nil_iff_cut _ .single nofun]
  by_cases signed : StartsSigned text
  · obtain ⟨c, head, sign⟩ := signed
    obtain ⟨cs, rfl⟩ := List.head?_eq_some_iff.mp head
    -- nothing is taken in front of a sign, so all of it is left over
    have unwanted : c ∉ expected .unsigned .start := by
      rw [mem_expected_iff]
      rintro ⟨kind, fits, member⟩
      obtain rfl : kind = .sign := Kind.eq_of_mem member (mem_signChars_iff.mpr sign)
      exact absurd fits (by decide)
    have left : cut .unsigned (c :: cs) = ⟨.empty, [], c :: cs⟩ := by
      refine scan_of_stuck ?_
      rintro _ ⟨⟩
      exact unwanted
    simp [left, startsSigned_cons, sign]
  · rw [cut_unsigned signed]
    exact (and_iff_right signed).symm

end Diagnoses

variable {text : String} {d : Dice}

theorem readDice_eq_ok_iff_diagnose {form : Form} :
    readDice form text = .ok d ↔ diagnose form text.toList = [] ∧ (cut form text.toList).first.dice = .ok d := by
  unfold readDice
  split
  · next fine read => simp [fine, read]
  · next other =>
    refine iff_of_false nofun ?_
    rintro ⟨fine, read⟩
    exact other d fine read

theorem readDice_signed_eq_ok_iff :
    readDice .signed text = .ok d ↔ StartsSigned text.toList ∧ readDice .single text = .ok d := by
  rw [readDice_eq_ok_iff_diagnose, readDice_eq_ok_iff_diagnose, diagnose_signed_eq_nil_iff, and_assoc]
  refine and_congr_right fun signed => ?_
  rw [cut_signed signed]

theorem readDice_unsigned_eq_ok_iff :
    readDice .unsigned text = .ok d ↔ ¬ StartsSigned text.toList ∧ readDice .single text = .ok d := by
  rw [readDice_eq_ok_iff_diagnose, readDice_eq_ok_iff_diagnose, diagnose_unsigned_eq_nil_iff, and_assoc]
  refine and_congr_right fun unsigned => ?_
  rw [cut_unsigned unsigned]

theorem Splits.unique {text : List Char} {first first' : Segment} {more more' : List Segment}
    (split : Splits text first more) (split' : Splits text first' more') : first = first' ∧ more = more' := by
  have same : (⟨first, more, []⟩ : Cut) = ⟨first', more', []⟩ :=
    (@cut_of_splits .sum _ _ _ split (.inl rfl)).symm.trans (cut_of_splits split' (.inl rfl))
  cases same
  exact ⟨rfl, rfl⟩

theorem exists_readPool_iff_splits :
    (∃ p, readPool text = .ok p) ↔ ∃ first more, Splits text.toList first more := by
  rw [exists_readPool_iff, diagnose_eq_nil_iff (.inl rfl)]
  constructor
  · exact fun ⟨split, _⟩ => ⟨_, _, split⟩
  · rintro ⟨first, more, split⟩
    rw [cut_of_splits split (.inl rfl)]
    exact ⟨split, rfl⟩

theorem splits_nil_iff {text : List Char} {s : Segment} : Splits text s [] ↔ text = s.chars ∧ s.IsSummand := by
  constructor
  · intro split
    exact ⟨by simpa using split.text_eq, split.summand s (List.mem_singleton_self s)⟩
  · rintro ⟨rfl, summand⟩
    exact ⟨by simp, by simpa using summand, by simp⟩

theorem exists_readDice_iff_splits :
    (∃ d, readDice .single text = .ok d) ↔ ∃ s, Splits text.toList s [] := by
  simp only [readDice_eq_ok_iff, splits_nil_iff]
  constructor
  · rintro ⟨d, s, whole, summand, -⟩
    exact ⟨s, whole, summand⟩
  · rintro ⟨s, whole, summand⟩
    obtain ⟨d, -, same⟩ := Segment.exists_dice summand
    exact ⟨d, s, whole, summand, same⟩

theorem readPool_of_readDice (read : readDice .single text = .ok d) : readPool text = .ok (Pool.single d) := by
  obtain ⟨s, whole, summand, same⟩ := readDice_eq_ok_iff.mp read
  refine readPool_eq_ok_iff.mpr ⟨s, [], splits_nil_iff.mpr ⟨whole, summand⟩, ?_⟩
  rw [Pool.single, numbers_ofList, List.map_singleton, List.map_singleton, same]

theorem numbers_negated (positive : 0 ≤ d.count.toInt) : d.negated.numbers = (-d.numbers.1, d.numbers.2) := by
  have opposite : d.count ≠ Int32.minValue := by
    rintro lowest
    rw [lowest] at positive
    exact absurd positive (by decide)
  rw [Dice.numbers, Dice.negated_count, toInt_saturatingNeg_of_ne opposite]
  rfl

theorem readDice_behind {signs : List Char} (read : readDice .unsigned text = .ok d) (some_sign : signs ≠ [])
    (all : ∀ c ∈ signs, isSign c = true) :
    readDice .signed (String.ofList signs ++ text) = .ok (if signs.count '-' % 2 = 0 then d else d.negated) := by
  obtain ⟨unsigned, read⟩ := readDice_unsigned_eq_ok_iff.mp read
  obtain ⟨s, whole, summand, same⟩ := readDice_eq_ok_iff.mp read
  have whole' : (String.ofList signs ++ text).toList = (s.behind signs).chars := by
    rw [String.toList_append, String.toList_ofList, whole, Segment.chars_behind]
  have signed : StartsSigned (String.ofList signs ++ text).toList := by
    obtain ⟨c, cs, rfl⟩ := List.exists_cons_of_ne_nil some_sign
    rw [String.toList_append, String.toList_ofList, List.cons_append, startsSigned_cons]
    exact all c (List.mem_cons_self ..)
  have bare : s.signs = [] :=
    not_not.mp (mt (splits_nil_iff.mpr ⟨whole, summand⟩).startsSigned_iff.mpr unsigned)
  have positive : 0 ≤ d.count.toInt := by
    have counted : d.count.toInt = s.numbers.1 := congrArg Prod.fst same
    simp [counted, Segment.numbers, bare]
  have numbers : (if signs.count '-' % 2 = 0 then d else d.negated).numbers = (s.behind signs).numbers := by
    rw [Segment.numbers_behind, ← same]
    rcases Nat.mod_two_eq_zero_or_one (signs.count '-') with even | odd
    · simp [even]
    · simp [odd, numbers_negated positive]
  refine readDice_signed_eq_ok_iff.mpr ⟨signed, readDice_eq_ok_iff.mpr ⟨s.behind signs, whole', ?_, numbers⟩⟩
  exact Segment.isSummand_of_numbers (summand.toShaped.behind all) summand.body numbers.symm

/-- Dice are read by one of two readers, as the text starts with a sign or not. They are read as a pool as well,
and a pool that is more than dice has several summands. Where there is no sign yet, any signs can be put in front. -/
theorem readers_agree (text : String) :
    (∀ d, readDice .single text = .ok d ↔
      (readDice .unsigned text = .ok d ∧ ¬ ∃ e, readDice .signed text = .ok e) ∨
        (readDice .signed text = .ok d ∧ ¬ ∃ e, readDice .unsigned text = .ok e)) ∧
    (∀ d, readDice .single text = .ok d →
      ∃ p, readPool text = .ok p ∧ p.entries = if d.count = 0 then [] else [d]) ∧
    ((∃ p, readPool text = .ok p) ∧ (¬ ∃ d, readDice .single text = .ok d) ↔
      ∃ first second more, Splits text.toList first (second :: more)) ∧
    ∀ d, readDice .unsigned text = .ok d → ∀ signs, signs ≠ [] → (∀ c ∈ signs, isSign c = true) →
      readDice .signed (String.ofList signs ++ text) =
        .ok (if signs.count '-' % 2 = 0 then d else d.negated) := by
  refine ⟨fun d => ?_, fun d read => ⟨_, readPool_of_readDice read, Pool.entries_single d⟩, ?_,
    fun d read signs some_sign all => readDice_behind read some_sign all⟩
  · by_cases signed : StartsSigned text.toList
    · simp [readDice_signed_eq_ok_iff, readDice_unsigned_eq_ok_iff, signed]
    · simp [readDice_signed_eq_ok_iff, readDice_unsigned_eq_ok_iff, signed]
  · rw [exists_readPool_iff_splits, exists_readDice_iff_splits]
    constructor
    · rintro ⟨⟨first, more, split⟩, several⟩
      cases more with
      | nil => exact absurd ⟨first, split⟩ several
      | cons second more => exact ⟨first, second, more, split⟩
    · rintro ⟨first, second, more, split⟩
      refine ⟨⟨first, second :: more, split⟩, ?_⟩
      rintro ⟨s, alone⟩
      cases (split.unique alone).2

theorem readers_agree_highest :
    let highest : Dice := .ofParts 2147483647 6
    readDice .unsigned "2147483647d6" = .ok highest ∧
      readDice .single "2147483647d6" = .ok highest ∧
      (∃ p, readPool "2147483647d6" = .ok p ∧ p.entries = [highest]) ∧
      readDice .signed "-+-2147483647d6" = .ok highest ∧
      readDice .signed "--+-2147483647d6" = .ok highest.negated := by
  intro highest
  have unsigned : readDice .unsigned "2147483647d6" = .ok highest := by decide +kernel
  have signed : ¬ ∃ e, readDice .signed "2147483647d6" = .ok e := by
    rintro ⟨e, read⟩
    cases read
  obtain ⟨either, as_pool, -, behind⟩ := readers_agree "2147483647d6"
  have single := (either highest).mpr (.inl ⟨unsigned, signed⟩)
  exact ⟨unsigned, single, as_pool highest single,
    behind highest unsigned ['-', '+', '-'] (by decide) (List.all_eq_true.mp rfl),
    behind highest unsigned ['-', '-', '+', '-'] (by decide) (List.all_eq_true.mp rfl)⟩

end DiceAlgebra.Grammar
