import DiceAlgebra.Proofs.Grammar.Scanning

/-! Cutting a text into segments and joining segments to a text undo each other: `cut_spec` loses nothing,
and `cut_of_splits` finds the summands of a row again. So a text has one cut at most, and what is read from a
text can be told by any. -/
namespace DiceAlgebra.Grammar

namespace Segment

variable {count : List Char} {die : Option (Char × List Char)}

theorem isSign_of_mem_body (shaped : Shaped ⟨[], count, die⟩) : ∀ c ∈ chars ⟨[], count, die⟩, isSign c = false := by
  intro c member
  refine Bool.eq_false_iff.mpr fun sign => ?_
  have member_sign : c ∈ Kind.chars .sign := mem_signChars_iff.mpr sign
  rcases shaped.body_kind c member with digit | mark
  · have member_digit : c ∈ Kind.chars .digit := mem_digitChars_iff.mpr digit
    cases Kind.eq_of_mem member_sign member_digit
  · have member_mark : c ∈ Kind.chars .mark := mem_dieMarks_iff.mpr mark
    cases Kind.eq_of_mem member_sign member_mark

theorem HasBody.chars_ne_nil (body : HasBody ⟨[], count, die⟩) : chars ⟨[], count, die⟩ ≠ [] := by
  cases die with
  | none => simpa [chars, HasBody] using body
  | some die => simp [chars]

theorem HasBody.stage_eq {s : Segment} (body : s.HasBody) : s.stage = .count ∨ s.stage = .faces := by
  cases die : s.die with
  | none =>
    have counted : s.count ≠ [] := by simpa [HasBody, die] using body
    exact .inl (by simp [stage, die, counted])
  | some die' => exact .inr (stage_eq_faces_iff.mpr (by simp [die]))

end Segment

def StartsSigned (text : List Char) : Prop :=
  ∃ c ∈ text.head?, isSign c = true

theorem startsSigned_cons {c : Char} {cs : List Char} : StartsSigned (c :: cs) ↔ isSign c = true := by
  simp [StartsSigned]

theorem Segment.Shaped.startsSigned {s : Segment} (shaped : s.Shaped) (signed : s.signs ≠ []) (after : List Char) :
    StartsSigned (s.chars ++ after) := by
  obtain ⟨c, signs, written⟩ := List.exists_cons_of_ne_nil signed
  exact ⟨c, by simp [chars, written], shaped.signs c (by simp [written])⟩

/-- A text as summands one after the other; a sign tells where each but the first begins. -/
structure Splits (text : List Char) (first : Segment) (more : List Segment) : Prop where
  text_eq : text = (first :: more).flatMap Segment.chars
  summand : ∀ s ∈ first :: more, s.IsSummand
  signed : ∀ s ∈ more, s.signs ≠ []

theorem cut_sign {c : Char} (sign : isSign c = true) (cs : List Char) :
    cut .sum (c :: cs) = scan .sum (Segment.empty.add c .sign) cs :=
  scan_cons (by decide) (mem_signChars_iff.mpr sign) rfl

theorem scan_signed {s : Segment} {text : List Char} (body : s.stage = .count ∨ s.stage = .faces)
    (signed : StartsSigned text) : scan .sum s text = .behind s (cut .sum text) := by
  obtain ⟨c, head, sign⟩ := signed
  obtain ⟨cs, rfl⟩ := List.head?_eq_some_iff.mp head
  have fits : .sign ∈ Form.next .sum s.stage := by rcases body with stage | stage <;> rw [stage] <;> decide
  have begins : s.stage.begins .sign = true := by rcases body with stage | stage <;> rw [stage] <;> rfl
  rw [cut_sign sign, scan_cons_of_begins fits (mem_signChars_iff.mpr sign) begins]

theorem scan_flatMap {first : Segment} {more : List Segment} (body : first.HasBody)
    (each : ∀ s ∈ more, s.IsSummand ∧ s.signs ≠ []) :
    scan .sum first (more.flatMap Segment.chars) = ⟨first, more, []⟩ := by
  induction more generalizing first with
  | nil => rfl
  | cons s more ih =>
    obtain ⟨⟨summand, signed⟩, later⟩ := List.forall_mem_cons.mp each
    rw [List.flatMap_cons, scan_signed body.stage_eq (summand.startsSigned signed _), cut,
      scan_chars (.inl rfl) summand.toShaped, ih summand.body later]
    rfl

theorem cut_of_splits {form : Form} {text : List Char} {first : Segment} {more : List Segment}
    (split : Splits text first more) (form_eq : form = .sum ∨ form = .single ∧ more = []) :
    cut form text = ⟨first, more, []⟩ := by
  have head := split.summand first (List.mem_cons_self ..)
  rw [split.text_eq, List.flatMap_cons, cut, scan_chars (form_eq.imp_right And.left) head.toShaped]
  rcases form_eq with rfl | ⟨rfl, rfl⟩
  · exact scan_flatMap head.body fun s h =>
      ⟨split.summand s (List.mem_cons_of_mem _ h), split.signed s h⟩
  · rfl

theorem splits_of_cut {form : Form} {text : List Char} (done : (cut form text).rest = [])
    (summand : ∀ s ∈ (cut form text).segments, s.Shaped → s.IsSummand) :
    Splits text (cut form text).first (cut form text).more := by
  obtain ⟨whole, shaped, signed⟩ := cut_spec form text
  rw [done, List.append_nil] at whole
  exact ⟨whole.symm, fun s member => summand s member (shaped s member), signed⟩

theorem faultsFrom_eq_nil_iff {start : Nat} {ss : List Segment} :
    Cut.faultsFrom start ss = [] ↔ ∀ s ∈ ss, ∃ d, s.dice = .ok d := by
  induction ss generalizing start with
  | nil => simp [Cut.faultsFrom]
  | cons s ss ih =>
    rw [Cut.faultsFrom]
    cases read : s.dice with
    | error e => simp [read]
    | ok d => simp [read, ih]

theorem diagnostics_eq_nil_iff {form : Form} {c : Cut} :
    c.diagnostics form = [] ↔ (∀ s ∈ c.segments, ∃ d, s.dice = .ok d) ∧ c.rest = [] := by
  rw [Cut.diagnostics, List.append_eq_nil_iff, faultsFrom_eq_nil_iff]
  apply and_congr_right
  intro _
  unfold Cut.stuck
  cases c.rest <;> simp

private theorem not_startsSigned_iff {text : List Char} :
    ¬ StartsSigned text ↔ (text.head?.all fun c => !isSign c) = true := by
  cases text with
  | nil => simp [StartsSigned]
  | cons c cs => simp [startsSigned_cons]

theorem diagnose_of_not_startsSigned {text : List Char} (missing : ¬ StartsSigned text) :
    diagnose .signed text = [signMissing "signed dice or number" text] :=
  if_pos ⟨rfl, not_startsSigned_iff.mp missing⟩

theorem diagnose_of_begins {form : Form} {text : List Char} (begins : form = .signed → StartsSigned text) :
    diagnose form text = (cut form text).diagnostics form :=
  if_neg fun missing => not_startsSigned_iff.mpr missing.2 (begins missing.1)

theorem Splits.startsSigned_iff {text : List Char} {first : Segment} {more : List Segment}
    (split : Splits text first more) : StartsSigned text ↔ first.signs ≠ [] := by
  have summand := split.summand first (List.mem_cons_self ..)
  obtain ⟨signs, count, die⟩ := first
  rw [split.text_eq, List.flatMap_cons, Segment.chars_eq_append]
  cases signs with
  | nil =>
    obtain ⟨c, cs, body⟩ := List.exists_cons_of_ne_nil summand.body.chars_ne_nil
    have unsigned := Segment.isSign_of_mem_body summand.toShaped c (by simp [body])
    simp [body, startsSigned_cons, unsigned]
  | cons c signs =>
    have sign : isSign c = true := summand.signs c (List.mem_cons_self ..)
    simp [startsSigned_cons, sign]

theorem diagnose_eq_nil_iff {form : Form} {text : List Char} (form_eq : form = .sum ∨ form = .single) :
    diagnose form text = [] ↔
      Splits text (cut form text).first (cut form text).more ∧ (cut form text).rest = [] := by
  have begins : form = .signed → StartsSigned text := by
    rintro rfl
    simp at form_eq
  rw [diagnose_of_begins begins, diagnostics_eq_nil_iff]
  constructor
  · rintro ⟨read, done⟩
    refine ⟨splits_of_cut done fun s member shaped => ?_, done⟩
    obtain ⟨d, read⟩ := read s member
    exact ((Segment.dice_eq_ok_iff shaped).mp read).1
  · rintro ⟨split, done⟩
    refine ⟨fun s member => ?_, done⟩
    obtain ⟨d, read, _⟩ := Segment.exists_dice (split.summand s member)
    exact ⟨d, read⟩

private theorem numbers_filterMap_dice {ss : List Segment} (summand : ∀ s ∈ ss, s.IsSummand) :
    (ss.filterMap (·.dice.toOption)).map Dice.numbers = ss.map Segment.numbers := by
  induction ss with
  | nil => rfl
  | cons s ss ih =>
    obtain ⟨d, read, same⟩ := Segment.exists_dice (summand s (List.mem_cons_self ..))
    have kept : s.dice.toOption = some d := by rw [read]; rfl
    rw [List.filterMap_cons_some (f := fun s : Segment => s.dice.toOption) kept, List.map_cons, List.map_cons, same,
      ih fun t h => summand t (List.mem_cons_of_mem _ h)]

theorem numbers_ofList (ds : List Dice) :
    (Pool.ofList ds).entries.map Dice.numbers = (ds.map Dice.numbers).filter (·.1 ≠ 0) := by
  rw [Pool.entries_ofList, List.filter_map]
  apply congrArg (List.map Dice.numbers)
  apply List.filter_congr
  intro d _
  have zero : d.count = 0 ↔ d.numbers.1 = 0 := by
    rw [← Int32.toInt_inj]
    exact Iff.rfl
  simp [zero]

private theorem numbers_collected {ss : List Segment} (summand : ∀ s ∈ ss, s.IsSummand) :
    (Pool.ofList (ss.filterMap (·.dice.toOption))).entries.map Dice.numbers =
      (ss.map Segment.numbers).filter (·.1 ≠ 0) := by
  rw [numbers_ofList, numbers_filterMap_dice summand]

theorem readPool_eq_ok_iff {text : String} {p : Pool} :
    readPool text = .ok p ↔ ∃ first more, Splits text.toList first more ∧
      p.entries.map Dice.numbers = ((first :: more).map Segment.numbers).filter (·.1 ≠ 0) := by
  have diagnosis := @diagnose_eq_nil_iff .sum text.toList (.inl rfl)
  constructor
  · intro read
    unfold readPool at read
    split at read
    · next fine =>
      obtain ⟨split, _⟩ := diagnosis.mp fine
      cases read
      exact ⟨_, _, split, numbers_collected split.summand⟩
    · cases read
  · rintro ⟨first, more, split, same⟩
    have found := @cut_of_splits .sum _ _ _ split (.inl rfl)
    have fine : diagnose .sum text.toList = [] := by
      rw [diagnosis, found]
      exact ⟨split, rfl⟩
    unfold readPool
    rw [fine, found]
    apply congrArg Except.ok
    apply Pool.ext
    have collected := numbers_collected split.summand
    exact (List.map_inj_right fun _ _ => Dice.numbers_inj).mp (collected.trans same.symm)

theorem readDice_eq_ok_iff {text : String} {d : Dice} :
    readDice .single text = .ok d ↔
      ∃ s : Segment, text.toList = s.chars ∧ s.IsSummand ∧ d.numbers = s.numbers := by
  have diagnosis := @diagnose_eq_nil_iff .single text.toList (.inr rfl)
  constructor
  · intro read
    unfold readDice at read
    split at read
    · next fine dice =>
      obtain ⟨split, _⟩ := diagnosis.mp fine
      cases read
      have summand := split.summand _ (List.mem_cons_self ..)
      have alone : (cut .single text.toList).more = [] := more_scan_eq_nil (by decide)
      have whole := split.text_eq
      rw [alone, List.flatMap_cons, List.flatMap_nil, List.append_nil] at whole
      exact ⟨_, whole, summand, ((Segment.dice_eq_ok_iff summand.toShaped).mp dice).2⟩
    · cases read
  · rintro ⟨s, whole, summand, same⟩
    have split : Splits text.toList s [] := ⟨by simpa using whole, by simpa using summand, by simp⟩
    have found := @cut_of_splits .single _ _ _ split (.inr ⟨rfl, rfl⟩)
    have fine : diagnose .single text.toList = [] := by
      rw [diagnosis, found]
      exact ⟨split, rfl⟩
    unfold readDice
    rw [fine, found, (Segment.dice_eq_ok_iff summand.toShaped).mpr ⟨summand, same⟩]

end DiceAlgebra.Grammar

namespace DiceAlgebra
open Grammar

theorem Pool.parse_iff_splits {text : String} {p : Pool} :
    Pool.parse text = .ok p ↔ ∃ first more, Splits (text.toList.filter fun c => !Text.isBlank c) first more ∧
      p.entries.map Dice.numbers = ((first :: more).map Segment.numbers).filter (·.1 ≠ 0) := by
  rw [Pool.parse, readPool_eq_ok_iff, Text.toList_squeeze]

theorem Expr.parse_eq_ok_pool_iff {text : String} {p : Pool} :
    Expr.parse text = .ok (.pool p) ↔ Pool.parse text = .ok p := by
  unfold Expr.parse
  cases Pool.parse text <;> simp [Except.map]

theorem Expr.exists_pool_of_parse {text : String} {e : Expr} (read : Expr.parse text = .ok e) :
    ∃ p : Pool, e = .pool p ∧ Pool.parse text = .ok p := by
  unfold Expr.parse at read
  cases parsed : Pool.parse text with
  | error ds => simp [parsed, Except.map] at read
  | ok p =>
    rw [parsed] at read
    exact ⟨p, (Except.ok.inj read).symm, rfl⟩

/-- A text is read when it is a row of summands once its blanks are gone, and then as the sum of what they
speak of, in order. Blanks may stand anywhere, and summands that come to nothing are not kept. -/
theorem Expr.parse_eq_ok_iff (text : String) (e : Expr) :
    Expr.parse text = .ok e ↔
      ∃ first more p, Splits (text.toList.filter fun c => !Text.isBlank c) first more ∧
        e = .pool p ∧
          p.entries.map Dice.numbers = ((first :: more).map Segment.numbers).filter (·.1 ≠ 0) := by
  have squeezed := Text.toList_squeeze text
  constructor
  · intro read
    unfold Expr.parse Pool.parse at read
    cases pool : readPool (Text.squeeze text) with
    | error ds => simp [pool, Except.map] at read
    | ok p =>
      obtain ⟨first, more, split, same⟩ := readPool_eq_ok_iff.mp pool
      rw [squeezed] at split
      rw [pool] at read
      cases read
      exact ⟨first, more, p, split, rfl, same⟩
  · rintro ⟨first, more, p, split, rfl, same⟩
    rw [← squeezed] at split
    have pool := readPool_eq_ok_iff.mpr ⟨first, more, split, same⟩
    unfold Expr.parse Pool.parse
    rw [pool]
    rfl

end DiceAlgebra
