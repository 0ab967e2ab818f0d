import DiceAlgebra.Grammar.Reader
import DiceAlgebra.Proofs.Grammar.Summand

/-! Scanning adds one character after the other to a segment. Each step keeps the segment in shape and
writes the character behind it (`chars_add`), so scanning divides the text (`scan_spec`). A whole segment
is gone through in one step, whatever stands behind it (`scan_chars`). -/
namespace DiceAlgebra.Grammar

theorem mem_signChars_iff {c : Char} : c ∈ signChars ↔ isSign c = true := by
  rw [isSign, decide_eq_true_eq]

theorem mem_dieMarks_iff {c : Char} : c ∈ dieMarks ↔ isDieMark c = true := by
  rw [isDieMark_iff, dieMarks, List.mem_cons, List.mem_singleton]

theorem mem_digitChars_iff {c : Char} : c ∈ digitChars ↔ Text.isDigit c = true := by
  constructor
  · intro member
    exact List.all_eq_true.mp (show digitChars.all Text.isDigit = true by decide) c member
  · intro digit
    have range : 48 ≤ c.toNat ∧ c.toNat ≤ 57 := Char.isDigit_iff_toNat.mp digit
    have listed : ∀ n < 58, 48 ≤ n → Char.ofNat n ∈ digitChars := by decide
    rw [← Char.ofNat_toNat c]
    exact listed c.toNat (Nat.lt_succ_of_le range.2) range.1

theorem Kind.eq_of_mem {k k' : Kind} {c : Char} (member : c ∈ k.chars) (member' : c ∈ k'.chars) : k = k' := by
  have apart : k ≠ k' → ∀ c ∈ k.chars, c ∉ k'.chars := by
    cases k <;> cases k' <;> simp [chars, signChars, digitChars, dieMarks]
  exact Decidable.not_not.mp fun other => apart other c member member'

theorem Kind.find?_eq {k : Kind} {c : Char} (member : c ∈ k.chars) (ks : List Kind) :
    ks.find? (c ∈ ·.chars) = if k ∈ ks then some k else none := by
  induction ks with
  | nil => rfl
  | cons k' ks ih =>
    by_cases same : k = k'
    · simp [← same, member]
    · have other : c ∉ k'.chars := fun member' => same (eq_of_mem member member')
      simp [same, other, ih]

theorem Kind.of_find?_eq {k : Kind} {c : Char} {ks : List Kind} (found : ks.find? (c ∈ ·.chars) = some k) :
    k ∈ ks ∧ c ∈ k.chars :=
  ⟨List.mem_of_find?_eq_some found, by simpa using List.find?_some found⟩

theorem Kind.not_mem_of_find?_eq_none {c : Char} {ks : List Kind} (stuck : ks.find? (c ∈ ·.chars) = none) :
    ∀ k ∈ ks, c ∉ k.chars := by
  simpa using stuck

theorem mem_expected_iff {form : Form} {stage : Stage} {c : Char} :
    c ∈ expected form stage ↔ ∃ kind ∈ form.next stage, c ∈ kind.chars :=
  List.mem_flatMap

theorem Stage.eq_sign_of_begins {stage : Stage} {kind : Kind} (begins : stage.begins kind = true) :
    kind = .sign := by
  revert begins
  cases stage <;> cases kind <;> decide

theorem Stage.begins_eq_false {stage : Stage} {kind : Kind} (other : kind ≠ .sign) : stage.begins kind = false :=
  Bool.eq_false_iff.mpr (mt eq_sign_of_begins other)

theorem Form.mem_next {form : Form} (free : form = .sum ∨ form = .single) {kind : Kind} {stage : Stage}
    (goes : stage.begins kind = false) (single : kind = .mark → stage ≠ .faces) : kind ∈ form.next stage := by
  rcases free with rfl | rfl <;> cases kind <;> cases stage <;> simp_all [next, Stage.begins]

section Step

variable {form : Form} {s : Segment} {c : Char} {cs : List Char} {kind : Kind}

theorem scan_of_stuck {rest : List Char} (stuck : ∀ c ∈ rest.head?, c ∉ expected form s.stage) :
    scan form s rest = ⟨s, [], rest⟩ := by
  cases rest with
  | nil => rfl
  | cons c cs =>
    have none_found : (form.next s.stage).find? (c ∈ ·.chars) = none := by
      rw [List.find?_eq_none]
      intro kind fits member
      exact stuck c rfl (mem_expected_iff.mpr ⟨kind, fits, of_decide_eq_true member⟩)
    rw [scan, none_found]

theorem scan_cons (fits : kind ∈ form.next s.stage) (member : c ∈ kind.chars)
    (goes : s.stage.begins kind = false) : scan form s (c :: cs) = scan form (s.add c kind) cs := by
  rw [scan, Kind.find?_eq member, if_pos fits]
  exact if_neg (Bool.eq_false_iff.mp goes)

theorem scan_cons_of_begins (fits : kind ∈ form.next s.stage) (member : c ∈ kind.chars)
    (begins : s.stage.begins kind = true) :
    scan form s (c :: cs) = .behind s (scan form (Segment.empty.add c kind) cs) := by
  rw [scan, Kind.find?_eq member, if_pos fits]
  exact if_pos begins

end Step

namespace Segment

variable {form : Form} {s : Segment} {c : Char} {kind : Kind}

theorem stage_eq_start_iff : s.stage = .start ↔ s.signs = [] ∧ s.count = [] ∧ s.die = none := by
  obtain ⟨signs, count, die⟩ := s
  cases signs <;> cases count <;> cases die <;> simp [stage]

theorem stage_eq_faces_iff : s.stage = .faces ↔ s.die.isSome = true := by
  obtain ⟨signs, count, die⟩ := s
  cases signs <;> cases count <;> cases die <;> simp [stage]

theorem unrolled_of_mark (fits : .mark ∈ form.next s.stage) : s.die = none := by
  cases die : s.die with
  | none => rfl
  | some die => simp [stage, die, Form.next] at fits

theorem bare_of_sign (goes : s.stage.begins .sign = false) : s.count = [] ∧ s.die = none := by
  obtain ⟨signs, count, die⟩ := s
  cases count <;> cases die <;> simp_all [stage, Stage.begins]

theorem stage_add_ne_start (s : Segment) (c : Char) (kind : Kind) : (s.add c kind).stage ≠ .start := by
  rw [ne_eq, stage_eq_start_iff]
  cases kind with
  | sign => simp [add]
  | digit => cases die : s.die <;> simp [add, die]
  | mark => simp [add]

theorem chars_add (fits : kind ∈ form.next s.stage) (goes : s.stage.begins kind = false) :
    (s.add c kind).chars = s.chars ++ [c] := by
  cases kind with
  | sign =>
    obtain ⟨uncounted, unrolled⟩ := bare_of_sign goes
    simp [add, chars, uncounted, unrolled]
  | digit => cases die : s.die <;> simp [add, chars, die]
  | mark => simp [add, chars, unrolled_of_mark fits]

theorem Shaped.add (shaped : s.Shaped) (member : c ∈ kind.chars) : (s.add c kind).Shaped := by
  obtain ⟨signs, count, die⟩ := s
  have grown {p : Char → Prop} {xs : List Char} (all : ∀ x ∈ xs, p x) (last : p c) : ∀ x ∈ xs ++ [c], p x :=
    List.forall_mem_append.mpr ⟨all, List.forall_mem_singleton.mpr last⟩
  cases kind with
  | sign => exact ⟨grown shaped.signs (mem_signChars_iff.mp member), shaped.count, shaped.mark, shaped.faces⟩
  | digit =>
    have digit := mem_digitChars_iff.mp member
    cases die with
    | none => exact ⟨shaped.signs, grown shaped.count digit, shaped.mark, shaped.faces⟩
    | some die =>
      refine ⟨shaped.signs, shaped.count, ?_, ?_⟩
      · rintro _ ⟨⟩
        exact shaped.mark die rfl
      · rintro _ ⟨⟩
        exact grown (shaped.faces die rfl) digit
  | mark =>
    refine ⟨shaped.signs, shaped.count, ?_, ?_⟩
    · rintro _ ⟨⟩
      exact mem_dieMarks_iff.mp member
    · rintro _ ⟨⟩
      simp

theorem signs_prefix_add (s : Segment) (c : Char) (kind : Kind) : s.signs <+: (s.add c kind).signs := by
  cases kind with
  | sign => exact List.prefix_append ..
  | digit => cases die : s.die <;> simp [add, die]
  | mark => exact List.prefix_rfl

theorem shaped_empty : Shaped empty :=
  ⟨by simp [empty], by simp [empty], by simp [empty], by simp [empty]⟩

end Segment

theorem Cut.segments_behind (s : Segment) (later : Cut) : (behind s later).segments = s :: later.segments :=
  rfl

section Scan

variable {form : Form} {s : Segment} {text : List Char}

theorem prefix_scan (form : Form) (s : Segment) (text : List Char) :
    s.chars <+: (scan form s text).first.chars ∧ s.signs <+: (scan form s text).first.signs := by
  fun_induction scan form s text with
  | case1 | case2 | case3 => exact ⟨List.prefix_rfl, List.prefix_rfl⟩
  | case4 s c cs kind found goes ih =>
    obtain ⟨fits, -⟩ := Kind.of_find?_eq found
    have written := Segment.chars_add (c := c) fits (Bool.eq_false_iff.mpr goes)
    have longer : s.chars <+: (s.add c kind).chars := ⟨[c], written.symm⟩
    exact ⟨longer.trans ih.1, (Segment.signs_prefix_add s c kind).trans ih.2⟩

theorem signs_scan_ne_nil (signed : s.signs ≠ []) : (scan form s text).first.signs ≠ [] := by
  intro none
  have front := (prefix_scan form s text).2
  rw [none] at front
  exact signed (List.prefix_nil.mp front)

theorem scan_spec (shaped : s.Shaped) :
    (scan form s text).segments.flatMap Segment.chars ++ (scan form s text).rest = s.chars ++ text ∧
      (∀ t ∈ (scan form s text).segments, t.Shaped) ∧ ∀ t ∈ (scan form s text).more, t.signs ≠ [] := by
  fun_induction scan form s text with
  | case1 s => simp [Cut.segments, shaped]
  | case2 s c cs stuck => simp [Cut.segments, shaped]
  | case3 s c cs kind found begins ih =>
    obtain rfl := Stage.eq_sign_of_begins begins
    obtain ⟨-, member⟩ := Kind.of_find?_eq found
    obtain ⟨whole, each, signed⟩ := ih (Segment.shaped_empty.add member)
    have first : (scan form (Segment.empty.add c .sign) cs).first.signs ≠ [] :=
      signs_scan_ne_nil (List.cons_ne_nil c [])
    refine ⟨?_, List.forall_mem_cons.mpr ⟨shaped, each⟩, List.forall_mem_cons.mpr ⟨first, signed⟩⟩
    rw [Cut.segments_behind, List.flatMap_cons, List.append_assoc, Cut.behind, whole]
    rfl
  | case4 s c cs kind found goes ih =>
    obtain ⟨fits, member⟩ := Kind.of_find?_eq found
    have written := Segment.chars_add (c := c) fits (Bool.eq_false_iff.mpr goes)
    obtain ⟨whole, each, signed⟩ := ih (shaped.add member)
    rw [written, List.append_assoc] at whole
    exact ⟨whole, each, signed⟩

theorem cut_spec (form : Form) (text : List Char) :
    (cut form text).segments.flatMap Segment.chars ++ (cut form text).rest = text ∧
      (∀ s ∈ (cut form text).segments, s.Shaped) ∧ ∀ s ∈ (cut form text).more, s.signs ≠ [] :=
  scan_spec Segment.shaped_empty

theorem more_scan_eq_nil (single : form ≠ .sum) : (scan form s text).more = [] := by
  fun_induction scan form s text with
  | case1 | case2 => rfl
  | case3 s c cs kind found begins =>
    obtain ⟨fits, -⟩ := Kind.of_find?_eq found
    cases stage : s.stage <;> cases kind <;> simp_all [Form.next, Stage.begins]
  | case4 s c cs kind found goes ih => exact ih

end Scan

/-! A segment where signs are free: its signs, the digits of its count, a die mark and the digits of its
faces are runs of one kind each. -/
section Runs

variable {form : Form} {signs count faces rest : List Char} {mark : Char}

theorem scan_run (free : form = .sum ∨ form = .single) {kind : Kind} (grown : List Char → Segment)
    (add : ∀ ys c, (grown ys).add c kind = grown (ys ++ [c])) (goes : ∀ ys, (grown ys).stage.begins kind = false)
    (unmarked : kind ≠ .mark) {xs : List Char} (each : ∀ c ∈ xs, c ∈ kind.chars) (ys : List Char) :
    scan form (grown ys) (xs ++ rest) = scan form (grown (ys ++ xs)) rest := by
  induction xs generalizing ys with
  | nil => rw [List.nil_append, List.append_nil]
  | cons c xs ih =>
    rw [List.forall_mem_cons] at each
    have fits : kind ∈ form.next (grown ys).stage := Form.mem_next free (goes ys) (absurd · unmarked)
    rw [List.cons_append, scan_cons fits each.1 (goes ys), add, ih each.2, List.append_assoc, List.singleton_append]

variable (free : form = .sum ∨ form = .single)
include free

private theorem scan_signs (all : ∀ c ∈ signs, isSign c = true) :
    scan form .empty (signs ++ rest) = scan form ⟨signs, [], none⟩ rest := by
  have goes (ys) : (Segment.stage ⟨ys, [], none⟩).begins .sign = false := by cases ys <;> rfl
  have each : ∀ c ∈ signs, c ∈ Kind.chars .sign := fun c sign => mem_signChars_iff.mpr (all c sign)
  exact scan_run free (fun ys => ⟨ys, [], none⟩) (fun _ _ => rfl) goes (by decide) each []

private theorem scan_digits (grown : List Char → Segment) (add : ∀ ys c, (grown ys).add c .digit = grown (ys ++ [c]))
    {digits : List Char} (all : ∀ c ∈ digits, Text.isDigit c = true) :
    scan form (grown []) (digits ++ rest) = scan form (grown digits) rest := by
  have goes (ys) : (grown ys).stage.begins .digit = false := Stage.begins_eq_false (by decide)
  have each : ∀ c ∈ digits, c ∈ Kind.chars .digit := fun c digit => mem_digitChars_iff.mpr (all c digit)
  exact scan_run free grown add goes (by decide) each []

private theorem scan_die (marked : isDieMark mark = true) (all : ∀ c ∈ faces, Text.isDigit c = true) :
    scan form ⟨signs, count, none⟩ (mark :: faces ++ rest) = scan form ⟨signs, count, some (mark, faces)⟩ rest := by
  have unrolled : Segment.stage ⟨signs, count, none⟩ ≠ .faces := by simp [Segment.stage_eq_faces_iff]
  have goes : (Segment.stage ⟨signs, count, none⟩).begins .mark = false := Stage.begins_eq_false (by decide)
  have fits : .mark ∈ form.next (Segment.stage ⟨signs, count, none⟩) := Form.mem_next free goes fun _ => unrolled
  rw [List.cons_append, scan_cons fits (mem_dieMarks_iff.mpr marked) goes]
  exact scan_digits free (fun ys => ⟨signs, count, some (mark, ys)⟩) (fun _ _ => rfl) all

/-- A segment is gone through as a whole, and what stands behind it may still belong to it. -/
theorem scan_chars {s : Segment} (shaped : s.Shaped) (rest : List Char) :
    scan form .empty (s.chars ++ rest) = scan form s rest := by
  obtain ⟨signs, count, die⟩ := s
  have counted (rest) : scan form .empty (signs ++ (count ++ rest)) = scan form ⟨signs, count, none⟩ rest :=
    (scan_signs free shaped.signs).trans
      (scan_digits free (fun ys => ⟨signs, ys, none⟩) (fun _ _ => rfl) shaped.count)
  cases die with
  | none =>
    rw [← counted]
    simp [Segment.chars]
  | some die =>
    rw [← scan_die free (shaped.mark die rfl) (shaped.faces die rfl), ← counted]
    simp [Segment.chars]

end Runs
end DiceAlgebra.Grammar
