import DiceAlgebra.Proofs.Grammar.Scanning

/-! A reader keeps the segments that it has been through. `walk` does without them: it goes from stage to
stage, one character after the other, and stops at the first that is not among those wanted. By
`walk_eq_cut` the reader stops where the walk does, and there in the same stage of a segment. -/
namespace DiceAlgebra.Grammar

/-- How far a segment has got with one more character. A sign begins a new one. -/
def Stage.next (s : Stage) (c : Char) : Stage :=
  if c ∈ signChars then .signs else if c ∈ dieMarks ∨ s = .faces then .faces else .count

/-- Goes on as long as the next character is wanted at the stage reached, and tells that stage and what is
left. -/
def walk (wanted : Stage → List Char) (s : Stage) : List Char → Stage × List Char
  | [] => (s, [])
  | c :: cs => if c ∈ wanted s then walk wanted (s.next c) cs else (s, c :: cs)

section Walk

variable {wanted : Stage → List Char} {s t : Stage} {xs : List Char}

theorem walk_append (h : walk wanted s xs = (t, [])) (ys : List Char) :
    walk wanted s (xs ++ ys) = walk wanted t ys := by
  induction xs generalizing s with
  | nil =>
    cases h
    rfl
  | cons c cs ih =>
    rw [walk] at h
    split at h
    · next accepted => rw [List.cons_append, walk, if_pos accepted, ih h]
    · cases h

theorem walk_of_stuck {rest : List Char} (stuck : ∀ c ∈ rest.head?, c ∉ wanted s) :
    walk wanted s rest = (s, rest) := by
  cases rest with
  | nil => rfl
  | cons c cs => rw [walk, if_neg (stuck c rfl)]

theorem exists_of_walk {text rest : List Char} (h : walk wanted s text = (t, rest)) :
    ∃ before, text = before ++ rest ∧ walk wanted s before = (t, []) ∧ ∀ c ∈ rest.head?, c ∉ wanted t := by
  induction text generalizing s with
  | nil =>
    cases h
    exact ⟨[], rfl, rfl, by simp⟩
  | cons c cs ih =>
    rw [walk] at h
    split at h
    · next accepted =>
      obtain ⟨before, rfl, done, stuck⟩ := ih h
      exact ⟨c :: before, rfl, by rw [walk, if_pos accepted, done], stuck⟩
    · next refused =>
      cases h
      refine ⟨[], rfl, rfl, ?_⟩
      rintro _ ⟨⟩
      exact refused

end Walk

theorem Segment.stage_add {form : Form} {s : Segment} {c : Char} {kind : Kind} (fits : kind ∈ form.next s.stage)
    (member : c ∈ kind.chars) (goes : s.stage.begins kind = false) : (s.add c kind).stage = s.stage.next c := by
  have of_kind (k : Kind) : c ∈ k.chars ↔ k = kind := ⟨(Kind.eq_of_mem · member), fun same => same ▸ member⟩
  have sign : c ∈ signChars ↔ .sign = kind := of_kind .sign
  have mark : c ∈ dieMarks ↔ .mark = kind := of_kind .mark
  cases kind with
  | sign =>
    obtain ⟨uncounted, unrolled⟩ := bare_of_sign goes
    simp [add, stage, Stage.next, uncounted, unrolled, sign]
  | digit =>
    cases die : s.die with
    | none =>
      have apart : s.stage ≠ .faces := by simp [stage_eq_faces_iff, die]
      rw [Stage.next, if_neg (by simp [sign]), if_neg (by simp [mark, apart])]
      simp [add, stage, die]
    | some die => simp [add, stage, Stage.next, die, sign, mark]
  | mark => simp [add, stage, Stage.next, sign, mark]

theorem Cut.stage_behind (s : Segment) (later : Cut) : (Cut.behind s later).stage = later.stage := by
  rw [stage, behind, List.getLastD_cons, stage]

theorem walk_eq_scan (form : Form) (s : Segment) (text : List Char) :
    walk (expected form) s.stage text = ((scan form s text).stage, (scan form s text).rest) := by
  fun_induction scan form s text with
  | case1 s => rfl
  | case2 s c cs stuck =>
    have unwanted : c ∉ expected form s.stage := fun wanted => by
      obtain ⟨kind, fits, member⟩ := mem_expected_iff.mp wanted
      exact Kind.not_mem_of_find?_eq_none stuck kind fits member
    rw [walk, if_neg unwanted]
    rfl
  | case3 s c cs kind found begins ih =>
    obtain rfl := Stage.eq_sign_of_begins begins
    obtain ⟨fits, member⟩ := Kind.of_find?_eq found
    have opened : s.stage.next c = (Segment.empty.add c .sign).stage := if_pos member
    rw [walk, if_pos (mem_expected_iff.mpr ⟨_, fits, member⟩), opened, ih, Cut.stage_behind]
    rfl
  | case4 s c cs kind found goes ih =>
    obtain ⟨fits, member⟩ := Kind.of_find?_eq found
    rw [walk, if_pos (mem_expected_iff.mpr ⟨_, fits, member⟩),
      ← Segment.stage_add fits member (Bool.eq_false_iff.mpr goes), ih]

theorem walk_eq_cut (form : Form) (text : List Char) :
    walk (expected form) .start text = ((cut form text).stage, (cut form text).rest) :=
  walk_eq_scan form .empty text

end DiceAlgebra.Grammar
