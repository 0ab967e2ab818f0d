import DiceAlgebra.Proofs.Grammar.Report
import DiceAlgebra.Proofs.Grammar.Walk

/-! What a reader says it wanted is what it could have gone on with. Each of them is stuck where a walk through the
text stops, and lists what it wanted at the stage reached there (`complains_diagnostics`). One step of the walk
then tells which characters it would have taken. -/
namespace DiceAlgebra.Grammar

variable {form : Form} {text : List Char}

/-- The reader is stuck at a character. To find a segment wrong, or the text at its end, is another matter. -/
def Diagnostic.IsStuck (d : Diagnostic) : Prop :=
  ∃ c wanted, d.problem = .found c wanted

/-- What is said of a text at the character where the walk through it stops, if it stops before the end. -/
def StopsWith (wanted : Stage → List Char) (text : List Char) (d : Diagnostic) : Prop :=
  ∃ before t c after, text = before ++ c :: after ∧ walk wanted .start text = (t, c :: after) ∧
    d = .about before [c] (.found c (wanted t))

theorem stopsWith_iff {wanted : Stage → List Char} {front rest : List Char} {t : Stage} {d : Diagnostic}
    (whole : front ++ rest = text) (walked : walk wanted .start text = (t, rest)) :
    StopsWith wanted text d ↔ ∃ c after, rest = c :: after ∧ d = .about front [c] (.found c (wanted t)) := by
  unfold StopsWith
  rw [walked, ← whole]
  constructor
  · rintro ⟨before, u, c, after, divided, same, rfl⟩
    cases same
    exact ⟨c, after, rfl, by rw [List.append_cancel_right divided]⟩
  · rintro ⟨c, after, rfl, rfl⟩
    exact ⟨front, t, c, after, rfl, rfl, rfl⟩

/-- What a reader may complain about: a segment, that there is no text at all, or the character at which the walk
stops. -/
inductive Complaint (wanted : Stage → List Char) (text : List Char) (d : Diagnostic) : Prop where
  | segment {e : SegmentError} (about : d.problem = .segment e)
  | missing {what : String} (about : d.problem = .foundEnd what) (empty : text = [])
  | stuck (stops : StopsWith wanted text d)

theorem complaint_of_mem_faultsFrom {wanted : Stage → List Char} {start : Nat} {ss : List Segment} {d : Diagnostic}
    (member : d ∈ Cut.faultsFrom start ss) : Complaint wanted text d := by
  induction ss generalizing start with
  | nil => cases member
  | cons s ss ih =>
    unfold Cut.faultsFrom at member
    split at member
    · exact ih member
    · rcases List.mem_cons.mp member with rfl | later
      · exact .segment rfl
      · exact ih later

theorem Cut.mem_stuck_iff {cut : Cut} (shaped : ∀ s ∈ cut.segments, s.Shaped) {d : Diagnostic} :
    d ∈ cut.stuck form ↔ ∃ c after, cut.rest = c :: after ∧
      d = .about (cut.segments.flatMap Segment.chars) [c] (.found c (expected form cut.stage)) := by
  have size := bytes_segments shaped
  unfold stuck
  cases cut.rest with
  | nil => simp
  | cons c after => simp [Diagnostic.about, size, bytes_singleton]

/-- Complaints about a text, the one about where the walk stops among them. -/
structure Complains (wanted : Stage → List Char) (text : List Char) (ds : List Diagnostic) : Prop where
  each : ∀ d ∈ ds, Complaint wanted text d
  stops : ∀ d, StopsWith wanted text d → d ∈ ds

theorem complains_of_stopsWith {wanted : Stage → List Char} {ds : List Diagnostic}
    (same : ∀ d, d ∈ ds ↔ StopsWith wanted text d) : Complains wanted text ds :=
  ⟨fun d member => .stuck ((same d).mp member), fun d => (same d).mpr⟩

theorem complains_signMissing {wanted : Stage → List Char} (first : wanted .start = signChars)
    (missing : ¬ StartsSigned text) (what : String) : Complains wanted text [signMissing what text] := by
  have stuck : ∀ c ∈ text.head?, c ∉ wanted .start := by
    intro c head sign
    rw [first, mem_signChars_iff] at sign
    exact missing ⟨c, head, sign⟩
  have stops := fun d => @stopsWith_iff text wanted [] text .start d (List.nil_append text) (walk_of_stuck stuck)
  cases text with
  | nil =>
    refine ⟨fun d member => ?_, fun d h => by simpa using (stops d).mp h⟩
    rw [List.mem_singleton.mp member]
    exact .missing rfl rfl
  | cons c cs =>
    have told : signMissing what (c :: cs) = .about [] [c] (.found c (wanted .start)) := by
      simp [signMissing, Diagnostic.about, bytes, first]
    exact complains_of_stopsWith fun d => by simp [stops, told]

theorem complains_diagnose (form : Form) (text : List Char) :
    Complains (expected form) text (diagnose form text) := by
  by_cases begins : form = .signed → StartsSigned text
  · obtain ⟨whole, shaped, -⟩ := cut_spec form text
    have stops := fun d => (Cut.mem_stuck_iff shaped).trans
      (@stopsWith_iff _ _ _ _ _ d whole (walk_eq_cut form text)).symm
    rw [diagnose_of_begins begins]
    refine ⟨fun d member => ?_, fun d h => List.mem_append_right _ ((stops d).mpr h)⟩
    rcases List.mem_append.mp member with fault | stuck
    · exact complaint_of_mem_faultsFrom fault
    · exact .stuck ((stops d).mp stuck)
  · obtain ⟨rfl, missing⟩ := Classical.not_imp.mp begins
    rw [diagnose_of_not_startsSigned missing]
    exact complains_signMissing rfl missing _

/-- What may be read: signs alone, or segments of some form. -/
inductive Reading where
  | sign
  | segments (form : Form)

def complaints {α : Type} : Except (List Diagnostic) α → List Diagnostic
  | .ok _ => []
  | .error ds => ds

theorem complaints_readDice (form : Form) (text : String) :
    complaints (readDice form text) = diagnose form text.toList := by
  unfold readDice
  split
  · next fine _ => exact fine.symm
  · rfl

theorem complaints_readPool (text : String) : complaints (readPool text) = diagnose .sum text.toList := by
  unfold readPool
  split
  · next fine => exact fine.symm
  · rfl

private theorem walk_signs (s : Stage) (text : List Char) :
    ∃ t, walk (fun _ => signChars) s text = (t, text.dropWhile isSign) := by
  induction text generalizing s with
  | nil => exact ⟨s, rfl⟩
  | cons c cs ih =>
    rw [walk]
    by_cases sign : isSign c = true
    · rw [if_pos (mem_signChars_iff.mpr sign), List.dropWhile_cons_of_pos sign]
      exact ih _
    · rw [if_neg (mt mem_signChars_iff.mp sign), List.dropWhile_cons_of_neg sign]
      exact ⟨s, rfl⟩

theorem complains_readSign (text : String) :
    Complains (fun _ => signChars) text.toList (complaints (readSign text)) := by
  have whole := List.takeWhile_append_dropWhile (p := isSign) (l := text.toList)
  obtain ⟨t, walked⟩ := walk_signs .start text.toList
  have stops := fun d => @stopsWith_iff _ _ _ _ _ d whole walked
  have ascii : ∀ c ∈ text.toList.takeWhile isSign, c.utf8Size = 1 := by
    intro c member
    have sign := List.all_eq_true.mp List.all_takeWhile c member
    rcases isSign_iff.mp sign with rfl | rfl <;> rfl
  have size := bytes_eq_length ascii
  unfold readSign
  split
  · next done =>
    rw [done] at whole stops
    dsimp only
    split
    · next none =>
      rw [none, List.append_nil] at whole
      rw [← whole]
      exact complains_signMissing rfl (by simp [StartsSigned]) "sign"
    · exact complains_of_stopsWith fun d => by simp [stops, complaints]
  · next c after left =>
    rw [left] at stops
    exact complains_of_stopsWith fun d => by simp [stops, complaints, Diagnostic.about, size, bytes_singleton]

namespace Reading

/-- The complaints of the reader, the one of dice for a single segment and the one of pools for a sum. -/
def diagnostics : Reading → String → List Diagnostic
  | sign, text => complaints (readSign text)
  | segments .sum, text => complaints (readPool text)
  | segments form, text => complaints (readDice form text)

def expected : Reading → Stage → List Char
  | sign, _ => signChars
  | segments form, s => Grammar.expected form s

/-- The whole text is taken, be it wrong or not: there is no character that the reader is stuck at. -/
def Consumes (r : Reading) (text : String) : Prop :=
  ∀ d ∈ r.diagnostics text, ¬ d.IsStuck

/-- The reader takes what stands before `c` and is stuck there, telling what it wanted instead. -/
def StuckAt (r : Reading) (text : String) (before : List Char) (c : Char) (wanted : List Char) : Prop :=
  (∃ after, text.toList = before ++ c :: after) ∧ .about before [c] (.found c wanted) ∈ r.diagnostics text

theorem diagnostics_segments (form : Form) (text : String) :
    (segments form).diagnostics text = diagnose form text.toList := by
  cases form with
  | unsigned | signed | single => exact complaints_readDice _ text
  | sum => exact complaints_readPool text

theorem complains_diagnostics (r : Reading) (text : String) :
    Complains r.expected text.toList (r.diagnostics text) := by
  cases r with
  | sign => exact complains_readSign text
  | segments form =>
    rw [diagnostics_segments]
    exact complains_diagnose form text.toList

variable {r : Reading}

theorem stopsWith_of_isStuck {text : String} {d : Diagnostic} (member : d ∈ r.diagnostics text) (stuck : d.IsStuck) :
    StopsWith r.expected text.toList d := by
  obtain ⟨c, wanted, found⟩ := stuck
  cases (r.complains_diagnostics text).each d member with
  | segment about => cases about.symm.trans found
  | missing about _ => cases about.symm.trans found
  | stuck stops => exact stops

theorem eq_nil_of_foundEnd {text : String} {d : Diagnostic} (member : d ∈ r.diagnostics text) {what : String}
    (ended : d.problem = .foundEnd what) : text.toList = [] := by
  cases (r.complains_diagnostics text).each d member with
  | segment about => cases about.symm.trans ended
  | missing _ empty => exact empty
  | stuck stops =>
    obtain ⟨before, t, c, after, -, -, rfl⟩ := stops
    cases ended

theorem consumes_iff {text : String} :
    r.Consumes text ↔ (walk r.expected .start text.toList).2 = [] := by
  constructor
  · intro consumed
    cases walked : walk r.expected .start text.toList with
    | mk t rest =>
      obtain ⟨before, whole, -, -⟩ := exists_of_walk walked
      cases rest with
      | nil => rfl
      | cons c after =>
        have told := (r.complains_diagnostics text).stops _ ⟨before, t, c, after, whole, walked, rfl⟩
        exact absurd ⟨c, _, rfl⟩ (consumed _ told)
  · rintro done d member stuck
    obtain ⟨before, t, c, after, -, walked, -⟩ := stopsWith_of_isStuck member stuck
    rw [walked] at done
    cases done

/-- What stands before the character is told by its number of bytes. -/
theorem StuckAt.exists_walk {text : String} {before wanted : List Char} {c : Char}
    (h : r.StuckAt text before c wanted) :
    ∃ t, walk r.expected .start before = (t, []) ∧ c ∉ wanted ∧ wanted = r.expected t := by
  obtain ⟨⟨after, whole⟩, member⟩ := h
  obtain ⟨before', t, c', after', whole', walked, same⟩ := stopsWith_of_isStuck member ⟨c, wanted, rfl⟩
  obtain ⟨front, divided, done, stuck⟩ := exists_of_walk walked
  have found : Problem.found c wanted = .found c' (r.expected t) := congrArg Diagnostic.problem same
  cases found
  have here : before = before' := eq_of_bytes_eq (whole.symm.trans whole') (congrArg Diagnostic.start same)
  have there : front = before' := List.append_cancel_right (divided.symm.trans whole')
  rw [here, ← there]
  exact ⟨t, done, stuck c rfl, rfl⟩

/-- A reader that does not take the whole text is stuck at some character. That one is not among those it says it
wanted, and these are the ones with which it would have taken what stands before and the character too. What stands
before is taken by itself, with no complaint about its end either unless there is nothing. -/
theorem wanted_iff_consumes (r : Reading) (text : String) :
    (r.Consumes text ∨ ∃ before c wanted, r.StuckAt text before c wanted) ∧
    ∀ before c wanted, r.StuckAt text before c wanted →
      c ∉ wanted ∧ (∀ x, x ∈ wanted ↔ r.Consumes (String.ofList (before ++ [x]))) ∧
        r.Consumes (String.ofList before) ∧
        ∀ d ∈ r.diagnostics (String.ofList before), ∀ more, d.problem = .foundEnd more → before = [] := by
  constructor
  · refine or_iff_not_imp_left.mpr fun left => ?_
    simp only [Consumes, not_forall, not_not] at left
    obtain ⟨d, member, stuck⟩ := left
    obtain ⟨before, t, c, after, whole, -, rfl⟩ := stopsWith_of_isStuck member stuck
    exact ⟨before, c, _, ⟨after, whole⟩, member⟩
  · intro before c wanted stuck
    obtain ⟨t, walked, unwanted, rfl⟩ := stuck.exists_walk
    refine ⟨unwanted, fun x => ?_, ?_, fun d member more ended => ?_⟩
    · rw [consumes_iff, String.toList_ofList, walk_append walked, walk]
      split
      · next accepted => exact iff_of_true accepted rfl
      · next refused => exact iff_of_false refused (List.cons_ne_nil x [])
    · rw [consumes_iff, String.toList_ofList, walked]
    · exact String.toList_ofList.symm.trans (eq_nil_of_foundEnd member ended)

theorem wanted_iff_consumes_sum :
    (segments .sum).StuckAt "2d6+é" "2d6+".toList 'é' (signChars ++ digitChars ++ dieMarks) ∧
      (∀ x, x ∈ signChars ++ digitChars ++ dieMarks ↔
        (segments .sum).Consumes (String.ofList ("2d6+".toList ++ [x]))) ∧
      (segments .sum).Consumes "2d6+" := by
  have stuck : (segments .sum).StuckAt "2d6+é" "2d6+".toList 'é' (signChars ++ digitChars ++ dieMarks) := by
    refine ⟨⟨[], by decide⟩, ?_⟩
    rw [diagnostics_segments]
    decide +kernel
  obtain ⟨-, continues, taken, -⟩ := (wanted_iff_consumes (segments .sum) "2d6+é").2 _ _ _ stuck
  exact ⟨stuck, continues, taken⟩

end Reading

end DiceAlgebra.Grammar
