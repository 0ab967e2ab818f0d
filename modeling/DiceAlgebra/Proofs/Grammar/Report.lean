import DiceAlgebra.Proofs.Grammar.Greedy
import DiceAlgebra.Proofs.Throw.Total

/-! What is reported about a text that is read as a sum of dice: for each segment of its greedy cut that
stands for no dice, the first check that fails, over the bytes of the segment, and after these the
character that fits nowhere, if there is one. The bytes of a report follow one another and never divide a
character.

`dice_eq_error_iff` settles which check is reported. `diagnostics_eq_report` takes the reader, which counts
bytes as it goes along, to the report, which measures what stands in front of each segment. -/
namespace DiceAlgebra.Grammar

def firstFailing (checks : List (Bool × SegmentError)) : Option SegmentError :=
  (checks.find? Prod.fst).map Prod.snd

theorem firstFailing_nil : firstFailing [] = none :=
  rfl

theorem firstFailing_cons (failed : Bool) (e : SegmentError) (later : List (Bool × SegmentError)) :
    firstFailing ((failed, e) :: later) = if failed then some e else firstFailing later := by
  cases failed <;> rfl

namespace Segment

/-- What may be wrong with a segment, in the order in which it is looked for. -/
def checks (s : Segment) : List (Bool × SegmentError) :=
  [(s.count = [] ∧ s.die = none, .missing),
    (4294967295 < s.written, .countTooLarge),
    (¬ Fits s.numbers.1, .countOutOfRange s.numbers.1),
    (s.die.any (·.2 = []), .facesMissing),
    (4294967295 < s.sides, .facesTooLarge)]

variable {s : Segment} {e : SegmentError}

private theorem dice_of_magnitude_error (refused : s.magnitude = .error e) : s.dice = .error e := by
  unfold dice
  rw [refused]
  rfl

private theorem dice_of_not_fits (magnitude : s.magnitude = .ok s.written)
    (outside : ¬ Fits s.numbers.1) : s.dice = .error (.countOutOfRange s.numbers.1) := by
  have refused : fit? s.numbers.1 = none := by
    rw [fit?_eq_none_iff]
    unfold Fits at outside
    omega
  rw [numbers_fst] at refused ⊢
  unfold dice
  rw [magnitude]
  simp only [bind, Except.bind, refused]
  rfl

private theorem dice_eq_error_iff_of_count {count : Int32}
    (some_count : s.count = [] → s.die.isSome = true) (same : count.toInt = s.numbers.1) :
    s.dice = .error e ↔
      firstFailing [(s.die.any (·.2 = []), .facesMissing), (4294967295 < s.sides, .facesTooLarge)] =
        some e := by
  rw [dice_of_count some_count same, firstFailing_cons, firstFailing_cons, firstFailing_nil]
  split
  · next plain => simp [plain, sides]
  · next die => simp [die]
  · next mark faces written die =>
    have written : faces ≠ [] := written
    have large : 4294967295 < s.sides ↔ ¬ Text.value faces < UInt32.size := by
      have size : UInt32.size = 4294967296 := rfl
      simp only [sides, die]
      split <;> omega
    by_cases small : Text.value faces < UInt32.size <;> simp [die, written, large, small]

theorem dice_eq_error_iff : s.dice = .error e ↔ firstFailing s.checks = some e := by
  unfold checks
  rw [firstFailing_cons]
  by_cases missing : s.count = [] ∧ s.die = none
  · have refused : s.magnitude = .error .missing := by simp [magnitude, missing]
    simp [dice_of_magnitude_error refused, missing]
  have some_count : s.count = [] → s.die.isSome = true := fun empty =>
    Option.isSome_iff_ne_none.mpr fun plain => missing ⟨empty, plain⟩
  rw [if_neg (by simpa using missing), firstFailing_cons]
  by_cases large : 4294967295 < s.written
  · have refused : s.magnitude = .error .countTooLarge := by
      have size : UInt32.size = 4294967296 := rfl
      unfold written at large
      unfold magnitude
      split at large
      · omega
      · next digits => rw [if_neg digits, if_neg (by omega)]
    simp [dice_of_magnitude_error refused, large]
  have magnitude : s.magnitude = .ok s.written :=
    magnitude_eq_ok_iff.mpr ⟨some_count, Nat.lt_succ_of_le (Nat.le_of_not_lt large), rfl⟩
  rw [if_neg (by simpa using large), firstFailing_cons]
  by_cases fits : Fits s.numbers.1
  · obtain ⟨count, same⟩ := exists_toInt_eq fits
    rw [if_neg (by simpa using fits)]
    exact dice_eq_error_iff_of_count some_count same
  · simp [dice_of_not_fits magnitude fits, fits]

end Segment

def bytes (cs : List Char) : Nat :=
  (String.ofList cs).utf8ByteSize

theorem bytes_append (cs ds : List Char) : bytes (cs ++ ds) = bytes cs + bytes ds := by
  simp [bytes]

theorem bytes_singleton (c : Char) : bytes [c] = c.utf8Size := by
  simp [bytes]

theorem bytes_eq_length {cs : List Char} (ascii : ∀ c ∈ cs, c.utf8Size = 1) : bytes cs = cs.length := by
  induction cs with
  | nil => rfl
  | cons c cs ih =>
    have first : c.utf8Size = 1 := ascii c (List.mem_cons_self ..)
    have later : bytes cs = cs.length := ih fun d h => ascii d (List.mem_cons_of_mem _ h)
    rw [← List.singleton_append, bytes_append, bytes_singleton, first, later, List.length_append,
      List.length_singleton]

namespace Segment

theorem Shaped.ascii {s : Segment} (shaped : s.Shaped) : ∀ c ∈ s.chars, c.utf8Size = 1 := by
  intro c member
  rcases shaped.kind c member with sign | digit | mark
  · rcases isSign_iff.mp sign with rfl | rfl <;> rfl
  · rw [Text.isDigit, Char.isDigit, Bool.and_eq_true, decide_eq_true_eq, decide_eq_true_eq] at digit
    exact Char.utf8Size_eq_one_iff.mpr (UInt32.le_trans digit.2 (by decide))
  · rcases isDieMark_iff.mp mark with rfl | rfl <;> rfl

end Segment

theorem bytes_pos {cs : List Char} (some_char : cs ≠ []) : 0 < bytes cs := by
  obtain ⟨c, later, rfl⟩ := List.exists_cons_of_ne_nil some_char
  have first := c.utf8Size_pos
  rw [← List.singleton_append, bytes_append, bytes_singleton]
  omega

theorem eq_of_bytes_eq {xs ys xs' ys' : List Char} (same : xs ++ xs' = ys ++ ys') (size : bytes xs = bytes ys) :
    xs = ys := by
  rcases List.append_eq_append_iff.mp same with ⟨between, rfl, -⟩ | ⟨between, rfl, -⟩ <;>
    · by_cases none : between = []
      · rw [none, List.append_nil]
      · have some_byte := bytes_pos none
        rw [bytes_append] at size
        omega

/-- A problem with characters that stand behind others. -/
def Diagnostic.about (before own : List Char) (problem : Problem) : Diagnostic :=
  ⟨bytes before, bytes before + bytes own, problem⟩

/-- A diagnostic is about whole characters of a text. -/
def Diagnostic.InText (d : Diagnostic) (text : String) : Prop :=
  d.start ≤ d.stop ∧ String.Pos.Raw.IsValid text ⟨d.start⟩ ∧ String.Pos.Raw.IsValid text ⟨d.stop⟩

theorem isValid_bytes {text : String} {before after : List Char} (whole : text.toList = before ++ after) :
    String.Pos.Raw.IsValid text ⟨bytes before⟩ := by
  rw [String.Pos.Raw.isValid_iff_exists_append]
  refine ⟨.ofList before, .ofList after, ?_, rfl⟩
  rw [← String.ofList_append, ← whole, String.ofList_toList]

theorem Diagnostic.inText_about {text : String} {before own : List Char} {problem : Problem}
    (after : List Char) (whole : text.toList = before ++ own ++ after) :
    (about before own problem).InText text := by
  refine ⟨Nat.le_add_right .., ?_, ?_⟩
  · exact isValid_bytes (whole.trans (List.append_assoc ..))
  · have stop := isValid_bytes whole
    rwa [bytes_append] at stop

def InOrder (ds : List Diagnostic) : Prop :=
  ds.Pairwise fun d e => d.stop ≤ e.start ∧ d.stop < e.stop

private theorem mem_zip_inits {α : Type} {xs before : List α} {x : α} :
    (before, x) ∈ xs.inits.zip xs ↔ ∃ after, xs = before ++ x :: after := by
  induction xs generalizing before with
  | nil => simp
  | cons y ys ih =>
    rw [List.inits_cons, List.zip_cons_cons, List.zip_map_left, List.mem_cons]
    constructor
    · rintro (same | later)
      · cases same
        exact ⟨ys, rfl⟩
      · obtain ⟨⟨front, z⟩, member, same⟩ := List.mem_map.mp later
        cases same
        obtain ⟨after, rfl⟩ := ih.mp member
        exact ⟨after, rfl⟩
    · rintro ⟨after, same⟩
      cases before with
      | nil =>
        cases same
        exact .inl rfl
      | cons z front =>
        cases same
        exact .inr (List.mem_map.mpr ⟨(front, x), ih.mpr ⟨after, rfl⟩, rfl⟩)

/-- The diagnostics about segments that stand behind other characters: one for each that fails a check. -/
def faults (before : List Char) (ss : List Segment) : List Diagnostic :=
  (ss.inits.zip ss).filterMap fun (front, s) =>
    (firstFailing s.checks).map fun e =>
      .about (before ++ front.flatMap Segment.chars) s.chars (.segment e)

section Faults

variable {before : List Char} {ss : List Segment}

theorem faults_cons (before : List Char) (s : Segment) (ss : List Segment) :
    faults before (s :: ss) =
      ((firstFailing s.checks).map fun e => Diagnostic.about before s.chars (.segment e)).toList ++
        faults (before ++ s.chars) ss := by
  have shifted : (ss.inits.map fun front => s :: front).zip ss =
      (ss.inits.zip ss).map fun (front, t) => (s :: front, t) := List.zip_map_left
  unfold faults
  rw [List.inits_cons, List.zip_cons_cons, shifted]
  cases first : firstFailing s.checks <;> simp [first, List.filterMap_map]

theorem mem_faults_iff {d : Diagnostic} :
    d ∈ faults before ss ↔ ∃ front s after e, ss = front ++ s :: after ∧
      firstFailing s.checks = some e ∧
        d = .about (before ++ front.flatMap Segment.chars) s.chars (.segment e) := by
  unfold faults
  rw [List.mem_filterMap]
  constructor
  · rintro ⟨⟨front, s⟩, member, told⟩
    obtain ⟨after, whole⟩ := mem_zip_inits.mp member
    obtain ⟨e, first, rfl⟩ := Option.map_eq_some_iff.mp told
    exact ⟨front, s, after, e, whole, first, rfl⟩
  · rintro ⟨front, s, after, e, whole, first, rfl⟩
    exact ⟨(front, s), mem_zip_inits.mpr ⟨after, whole⟩, Option.map_eq_some_iff.mpr ⟨e, first, rfl⟩⟩

theorem faultsFrom_eq (shaped : ∀ s ∈ ss, s.Shaped) (before : List Char) :
    Cut.faultsFrom (bytes before) ss = faults before ss := by
  induction ss generalizing before with
  | nil => rfl
  | cons s ss ih =>
    have later := ih (fun t h => shaped t (List.mem_cons_of_mem _ h)) (before ++ s.chars)
    have size : bytes s.chars = s.length := bytes_eq_length (shaped s (List.mem_cons_self ..)).ascii
    have refused := @Segment.dice_eq_error_iff s
    rw [bytes_append, size] at later
    rw [Cut.faultsFrom, faults_cons, ← later]
    cases read : s.dice with
    | ok d =>
      have fine : firstFailing s.checks = none :=
        Option.eq_none_iff_forall_ne_some.mpr fun e failing => by
          simp [refused.mpr failing] at read
      simp [fine]
    | error e => simp [refused.mp read, Diagnostic.about, size]

/-- Only the first of several segments may be empty, and no diagnostic is in front of that. -/
theorem inOrder_faults (filled : ∀ s ∈ ss.tail, s.chars ≠ []) : InOrder (faults before ss) := by
  induction ss generalizing before with
  | nil => exact List.Pairwise.nil
  | cons s ss ih =>
    rw [InOrder, faults_cons, List.pairwise_append]
    refine ⟨?_, ih fun t h => filled t (List.mem_of_mem_tail h), ?_⟩
    · cases firstFailing s.checks <;> simp
    · intro d first d' later
      obtain ⟨e, -, rfl⟩ := Option.map_eq_some_iff.mp (Option.mem_toList.mp first)
      obtain ⟨front, t, after, e', rfl, -, rfl⟩ := mem_faults_iff.mp later
      have some_byte : 0 < bytes t.chars := bytes_pos (filled t (by simp))
      simp only [Diagnostic.about, bytes_append]
      omega

end Faults

namespace Cut

/-- What a text is told about its cut: what is wrong with the segments, and the character at which the cut
is stuck. -/
def report (c : Cut) : List Diagnostic :=
  faults [] c.segments ++
    c.rest.head?.toList.map fun x =>
      .about (c.segments.flatMap Segment.chars) [x] (.found x (expected .sum c.stage))

variable {c : Cut}

theorem bytes_segments (shaped : ∀ s ∈ c.segments, s.Shaped) :
    bytes (c.segments.flatMap Segment.chars) = c.length := by
  refine bytes_eq_length fun x member => ?_
  obtain ⟨s, segment, own⟩ := List.mem_flatMap.mp member
  exact (shaped s segment).ascii x own

theorem diagnostics_eq_report (shaped : ∀ s ∈ c.segments, s.Shaped) : c.diagnostics .sum = c.report := by
  have size := bytes_segments shaped
  have faulty : faultsFrom 0 c.segments = faults [] c.segments := faultsFrom_eq shaped []
  unfold diagnostics report stuck
  rw [faulty]
  cases c.rest with
  | nil => rfl
  | cons x rest => simp [Diagnostic.about, size, bytes_singleton]

theorem inOrder_report (filled : ∀ s ∈ c.more, s.chars ≠ []) : InOrder c.report := by
  have faulty : InOrder (faults [] c.segments) := inOrder_faults filled
  rw [InOrder, report, List.pairwise_append]
  refine ⟨faulty, ?_, ?_⟩
  · cases c.rest <;> simp
  · intro d faulty d' stuck
    obtain ⟨front, s, after, e, whole, -, rfl⟩ := mem_faults_iff.mp faulty
    obtain ⟨x, -, rfl⟩ := List.mem_map.mp stuck
    have some_byte := x.utf8Size_pos
    rw [whole]
    simp only [Diagnostic.about, bytes_append, bytes_singleton, List.nil_append, List.flatMap_append,
      List.flatMap_cons]
    omega

theorem inText_of_mem_report {text : String}
    (whole : c.segments.flatMap Segment.chars ++ c.rest = text.toList) {d : Diagnostic}
    (member : d ∈ c.report) : d.InText text := by
  rcases List.mem_append.mp member with faulty | stuck
  · obtain ⟨front, s, after, e, segments, -, rfl⟩ := mem_faults_iff.mp faulty
    refine Diagnostic.inText_about (after.flatMap Segment.chars ++ c.rest) ?_
    rw [← whole, segments]
    simp
  · obtain ⟨x, head, rfl⟩ := List.mem_map.mp stuck
    obtain ⟨rest, left⟩ := List.head?_eq_some_iff.mp (Option.mem_toList.mp head)
    refine Diagnostic.inText_about rest ?_
    rw [← whole, left]
    simp

end Cut

theorem diagnose_sum_eq_report (text : List Char) : diagnose .sum text = (cut .sum text).report := by
  rw [@diagnose_of_begins .sum text nofun]
  exact Cut.diagnostics_eq_report (cut_spec .sum text).2.1

theorem exists_readPool_iff {text : String} :
    (∃ p, readPool text = .ok p) ↔ diagnose .sum text.toList = [] := by
  unfold readPool
  cases diagnose .sum text.toList <;> simp

theorem readPool_eq_error_iff {text : String} {ds : List Diagnostic} :
    readPool text = .error ds ↔ ds = diagnose .sum text.toList ∧ ds ≠ [] := by
  unfold readPool
  cases diagnose .sum text.toList with
  | nil => simp [eq_comm]
  | cons d later =>
    constructor
    · intro told
      cases told
      exact ⟨rfl, List.cons_ne_nil d later⟩
    · rintro ⟨rfl, -⟩
      rfl

/-- The diagnostics of a text are the report on its greedy cut, in order, each about whole characters; it
is read if there are none. -/
theorem readPool_reports (text : String) :
    ∃ c : Cut, (∀ other : Cut, other.IsGreedy text.toList ↔ other = c) ∧
      (∀ s ∈ c.segments, ∀ e, s.dice = .error e ↔ firstFailing s.checks = some e) ∧
      InOrder c.report ∧ (∀ d ∈ c.report, d.InText text) ∧
      ((∃ p, readPool text = .ok p) ↔ c.report = []) ∧
      ∀ ds, readPool text = .error ds ↔ ds = c.report ∧ ds ≠ [] := by
  obtain ⟨whole, -, signed⟩ := cut_spec .sum text.toList
  have diagnosis := diagnose_sum_eq_report text.toList
  have filled : ∀ s ∈ (cut .sum text.toList).more, s.chars ≠ [] := by
    intro s member
    simp [Segment.chars, signed s member]
  refine ⟨cut .sum text.toList, fun other => Cut.isGreedy_iff, fun s _ e => Segment.dice_eq_error_iff,
    Cut.inOrder_report filled, fun d => Cut.inText_of_mem_report whole, ?_, fun ds => ?_⟩
  · rw [exists_readPool_iff, diagnosis]
  · rw [readPool_eq_error_iff, diagnosis]

/-- A die without faces, signs without a number, and a character of two bytes. -/
example : diagnose .sum "d+-é6".toList =
    [⟨0, 1, .segment .facesMissing⟩, ⟨1, 3, .segment .missing⟩,
      ⟨3, 5, .found 'é' (expected .sum .signs)⟩] := by
  cbv

end DiceAlgebra.Grammar
