import DiceAlgebra.Proofs.CommandLine.Input
import DiceAlgebra.Proofs.CommandLine.Quiet
import DiceAlgebra.Proofs.Pool.RoundTrip
import DiceAlgebra.Proofs.Roller.Run

/-! The program against the library. It reads, throws and calculates by itself, stage by stage, and stops at the first
stage that fails; `Replies` has one case for each way to stop. None of them looks at the text as it was given, so
beyond repeating it the program answers to what is left of it without its blanks. -/
namespace DiceAlgebra.CommandLine

/-- What comes first: the prompt, where the text is asked for, and the text as it was given, line feeds and all. -/
def Request.echo (r : Request) (text : String) : String :=
  (if r.args = [] then prompt else "") ++ "Input: " ++ text ++ "\n"

/-- The answer to a text without the repetition of it. -/
def reply (text : String) (roller : Source) : Report :=
  match Expr.parse text with
  | .error ds => ⟨"", some (.unparsable ds)⟩
  | .ok e => reportOn e roller

theorem answer_eq (text : String) (roller : Source) :
    answer text roller =
      ⟨lines ["Input: " ++ text] ++ (reply text roller).stdout, (reply text roller).complaint⟩ := by
  unfold answer reply
  cases Expr.parse text <;> rfl

theorem reply_squeeze (text : String) (roller : Source) : reply (Text.squeeze text) roller = reply text roller := by
  unfold reply Expr.parse Pool.parse
  rw [Text.squeeze_squeeze]

theorem run_eq {r : Request} {text : String} {n : UInt64} (asks : r.Asks text) (seeds : r.Seeds n) :
    run r = ⟨r.echo text ++ (reply text (.seeded n)).stdout, (reply text (.seeded n)).complaint⟩ := by
  have echoed : ∀ rest, (if r.args = [] then prompt else "") ++ (lines ["Input: " ++ text] ++ rest) =
      r.echo text ++ rest := by
    intro rest
    simp [lines, Request.echo, String.append_assoc]
  unfold run respond
  rw [input_eq_ok_iff.mpr asks, roller_of_seeds seeds]
  simp only [answer_eq, echoed]

theorem stdout_run {r : Request} {text : String} {n : UInt64} (asks : r.Asks text) (seeds : r.Seeds n) :
    (run r).stdout = r.echo text ++ (reply text (.seeded n)).stdout := by
  rw [run_eq asks seeds]

theorem complaint_run {r : Request} {text : String} {n : UInt64} (asks : r.Asks text) (seeds : r.Seeds n) :
    (run r).complaint = (reply text (.seeded n)).complaint := by
  rw [run_eq asks seeds]

theorem exitCode_eq_zero_iff {report : Report} : report.exitCode = 0 ↔ report.complaint = none := by
  unfold Report.exitCode
  cases report.complaint <;> simp

theorem exitCode_of_complaint {report : Report} (h : report.complaint ≠ none) : report.exitCode = 1 :=
  if_neg (by simpa using h)

inductive Replies (text : String) (roller : Source) : Report → Prop
  | unparsable {ds} : Expr.parse text = .error ds → Replies text roller ⟨"", some (.unparsable ds)⟩
  | throwing {e error next} : Expr.parse text = .ok e →
    (Expr.roll References.none e).run roller = .error error next →
    Replies text roller ⟨lines (summary e), some (.throwing error)⟩
  | calculating {e next error} {o : Outcome} : Expr.parse text = .ok e →
    (Expr.roll References.none e).run roller = .ok o next → o.value = .error error →
    Replies text roller ⟨lines (summary e ++ ["", "Rolled: " ++ o.text (some listLimit)]), some (.calculating error)⟩
  | total {e next v} {o : Outcome} : Expr.parse text = .ok e →
    (Expr.roll References.none e).run roller = .ok o next → o.value = .ok v →
    Replies text roller
      ⟨lines (summary e ++ ["", "Rolled: " ++ o.text (some listLimit)] ++ ["Total: " ++ Text.integer v.toInt]), none⟩

theorem replies_reply (text : String) (roller : Source) : Replies text roller (reply text roller) := by
  unfold reply
  cases parsed : Expr.parse text with
  | error ds => exact .unparsable parsed
  | ok e =>
    change Replies text roller (reportOn e roller)
    unfold reportOn
    cases rolled : (Expr.roll References.none e).run roller with
    | error error next => exact .throwing parsed rolled
    | ok o next =>
      cases value : o.value with
      | error error =>
        simp only [value]
        exact .calculating parsed rolled value
      | ok v =>
        simp only [value]
        exact .total parsed rolled value

variable {text : String} {roller : Source} {report : Report}

theorem Replies.complaint_eq_none_iff (h : Replies text roller report) :
    report.complaint = none ↔ ∃ e v next, Expr.parse text = .ok e ∧
      (Expr.evaluate References.none e).run roller = .ok v next := by
  simp only [Expr.run_evaluate_eq_ok]
  cases h with
  | unparsable parsed => simp [parsed]
  | throwing parsed rolled => simp [parsed, rolled]
  | calculating parsed rolled value => simp [parsed, rolled, value]
  | total parsed rolled value => simp [parsed, rolled, value]

theorem Replies.stdout_of_evaluate (h : Replies text roller report) {e : Expr} {v : Int32} {next : Source}
    (parsed : Expr.parse text = .ok e)
    (evaluated : (Expr.evaluate References.none e).run roller = .ok v next) :
    ∃ o : Outcome, (Expr.roll References.none e).run roller = .ok o next ∧
      report.stdout =
        lines (summary e ++ ["", "Rolled: " ++ o.text (some listLimit)] ++ ["Total: " ++ Text.integer v.toInt]) := by
  obtain ⟨o, rolled, value⟩ := Expr.run_evaluate_eq_ok.mp evaluated
  refine ⟨o, rolled, ?_⟩
  cases h with
  | unparsable parsed' => simp [parsed'] at parsed
  | throwing parsed' rolled' =>
    cases parsed'.symm.trans parsed
    cases rolled'.symm.trans rolled
  | calculating parsed' rolled' value' =>
    cases parsed'.symm.trans parsed
    cases rolled'.symm.trans rolled
    cases value'.symm.trans value
  | total parsed' rolled' value' =>
    cases parsed'.symm.trans parsed
    cases rolled'.symm.trans rolled
    cases value'.symm.trans value
    rfl

theorem exists_pool_of_roll {p : Pool} {o : Outcome} {next : Source}
    (rolled : (Expr.roll References.none (.pool p)).run roller = .ok o next) :
    ∃ ts, o = Outcome.pool ts := by
  obtain ⟨l, u, thrown, made⟩ := run_bind_eq_ok.mp rolled
  obtain ⟨ts, -, rfl⟩ := run_map_eq_ok.mp thrown
  cases made
  exact ⟨ts, rfl⟩

theorem Replies.quiet (h : Replies text roller report) (failed : report.complaint ≠ none) :
    Text.Quiet report.stdout := by
  cases h with
  | unparsable parsed => exact List.not_mem_nil
  | throwing parsed rolled =>
    obtain ⟨p, rfl, -⟩ := Expr.exists_pool_of_parse parsed
    exact quiet_lines (quiet_summary p)
  | calculating parsed rolled value =>
    obtain ⟨p, rfl, -⟩ := Expr.exists_pool_of_parse parsed
    obtain ⟨ts, rfl⟩ := exists_pool_of_roll rolled
    have throws : Text.Quiet ("Rolled: " ++ (Outcome.pool ts).text (some listLimit)) :=
      Text.quiet_append.mpr ⟨by decide, Outcome.quiet_text _ ts⟩
    refine quiet_lines (List.forall_mem_append.mpr ⟨quiet_summary p, ?_⟩)
    exact List.forall_mem_cons.mpr ⟨by decide, List.forall_mem_singleton.mpr throws⟩
  | total parsed rolled value => exact absurd rfl failed

/-- The program agrees with the library on this text and seed, and tells of the text nothing that blanks could
change. -/
structure Agrees (r : Request) (text : String) (n : UInt64) : Prop where
  exitCode_eq_zero_iff : (run r).exitCode = 0 ↔ ∃ e total next, Expr.parse text = .ok e ∧
    (Expr.evaluate References.none e).run (Source.seeded n) = .ok total next
  /-- A total comes last, after the throw that it is the total of. -/
  stdout_of_evaluate : ∀ {e total next}, Expr.parse text = .ok e →
    (Expr.evaluate References.none e).run (Source.seeded n) = .ok total next →
    ∃ o : Outcome, (Expr.roll References.none e).run (Source.seeded n) = .ok o next ∧
      (run r).stdout = r.echo text ++ lines
        ["Parsed: " ++ e.text,
          "Contracted: " ++ e.contract.text,
          "Average: " ++ (Expr.average? e.contract).elim "unknown" Decimal.text,
          "",
          "Rolled: " ++ o.text (some 20),
          "Total: " ++ Text.integer total.toInt]
  /-- Without a total nothing that could be taken for one is printed, but for what the text itself holds. -/
  stdout_of_failure : (run r).exitCode ≠ 0 → (run r).exitCode = 1 ∧
    ∃ rest, (run r).stdout = r.echo text ++ rest ∧ ¬ "Total: ".toList <:+: rest.toList
  /-- It makes no difference where blanks stand, how the arguments are split, or that the text is read as a line. -/
  blanks : ∀ {r' : Request} {text'}, r'.Asks text' → r'.Seeds n → Text.squeeze text' = Text.squeeze text →
    (run r').exitCode = (run r).exitCode ∧ (run r').complaint = (run r).complaint ∧
      ∃ rest, (run r).stdout = r.echo text ++ rest ∧ (run r').stdout = r'.echo text' ++ rest

theorem run_agrees {r : Request} {text : String} {n : UInt64} (asks : r.Asks text) (seeds : r.Seeds n) :
    Agrees r text n := by
  have replies := replies_reply text (.seeded n)
  have told := stdout_run asks seeds
  have complaint := complaint_run asks seeds
  constructor
  · rw [exitCode_eq_zero_iff, complaint]
    exact replies.complaint_eq_none_iff
  · intro e total next parsed evaluated
    obtain ⟨o, rolled, stdout⟩ := replies.stdout_of_evaluate parsed evaluated
    exact ⟨o, rolled, told.trans (congrArg (r.echo text ++ ·) stdout)⟩
  · intro failed
    have complained : (run r).complaint ≠ none := fun fine => failed (exitCode_eq_zero_iff.mpr fine)
    refine ⟨exitCode_of_complaint complained, _, told, fun found => ?_⟩
    rw [complaint] at complained
    exact replies.quiet complained (found.subset (by decide))
  · intro r' text' asks' seeds' same
    have told' := stdout_run asks' seeds'
    have complaint' := complaint_run asks' seeds'
    rw [← reply_squeeze, same, reply_squeeze] at told' complaint'
    have alike : (run r').complaint = (run r).complaint := complaint'.trans complaint.symm
    refine ⟨?_, alike, _, told, told'⟩
    rw [Report.exitCode, alike, Report.exitCode]

theorem run_agrees_split :
    let r : Request := ⟨["+2D6", "+3"], [], some " +42\n", 0⟩
    let r' : Request := ⟨[], Text.bytes "+2D 6+3" ++ [13, 10, 53], some "42", 7⟩
    (r.Asks "+2D6 +3" ∧ r.Seeds 42) ∧ (r'.Asks "+2D 6+3" ∧ r'.Seeds 42) ∧ Agrees r "+2D6 +3" 42 ∧
      (run r).exitCode = 0 ∧ (run r').exitCode = 0 := by
  intro r r'
  have asks : r.Asks "+2D6 +3" := by
    refine (if_neg (by simp [r])).mpr ?_
    decide
  have asks' : r'.Asks "+2D 6+3" := (if_pos rfl).mpr (.carriageReturn [53] (by decide))
  have digits : ∀ c ∈ ['4', '2'], Text.isDigit c = true := List.all_eq_true.mp rfl
  have padded : Text.IsPadded " +42\n" 42 :=
    ⟨[' '], ['+', '4', '2'], ['\n'], rfl, List.all_eq_true.mp rfl, ['+'], _, rfl, .inr rfl, by simp, digits, rfl⟩
  have bare : Text.IsPadded "42" 42 :=
    ⟨[], ['4', '2'], [], rfl, List.all_eq_true.mp rfl, [], _, rfl, .inl rfl, by simp, digits, rfl⟩
  have seeds : r.Seeds 42 := ⟨_, rfl, padded⟩
  have seeds' : r'.Seeds 42 := ⟨_, rfl, bare⟩
  have parsed : Expr.parse "+2D6 +3" = .ok (.pool (.ofList [.ofParts 2 6, .constant 3])) := by
    rw [Expr.parse, show "+2D6 +3" = (Pool.ofList [.ofParts 2 6, .constant 3]).text by decide, Pool.parse_text]
    rfl
  have agrees := run_agrees asks seeds
  have fine := agrees.exitCode_eq_zero_iff.mpr ⟨_, _, _, parsed, rfl⟩
  exact ⟨⟨asks, seeds⟩, ⟨asks', seeds'⟩, agrees, fine, (agrees.blanks asks' seeds' (by decide)).1.trans fine⟩

end DiceAlgebra.CommandLine
