import DiceAlgebra.CommandLine
import DiceAlgebra.Proofs.Text.Trimming
import Mathlib.Data.List.Basic
import Mathlib.Data.List.TakeWhile

/-! What is asked of the program: a text, joined from the arguments or cut off the bytes of the standard input, and a
seed. Both are told here by how they are written, and reading them finds exactly what is written so. -/
namespace DiceAlgebra

def Text.bytes (s : String) : List UInt8 :=
  s.toByteArray.data.toList

theorem Text.fromUTF8?_eq_some_iff {bs : List UInt8} {s : String} :
    String.fromUTF8? ⟨bs.toArray⟩ = some s ↔ bs = bytes s := by
  unfold String.fromUTF8?
  constructor
  · intro decoded
    split at decoded
    · cases decoded
      rfl
    · cases decoded
  · rintro rfl
    exact dif_pos s.isValidUTF8

namespace CommandLine

open Text (bytes)

/-- A line ends at a line feed, with a carriage return in front of it or without, or where the input does. -/
inductive FirstLine : List UInt8 → String → Prop
  | lineFeed {line : String} (more : List UInt8) : 10 ∉ bytes line → (bytes line).getLast? ≠ some 13 →
    FirstLine (bytes line ++ 10 :: more) line
  | carriageReturn {line : String} (more : List UInt8) : 10 ∉ bytes line →
    FirstLine (bytes line ++ 13 :: 10 :: more) line
  | unended {line : String} : 10 ∉ bytes line → bytes line ≠ [] → FirstLine (bytes line) line

def decode (line : List UInt8) : Except Complaint String :=
  (String.fromUTF8? ⟨line.toArray⟩).elim (.error .unreadable) .ok

theorem decode_eq_ok_iff {line : List UInt8} {s : String} : decode line = .ok s ↔ line = bytes s := by
  rw [decode, ← Text.fromUTF8?_eq_some_iff]
  cases String.fromUTF8? ⟨line.toArray⟩ <;> simp

theorem ne_feed {line : List UInt8} (no_feed : 10 ∉ line) : ∀ b ∈ line, decide (b ≠ 10) = true := by
  intro b member
  refine decide_eq_true ?_
  rintro rfl
  exact no_feed member

theorem firstLine_of_unended {line : List UInt8} (no_feed : 10 ∉ line) (some_byte : line ≠ []) :
    firstLine line = decode line := by
  have whole : line.takeWhile (· ≠ 10) = line := List.takeWhile_eq_self_iff.mpr (ne_feed no_feed)
  unfold firstLine
  simp only [if_neg some_byte, whole, Nat.lt_irrefl, false_and, if_false]
  rfl

theorem firstLine_of_feed {line more : List UInt8} (no_feed : 10 ∉ line) :
    firstLine (line ++ 10 :: more) =
      decode (if line.getLast? = some 13 then line.dropLast else line) := by
  have front : (line ++ 10 :: more).takeWhile (· ≠ 10) = line := by
    rw [List.takeWhile_append_of_pos (ne_feed no_feed)]
    exact List.append_nil line
  have shorter : line.length < (line ++ 10 :: more).length := by simp
  unfold firstLine
  simp only [front, shorter, true_and]
  exact if_neg (by simp)

theorem firstLine_eq_ok_iff {stdin : List UInt8} {line : String} :
    firstLine stdin = .ok line ↔ FirstLine stdin line := by
  constructor
  · intro read
    by_cases feed : 10 ∈ stdin
    · obtain ⟨front, more, rfl, no_feed⟩ := List.eq_append_cons_of_mem feed
      rw [firstLine_of_feed no_feed, decode_eq_ok_iff] at read
      split at read
      · next returned =>
        have whole := List.dropLast_append_getLast? 13 returned
        rw [read] at whole
        subst whole
        rw [List.append_assoc]
        exact .carriageReturn more fun member => no_feed (List.mem_append_left _ member)
      · next plain =>
        subst read
        exact .lineFeed more no_feed plain
    · have some_byte : stdin ≠ [] := by
        rintro rfl
        cases read
      rw [firstLine_of_unended feed some_byte, decode_eq_ok_iff] at read
      subst read
      exact .unended feed some_byte
  · rintro (⟨more, no_feed, plain⟩ | ⟨more, no_feed⟩ | ⟨no_feed, some_byte⟩)
    · rw [firstLine_of_feed no_feed, if_neg plain, decode_eq_ok_iff]
    · have no_feed' : 10 ∉ bytes line ++ [13] := by simp [no_feed]
      have returned := @firstLine_of_feed (bytes line ++ [13]) more no_feed'
      rw [List.append_assoc] at returned
      refine returned.trans ?_
      rw [if_pos (by simp), List.dropLast_concat, decode_eq_ok_iff]
    · rw [firstLine_of_unended no_feed some_byte, decode_eq_ok_iff]

/-- The text that is asked about: the arguments with a space between any two, or else the first line. -/
def Request.Asks (r : Request) (text : String) : Prop :=
  if r.args = [] then FirstLine r.stdin text else " ".intercalate r.args = text

theorem input_eq_ok_iff {r : Request} {text : String} : input r.args r.stdin = .ok text ↔ r.Asks text := by
  unfold input Request.Asks
  split
  · exact firstLine_eq_ok_iff
  · rw [Except.ok.injEq]

/-- A seed is given, and it is this number between blanks. -/
def Request.Seeds (r : Request) (n : UInt64) : Prop :=
  ∃ seed, r.seed = some seed ∧ Text.IsPadded seed n.toNat

theorem roller_of_seeds {r : Request} {n : UInt64} (h : r.Seeds n) : roller r.seed r.entropy = .seeded n := by
  obtain ⟨seed, given, padded⟩ := h
  have read := Text.natBelow?_trim_eq_some_iff.mpr ⟨padded, n.toNat_lt⟩
  unfold roller
  rw [given, Option.bind_some, read]
  exact congrArg Source.seeded (UInt64.ofNat_toNat)

end CommandLine
end DiceAlgebra
